import Nidhugg.Model.SmtlibSatSolver
import Nidhugg.Verification.SExpr.RoundTrip

/-! # Models in the answers of the solver

`get_model` writes the values of the variables into an empty vector. -/

namespace Nidhugg.SmtlibSatSolver

open Numerals SExpr

variable {bv : Bool} {out rest : List Char} {elems : List SExpr} {values : List ℕ}

/-- How the solver writes the value of a variable. -/
inductive Denotes : Bool → SExpr → ℕ → Prop where
  | int (n : ℕ) : Denotes false (.int n) n
  | hex {ds : List Char} (hne : ds ≠ []) (hds : ∀ c ∈ ds, isDigit 16 c = true) :
      Denotes true (.token ('#' :: 'x' :: ds)) (value 16 ds)
  | bin {ds : List Char} (hne : ds ≠ []) (hds : ∀ c ∈ ds, isDigit 2 c = true) :
      Denotes true (.token ('#' :: 'b' :: ds)) (value 2 ds)
  | bvN (n : ℕ) (width : ℤ) :
      Denotes true (.list [.token ['_'], .token ('b' :: 'v' :: numeral 10 n), .int width]) n

/-- An answer: a list of the variables in order, with their values. -/
structure Answer (bv : Bool) (elems : List SExpr) (values : List ℕ) : Prop where
  length : elems.length = values.length
  pairs : ∀ i n, values[i]? = some n →
    ∃ e : SExpr, elems[i]? = some (SExpr.list [.token ('e' :: numeral 10 i), e]) ∧
      Denotes bv e n

theorem writeValue_nil {e : SExpr} {n : ℕ} (h : Denotes bv e n) (i : ℕ) :
    writeValue bv [] i e = .error (.outOfRange i) := by
  cases h with
  | int n => rfl
  | hex hne hds =>
      obtain ⟨d, ds, rfl⟩ := List.exists_cons_of_ne_nil hne
      rfl
  | bin hne hds =>
      obtain ⟨d, ds, rfl⟩ := List.exists_cons_of_ne_nil hne
      rfl
  | bvN n width =>
      have hne : numeral 10 n ≠ [] := numeral_ne_nil
      obtain ⟨d, ds, hnumeral⟩ := List.exists_cons_of_ne_nil hne
      rw [hnumeral]
      rfl

/-- Reading an answer does not depend on the bound of `get_model`. -/
theorem read_of_reads {result : Except ParseError (SExpr × List Char)} (h : Reads out result) :
    read (2 * out.length + 1) out = some result := by
  have hended := ((ends (2 * out.length + 1)).1 out (by omega)).ended
  obtain ⟨result', hresult'⟩ := Option.isSome_iff_exists.mp hended
  obtain ⟨enough, henough⟩ := h
  obtain ⟨enough', henough'⟩ := reads_of_read hresult'
  have heq := (henough (max enough enough') (Nat.le_max_left ..)).symm.trans
    (henough' (max enough enough') (Nat.le_max_right ..))
  rw [hresult', ← heq]

/-- The values of all variables are found, without an access outside of the vector. -/
def Decodes (bv : Bool) (values : List ℕ) (out : List Char) : Prop :=
  getModel bv values.length out = .ok values

/-- The first access is outside of the vector. -/
theorem getModel_of_answer (hread : Reads out (.ok (.list elems, rest)))
    (hanswer : Answer bv elems values) : getModel bv values.length out =
      if values = [] then .ok [] else .error (.outOfRange 0) := by
  rw [getModel, read_of_reads hread]
  dsimp only
  cases values with
  | nil => rfl
  | cons n values =>
      obtain ⟨e, he, hdenotes⟩ := hanswer.pairs 0 n rfl
      rw [if_neg (List.cons_ne_nil n values), List.length_cons, List.range_succ_eq_map,
        List.foldlM_cons, he]
      have hpair : writePair bv [] 0 (.list [.token ('e' :: numeral 10 0), e]) =
          .error (.outOfRange 0) := by
        rw [writePair, if_pos rfl, writeValue_nil hdenotes]
      dsimp only
      rw [hpair]
      rfl

/-- A model is decoded only if there are no variables. -/
theorem decodes_iff (hread : Reads out (.ok (.list elems, rest)))
    (hanswer : Answer bv elems values) : Decodes bv values out ↔ values = [] := by
  rw [Decodes, getModel_of_answer hread hanswer]
  split
  · rename_i hnil
    rw [hnil]
    exact iff_of_true rfl rfl
  · rename_i hne
    exact iff_of_false nofun hne

theorem decodes_noVariables : Decodes true [] ['(', ')'] := by
  have hread : Reads ['(', ')'] (.ok (.list [], [])) :=
    reads_of_read (show read 3 ['(', ')'] = some (.ok (.list [], [])) from rfl)
  exact (decodes_iff hread ⟨rfl, fun i n hn => by cases hn⟩).mpr rfl

/-- The answer for one variable. -/
def oneVariable : SExpr := .list [.list [.token ['e', '0'], .int 0]]

theorem reads_oneVariable : Reads oneVariable.print (.ok (oneVariable, [])) :=
  reads_of_read (show read 20 oneVariable.print = some (.ok (oneVariable, [])) from rfl)

theorem answer_oneVariable : Answer false [.list [.token ['e', '0'], .int 0]] [0] where
  length := rfl
  pairs := by
    intro i n hn
    obtain ⟨hi, rfl⟩ := List.getElem?_eq_some_iff.mp hn
    obtain rfl : i = 0 := Nat.lt_one_iff.mp hi
    exact ⟨.int 0, rfl, .int 0⟩

theorem not_decodes_oneVariable : ¬ Decodes false [0] oneVariable.print := by
  rw [Decodes, getModel_of_answer reads_oneVariable answer_oneVariable]
  nofun

end Nidhugg.SmtlibSatSolver

/-! # Positions as bit-vectors

The bit-vectors that `alloc_variables` declares have room for all positions, unless there is one
position, or one more than a power of sixteen, or more than 28 bits can number. -/

namespace Nidhugg.SmtlibSatSolver

open Numerals

variable {v count k i : ℕ} {m : ℕ → ℤ} {commands : List Command} {bv : Bool}

/-! ### Logarithms -/

/-- A number has a bit among the upper half of its bits if it is large. -/
theorem and_mask_ne_zero {shift : ℕ} (h : v < 2 ^ (2 * shift)) :
    v &&& (2 ^ shift - 1) <<< shift ≠ 0 ↔ 2 ^ shift ≤ v := by
  have hand : v &&& (2 ^ shift - 1) <<< shift = (v >>> shift &&& (2 ^ shift - 1)) <<< shift := by
    apply Nat.eq_of_testBit_eq
    intro j
    simp only [Nat.testBit_and, Nat.testBit_shiftLeft, Nat.testBit_shiftRight]
    by_cases hj : shift ≤ j
    · rw [Nat.add_sub_cancel' hj, Bool.and_left_comm]
    · simp [hj]
  have hquotient : v >>> shift < 2 ^ shift := by
    rw [Nat.shiftRight_eq_div_pow]
    apply Nat.div_lt_of_lt_mul
    rwa [← Nat.pow_add, ← Nat.two_mul]
  rw [hand, Nat.and_two_pow_sub_one_eq_mod, Nat.mod_eq_of_lt hquotient, Nat.shiftLeft_eq,
    Nat.shiftRight_eq_div_pow]
  have hpos : 0 < 2 ^ shift := Nat.two_pow_pos shift
  rw [Nat.mul_ne_zero_iff, Nat.div_ne_zero_iff]
  constructor
  · intro h
    exact h.1.2
  · intro h
    exact ⟨⟨Nat.ne_of_gt hpos, h⟩, Nat.ne_of_gt hpos⟩

/-- What the loop of `ilog2` keeps: the number without its lower bits, of which there are as many
as the result tells, and how many bits are left. -/
structure Halved (v bits : ℕ) (state : ℕ × ℕ) : Prop where
  quotient : state.1 = v / 2 ^ state.2
  lt : state.1 < 2 ^ bits
  ne_zero : v ≠ 0 → state.1 ≠ 0
  aligned : bits ∣ state.2

theorem Halved.step {state : ℕ × ℕ} (mask shift k : ℕ) (h : Halved v (2 * shift) state)
    (hshift : shift = 2 ^ k) (hmask : mask = (2 ^ shift - 1) <<< shift) :
    Halved v shift
      (if state.1 &&& mask ≠ 0 then (state.1 >>> shift, state.2 ||| shift) else state) := by
  rw [hmask]
  simp only [and_mask_ne_zero h.lt]
  split
  · rename_i hle
    have hor : state.2 ||| shift = state.2 + shift := by
      obtain ⟨a, ha⟩ := h.aligned
      have hpow : 2 * shift = 2 ^ (k + 1) := by rw [hshift, Nat.pow_succ']
      rw [ha, hpow]
      refine (Nat.two_pow_add_eq_or_of_lt ?_ a).symm
      rw [hshift]
      exact Nat.pow_lt_pow_succ (by decide)
    rw [hor]
    constructor
    · rw [Nat.shiftRight_eq_div_pow, h.quotient, Nat.div_div_eq_div_mul, ← Nat.pow_add]
    · rw [Nat.shiftRight_eq_div_pow]
      apply Nat.div_lt_of_lt_mul
      rw [← Nat.pow_add, ← Nat.two_mul]
      exact h.lt
    · intro _
      rw [Nat.shiftRight_eq_div_pow]
      exact Nat.ne_of_gt (Nat.div_pos hle (Nat.two_pow_pos shift))
    · exact Nat.dvd_add (Nat.dvd_trans (Nat.dvd_mul_left ..) h.aligned) (Nat.dvd_refl shift)
  · rename_i hlt
    exact ⟨h.quotient, Nat.lt_of_not_le hlt, h.ne_zero,
      Nat.dvd_trans (Nat.dvd_mul_left ..) h.aligned⟩

theorem ilog2_halved (h : v < 2 ^ 32) : ∃ rest, Halved v 1 (rest, ilog2 v) := by
  have hstart : Halved v (2 * 16) (v, 0) :=
    ⟨(Nat.div_one v).symm, h, fun hne => hne, Nat.dvd_zero _⟩
  have h16 := hstart.step 0xFFFF0000 16 4 rfl rfl
  have h8 := h16.step 0xFF00 8 3 rfl rfl
  have h4 := h8.step 0xF0 4 2 rfl rfl
  have h2 := h4.step 0xC 2 1 rfl rfl
  exact ⟨_, h2.step 0x2 1 0 rfl rfl⟩

/-- `ilog2` is the logarithm, rounded down. -/
theorem ilog2_spec (h : v < 2 ^ 32) : v < 2 ^ (ilog2 v + 1) ∧ (v ≠ 0 → 2 ^ ilog2 v ≤ v) := by
  obtain ⟨rest, hhalved⟩ := ilog2_halved h
  have hquotient : rest = v / 2 ^ ilog2 v := hhalved.quotient
  have hlt : rest < 2 := hhalved.lt
  rw [hquotient] at hlt
  constructor
  · rw [Nat.pow_succ]
    exact (Nat.div_lt_iff_lt_mul (Nat.two_pow_pos _)).mp hlt |>.trans_eq (Nat.mul_comm ..)
  · intro hne
    have hpos : rest ≠ 0 := hhalved.ne_zero hne
    rw [hquotient, Nat.div_ne_zero_iff] at hpos
    exact hpos.2

/-- The number of digits is that of `count - 2`, which has at least one digit. -/
theorem hexdigs_spec (hmin : 2 ≤ count) (hmax : count < 2 ^ 32) :
    count - 2 < 16 ^ hexdigs count ∧ (hexdigs count = 1 ∨ 16 ^ (hexdigs count - 1) ≤ count - 2) := by
  have hwrap : (count + 2 ^ 32 - 2) % 2 ^ 32 = count - 2 := by omega
  obtain ⟨hlt, hle⟩ := ilog2_spec (v := count - 2) (by omega)
  have hdigits : hexdigs count = ilog2 (count - 2) / 4 + 1 := by rw [hexdigs, hwrap]
  have hbase : (16 : ℕ) = 2 ^ 4 := rfl
  rw [hdigits, hbase, ← Nat.pow_mul, ← Nat.pow_mul]
  constructor
  · exact Nat.lt_of_lt_of_le hlt (Nat.pow_le_pow_right (by decide) (by omega))
  · by_cases hzero : count - 2 = 0
    · left
      rw [hzero]
      rfl
    · right
      exact Nat.le_trans (Nat.pow_le_pow_right (by decide) (by omega)) (hle hzero)

/-! ### Commands -/

/-- A constraint on integers, or on bit-vectors without a sign. -/
def constraintHolds (m : ℕ → ℤ) : SatConstraint → Prop
  | .edge before after => m before < m after
  | .edgeDisj before after before' after' => m before < m after ∨ m before' < m after'

/-- Whether the values of the variables are a model of a command. -/
def Command.holds (m : ℕ → ℤ) : Command → Prop
  | .declareBitVec i width => 0 ≤ m i ∧ m i < 2 ^ width
  | .bvultConst i hex => m i < value 16 hex
  | .declareInt _ => True
  | .geZero i => 0 ≤ m i
  | .ltConst i n => m i < n
  | .distinct count => ∀ i < count, ∀ j < count, i ≠ j → m i ≠ m j
  | .constraint _ c => constraintHolds m c

/-- A correct solver finds a model. -/
def Satisfiable (bv : Bool) (count : ℕ) (constraints : List SatConstraint) : Prop :=
  ∃ commands, encode bv count constraints = some commands ∧ ∃ m, ∀ c ∈ commands, c.holds m

/-- The bit-vectors of `alloc_variables` stand for the positions. -/
structure EncodesPositions (count : ℕ) : Prop where
  /-- Nothing is shifted by 32 bits or more. -/
  shifts : (allocVariables true count).isSome = true
  wide : ∀ commands, declareVariables true count = some commands →
    ∀ i width, .declareBitVec i width ∈ commands → count ≤ 2 ^ width
  /-- The constants have the widths of the variables, four bits a digit. -/
  literals : ∀ commands, declareVariables true count = some commands → ∀ i width hex,
    .declareBitVec i width ∈ commands → .bvultConst i hex ∈ commands → 4 * hex.length = width
  range : ∀ commands, declareVariables true count = some commands → ∀ m : ℕ → ℤ,
    (∀ c ∈ commands, c.holds m) ↔ ∀ i < count, 0 ≤ m i ∧ m i < count
  satisfiable : ∀ constraints, Satisfiable true count constraints ↔
    Satisfiable false count constraints

/-- The commands for a variable, where shifts are defined. -/
def variableCommands (count i : ℕ) : List Command :=
  .declareBitVec i (hexdigs count * 4) ::
    if count ≠ 2 ^ (hexdigs count * 4) then [.bvultConst i (paddedHex (hexdigs count) count)] else []

theorem mapM_some {α β : Type} (f : α → β) (xs : List α) :
    xs.mapM (fun x => some (f x)) = some (xs.map f) := List.mapM_pure

theorem declareVariables_eq (h : hexdigs count * 4 < 32) : declareVariables true count =
    some ((List.range count).map (variableCommands count)).flatten := by
  have hdeclare : declareVariable true count = fun i => some (variableCommands count i) := by
    funext i
    rw [declareVariable, if_pos rfl, shiftedOne, if_pos h]
    rfl
  rw [declareVariables, hdeclare, mapM_some, Option.map_some]

theorem declareVariables_eq_none (hpos : 0 < count) (h : 32 ≤ hexdigs count * 4) :
    declareVariables true count = none := by
  obtain ⟨n, rfl⟩ := Nat.exists_eq_succ_of_ne_zero (Nat.ne_of_gt hpos)
  have hdeclare : ∀ i, declareVariable true n.succ i = none := by
    intro i
    rw [declareVariable, if_pos rfl, shiftedOne, if_neg (Nat.not_lt_of_le h)]
    rfl
  rw [declareVariables, List.range_succ_eq_map, List.mapM_cons, hdeclare]
  rfl

theorem mem_variableCommands {c : Command} :
    c ∈ ((List.range count).map (variableCommands count)).flatten ↔ ∃ i < count,
      c = .declareBitVec i (hexdigs count * 4) ∨ (count ≠ 2 ^ (hexdigs count * 4) ∧
        c = .bvultConst i (paddedHex (hexdigs count) count)) := by
  simp only [List.mem_flatten, List.mem_map, List.mem_range, exists_exists_and_eq_and]
  apply exists_congr
  intro i
  apply and_congr_right
  intro _
  rw [variableCommands, List.mem_cons]
  apply or_congr_right
  split
  · rename_i hne
    rw [List.mem_singleton]
    exact (and_iff_right hne).symm
  · rename_i heq
    exact iff_of_false List.not_mem_nil fun h => heq h.1

theorem value_paddedHex {width n : ℕ} : value 16 (paddedHex width n) = n := by
  rw [paddedHex, value_zeros, value_numeral (by decide) (by decide)]

theorem length_paddedHex {width n : ℕ} (hwidth : 0 < width) (h : n < 16 ^ width) :
    (paddedHex width n).length = width := by
  have hle := (length_numeral_le_iff (by decide) hwidth).mpr h
  rw [paddedHex, List.length_append, List.length_replicate]
  omega

theorem hexdigs_pos : 0 < hexdigs count := Nat.succ_pos _

theorem capacity_eq : 2 ^ (hexdigs count * 4) = 16 ^ hexdigs count := by
  rw [Nat.mul_comm, Nat.pow_mul]

/-- The bounds of the variables in either mode. -/
theorem range_of_wide (hshift : hexdigs count * 4 < 32) (hwide : count ≤ 2 ^ (hexdigs count * 4))
    (hcommands : declareVariables true count = some commands) :
    (∀ c ∈ commands, c.holds m) ↔ ∀ i < count, 0 ≤ m i ∧ m i < count := by
  rw [declareVariables_eq hshift, Option.some.injEq] at hcommands
  subst hcommands
  have hwide' : (count : ℤ) ≤ 2 ^ (hexdigs count * 4) := by exact_mod_cast hwide
  constructor
  · intro hall i hi
    have hdeclared : 0 ≤ m i ∧ m i < 2 ^ (hexdigs count * 4) :=
      hall _ (mem_variableCommands.mpr ⟨i, hi, .inl rfl⟩)
    refine ⟨hdeclared.1, ?_⟩
    by_cases hcount : count = 2 ^ (hexdigs count * 4)
    · have hcast : (count : ℤ) = 2 ^ (hexdigs count * 4) := by exact_mod_cast hcount
      rw [hcast]
      exact hdeclared.2
    · have hbound : m i < value 16 (paddedHex (hexdigs count) count) :=
        hall _ (mem_variableCommands.mpr ⟨i, hi, .inr ⟨hcount, rfl⟩⟩)
      rwa [value_paddedHex] at hbound
  · intro hall c hc
    obtain ⟨i, hi, hc⟩ := mem_variableCommands.mp hc
    obtain ⟨hmin, hmax⟩ := hall i hi
    cases hc with
    | inl hc =>
        rw [hc]
        exact ⟨hmin, lt_of_lt_of_le hmax hwide'⟩
    | inr hc =>
        rw [hc.2, Command.holds, value_paddedHex]
        exact hmax

theorem declareVariables_int : declareVariables false count = some ((List.range count).map
    fun i => [.declareInt i, .geZero i, .ltConst i count]).flatten := by
  have hdeclare : declareVariable false count =
      fun i => some [.declareInt i, .geZero i, .ltConst i count] := rfl
  rw [declareVariables, hdeclare, mapM_some, Option.map_some]

theorem range_int (hcommands : declareVariables false count = some commands) :
    (∀ c ∈ commands, c.holds m) ↔ ∀ i < count, 0 ≤ m i ∧ m i < count := by
  rw [declareVariables_int, Option.some.injEq] at hcommands
  subst hcommands
  simp only [List.mem_flatten, List.mem_map, List.mem_range, exists_exists_and_eq_and,
    forall_exists_index, and_imp]
  constructor
  · intro hall i hi
    exact ⟨hall (.geZero i) i hi (by simp), hall (.ltConst i count) i hi (by simp)⟩
  · intro hall c i hi hc
    rw [List.mem_cons, List.mem_cons, List.mem_singleton] at hc
    rcases hc with rfl | rfl | rfl
    · trivial
    · exact (hall i hi).1
    · exact (hall i hi).2

/-- Models of all commands, in terms of the bounds. -/
theorem satisfiable_iff {constraints : List SatConstraint}
    (hcommands : declareVariables bv count = some commands)
    (hrange : ∀ m : ℕ → ℤ, (∀ c ∈ commands, c.holds m) ↔ ∀ i < count, 0 ≤ m i ∧ m i < count) :
    Satisfiable bv count constraints ↔ ∃ m : ℕ → ℤ, (∀ i < count, 0 ≤ m i ∧ m i < count) ∧
      (∀ i < count, ∀ j < count, i ≠ j → m i ≠ m j) ∧
        ∀ c ∈ constraints, constraintHolds m c := by
  rw [Satisfiable, encode, allocVariables, hcommands, Option.map_some, Option.map_some]
  simp only [Option.some.injEq, exists_eq_left', List.forall_mem_append, List.forall_mem_map,
    List.forall_mem_singleton, hrange, and_assoc]
  rfl

/-! ### Which numbers of positions fit -/

theorem encodesPositions_of_wide (hshift : hexdigs count * 4 < 32)
    (hwide : count ≤ 2 ^ (hexdigs count * 4)) : EncodesPositions count where
  shifts := by
    rw [allocVariables, declareVariables_eq hshift]
    rfl
  wide := by
    intro commands hcommands i width hmem
    rw [declareVariables_eq hshift, Option.some.injEq] at hcommands
    rw [← hcommands, mem_variableCommands] at hmem
    obtain ⟨j, -, hj | hj⟩ := hmem
    · cases hj
      exact hwide
    · cases hj.2
  literals := by
    intro commands hcommands i width hex hmem hconst
    rw [declareVariables_eq hshift, Option.some.injEq] at hcommands
    rw [← hcommands, mem_variableCommands] at hmem hconst
    obtain ⟨j, -, hj | hj⟩ := hmem
    · obtain ⟨l, -, hl | hl⟩ := hconst
      · cases hl
      · cases hj
        cases hl.2
        have hlt : count < 16 ^ hexdigs count := by
          rw [← capacity_eq]
          exact Nat.lt_of_le_of_ne hwide hl.1
        rw [length_paddedHex hexdigs_pos hlt, Nat.mul_comm]
    · cases hj.2
  range := fun _ hcommands _ => range_of_wide hshift hwide hcommands
  satisfiable := by
    intro constraints
    rw [satisfiable_iff (declareVariables_eq hshift) fun _ =>
      range_of_wide hshift hwide (declareVariables_eq hshift),
      satisfiable_iff declareVariables_int fun _ => range_int declareVariables_int]

/-- The bit-vectors stand for the positions exactly if there are some, but not one, nor one more
than a power of sixteen, nor more than 28 bits can number. -/
theorem encodesPositions_iff (hpos : 0 < count) (hmax : count < 2 ^ 32) : EncodesPositions count ↔
    count ≠ 1 ∧ count ≤ 2 ^ 28 ∧ ∀ k, 0 < k → count ≠ 16 ^ k + 1 := by
  constructor
  · intro h
    have hshift : hexdigs count * 4 < 32 := by
      by_contra hshift
      have hsome := h.shifts
      rw [allocVariables, declareVariables_eq_none hpos (Nat.le_of_not_lt hshift)] at hsome
      cases hsome
    have hwide : count ≤ 16 ^ hexdigs count := by
      rw [← capacity_eq]
      exact h.wide _ (declareVariables_eq hshift) 0 _ (mem_variableCommands.mpr ⟨0, hpos, .inl rfl⟩)
    have hone : count ≠ 1 := by
      intro hone
      rw [hone] at hshift
      exact absurd hshift (by decide)
    obtain ⟨hlt, hdigits⟩ := hexdigs_spec (show 2 ≤ count by omega) hmax
    refine ⟨hone, ?_, ?_⟩
    · have hpow : 16 ^ hexdigs count ≤ 16 ^ 7 := Nat.pow_le_pow_right (by decide) (by omega)
      exact Nat.le_trans hwide hpow
    · -- then the digits are those of the power of sixteen itself
      intro k hk hcount
      have hle : 16 ^ (hexdigs count - 1) < 16 ^ k := by
        have hpow : 16 ^ 1 ≤ 16 ^ k := Nat.pow_le_pow_right (by decide) hk
        cases hdigits with
        | inl hone =>
            rw [hone]
            omega
        | inr hle => omega
      have hexp : hexdigs count - 1 < k := (Nat.pow_lt_pow_iff_right (by decide)).mp hle
      have hpow : 16 ^ hexdigs count ≤ 16 ^ k := Nat.pow_le_pow_right (by decide) (by omega)
      omega
  · intro h
    obtain ⟨hone, hle, hpower⟩ := h
    obtain ⟨hlt, hdigits⟩ := hexdigs_spec (show 2 ≤ count by omega) hmax
    have hshift : hexdigs count * 4 < 32 := by
      cases hdigits with
      | inl hone => omega
      | inr hdigits =>
          have hpow : 16 ^ (hexdigs count - 1) < 16 ^ 7 := by omega
          have hexp := (Nat.pow_lt_pow_iff_right (by decide)).mp hpow
          omega
    refine encodesPositions_of_wide hshift ?_
    rw [capacity_eq]
    have hne := hpower (hexdigs count) hexdigs_pos
    omega

theorem encodesPositions_sixteen : EncodesPositions 16 := by
  refine (encodesPositions_iff (by decide) (by decide)).mpr ⟨by decide, by decide, fun k hk => ?_⟩
  have hpow : 16 ^ 1 ≤ 16 ^ k := Nat.pow_le_pow_right (by decide) hk
  omega

/-- The bit-vectors for seventeen positions have four bits. -/
theorem not_encodesPositions_seventeen : ¬ EncodesPositions 17 := by
  intro h
  have hwide := h.wide _ (declareVariables_eq (by decide)) 0 _
    (mem_variableCommands.mpr ⟨0, by decide, .inl rfl⟩)
  exact absurd hwide (by decide)

end Nidhugg.SmtlibSatSolver
