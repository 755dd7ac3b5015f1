import Mathlib.Data.Nat.Digits.Lemmas
import Mathlib.Data.ZMod.Basic
import Mathlib.Tactic.LinearCombination
import Nidhugg.Model.TsoData

/-! # The numbers that byte strings stand for

The byte loops of the actions compute on numbers: the carry loop adds and subtracts modulo
a power of 256, and the two comparisons compare unsigned and signed values. -/

namespace Nidhugg.RmwAction

/-- The unsigned number with the given bytes, the least significant one first. -/
def value (xs : List Byte) : ℕ := Nat.ofDigits 256 (xs.map BitVec.toNat)

@[simp]
theorem value_nil : value [] = 0 := rfl

@[simp]
theorem value_cons (x : Byte) (xs : List Byte) :
    value (x :: xs) = x.toNat + 256 * value xs := by
  simp [value, Nat.ofDigits_cons]

theorem value_concat (xs : List Byte) (x : Byte) :
    value (xs ++ [x]) = value xs + 256 ^ xs.length * x.toNat := by
  induction xs with
  | nil => simp
  | cons y ys ih =>
      simp only [List.cons_append, value_cons, ih, List.length_cons]
      ring

theorem value_lt (xs : List Byte) : value xs < 256 ^ xs.length := by
  induction xs with
  | nil => simp
  | cons x xs ih =>
      have hx : x.toNat < 256 := x.isLt
      rw [value_cons, List.length_cons, pow_succ]
      omega

theorem value_inj {xs ys : List Byte} (hlen : xs.length = ys.length)
    (h : value xs = value ys) : xs = ys := by
  induction xs generalizing ys with
  | nil =>
      cases ys with
      | nil => rfl
      | cons y ys => simp at hlen
  | cons x xs ih =>
      cases ys with
      | nil => simp at hlen
      | cons y ys =>
          have hx : x.toNat < 256 := x.isLt
          have hy : y.toNat < 256 := y.isLt
          rw [value_cons, value_cons] at h
          have hhead : x = y := BitVec.eq_of_toNat_eq (by omega)
          rw [hhead, ih (by simpa using hlen) (by omega)]

/-! ### The carry loop -/

/-- Addition counts the operand positively and subtraction negatively. -/
def signOf (kind : RmwKind) : ℤ := if kind = .add then 1 else -1

theorem toInt_setWidth_byte (x : Byte) : (x.setWidth 16).toInt = x.toNat := by
  have hx : x.toNat < 256 := x.isLt
  rw [BitVec.toInt_setWidth]
  apply Int.bmod_eq_of_le
  · omega
  · omega

/-- The exact value of the 16-bit sum. -/
theorem toInt_sum (kind : RmwKind) {carry : Byte} (inp arg : Byte)
    (hcarry : -1 ≤ carry.toInt ∧ carry.toInt ≤ 1) :
    (if kind = .add then inp.setWidth 16 + arg.setWidth 16 + carry.signExtend 16
      else inp.setWidth 16 - arg.setWidth 16 + carry.signExtend 16 : BitVec 16).toInt =
      inp.toNat + signOf kind * arg.toNat + carry.toInt := by
  have hinp : inp.toNat < 256 := inp.isLt
  have harg : arg.toNat < 256 := arg.isLt
  have hsign : (carry.signExtend 16).toInt = carry.toInt :=
    BitVec.toInt_signExtend_of_le (by omega)
  by_cases hadd : kind = .add
  · rw [if_pos hadd, signOf, if_pos hadd, BitVec.toInt_add, BitVec.toInt_add,
      toInt_setWidth_byte, toInt_setWidth_byte, hsign, Int.bmod_add_bmod, one_mul]
    apply Int.bmod_eq_of_le
    · omega
    · omega
  · rw [if_neg hadd, signOf, if_neg hadd, BitVec.toInt_add, BitVec.toInt_sub,
      toInt_setWidth_byte, toInt_setWidth_byte, hsign, Int.bmod_add_bmod, neg_one_mul,
      ← sub_eq_add_neg]
    apply Int.bmod_eq_of_le
    · omega
    · omega

/-- A small 16-bit word is its low byte and, as a signed byte, its high byte. -/
theorem toNat_add_toInt_carry {sum : BitVec 16} (h : -256 ≤ sum.toInt ∧ sum.toInt ≤ 511) :
    ((sum.setWidth 8).toNat : ℤ) + 256 * ((sum >>> 8).setWidth 8).toInt = sum.toInt ∧
      -1 ≤ ((sum >>> 8).setWidth 8).toInt ∧ ((sum >>> 8).setWidth 8).toInt ≤ 1 := by
  simp only [BitVec.toInt_eq_toNat_cond, BitVec.toNat_setWidth, BitVec.toNat_ushiftRight,
    Nat.shiftRight_eq_div_pow] at h ⊢
  omega

/-- One byte of the loop is exact, and its carry stays a sign. -/
theorem carryByte_spec (kind : RmwKind) {carry : Byte} (inp arg : Byte)
    (hcarry : -1 ≤ carry.toInt ∧ carry.toInt ≤ 1) :
    ((carryByte kind carry inp arg).1.toNat : ℤ) + 256 * (carryByte kind carry inp arg).2.toInt =
        inp.toNat + signOf kind * arg.toNat + carry.toInt ∧
      -1 ≤ (carryByte kind carry inp arg).2.toInt ∧
        (carryByte kind carry inp arg).2.toInt ≤ 1 := by
  have hinp : inp.toNat < 256 := inp.isLt
  have harg : arg.toNat < 256 := arg.isLt
  have hsum := toInt_sum kind inp arg hcarry
  have hrange : -256 ≤ inp.toNat + signOf kind * arg.toNat + carry.toInt ∧
      inp.toNat + signOf kind * arg.toNat + carry.toInt ≤ 511 := by
    unfold signOf
    split
    · omega
    · omega
  rw [← hsum] at hrange ⊢
  exact toNat_add_toInt_carry hrange

theorem value_carryLoop (kind : RmwKind) {carry : Byte} {inps args : List Byte}
    (hlen : inps.length = args.length) (hcarry : -1 ≤ carry.toInt ∧ carry.toInt ≤ 1) :
    (value (carryLoop kind carry inps args) : ℤ) ≡
      value inps + signOf kind * value args + carry.toInt [ZMOD 256 ^ inps.length] := by
  induction inps generalizing carry args with
  | nil => simp [Int.modEq_one]
  | cons inp inps ih =>
      cases args with
      | nil => simp at hlen
      | cons arg args =>
          obtain ⟨hbyte, hnext⟩ := carryByte_spec kind inp arg hcarry
          have hrest := (ih (by simpa using hlen) hnext).mul_left' (c := 256)
          rw [carryLoop, value_cons, value_cons, value_cons, List.length_cons, pow_succ']
          push_cast
          calc ((carryByte kind carry inp arg).1.toNat : ℤ) +
                256 * value (carryLoop kind (carryByte kind carry inp arg).2 inps args)
              ≡ (carryByte kind carry inp arg).1.toNat + 256 *
                  (value inps + signOf kind * value args +
                    (carryByte kind carry inp arg).2.toInt) [ZMOD 256 * 256 ^ inps.length] :=
                hrest.add_left _
            _ = inp.toNat + 256 * value inps + signOf kind * (arg.toNat + 256 * value args) +
                  carry.toInt := by linear_combination hbyte

/-! ### Comparison -/

theorem mostFirst_eq_reverse (bigEndian : Bool) (xs : List Byte) :
    mostFirst bigEndian xs = (leastFirst bigEndian xs).reverse := by
  cases bigEndian <;> simp [mostFirst, leastFirst]

/-- A greater leading digit outweighs all lower ones. -/
theorem lt_of_leading_lt {base a b high high' : ℕ} (ha : a < base) (h : high < high') :
    a + base * high < b + base * high' := by
  calc a + base * high < base + base * high := by omega
    _ = base * (high + 1) := by ring
    _ ≤ base * high' := Nat.mul_le_mul_left base h
    _ ≤ b + base * high' := by omega

/-- Comparing bytes from the most significant one compares the numbers. -/
theorem memcmp_reverse_eq_gt {xs ys : List Byte} (hlen : xs.length = ys.length) :
    memcmp xs.reverse ys.reverse = .gt ↔ value ys < value xs := by
  induction xs using List.reverseRecOn generalizing ys with
  | nil =>
      cases ys with
      | nil => simp [memcmp]
      | cons y ys => simp at hlen
  | append_singleton xs x ih =>
      cases ys using List.reverseRecOn with
      | nil => simp at hlen
      | append_singleton ys y =>
          have hlen' : xs.length = ys.length := by simpa using hlen
          have hxs := value_lt xs
          have hys := value_lt ys
          rw [hlen'] at hxs
          rw [List.reverse_concat, List.reverse_concat, memcmp, value_concat, value_concat, hlen']
          simp only [BitVec.lt_def]
          rcases lt_trichotomy x.toNat y.toNat with hlt | heq | hgt
          · have hvalue := lt_of_leading_lt (b := value ys) hxs hlt
            rw [if_neg hlt.le.not_gt, if_pos hlt]
            simpa using hvalue.le
          · rw [if_neg heq.not_gt, if_neg heq.not_lt, ih hlen', heq]
            omega
          · have hvalue := lt_of_leading_lt (b := value xs) hys hgt
            rw [if_pos hgt]
            simpa using hvalue

theorem apcmp_eq_gt (bigEndian : Bool) {lhs rhs : List Byte} (hlen : lhs.length = rhs.length) :
    apcmp bigEndian lhs rhs = .gt ↔
      value (leastFirst bigEndian rhs) < value (leastFirst bigEndian lhs) := by
  rw [apcmp, mostFirst_eq_reverse, mostFirst_eq_reverse, memcmp_reverse_eq_gt]
  rw [length_leastFirst, length_leastFirst, hlen]

/-- The number in two's complement with the given bytes. -/
def signedValue (bigEndian : Bool) (xs : List Byte) : ℤ :=
  value (leastFirst bigEndian xs) - if signBit bigEndian xs then 256 ^ xs.length else 0

theorem sapcmp_eq_gt (bigEndian : Bool) {lhs rhs : List Byte} (hlen : lhs.length = rhs.length) :
    sapcmp bigEndian lhs rhs = .gt ↔ signedValue bigEndian rhs < signedValue bigEndian lhs := by
  have hl := value_lt (leastFirst bigEndian lhs)
  have hr := value_lt (leastFirst bigEndian rhs)
  rw [length_leastFirst] at hl hr
  rw [hlen] at hl
  zify at hl hr
  have happ := apcmp_eq_gt bigEndian hlen
  unfold sapcmp signedValue
  rw [hlen]
  cases signBit bigEndian lhs <;> cases signBit bigEndian rhs
  · simpa using happ
  · simp
    omega
  · simp
    omega
  · simpa using happ

theorem value_leastFirst_inj (bigEndian : Bool) {xs ys : List Byte}
    (hlen : xs.length = ys.length)
    (h : value (leastFirst bigEndian xs) = value (leastFirst bigEndian ys)) : xs = ys := by
  have hfirst : leastFirst bigEndian xs = leastFirst bigEndian ys := by
    apply value_inj _ h
    rw [length_leastFirst, length_leastFirst, hlen]
  cases bigEndian with
  | true => exact List.reverse_injective hfirst
  | false => exact hfirst

theorem signedValue_inj (bigEndian : Bool) {xs ys : List Byte} (hlen : xs.length = ys.length)
    (h : signedValue bigEndian xs = signedValue bigEndian ys) : xs = ys := by
  have hx := value_lt (leastFirst bigEndian xs)
  have hy := value_lt (leastFirst bigEndian ys)
  rw [length_leastFirst] at hx hy
  apply value_leastFirst_inj bigEndian hlen
  zify at hx hy ⊢
  unfold signedValue at h
  rw [hlen] at h hx
  cases hsx : signBit bigEndian xs <;> cases hsy : signBit bigEndian ys <;>
    simp only [hsx, hsy] at h <;> simp at h <;> omega

end Nidhugg.RmwAction

/-! # Commutation of read-modify-writes

Actions that the trace builders treat as independent leave the same memory in either
order, with one exception: two NANDs do so exactly when their operands agree. -/

namespace Nidhugg.RmwAction

/-! ### Actions as operations on numbers -/

/-- Two actions commute when the bytes stand for elements on which they act by commuting
operations. -/
theorem result_comm_of_interpretation {κ : Type*} {bigEndian : Bool} {k l : RmwKind} {n : ℕ}
    (f : List Byte → κ) (op op' : κ → κ → κ)
    (hinj : ∀ {xs ys : List Byte}, xs.length = n → ys.length = n → f xs = f ys → xs = ys)
    (hk : ∀ {data operand : List Byte}, data.length = n → operand.length = n →
      f (result bigEndian k data operand) = op (f data) (f operand))
    (hl : ∀ {data operand : List Byte}, data.length = n → operand.length = n →
      f (result bigEndian l data operand) = op' (f data) (f operand))
    (hcomm : ∀ x a b, op' (op x a) b = op (op' x b) a) {data a b : List Byte}
    (hdata : data.length = n) (ha : a.length = n) (hb : b.length = n) :
    result bigEndian l (result bigEndian k data a) b =
      result bigEndian k (result bigEndian l data b) a := by
  have hka : (result bigEndian k data a).length = n := by
    rw [length_result bigEndian k (ha.trans hdata.symm), hdata]
  have hlb : (result bigEndian l data b).length = n := by
    rw [length_result bigEndian l (hb.trans hdata.symm), hdata]
  apply hinj
  · rw [length_result bigEndian l (hb.trans hka.symm), hka]
  · rw [length_result bigEndian k (ha.trans hlb.symm), hlb]
  · rw [hl hka hb, hk hdata ha, hk hlb ha, hl hdata hb, hcomm]

theorem value_zmod_inj (bigEndian : Bool) {n : ℕ} {xs ys : List Byte} (hx : xs.length = n)
    (hy : ys.length = n)
    (h : (value (leastFirst bigEndian xs) : ZMod (256 ^ n)) = value (leastFirst bigEndian ys)) :
    xs = ys := by
  apply value_leastFirst_inj bigEndian (hx.trans hy.symm)
  have hmod := (ZMod.natCast_eq_natCast_iff' _ _ _).mp h
  have hvx := value_lt (leastFirst bigEndian xs)
  have hvy := value_lt (leastFirst bigEndian ys)
  rw [length_leastFirst, hx] at hvx
  rw [length_leastFirst, hy] at hvy
  rwa [Nat.mod_eq_of_lt hvx, Nat.mod_eq_of_lt hvy] at hmod

theorem leastFirst_leastFirst (bigEndian : Bool) (xs : List Byte) :
    leastFirst bigEndian (leastFirst bigEndian xs) = xs := by
  cases bigEndian <;> simp [leastFirst]

/-- The carry loop adds or subtracts modulo a power of 256. -/
theorem value_result_carry (bigEndian : Bool) {kind : RmwKind}
    (hkind : kind = .add ∨ kind = .sub) {n : ℕ} {data operand : List Byte}
    (hdata : data.length = n) (hop : operand.length = n) :
    (value (leastFirst bigEndian (result bigEndian kind data operand)) : ZMod (256 ^ n)) =
      value (leastFirst bigEndian data) + signOf kind * value (leastFirst bigEndian operand) := by
  have hlen : (leastFirst bigEndian data).length = (leastFirst bigEndian operand).length := by
    rw [length_leastFirst, length_leastFirst, hdata, hop]
  have hcarry : -1 ≤ (0 : Byte).toInt ∧ (0 : Byte).toInt ≤ 1 := by decide
  have hval := value_carryLoop kind hlen hcarry
  have hres : leastFirst bigEndian (result bigEndian kind data operand) =
      carryLoop kind 0 (leastFirst bigEndian data) (leastFirst bigEndian operand) := by
    rcases hkind with rfl | rfl
    · exact leastFirst_leastFirst bigEndian _
    · exact leastFirst_leastFirst bigEndian _
  rw [length_leastFirst, hdata] at hval
  rw [hres]
  have hcast := (ZMod.intCast_eq_intCast_iff _ _ (256 ^ n)).mpr (by exact_mod_cast hval)
  simpa using hcast

theorem result_carry_comm (bigEndian : Bool) {k l : RmwKind} (hk : k = .add ∨ k = .sub)
    (hl : l = .add ∨ l = .sub) {n : ℕ} {data a b : List Byte} (hdata : data.length = n)
    (ha : a.length = n) (hb : b.length = n) :
    result bigEndian l (result bigEndian k data a) b =
      result bigEndian k (result bigEndian l data b) a := by
  apply result_comm_of_interpretation
    (fun xs => (value (leastFirst bigEndian xs) : ZMod (256 ^ n)))
    (fun x y => x + signOf k * y) (fun x y => x + signOf l * y)
    (value_zmod_inj bigEndian) (value_result_carry bigEndian hk) (value_result_carry bigEndian hl)
    _ hdata ha hb
  intro x a b
  ring

/-! ### Minimum and maximum -/

theorem unsigned_result (bigEndian : Bool) {data operand : List Byte}
    (hlen : operand.length = data.length) :
    value (leastFirst bigEndian (result bigEndian .umax data operand)) =
        max (value (leastFirst bigEndian data)) (value (leastFirst bigEndian operand)) ∧
      value (leastFirst bigEndian (result bigEndian .umin data operand)) =
        min (value (leastFirst bigEndian data)) (value (leastFirst bigEndian operand)) := by
  have hgt := apcmp_eq_gt bigEndian hlen.symm
  by_cases h : apcmp bigEndian data operand = .gt
  · have hlt := hgt.mp h
    simp [result, takeRhs, h, hlt.le]
  · have hle := not_lt.mp (mt hgt.mpr h)
    simp [result, takeRhs, h, hle]

theorem signed_result (bigEndian : Bool) {data operand : List Byte}
    (hlen : operand.length = data.length) :
    signedValue bigEndian (result bigEndian .max data operand) =
        max (signedValue bigEndian data) (signedValue bigEndian operand) ∧
      signedValue bigEndian (result bigEndian .min data operand) =
        min (signedValue bigEndian data) (signedValue bigEndian operand) := by
  have hgt := sapcmp_eq_gt bigEndian hlen.symm
  by_cases h : sapcmp bigEndian data operand = .gt
  · have hlt := hgt.mp h
    simp [result, takeRhs, h, hlt.le]
  · have hle := not_lt.mp (mt hgt.mpr h)
    simp [result, takeRhs, h, hle]

theorem result_select_comm (bigEndian : Bool) {kind : RmwKind}
    (hkind : kind = .max ∨ kind = .min ∨ kind = .umax ∨ kind = .umin) {n : ℕ}
    {data a b : List Byte} (hdata : data.length = n) (ha : a.length = n) (hb : b.length = n) :
    result bigEndian kind (result bigEndian kind data a) b =
      result bigEndian kind (result bigEndian kind data b) a := by
  have hsigned : ∀ {xs ys : List Byte}, xs.length = n → ys.length = n →
      signedValue bigEndian xs = signedValue bigEndian ys → xs = ys :=
    fun hx hy h => signedValue_inj bigEndian (hx.trans hy.symm) h
  have hunsigned : ∀ {xs ys : List Byte}, xs.length = n → ys.length = n →
      value (leastFirst bigEndian xs) = value (leastFirst bigEndian ys) → xs = ys :=
    fun hx hy h => value_leastFirst_inj bigEndian (hx.trans hy.symm) h
  rcases hkind with rfl | rfl | rfl | rfl
  · exact result_comm_of_interpretation (signedValue bigEndian) max max hsigned
      (fun hd ho => (signed_result bigEndian (ho.trans hd.symm)).1)
      (fun hd ho => (signed_result bigEndian (ho.trans hd.symm)).1) max_right_comm hdata ha hb
  · exact result_comm_of_interpretation (signedValue bigEndian) min min hsigned
      (fun hd ho => (signed_result bigEndian (ho.trans hd.symm)).2)
      (fun hd ho => (signed_result bigEndian (ho.trans hd.symm)).2) min_right_comm hdata ha hb
  · exact result_comm_of_interpretation (fun xs => value (leastFirst bigEndian xs)) max max
      hunsigned (fun hd ho => (unsigned_result bigEndian (ho.trans hd.symm)).1)
      (fun hd ho => (unsigned_result bigEndian (ho.trans hd.symm)).1) max_right_comm hdata ha hb
  · exact result_comm_of_interpretation (fun xs => value (leastFirst bigEndian xs)) min min
      hunsigned (fun hd ho => (unsigned_result bigEndian (ho.trans hd.symm)).2)
      (fun hd ho => (unsigned_result bigEndian (ho.trans hd.symm)).2) min_right_comm hdata ha hb

/-! ### Bitwise actions -/

theorem zipWith_right_comm {f : Byte → Byte → Byte} (hf : ∀ x a b, f (f x a) b = f (f x b) a)
    (xs as bs : List Byte) :
    List.zipWith f (List.zipWith f xs as) bs = List.zipWith f (List.zipWith f xs bs) as := by
  induction xs generalizing as bs with
  | nil => simp
  | cons x xs ih =>
      cases as with
      | nil => simp
      | cons a as =>
          cases bs with
          | nil => simp
          | cons b bs => simp [hf x a b, ih as bs]

/-- On every byte two NANDs commute only when their operands agree. -/
theorem nand_comm_iff (x a b : Byte) :
    ~~~(~~~(x &&& a) &&& b) = ~~~(~~~(x &&& b) &&& a) ↔ a = b := by
  constructor
  · intro h
    apply BitVec.eq_of_getLsbD_eq
    intro i hi
    have hbit := congrArg (fun y => y.getLsbD i) h
    simp only [BitVec.getLsbD_not, BitVec.getLsbD_and, hi] at hbit
    revert hbit
    cases x.getLsbD i <;> cases a.getLsbD i <;> cases b.getLsbD i <;> simp
  · intro h
    rw [h]

theorem zipWith_nand_comm_iff {xs as bs : List Byte} (ha : as.length = xs.length)
    (hb : bs.length = xs.length) :
    result false .nand (result false .nand xs as) bs =
      result false .nand (result false .nand xs bs) as ↔ as = bs := by
  induction xs generalizing as bs with
  | nil =>
      rw [List.length_nil, List.length_eq_zero_iff] at ha hb
      simp [ha, hb]
  | cons x xs ih =>
      cases as with
      | nil => simp at ha
      | cons a as =>
          cases bs with
          | nil => simp at hb
          | cons b bs =>
              have hrest := @ih as bs (by simpa using ha) (by simpa using hb)
              simp only [result, List.zipWith_cons_cons, List.cons.injEq] at hrest ⊢
              rw [nand_comm_iff, hrest]

/-! ### The predicate of the trace builders -/

theorem kinds_of_commutes {conf : Configuration} {k l : RmwKind} {used used' : Bool}
    (h : rmwactionCommutes conf k used l used' = true) :
    ((k = .add ∨ k = .sub) ∧ (l = .add ∨ l = .sub)) ∨
      (l = k ∧ k ≠ .add ∧ k ≠ .sub ∧ k ≠ .xchg) := by
  unfold rmwactionCommutes at h
  split at h
  · simp at h
  split at h
  · simp at h
  cases k <;> simp_all

theorem applyTo_eq_iff {n : ℕ} {bigEndian : Bool} {a b c d : RmwAction n} {data : Bytes n} :
    b.applyTo bigEndian (a.applyTo bigEndian data) =
        d.applyTo bigEndian (c.applyTo bigEndian data) ↔
      result bigEndian b.kind (result bigEndian a.kind data.1 a.operand.1) b.operand.1 =
        result bigEndian d.kind (result bigEndian c.kind data.1 c.operand.1) d.operand.1 :=
  Subtype.ext_iff

/-- Actions that are treated as independent leave the same memory in either order exactly
when they are not NANDs with different operands. -/
theorem applyTo_comm_iff (bigEndian : Bool) (conf : Configuration) {n : ℕ} (a b : RmwAction n)
    (h : rmwactionCommutes conf a.kind a.resultUsed b.kind b.resultUsed = true)
    (data : Bytes n) :
    b.applyTo bigEndian (a.applyTo bigEndian data) =
        a.applyTo bigEndian (b.applyTo bigEndian data) ↔
      a.kind ≠ .nand ∨ a.operand = b.operand := by
  have hdata := data.2
  have ha := a.operand.2
  have hb := b.operand.2
  rw [applyTo_eq_iff]
  rcases kinds_of_commutes h with ⟨hka, hkb⟩ | ⟨hkb, hadd, hsub, hxchg⟩
  · have hne : a.kind ≠ .nand := by
      rcases hka with hka | hka <;> simp [hka]
    simp only [hne, ne_eq, not_false_eq_true, true_or, iff_true]
    exact result_carry_comm bigEndian hka hkb hdata ha hb
  · rw [hkb]
    cases hka : a.kind with
    | add => exact absurd hka hadd
    | sub => exact absurd hka hsub
    | xchg => exact absurd hka hxchg
    | max | min | umax | umin =>
        simp only [ne_eq, reduceCtorEq, not_false_eq_true, true_or, iff_true]
        exact result_select_comm bigEndian (by simp) hdata ha hb
    | and =>
        simp only [ne_eq, reduceCtorEq, not_false_eq_true, true_or, iff_true]
        exact zipWith_right_comm (fun x a b => by
          rw [BitVec.and_assoc, BitVec.and_comm a b, ← BitVec.and_assoc]) _ _ _
    | or =>
        simp only [ne_eq, reduceCtorEq, not_false_eq_true, true_or, iff_true]
        exact zipWith_right_comm (fun x a b => by
          rw [BitVec.or_assoc, BitVec.or_comm a b, ← BitVec.or_assoc]) _ _ _
    | xor =>
        simp only [ne_eq, reduceCtorEq, not_false_eq_true, true_or, iff_true]
        exact zipWith_right_comm (fun x a b => by
          rw [BitVec.xor_assoc, BitVec.xor_comm a b, ← BitVec.xor_assoc]) _ _ _
    | nand =>
        simp only [ne_eq, not_true_eq_false, false_or]
        rw [Subtype.ext_iff]
        exact zipWith_nand_comm_iff (ha.trans hdata.symm) (hb.trans hdata.symm)

/-- Two increments of a two-byte counter whose low byte overflows. -/
theorem applyTo_comm_increments :
    rmwactionCommutes ⟨true⟩ .add false .add false = true ∧
      (applyTo false ⟨⟨[0x01, 0x00], rfl⟩, .add, false⟩
          (applyTo false ⟨⟨[0xFF, 0x00], rfl⟩, .add, false⟩ (⟨[0xFF, 0x01], rfl⟩ : Bytes 2)) =
        applyTo false ⟨⟨[0xFF, 0x00], rfl⟩, .add, false⟩
          (applyTo false ⟨⟨[0x01, 0x00], rfl⟩, .add, false⟩ ⟨[0xFF, 0x01], rfl⟩) ↔
      RmwKind.add ≠ .nand ∨ (⟨[0xFF, 0x00], rfl⟩ : Bytes 2) = ⟨[0x01, 0x00], rfl⟩) :=
  ⟨rfl, applyTo_comm_iff false ⟨true⟩ ⟨⟨[0xFF, 0x00], rfl⟩, .add, false⟩
    ⟨⟨[0x01, 0x00], rfl⟩, .add, false⟩ rfl ⟨[0xFF, 0x01], rfl⟩⟩

/-- Two NANDs of one byte that are treated as independent and do not commute. -/
theorem applyTo_nands_differ :
    rmwactionCommutes ⟨true⟩ .nand false .nand false = true ∧
      applyTo false ⟨⟨[0xFF], rfl⟩, .nand, false⟩
          (applyTo false ⟨⟨[0x00], rfl⟩, .nand, false⟩ (⟨[0x00], rfl⟩ : Bytes 1)) ≠
        applyTo false ⟨⟨[0x00], rfl⟩, .nand, false⟩
          (applyTo false ⟨⟨[0xFF], rfl⟩, .nand, false⟩ ⟨[0x00], rfl⟩) := by
  decide

end Nidhugg.RmwAction

/-! # The words that byte strings encode

A string of `n` bytes stands for a word of `8 * n` bits. The actions compute the operations of
such words and the conditions of awaits compare them. -/

namespace Nidhugg.RmwAction

variable {n : ℕ}

/-- The word that the bytes encode. -/
def word (bigEndian : Bool) (xs : Bytes n) : BitVec (8 * n) :=
  BitVec.ofNat (8 * n) (value (leastFirst bigEndian xs.1))

theorem two_pow_eight_mul (n : ℕ) : 2 ^ (8 * n) = 256 ^ n := by
  rw [pow_mul]
  norm_num

theorem value_leastFirst_lt (bigEndian : Bool) (xs : Bytes n) :
    value (leastFirst bigEndian xs.1) < 2 ^ (8 * n) := by
  have hlt := value_lt (leastFirst bigEndian xs.1)
  rwa [length_leastFirst, xs.2, ← two_pow_eight_mul] at hlt

theorem toNat_word (bigEndian : Bool) (xs : Bytes n) :
    (word bigEndian xs).toNat = value (leastFirst bigEndian xs.1) := by
  rw [word, BitVec.toNat_ofNat, Nat.mod_eq_of_lt (value_leastFirst_lt bigEndian xs)]

theorem word_inj {bigEndian : Bool} {xs ys : Bytes n} (h : word bigEndian xs = word bigEndian ys) :
    xs = ys := by
  apply Subtype.ext
  apply value_leastFirst_inj bigEndian (xs.2.trans ys.2.symm)
  rw [← toNat_word, ← toNat_word, h]

/-- The leading bit of the number is the sign of its most significant byte. -/
theorem signBit_iff (bigEndian : Bool) (xs : List Byte) :
    signBit bigEndian xs = true ↔ 256 ^ xs.length ≤ 2 * value (leastFirst bigEndian xs) := by
  rw [signBit, mostFirst_eq_reverse]
  have hlen := length_leastFirst bigEndian xs
  generalize leastFirst bigEndian xs = ys at hlen ⊢
  rw [← hlen]
  cases ys using List.reverseRecOn with
  | nil => simp
  | append_singleton ys y =>
      have hlt := value_lt ys
      have hy : y.toNat < 256 := y.isLt
      rw [List.reverse_concat, value_concat, List.length_append, List.length_singleton, pow_succ]
      simp only [BitVec.msb_eq_decide, decide_eq_true_eq]
      constructor
      · intro h
        have hmul : 256 ^ ys.length * 128 ≤ 256 ^ ys.length * y.toNat := Nat.mul_le_mul_left _ h
        linarith
      · intro h
        by_contra hlow
        have hle : y.toNat ≤ 127 := by norm_num at hlow; omega
        have hmul := Nat.mul_le_mul_left (256 ^ ys.length) hle
        linarith

theorem toInt_word (bigEndian : Bool) (xs : Bytes n) :
    (word bigEndian xs).toInt = signedValue bigEndian xs.1 := by
  have hsign := signBit_iff bigEndian xs.1
  rw [BitVec.toInt_eq_toNat_cond, toNat_word, signedValue, two_pow_eight_mul]
  rw [xs.2] at hsign ⊢
  split
  · have hfalse : signBit bigEndian xs.1 ≠ true := fun h => by have := hsign.mp h; omega
    simp [hfalse]
  · have htrue : signBit bigEndian xs.1 = true := hsign.mpr (by omega)
    simp [htrue]

/-! ### The bits of a word -/

theorem testBit_value (xs : List Byte) (i : ℕ) :
    (value xs).testBit i = (xs.getD (i / 8) 0).getLsbD (i % 8) := by
  induction xs generalizing i with
  | nil => simp
  | cons x xs ih =>
      have hx : x.toNat < 2 ^ 8 := x.isLt
      rw [value_cons, add_comm, show 256 = 2 ^ 8 by rfl, Nat.testBit_two_pow_mul_add _ hx]
      by_cases hi : i < 8
      · rw [if_pos hi, Nat.div_eq_of_lt hi, Nat.mod_eq_of_lt hi]
        rfl
      · have hdiv : i / 8 = (i - 8) / 8 + 1 := by omega
        have hmod : i % 8 = (i - 8) % 8 := by omega
        rw [if_neg hi, ih, hdiv, hmod, List.getD_cons_succ]

theorem getLsbD_word (bigEndian : Bool) (xs : Bytes n) {i : ℕ} (hi : i < 8 * n) :
    (word bigEndian xs).getLsbD i =
      ((leastFirst bigEndian xs.1).getD (i / 8) 0).getLsbD (i % 8) := by
  rw [word, BitVec.getLsbD_ofNat, testBit_value]
  simp [hi]

theorem leastFirst_zipWith (bigEndian : Bool) (f : Byte → Byte → Byte) {xs ys : List Byte}
    (h : xs.length = ys.length) :
    leastFirst bigEndian (List.zipWith f xs ys) =
      List.zipWith f (leastFirst bigEndian xs) (leastFirst bigEndian ys) := by
  cases bigEndian with
  | false => rfl
  | true => exact List.reverse_zipWith h

/-! ### Actions on words -/

/-- The operation on words that an action stands for. -/
def onWords {w : ℕ} (kind : RmwKind) (x y : BitVec w) : BitVec w :=
  match kind with
  | .xchg => y
  | .add => x + y
  | .sub => x - y
  | .and => x &&& y
  | .nand => ~~~(x &&& y)
  | .or => x ||| y
  | .xor => x ^^^ y
  | .max => if y.slt x then x else y
  | .min => if x.slt y then x else y
  | .umax => if y < x then x else y
  | .umin => if x < y then x else y

theorem eq_of_zmod {x y : BitVec (8 * n)} (h : (x.toNat : ZMod (256 ^ n)) = y.toNat) : x = y := by
  apply BitVec.eq_of_toNat_eq
  have hmod := (ZMod.natCast_eq_natCast_iff' _ _ _).mp h
  have hx := x.isLt
  have hy := y.isLt
  rw [two_pow_eight_mul] at hx hy
  rwa [Nat.mod_eq_of_lt hx, Nat.mod_eq_of_lt hy] at hmod

theorem toNat_onWords_carry {kind : RmwKind} (hkind : kind = .add ∨ kind = .sub)
    (x y : BitVec (8 * n)) :
    ((onWords kind x y).toNat : ZMod (256 ^ n)) = x.toNat + signOf kind * y.toNat := by
  have hle : y.toNat ≤ 256 ^ n := by
    rw [← two_pow_eight_mul]
    exact y.isLt.le
  cases hkind with
  | inl hadd =>
      rw [hadd, onWords, BitVec.toNat_add, two_pow_eight_mul, ZMod.natCast_mod]
      simp [signOf]
  | inr hsub =>
      rw [hsub, onWords, BitVec.toNat_sub, two_pow_eight_mul, ZMod.natCast_mod,
        Nat.cast_add, Nat.cast_sub hle, ZMod.natCast_self]
      simp only [signOf, reduceCtorEq, if_false, Int.cast_neg, Int.cast_one]
      ring

theorem word_carry (bigEndian : Bool) (action : RmwAction n)
    (hkind : action.kind = .add ∨ action.kind = .sub) (data : Bytes n) :
    word bigEndian (action.applyTo bigEndian data) =
      onWords action.kind (word bigEndian data) (word bigEndian action.operand) := by
  apply eq_of_zmod
  rw [toNat_onWords_carry hkind, toNat_word, toNat_word, toNat_word]
  exact value_result_carry bigEndian hkind data.2 action.operand.2

theorem word_bitwise (bigEndian : Bool) (action : RmwAction n)
    (hkind : action.kind = .and ∨ action.kind = .nand ∨ action.kind = .or ∨ action.kind = .xor)
    (data : Bytes n) :
    word bigEndian (action.applyTo bigEndian data) =
      onWords action.kind (word bigEndian data) (word bigEndian action.operand) := by
  have hlen := data.2.trans action.operand.2.symm
  have hdata := (length_leastFirst bigEndian data.1).trans data.2
  have hoperand := (length_leastFirst bigEndian action.operand.1).trans action.operand.2
  apply BitVec.eq_of_getLsbD_eq
  intro i hi
  have hbyte : i / 8 < n := by omega
  rw [getLsbD_word bigEndian _ hi]
  rcases hkind with hkind | hkind | hkind | hkind
  all_goals
    simp only [hkind, applyTo, result, onWords, leastFirst_zipWith bigEndian _ hlen,
      BitVec.getLsbD_and, BitVec.getLsbD_or, BitVec.getLsbD_xor, BitVec.getLsbD_not,
      getLsbD_word bigEndian _ hi, hi]
    simp [hdata, hoperand, hbyte, Nat.mod_lt]

/-- Of two equal numbers either is the minimum. -/
theorem min_slt {w : ℕ} (x y : BitVec w) :
    (if y.slt x = true then y else x) = if x.slt y = true then x else y := by
  simp only [BitVec.slt_iff_toInt_lt]
  rcases lt_trichotomy x.toInt y.toInt with h | h | h
  · rw [if_neg h.not_gt, if_pos h]
  · rw [BitVec.eq_of_toInt_eq h]
  · rw [if_pos h, if_neg h.not_gt]

theorem min_lt {w : ℕ} (x y : BitVec w) :
    (if decide (y < x) = true then y else x) = if x < y then x else y := by
  simp only [decide_eq_true_eq, BitVec.lt_def]
  rcases lt_trichotomy x.toNat y.toNat with h | h | h
  · rw [if_neg h.not_gt, if_pos h]
  · rw [BitVec.eq_of_toNat_eq h]
  · rw [if_pos h, if_neg h.not_gt]

theorem word_select (bigEndian : Bool) (action : RmwAction n)
    (hkind : action.kind = .max ∨ action.kind = .min ∨ action.kind = .umax ∨ action.kind = .umin)
    (data : Bytes n) :
    word bigEndian (action.applyTo bigEndian data) =
      onWords action.kind (word bigEndian data) (word bigEndian action.operand) := by
  have hunsigned := apcmp_eq_gt bigEndian (data.2.trans action.operand.2.symm)
  have hsigned := sapcmp_eq_gt bigEndian (data.2.trans action.operand.2.symm)
  rw [← toNat_word, ← toNat_word, ← BitVec.lt_def] at hunsigned
  rw [← toInt_word, ← toInt_word, ← BitVec.slt_iff_toInt_lt] at hsigned
  have hresult : action.applyTo bigEndian data =
      if takeRhs bigEndian action.kind data.1 action.operand.1 then action.operand else data := by
    apply Subtype.ext
    rcases hkind with hkind | hkind | hkind | hkind
    all_goals
      simp only [hkind, applyTo, result]
      split <;> rfl
  rw [hresult, apply_ite (word bigEndian)]
  generalize word bigEndian data = x at hunsigned hsigned ⊢
  generalize word bigEndian action.operand = y at hunsigned hsigned ⊢
  rcases hkind with hkind | hkind | hkind | hkind
  · simp only [hkind, takeRhs, onWords, ← hsigned]
    by_cases h : sapcmp bigEndian data.1 action.operand.1 = .gt <;> simp [h]
  · have hgt : takeRhs bigEndian .min data.1 action.operand.1 = y.slt x := by
      rw [Bool.eq_iff_iff, ← hsigned]
      simp [takeRhs]
    rw [hkind, hgt, onWords]
    exact min_slt x y
  · simp only [hkind, takeRhs, onWords, ← hunsigned]
    by_cases h : apcmp bigEndian data.1 action.operand.1 = .gt <;> simp [h]
  · have hgt : takeRhs bigEndian .umin data.1 action.operand.1 = decide (y < x) := by
      rw [Bool.eq_iff_iff, decide_eq_true_eq, ← hunsigned]
      simp [takeRhs]
    rw [hkind, hgt, onWords]
    exact min_lt x y

/-- An action computes the operation of words on the encoded words. -/
theorem word_applyTo (bigEndian : Bool) (action : RmwAction n) (data : Bytes n) :
    word bigEndian (action.applyTo bigEndian data) =
      onWords action.kind (word bigEndian data) (word bigEndian action.operand) := by
  cases hkind : action.kind with
  | add | sub => exact hkind ▸ word_carry bigEndian action (by simp [hkind]) data
  | and | nand | or | xor => exact hkind ▸ word_bitwise bigEndian action (by simp [hkind]) data
  | max | min | umax | umin => exact hkind ▸ word_select bigEndian action (by simp [hkind]) data
  | xchg =>
      have hresult : action.applyTo bigEndian data = action.operand := by
        simp [applyTo, result, hkind]
      rw [hresult, onWords]

end Nidhugg.RmwAction
