import Mathlib.Data.List.Lex
import Mathlib.Data.List.Sort
import Mathlib.Data.Prod.Lex
import Nidhugg.Library.AssocList
import Nidhugg.Model.VClock

/-! # Comparing clocks over an ordered domain

The loops go through the keys of both maps in order. The comparisons entry by entry read off the
pointwise relation, the lexicographic ones compare the entries that are not zero. -/

namespace Nidhugg.VClockMap

variable {δ : Type*} [LinearOrder δ]

/-! ### Values -/

@[simp] theorem value_nil (d : δ) : value [] d = 0 := rfl

@[simp] theorem value_cons_self (d : δ) (n : ℕ) (entries : List (δ × ℕ)) :
    value ((d, n) :: entries) d = n := by
  simp [value]

theorem value_cons_of_ne {d x : δ} (h : d ≠ x) (n : ℕ) (entries : List (δ × ℕ)) :
    value ((x, n) :: entries) d = value entries d := by
  rw [value, AssocList.lookup_cons_of_ne h]
  rfl

/-- Keys in front of all entries are absent. -/
theorem value_eq_zero {entries : List (δ × ℕ)} {d : δ} (h : ∀ e ∈ entries, d < e.1) :
    value entries d = 0 := by
  have hnone : entries.lookup d = none := by
    rw [AssocList.lookup_eq_none_iff]
    intro hd
    obtain ⟨e, he, rfl⟩ := List.mem_map.mp hd
    exact lt_irrefl _ (h e he)
  rw [value, hnone, Option.getD_none]

theorem value_tail {x : δ} {n : ℕ} {entries : List (δ × ℕ)}
    (h : ((x, n) :: entries).Pairwise (·.1 < ·.1)) : value entries x = 0 :=
  value_eq_zero (List.pairwise_cons.mp h).1

theorem value_of_lt {x y : δ} {n : ℕ} {entries : List (δ × ℕ)}
    (h : ((x, n) :: entries).Pairwise (·.1 < ·.1)) (hy : y < x) :
    value ((x, n) :: entries) y = 0 := by
  refine value_eq_zero fun e he => ?_
  cases he with
  | head => exact hy
  | tail _ he => exact hy.trans ((List.pairwise_cons.mp h).1 e he)

/-! ### Comparisons entry by entry -/

section Pointwise

variable {R S : ℕ → ℕ → Prop} [DecidableRel R] [DecidableRel S]
  {onlyRight onlyLeft : ℕ → Bool → Option Bool} {both : ℕ → ℕ → Bool → Option Bool}

/-- The answers of the loop ask for `R` and set the flag for `S`, absent entries being zero. -/
structure Decides (R S : ℕ → ℕ → Prop) [DecidableRel R] [DecidableRel S]
    (onlyRight onlyLeft : ℕ → Bool → Option Bool) (both : ℕ → ℕ → Bool → Option Bool) : Prop where
  both_eq : ∀ m n strict, both m n strict = if R m n then some (strict || decide (S m n)) else none
  right_eq : ∀ n strict, onlyRight n strict = both 0 n strict
  left_eq : ∀ m strict, onlyLeft m strict = both m 0 strict
  zero : R 0 0
  not_zero : ¬S 0 0

/-- What one pair of entries and the rest of the loop find out about all keys. -/
theorem Decides.bind (h : Decides R S onlyRight onlyLeft both) {u v u' v' : δ → ℕ} (k : δ)
    {m n : ℕ} (hm : u k = m) (hn : v k = n) (hu : ∀ d, d ≠ k → u d = u' d)
    (hv : ∀ d, d ≠ k → v d = v' d) (hu' : u' k = 0) (hv' : v' k = 0)
    {rest : Bool → Option Bool} {strict result : Bool}
    (hrest : ∀ strict, rest strict = some result ↔ (∀ d, R (u' d) (v' d)) ∧
      (result = true ↔ strict = true ∨ ∃ d, S (u' d) (v' d))) :
    (both m n strict).bind rest = some result ↔ (∀ d, R (u d) (v d)) ∧
      (result = true ↔ strict = true ∨ ∃ d, S (u d) (v d)) := by
  have hall : (∀ d, R (u d) (v d)) ↔ R (u k) (v k) ∧ ∀ d, R (u' d) (v' d) := by
    constructor
    · intro hR
      refine ⟨hR k, fun d => ?_⟩
      by_cases hd : d = k
      · rw [hd, hu', hv']
        exact h.zero
      · rw [← hu d hd, ← hv d hd]
        exact hR d
    · intro ⟨hk, hR⟩ d
      by_cases hd : d = k
      · rw [hd]
        exact hk
      · rw [hu d hd, hv d hd]
        exact hR d
  have hexists : (∃ d, S (u d) (v d)) ↔ S (u k) (v k) ∨ ∃ d, S (u' d) (v' d) := by
    constructor
    · intro ⟨d, hS⟩
      by_cases hd : d = k
      · exact .inl (hd ▸ hS)
      · exact .inr ⟨d, by rwa [← hu d hd, ← hv d hd]⟩
    · intro hS
      cases hS with
      | inl hk => exact ⟨k, hk⟩
      | inr hS =>
          obtain ⟨d, hS⟩ := hS
          have hd : d ≠ k := by
            intro hd
            rw [hd, hu', hv'] at hS
            exact h.not_zero hS
          exact ⟨d, by rwa [hu d hd, hv d hd]⟩
  rw [h.both_eq, hall, hexists, ← hm, ← hn]
  by_cases hk : R (u k) (v k)
  · simp only [hk, if_true, Option.bind_some, hrest, Bool.or_eq_true, decide_eq_true_eq, true_and,
      or_assoc]
  · simp [hk]

theorem mergeFrom_eq_some_iff (h : Decides R S onlyRight onlyLeft both) (a b : List (δ × ℕ))
    (strict result : Bool) (ha : a.Pairwise (·.1 < ·.1)) (hb : b.Pairwise (·.1 < ·.1)) :
    mergeFrom onlyRight onlyLeft both a b strict = some result ↔
      (∀ d, R (value a d) (value b d)) ∧
        (result = true ↔ strict = true ∨ ∃ d, S (value a d) (value b d)) := by
  induction a, b, strict using mergeFrom.induct with
  | case1 strict =>
      simp only [mergeFrom, value_nil, h.zero, h.not_zero, Option.some.injEq, implies_true,
        exists_const_iff, and_false, or_false, true_and]
      rw [Bool.eq_iff_iff]
      exact ⟨Iff.symm, Iff.symm⟩
  | case2 y n b strict ih =>
      rw [mergeFrom, h.right_eq]
      exact h.bind y rfl (value_cons_self y n b) (fun _ _ => rfl)
        (fun d hd => value_cons_of_ne hd n b) rfl (value_tail hb) fun strict => ih strict ha hb.tail
  | case3 x m a strict ih =>
      rw [mergeFrom, h.left_eq]
      exact h.bind x (value_cons_self x m a) rfl (fun d hd => value_cons_of_ne hd m a)
        (fun _ _ => rfl) (value_tail ha) rfl fun strict => ih strict ha.tail hb
  | case4 x m a y n b strict hyx ih =>
      rw [mergeFrom, if_pos hyx, h.right_eq]
      exact h.bind y (value_of_lt ha hyx) (value_cons_self y n b) (fun _ _ => rfl)
        (fun d hd => value_cons_of_ne hd n b) (value_of_lt ha hyx) (value_tail hb)
        fun strict => ih strict ha hb.tail
  | case5 x m a y n b strict hyx hxy ih =>
      rw [mergeFrom, if_neg hyx, if_pos hxy, h.left_eq]
      exact h.bind x (value_cons_self x m a) (value_of_lt hb hxy)
        (fun d hd => value_cons_of_ne hd m a) (fun _ _ => rfl) (value_tail ha)
        (value_of_lt hb hxy) fun strict => ih strict ha.tail hb
  | case6 x m a y n b strict hyx hxy ih =>
      obtain rfl : x = y := le_antisymm (le_of_not_gt hyx) (le_of_not_gt hxy)
      rw [mergeFrom, if_neg hyx, if_neg hxy]
      exact h.bind x (value_cons_self x m a) (value_cons_self x n b)
        (fun d hd => value_cons_of_ne hd m a) (fun d hd => value_cons_of_ne hd n b)
        (value_tail ha) (value_tail hb) fun strict => ih strict ha.tail hb.tail

/-- Comparisons that only ask for `R`. -/
theorem isSome_mergeFrom_iff (h : Decides R (fun _ _ => False) onlyRight onlyLeft both)
    (a b : VClockMap δ) :
    (mergeFrom onlyRight onlyLeft both a.clocks b.clocks false).isSome = true ↔
      ∀ d, R (a.get d) (b.get d) := by
  rw [Option.isSome_iff_exists]
  constructor
  · intro ⟨result, hresult⟩
    exact ((mergeFrom_eq_some_iff h _ _ _ _ a.sorted b.sorted).mp hresult).1
  · intro hR
    exact ⟨false, (mergeFrom_eq_some_iff h _ _ _ _ a.sorted b.sorted).mpr ⟨hR, by simp⟩⟩

end Pointwise

theorem eq_iff (a b : VClockMap δ) : a.eq b = true ↔ ∀ d, a.get d = b.get d := by
  refine isSome_mergeFrom_iff ⟨?_, ?_, ?_, rfl, not_false⟩ a b
  · intro m n strict
    by_cases h : m = n <;> simp [h]
  · intro n strict
    simp [eq_comm]
  · intro m strict
    rfl

theorem leq_iff (a b : VClockMap δ) : a.leq b = true ↔ ∀ d, a.get d ≤ b.get d := by
  refine isSome_mergeFrom_iff ⟨?_, ?_, ?_, Nat.le_refl 0, not_false⟩ a b
  · intro m n strict
    by_cases h : n < m <;> simp [h, Nat.not_le.mpr, Nat.le_of_not_lt]
  · intro n strict
    simp
  · intro m strict
    rfl

theorem lt_iff (a b : VClockMap δ) :
    a.lt b = true ↔ (∀ d, a.get d ≤ b.get d) ∧ ∃ d, a.get d < b.get d := by
  have hdecides : Decides (· ≤ ·) (· < ·)
      (fun n strict => some (if 0 < n then true else strict))
      (fun m strict => if 0 < m then none else some strict)
      (fun m n strict => if n < m then none else some (if m < n then true else strict)) := by
    refine ⟨?_, ?_, ?_, Nat.le_refl 0, Nat.lt_irrefl 0⟩
    · intro m n strict
      by_cases h : n < m
      · simp [h, Nat.not_le.mpr h]
      · by_cases hmn : m < n <;> simp [h, hmn, Nat.le_of_not_lt h]
    · intro n strict
      simp
    · intro m strict
      simp
  have hiff := mergeFrom_eq_some_iff hdecides a.clocks b.clocks false true a.sorted b.sorted
  rw [lt]
  simp only [true_iff, Bool.false_eq_true, false_or] at hiff
  refine Iff.trans ?_ hiff
  cases mergeFrom (fun n strict => some (if 0 < n then true else strict)) _ _ a.clocks b.clocks
    false <;> simp

theorem gt_iff (a b : VClockMap δ) :
    a.gt b = true ↔ (∀ d, b.get d ≤ a.get d) ∧ ∃ d, b.get d < a.get d := lt_iff b a

theorem geq_iff (a b : VClockMap δ) : a.geq b = true ↔ ∀ d, b.get d ≤ a.get d := leq_iff b a

/-! ### Entries that are not zero -/

/-- The entries that the lexicographic comparisons look at. -/
def support (entries : List (δ × ℕ)) : List (δ ×ₗ ℕ) :=
  (entries.filter (·.2 ≠ 0)).map toLex

theorem mem_support_iff {entries : List (δ × ℕ)} (h : entries.Pairwise (·.1 < ·.1)) (e : δ × ℕ) :
    e ∈ entries.filter (·.2 ≠ 0) ↔ e.2 ≠ 0 ∧ value entries e.1 = e.2 := by
  have hnodup : (AssocList.keys entries).Nodup := by
    rw [List.Nodup, AssocList.keys, List.pairwise_map]
    exact h.imp fun hlt => ne_of_lt hlt
  simp only [List.mem_filter, decide_eq_true_eq]
  constructor
  · intro ⟨hmem, hne⟩
    refine ⟨hne, ?_⟩
    rw [value, AssocList.lookup_of_mem hnodup hmem, Option.getD_some]
  · intro ⟨hne, hvalue⟩
    refine ⟨?_, hne⟩
    cases hlookup : entries.lookup e.1 with
    | none =>
        rw [value, hlookup, Option.getD_none] at hvalue
        exact absurd hvalue.symm hne
    | some n =>
        rw [value, hlookup, Option.getD_some] at hvalue
        have hmem := AssocList.mem_of_lookup hlookup
        rwa [hvalue] at hmem

/-- Clocks agree everywhere exactly if they have the same entries that are not zero. -/
theorem support_eq_iff (a b : VClockMap δ) :
    support a.clocks = support b.clocks ↔ ∀ d, a.get d = b.get d := by
  have hmap : support a.clocks = support b.clocks ↔
      a.clocks.filter (·.2 ≠ 0) = b.clocks.filter (·.2 ≠ 0) :=
    (List.map_injective_iff.mpr toLex.injective).eq_iff
  rw [hmap]
  constructor
  · intro h d
    by_cases ha : a.get d = 0
    · by_contra hne
      have hb : (d, b.get d) ∈ b.clocks.filter (·.2 ≠ 0) :=
        (mem_support_iff b.sorted _).mpr ⟨fun hb => hne (ha.trans hb.symm), rfl⟩
      rw [← h] at hb
      exact hne ((mem_support_iff a.sorted _).mp hb).2
    · have hmem : (d, a.get d) ∈ a.clocks.filter (·.2 ≠ 0) :=
        (mem_support_iff a.sorted _).mpr ⟨ha, rfl⟩
      rw [h] at hmem
      exact ((mem_support_iff b.sorted _).mp hmem).2.symm
  · intro h
    have hsorted : ∀ c : VClockMap δ, (c.clocks.filter (·.2 ≠ 0)).Pairwise (·.1 < ·.1) :=
      fun c => c.sorted.filter _
    have hnodup : ∀ c : VClockMap δ, (c.clocks.filter (·.2 ≠ 0)).Nodup :=
      fun c => (hsorted c).imp fun {x y} hlt heq => ne_of_lt hlt (congrArg Prod.fst heq)
    refine List.Perm.eq_of_pairwise ?_ (hsorted a) (hsorted b) ?_
    · intro x y _ _ hxy hyx
      exact absurd hyx (lt_asymm hxy)
    · rw [List.perm_ext_iff_of_nodup (hnodup a) (hnodup b)]
      intro e
      rw [mem_support_iff a.sorted, mem_support_iff b.sorted]
      have he : value a.clocks e.1 = value b.clocks e.1 := h e.1
      rw [he]

/-! ### Lexicographic comparisons -/

omit [LinearOrder δ] in
theorem support_skipZeros (entries : List (δ × ℕ)) :
    support entries = support (skipZeros entries) := by
  induction entries with
  | nil => rfl
  | cons e entries ih =>
      by_cases h : e.2 = 0
      · simpa [support, skipZeros, h] using ih
      · simp [support, skipZeros, h]

omit [LinearOrder δ] in
theorem support_of_skipZeros {entries rest : List (δ × ℕ)} {x : δ} {n : ℕ}
    (h : skipZeros entries = (x, n) :: rest) : support entries = toLex (x, n) :: support rest := by
  have hn : n ≠ 0 := by
    have hhead := List.head?_dropWhile_not (fun e : δ × ℕ => e.2 == 0) entries
    rw [show entries.dropWhile (·.2 == 0) = (x, n) :: rest from h] at hhead
    simpa using hhead
  rw [support_skipZeros, h, support, List.filter_cons_of_pos (by simpa using hn)]
  rfl

omit [LinearOrder δ] in
theorem support_of_skipZeros_nil {entries : List (δ × ℕ)} (h : skipZeros entries = []) :
    support entries = [] := by
  rw [support_skipZeros, h]
  rfl

/-- The loop compares the entries that are not zero, and `atEnd` says whether equality will do. -/
theorem lexFrom_iff (leftEnds : Bool → Bool) {atEnd : Bool} (htrue : leftEnds true = true)
    (hfalse : leftEnds false = atEnd) (a b : List (δ × ℕ)) :
    lexFrom leftEnds atEnd a b = true ↔
      support a < support b ∨ atEnd = true ∧ support a = support b := by
  induction hlength : a.length using Nat.strong_induction_on generalizing a b with
  | _ n ih =>
      rw [lexFrom]
      split
      · rename_i hempty
        simp only [Bool.and_eq_true, List.isEmpty_iff] at hempty
        simp [hempty.1, hempty.2]
      · split
        · rename_i ha
          rw [support_of_skipZeros_nil ha]
          cases hb : skipZeros b with
          | nil => simp [support_of_skipZeros_nil hb, hfalse]
          | cons e b' => simp [support_of_skipZeros hb, htrue]
        · rename_i e a' ha hb
          simp [support_of_skipZeros ha, support_of_skipZeros_nil hb]
        · rename_i x m a' y k b' ha hb
          have hrest := ih a'.length (hlength ▸ length_lt_of_skipZeros ha) a' b' rfl
          rw [support_of_skipZeros ha, support_of_skipZeros hb, List.cons_lt_cons_iff,
            Prod.Lex.toLex_lt_toLex, List.cons.injEq, toLex_inj, Prod.mk.injEq]
          by_cases hxy : x < y
          · simp [hxy]
          · by_cases hyx : y < x
            · simp [hxy, hyx, ne_of_gt hyx]
            · obtain rfl : x = y := le_antisymm (le_of_not_gt hyx) (le_of_not_gt hxy)
              by_cases hmk : m < k
              · simp [hmk]
              · by_cases hkm : k < m
                · simp [hmk, hkm, Nat.ne_of_gt hkm]
                · obtain rfl : m = k := by omega
                  simpa using hrest

/-! ### The total order -/

/-- `operator<` is the lexicographic order of the entries that are not zero. -/
theorem less_iff (a b : VClockMap δ) : a.less b = true ↔ support a.clocks < support b.clocks := by
  simpa [less] using lexFrom_iff (fun more => more) rfl rfl a.clocks b.clocks

theorem lessEq_iff (a b : VClockMap δ) :
    a.lessEq b = true ↔ support a.clocks < support b.clocks ∨
      support a.clocks = support b.clocks := by
  simpa [lessEq] using lexFrom_iff (fun _ => true) rfl rfl a.clocks b.clocks

theorem eq_iff_support (a b : VClockMap δ) :
    a.eq b = true ↔ support a.clocks = support b.clocks := by
  rw [eq_iff, support_eq_iff]

/-- The comparisons mean what they mean for functions on the domain, and `operator<` orders the
clocks totally up to `operator==`. -/
structure OrderLaws (a b : VClockMap δ) : Prop where
  eq : a.eq b = true ↔ ∀ d, a.get d = b.get d
  leq : a.leq b = true ↔ ∀ d, a.get d ≤ b.get d
  lt : a.lt b = true ↔ (∀ d, a.get d ≤ b.get d) ∧ ∃ d, a.get d < b.get d
  geq : a.geq b = true ↔ ∀ d, b.get d ≤ a.get d
  gt : a.gt b = true ↔ (∀ d, b.get d ≤ a.get d) ∧ ∃ d, b.get d < a.get d
  lessEq : a.lessEq b = true ↔ a.less b = true ∨ a.eq b = true
  less_irrefl : a.eq b = true → a.less b = false
  less_total : a.eq b = false → a.less b = true ∨ b.less a = true
  less_asymm : a.less b = true → b.less a = false
  less_trans : ∀ c, a.less b = true → b.less c = true → a.less c = true
  less_congr : ∀ a' b' : VClockMap δ, a'.eq a = true → b'.eq b = true → a'.less b' = a.less b

theorem orderLaws (a b : VClockMap δ) : OrderLaws a b where
  eq := eq_iff a b
  leq := leq_iff a b
  lt := lt_iff a b
  geq := geq_iff a b
  gt := gt_iff a b
  lessEq := by rw [lessEq_iff, less_iff, eq_iff_support]
  less_irrefl := by
    intro h
    rw [← Bool.not_eq_true, less_iff, (eq_iff_support a b).mp h]
    exact lt_irrefl _
  less_total := by
    intro h
    rw [← Bool.not_eq_true, eq_iff_support] at h
    rw [less_iff, less_iff]
    exact lt_or_gt_of_ne h
  less_asymm := by
    intro h
    rw [less_iff] at h
    rw [← Bool.not_eq_true, less_iff]
    exact lt_asymm h
  less_trans := by
    intro c hab hbc
    rw [less_iff] at *
    exact lt_trans hab hbc
  less_congr := by
    intro a' b' ha hb
    rw [Bool.eq_iff_iff, less_iff, less_iff, (eq_iff_support a' a).mp ha,
      (eq_iff_support b' b).mp hb]

end Nidhugg.VClockMap
