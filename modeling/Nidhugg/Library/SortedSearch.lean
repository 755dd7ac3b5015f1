import Mathlib.Order.Lattice
import Mathlib.Order.Nat
import Mathlib.Data.List.Basic

/-! # Binary search bounds of a sorted list -/

namespace SortedSearch

variable {α : Type*} [LinearOrder α]

/-- The position of the first element that is greater than `x`. -/
def upperBound (xs : List α) (x : α) : ℕ := xs.findIdx (x < ·)

/-- The position of the first element that is not less than `x`. -/
def lowerBound (xs : List α) (x : α) : ℕ := xs.findIdx (x ≤ ·)

/-- The elements in front of the upper bound are those up to `x`. -/
theorem mem_take_upperBound {xs : List α} (hs : xs.Pairwise (· < ·)) (x y : α) :
    y ∈ xs.take (upperBound xs x) ↔ y ∈ xs ∧ y ≤ x := by
  induction xs with
  | nil => simp
  | cons z zs ih =>
      obtain ⟨hz, hzs⟩ := List.pairwise_cons.mp hs
      by_cases hxz : x < z
      · simp only [upperBound, List.findIdx_cons, hxz, decide_true, cond_true, List.take_zero,
          List.not_mem_nil, false_iff, not_and, not_le]
        intro hy
        rcases List.mem_cons.mp hy with rfl | hy
        · exact hxz
        · exact hxz.trans (hz y hy)
      · have hle : z ≤ x := le_of_not_gt hxz
        simp only [upperBound, List.findIdx_cons, hxz, decide_false, cond_false,
          List.take_succ_cons, List.mem_cons]
        rw [← upperBound, ih hzs]
        constructor
        · rintro (rfl | ⟨hy, hyx⟩)
          · exact ⟨.inl rfl, hle⟩
          · exact ⟨.inr hy, hyx⟩
        · rintro ⟨rfl | hy, hyx⟩
          · exact .inl rfl
          · exact .inr ⟨hy, hyx⟩

/-- The elements from the lower bound on are those from `x` on. -/
theorem mem_drop_lowerBound {xs : List α} (hs : xs.Pairwise (· < ·)) (x y : α) :
    y ∈ xs.drop (lowerBound xs x) ↔ y ∈ xs ∧ x ≤ y := by
  induction xs with
  | nil => simp
  | cons z zs ih =>
      obtain ⟨hz, hzs⟩ := List.pairwise_cons.mp hs
      by_cases hxz : x ≤ z
      · simp only [lowerBound, List.findIdx_cons, hxz, decide_true, cond_true, List.drop_zero]
        constructor
        · intro hy
          refine ⟨hy, ?_⟩
          rcases List.mem_cons.mp hy with rfl | hy
          · exact hxz
          · exact hxz.trans (hz y hy).le
        · exact And.left
      · simp only [lowerBound, List.findIdx_cons, hxz, decide_false, cond_false,
          List.drop_succ_cons, List.mem_cons]
        rw [← lowerBound, ih hzs]
        constructor
        · rintro ⟨hy, hxy⟩
          exact ⟨.inr hy, hxy⟩
        · rintro ⟨rfl | hy, hxy⟩
          · exact absurd hxy hxz
          · exact ⟨hy, hxy⟩

/-- In a sorted list the elements in front of the first one with an upward closed property are
those without it. -/
theorem lt_findIdx_iff_of_sorted {xs : List α} (hs : xs.Pairwise (· < ·)) {p : α → Bool}
    (hp : ∀ x y, x ≤ y → p x = true → p y = true) {m : ℕ} {x : α} (hx : xs[m]? = some x) :
    m < xs.findIdx p ↔ p x = false := by
  obtain ⟨hm, rfl⟩ := List.getElem?_eq_some_iff.mp hx
  rw [List.lt_findIdx_iff]
  constructor
  · rintro ⟨_, hall⟩
    exact hall m le_rfl
  · intro hfalse
    refine ⟨hm, fun j hj => ?_⟩
    by_contra hjp
    have hle : xs[j] ≤ xs[m] := by
      rcases Nat.eq_or_lt_of_le hj with rfl | hlt
      · exact le_rfl
      · exact (List.pairwise_iff_getElem.mp hs j m _ hm hlt).le
    rw [hp _ _ hle (by simpa using hjp)] at hfalse
    simp at hfalse

theorem lt_lowerBound_iff {xs : List α} (hs : xs.Pairwise (· < ·)) {m : ℕ} {x : α}
    (hx : xs[m]? = some x) (b : α) : m < lowerBound xs b ↔ x < b := by
  rw [lowerBound, lt_findIdx_iff_of_sorted hs _ hx]
  · simp
  · intro x y hxy hbx
    simp only [decide_eq_true_eq] at hbx ⊢
    exact hbx.trans hxy

theorem lt_upperBound_iff {xs : List α} (hs : xs.Pairwise (· < ·)) {m : ℕ} {x : α}
    (hx : xs[m]? = some x) (b : α) : m < upperBound xs b ↔ x ≤ b := by
  rw [upperBound, lt_findIdx_iff_of_sorted hs _ hx]
  · simp
  · intro x y hxy hbx
    simp only [decide_eq_true_eq] at hbx ⊢
    exact hbx.trans_le hxy

/-- The last element of a sorted list is its maximum. -/
theorem getLast?_eq_some_iff {xs : List α} (hs : xs.Pairwise (· < ·)) (y : α) :
    xs.getLast? = some y ↔ y ∈ xs ∧ ∀ z ∈ xs, z ≤ y := by
  rcases List.eq_nil_or_concat xs with rfl | ⟨ys, z, rfl⟩
  · simp
  · simp only [List.concat_eq_append] at hs ⊢
    have hz : ∀ a ∈ ys, a < z := by
      intro a ha
      exact (List.pairwise_append.mp hs).2.2 a ha z (by simp)
    simp only [List.getLast?_append, List.getLast?_singleton, Option.some_or, Option.some.injEq]
    constructor
    · rintro rfl
      refine ⟨by simp, ?_⟩
      intro a ha
      rcases List.mem_append.mp ha with ha | ha
      · exact (hz a ha).le
      · exact le_of_eq (List.mem_singleton.mp ha)
    · rintro ⟨hy, hmax⟩
      rcases List.mem_append.mp hy with hy | hy
      · exact absurd (hmax z (by simp)) (not_le_of_gt (hz y hy))
      · exact (List.mem_singleton.mp hy).symm

/-- The first element of a sorted list is its minimum. -/
theorem head?_eq_some_iff {xs : List α} (hs : xs.Pairwise (· < ·)) (y : α) :
    xs.head? = some y ↔ y ∈ xs ∧ ∀ z ∈ xs, y ≤ z := by
  cases xs with
  | nil => simp
  | cons x xs =>
      have hx := (List.pairwise_cons.mp hs).1
      simp only [List.head?_cons, Option.some.injEq, List.mem_cons]
      constructor
      · rintro rfl
        refine ⟨.inl rfl, ?_⟩
        rintro z (rfl | hz)
        · exact le_rfl
        · exact (hx z hz).le
      · rintro ⟨rfl | hy, hmin⟩
        · rfl
        · exact absurd (hmin x (.inl rfl)) (not_le_of_gt (hx y hy))

/-- Stepping back over `x` leaves the greatest element other than `x`. -/
theorem getLast?_skip_eq_some_iff {xs : List α} (hs : xs.Pairwise (· < ·)) (x y : α) :
    (if xs.getLast? = some x then xs.dropLast else xs).getLast? = some y ↔
      y ∈ xs ∧ y ≠ x ∧ ∀ z ∈ xs, z ≠ x → z ≤ y := by
  rcases List.eq_nil_or_concat xs with rfl | ⟨ys, z, rfl⟩
  · simp
  · simp only [List.concat_eq_append] at hs ⊢
    obtain ⟨hys, -, hcross⟩ := List.pairwise_append.mp hs
    have hz : ∀ a ∈ ys, a < z := fun a ha => hcross a ha z (by simp)
    by_cases hzx : z = x
    · subst hzx
      simp only [List.getLast?_append, List.getLast?_singleton, Option.some_or, if_true,
        List.dropLast_concat]
      rw [getLast?_eq_some_iff hys]
      constructor
      · rintro ⟨hy, hmax⟩
        refine ⟨by simp [hy], (hz y hy).ne, ?_⟩
        intro a ha hne
        rcases List.mem_append.mp ha with ha | ha
        · exact hmax a ha
        · exact absurd (List.mem_singleton.mp ha) hne
      · rintro ⟨hy, hne, hmax⟩
        have hy' : y ∈ ys := by
          rcases List.mem_append.mp hy with hy | hy
          · exact hy
          · exact absurd (List.mem_singleton.mp hy) hne
        exact ⟨hy', fun a ha => hmax a (by simp [ha]) (hz a ha).ne⟩
    · have hlast : (ys ++ [z]).getLast? ≠ some x := by
        simpa using hzx
      rw [if_neg hlast, getLast?_eq_some_iff hs]
      constructor
      · rintro ⟨hy, hmax⟩
        refine ⟨hy, ?_, fun a ha _ => hmax a ha⟩
        rintro rfl
        have hyz := hmax z (by simp)
        rcases List.mem_append.mp hy with hy | hy
        · exact absurd hyz (not_le_of_gt (hz y hy))
        · exact hzx (List.mem_singleton.mp hy).symm
      · rintro ⟨hy, -, hmax⟩
        have hyz : z ≤ y := hmax z (by simp) hzx
        refine ⟨hy, fun a ha => ?_⟩
        rcases List.mem_append.mp ha with ha | ha
        · exact (hz a ha).le.trans hyz
        · rw [List.mem_singleton.mp ha]
          exact hyz

/-- Stepping over `x` at the front leaves the least element other than `x`. -/
theorem head?_skip_eq_some_iff {xs : List α} (hs : xs.Pairwise (· < ·)) (x y : α) :
    (if xs.head? = some x then xs.tail.head? else xs.head?) = some y ↔
      y ∈ xs ∧ y ≠ x ∧ ∀ z ∈ xs, z ≠ x → y ≤ z := by
  cases xs with
  | nil => simp
  | cons w ws =>
      obtain ⟨hw, hws⟩ := List.pairwise_cons.mp hs
      by_cases hwx : w = x
      · subst hwx
        simp only [List.head?_cons, if_true, List.tail_cons]
        rw [head?_eq_some_iff hws]
        constructor
        · rintro ⟨hy, hmin⟩
          refine ⟨by simp [hy], (hw y hy).ne', ?_⟩
          intro a ha hne
          rcases List.mem_cons.mp ha with rfl | ha
          · exact absurd rfl hne
          · exact hmin a ha
        · rintro ⟨hy, hne, hmin⟩
          rcases List.mem_cons.mp hy with rfl | hy
          · exact absurd rfl hne
          · exact ⟨hy, fun a ha => hmin a (by simp [ha]) (hw a ha).ne'⟩
      · have hhead : (w :: ws).head? ≠ some x := by simpa using hwx
        rw [if_neg hhead, head?_eq_some_iff hs]
        constructor
        · rintro ⟨hy, hmin⟩
          refine ⟨hy, ?_, fun a ha _ => hmin a ha⟩
          rintro rfl
          rcases List.mem_cons.mp hy with rfl | hy
          · exact hwx rfl
          · exact absurd (hmin w (by simp)) (not_le_of_gt (hw y hy))
        · rintro ⟨hy, -, hmin⟩
          have hyw : y ≤ w := hmin w (by simp) hwx
          refine ⟨hy, fun a ha => ?_⟩
          rcases List.mem_cons.mp ha with rfl | ha
          · exact hyw
          · exact hyw.trans (hw a ha).le

/-- The second of two consecutive entries of a sorted list determines the first. -/
theorem eq_of_consecutive {l pre pre' post post' : List α} {u v j : α}
    (hl : l.Pairwise (· < ·)) (h : l = pre ++ u :: j :: post) (h' : l = pre' ++ v :: j :: post') :
    u = v := by
  have key : ∀ {pre post pre' post' : List α} {u v : α}, l = pre ++ u :: j :: post →
      l = pre' ++ v :: j :: post' → ¬u < v := by
    intro pre post pre' post' u v h h' hlt
    have hvj : v < j := by
      rw [h'] at hl
      exact (List.pairwise_cons.mp (List.pairwise_append.mp hl).2.1).1 j (by simp)
    have hv : v ∈ l := by simp [h']
    rw [h] at hl hv
    obtain ⟨-, hright, hcross⟩ := List.pairwise_append.mp hl
    obtain ⟨-, hright⟩ := List.pairwise_cons.mp hright
    obtain ⟨hpost, -⟩ := List.pairwise_cons.mp hright
    rcases List.mem_append.mp hv with hv | hv
    · exact lt_asymm hlt (hcross v hv u (by simp))
    · rcases List.mem_cons.mp hv with rfl | hv
      · exact lt_irrefl _ hlt
      · rcases List.mem_cons.mp hv with rfl | hv
        · exact lt_irrefl _ hvj
        · exact lt_asymm hvj (hpost v hv)
  exact le_antisymm (le_of_not_gt (key h' h)) (le_of_not_gt (key h h'))

/-- An element and the one at its upper bound are consecutive. -/
theorem consecutive_upperBound {xs next : List α} {x y : α} (hs : xs.Pairwise (· < ·)) (hx : x ∈ xs)
    (h : xs.drop (upperBound xs x) = y :: next) : ∃ pre, xs = pre ++ x :: y :: next := by
  have hsplit := List.take_append_drop (upperBound xs x) xs
  have htake : (xs.take (upperBound xs x)).Pairwise (· < ·) := hs.sublist (List.take_sublist _ _)
  have hlast : (xs.take (upperBound xs x)).getLast? = some x :=
    (getLast?_eq_some_iff htake x).mpr ⟨(mem_take_upperBound hs x x).mpr ⟨hx, le_rfl⟩,
      fun z hz => ((mem_take_upperBound hs x z).mp hz).2⟩
  refine ⟨(xs.take (upperBound xs x)).dropLast, ?_⟩
  calc xs = xs.take (upperBound xs x) ++ y :: next := by rw [← h, hsplit]
    _ = ((xs.take (upperBound xs x)).dropLast ++ [x]) ++ y :: next := by
        rw [List.dropLast_append_getLast? x hlast]
    _ = (xs.take (upperBound xs x)).dropLast ++ x :: y :: next := by simp

end SortedSearch
