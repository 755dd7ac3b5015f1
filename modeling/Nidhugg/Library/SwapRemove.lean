import Mathlib.Data.List.Basic
import Mathlib.Data.List.Induction

/-! # Deletion by swapping with the last entry

Exchanging two entries of a list is its own inverse, so an entry that was deleted by moving the
last entry into its place can be put back where it was. -/

namespace SwapRemove

variable {α : Type*}

/-- Exchanges two entries. Both have to exist. -/
def swap (xs : List α) (i j : ℕ) : Option (List α) := do
  let x ← xs[i]?
  let y ← xs[j]?
  return (xs.set i y).set j x

theorem swap_eq_some_iff {xs ys : List α} {i j : ℕ} :
    swap xs i j = some ys ↔
      ∃ x y, xs[i]? = some x ∧ xs[j]? = some y ∧ (xs.set i y).set j x = ys := by
  simp [swap, Option.bind_eq_some_iff]

theorem length_of_swap {xs ys : List α} {i j : ℕ} (h : swap xs i j = some ys) :
    ys.length = xs.length := by
  obtain ⟨x, y, -, -, rfl⟩ := swap_eq_some_iff.mp h
  simp

theorem getElem?_of_swap {xs ys : List α} {i j : ℕ} (h : swap xs i j = some ys) :
    ys[j]? = xs[i]? := by
  obtain ⟨x, y, hx, hy, rfl⟩ := swap_eq_some_iff.mp h
  have hj := (List.getElem?_eq_some_iff.mp hy).1
  rw [List.getElem?_set_self (by simpa using hj), hx]

/-- Exchanging the entries again restores the list. -/
theorem swap_swap {xs ys : List α} {i j : ℕ} (h : swap xs i j = some ys) :
    swap ys i j = some xs := by
  obtain ⟨x, y, hx, hy, rfl⟩ := swap_eq_some_iff.mp h
  obtain ⟨hi, rfl⟩ := List.getElem?_eq_some_iff.mp hx
  obtain ⟨hj, rfl⟩ := List.getElem?_eq_some_iff.mp hy
  refine swap_eq_some_iff.mpr ⟨xs[j], xs[i], ?_, ?_, ?_⟩
  · by_cases hij : i = j
    · subst hij
      simp
    · rw [List.getElem?_set_ne (Ne.symm hij), List.getElem?_set_self hi]
  · rw [List.getElem?_set_self (by simpa using hj)]
  · apply List.ext_getElem?
    intro k
    by_cases hkj : j = k
    · subst hkj
      simp [hj]
    · by_cases hki : i = k
      · subst hki
        simp [hkj, hi]
      · simp [hkj, hki]

theorem swap_append (as bs cs : List α) (x y : α) :
    swap (as ++ x :: bs ++ y :: cs) as.length (as.length + bs.length + 1) =
      some (as ++ y :: bs ++ x :: cs) := by
  have hlength : as.length + bs.length + 1 - as.length = bs.length + 1 := by omega
  have hle : as.length ≤ as.length + bs.length + 1 := by omega
  simp [swap, List.getElem?_append_right hle, List.set_append_right _ _ hle, hlength]

theorem swap_self (as cs : List α) (x : α) :
    swap (as ++ x :: cs) as.length as.length = some (as ++ x :: cs) := by
  simp [swap]

/-- Exchanging an entry with the last one of a stretch moves it behind the others. -/
theorem swap_last (as bs cs : List α) (x : α) :
    ∃ rest, rest.Perm bs ∧
      swap (as ++ x :: bs ++ cs) as.length (as.length + bs.length) =
        some (as ++ rest ++ x :: cs) := by
  induction bs using List.reverseRecOn with
  | nil => exact ⟨[], .refl _, by simpa using swap_self as cs x⟩
  | append_singleton bs y _ =>
      refine ⟨y :: bs, (List.perm_append_singleton y bs).symm, ?_⟩
      simpa [Nat.add_assoc] using swap_append as bs cs x y

/-- Exchanging an entry with the first one of the stretch before it moves it to the front. -/
theorem swap_first (as bs cs : List α) (x : α) (h : bs ≠ []) :
    ∃ rest, rest.Perm bs ∧
      swap (as ++ bs ++ x :: cs) as.length (as.length + bs.length) =
        some (as ++ x :: rest ++ cs) := by
  cases bs with
  | nil => exact absurd rfl h
  | cons y bs =>
      refine ⟨bs ++ [y], List.perm_append_singleton y bs, ?_⟩
      simpa [Nat.add_assoc] using swap_append as bs cs y x

/-- Deletes the last occurrence of a value. Also gives its position. -/
def removeLast [DecidableEq α] (xs : List α) (x : α) : Option (ℕ × List α) :=
  ((List.range xs.length).reverse.find? fun pos => xs[pos]? = some x).bind fun pos =>
    (swap xs pos (xs.length - 1)).map fun xs => (pos, xs.dropLast)

/-- Puts a deleted value back at its position. -/
def putBack (xs : List α) (pos : ℕ) (x : α) : Option (List α) := swap (xs ++ [x]) pos xs.length

theorem putBack_removeLast [DecidableEq α] {xs ys : List α} {x : α} {pos : ℕ}
    (h : removeLast xs x = some (pos, ys)) : putBack ys pos x = some xs := by
  simp only [removeLast, Option.bind_eq_some_iff, Option.map_eq_some_iff] at h
  obtain ⟨pos', hfind, zs, hswap, hpos⟩ := h
  cases hpos
  have hx : xs[pos]? = some x := by simpa using List.find?_some hfind
  have hpos : pos < xs.length := (List.getElem?_eq_some_iff.mp hx).1
  have hlength := length_of_swap hswap
  have hlast : zs.getLast? = some x := by
    rw [List.getLast?_eq_getElem?, hlength, getElem?_of_swap hswap, hx]
  have hzs : zs.dropLast ++ [x] = zs := List.dropLast_append_getLast? x hlast
  rw [putBack, hzs, List.length_dropLast, hlength]
  exact swap_swap hswap

theorem mem_of_swap {xs ys : List α} {i j : ℕ} (h : swap xs i j = some ys) {z : α} (hz : z ∈ ys) :
    z ∈ xs := by
  obtain ⟨x, y, hx, hy, rfl⟩ := swap_eq_some_iff.mp h
  cases List.mem_or_eq_of_mem_set hz with
  | inl hz =>
      cases List.mem_or_eq_of_mem_set hz with
      | inl hz => exact hz
      | inr hz => exact hz ▸ List.mem_of_getElem? hy
  | inr hz => exact hz ▸ List.mem_of_getElem? hx

/-- Only the deleted value is missing. -/
theorem mem_of_removeLast [DecidableEq α] {xs ys : List α} {x z : α} {pos : ℕ}
    (h : removeLast xs x = some (pos, ys)) (hz : z ∈ xs) (hne : z ≠ x) : z ∈ ys := by
  have hmem := mem_of_swap (putBack_removeLast h) hz
  cases List.mem_append.mp hmem with
  | inl hz => exact hz
  | inr hz => exact absurd (List.mem_singleton.mp hz) hne

theorem exists_removeLast [DecidableEq α] {xs : List α} {x : α} (h : x ∈ xs) :
    ∃ pos ys, removeLast xs x = some (pos, ys) := by
  obtain ⟨k, hk, hx⟩ := List.getElem_of_mem h
  have hfind : ((List.range xs.length).reverse.find? fun pos => xs[pos]? = some x).isSome := by
    rw [List.find?_isSome]
    exact ⟨k, by simpa using hk, by simp [hk, hx]⟩
  obtain ⟨pos, hpos⟩ := Option.isSome_iff_exists.mp hfind
  have hget : xs[pos]? = some x := by simpa using List.find?_some hpos
  have hlast : xs.length - 1 < xs.length := by omega
  have hswap : swap xs pos (xs.length - 1) =
      some ((xs.set pos xs[xs.length - 1]).set (xs.length - 1) x) := by
    simp [swap, hget, List.getElem?_eq_getElem hlast]
  exact ⟨pos, _, by rw [removeLast, hpos, Option.bind_some, hswap, Option.map_some]⟩

end SwapRemove
