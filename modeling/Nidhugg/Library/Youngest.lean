import Mathlib.Data.List.Basic

/-! # The youngest entry of a queue

New entries are added at the back of a queue. A search from the back finds the youngest
entry with a property. -/

namespace Youngest

variable {α β : Type*} {p : α → Bool}

/-- The position of the last entry that satisfies `p`. -/
def youngest? (p : α → Bool) : List α → Option ℕ
  | [] => none
  | x :: xs =>
      match youngest? p xs with
      | some i => some (i + 1)
      | none => if p x then some 0 else none

theorem youngest?_eq_none_iff {l : List α} : youngest? p l = none ↔ ∀ x ∈ l, p x = false := by
  induction l with
  | nil => simp [youngest?]
  | cons x xs ih =>
      rw [youngest?]
      cases h : youngest? p xs with
      | some i =>
          have hne : ¬ ∀ y ∈ xs, p y = false := fun hall => by simp [ih.mpr hall] at h
          simp only [reduceCtorEq, List.forall_mem_cons, false_iff, not_and]
          exact fun _ => hne
      | none =>
          have hall := ih.mp h
          cases hx : p x with
          | true => simp [hx]
          | false => simpa [hx] using hall

theorem youngest?_eq_some_iff {l : List α} {i : ℕ} : youngest? p l = some i ↔
    ∃ xs x ys, l = xs ++ x :: ys ∧ xs.length = i ∧ p x = true ∧ ∀ y ∈ ys, p y = false := by
  induction l generalizing i with
  | nil => simp [youngest?]
  | cons z zs ih =>
      rw [youngest?]
      constructor
      · intro h
        cases hzs : youngest? p zs with
        | some j =>
            simp only [hzs, Option.some.injEq] at h
            obtain ⟨xs, x, ys, rfl, hlength, hx, hys⟩ := ih.mp hzs
            exact ⟨z :: xs, x, ys, rfl, by simp [hlength, h], hx, hys⟩
        | none =>
            simp only [hzs] at h
            cases hz : p z with
            | true =>
                simp only [hz, if_true, Option.some.injEq] at h
                exact ⟨[], z, zs, rfl, h, hz, youngest?_eq_none_iff.mp hzs⟩
            | false => simp [hz] at h
      · rintro ⟨xs, x, ys, heq, hlength, hx, hys⟩
        cases xs with
        | nil =>
            obtain ⟨rfl, rfl⟩ := List.cons.inj heq
            simp only [youngest?_eq_none_iff.mpr hys, hx, if_true]
            exact congrArg some hlength
        | cons w xs =>
            rw [List.cons_append] at heq
            obtain ⟨rfl, rfl⟩ := List.cons.inj heq
            have hrest : youngest? p (xs ++ x :: ys) = some xs.length :=
              ih.mpr ⟨xs, x, ys, rfl, rfl, hx, hys⟩
            simp only [hrest]
            exact congrArg some hlength

theorem youngest?_map (f : β → α) (l : List β) :
    youngest? p (l.map f) = youngest? (fun x => p (f x)) l := by
  induction l with
  | nil => rfl
  | cons x xs ih => simp only [List.map_cons, youngest?, ih]

end Youngest
