import Mathlib.Data.List.Induction
import Mathlib.Data.List.InsertIdx

/-! # Orders that are built by insertions

An element is inserted at a position of a list. What holds of the elements that a predicate keeps,
and a loop that makes room for the element in place. -/

namespace InsertionOrder

variable {α : Type*} {l l' : List α} {a x : α} {p : ℕ}

theorem insertIdx_eq (hp : p ≤ l.length) : l.insertIdx p a = l.take p ++ a :: l.drop p := by
  induction l generalizing p with
  | nil =>
      obtain rfl : p = 0 := Nat.le_zero.mp hp
      rfl
  | cons y l ih =>
      cases p with
      | zero => rfl
      | succ p =>
          rw [List.insertIdx_succ_cons, ih (Nat.le_of_succ_le_succ hp), List.take_succ_cons,
            List.drop_succ_cons, List.cons_append]

/-! ### Kept elements -/

section

variable {K K' : α → Bool}

theorem filter_insertIdx_of_not (hp : p ≤ l.length) (ha : K a = false) :
    (l.insertIdx p a).filter K = l.filter K := by
  rw [insertIdx_eq hp, List.filter_append, List.filter_cons_of_neg (by simp [ha]),
    ← List.filter_append, List.take_append_drop]

/-- The position of a kept element counts the kept elements in front of it. -/
theorem filter_insertIdx (hp : p ≤ l.length) (ha : K a = true) :
    (l.insertIdx p a).filter K = (l.filter K).insertIdx ((l.take p).countP K) a := by
  have hsplit : l.filter K = (l.take p).filter K ++ (l.drop p).filter K := by
    rw [← List.filter_append, List.take_append_drop]
  have hlen : (l.take p).countP K = ((l.take p).filter K).length := List.countP_eq_length_filter
  have hle : (l.take p).countP K ≤ (l.filter K).length := by
    rw [hsplit, List.length_append, hlen]
    exact Nat.le_add_right _ _
  rw [insertIdx_eq hp, insertIdx_eq hle, List.filter_append, List.filter_cons_of_pos ha, hsplit,
    hlen, List.take_left', List.drop_left']
  · rfl
  · rfl

theorem takeWhile_insertIdx [DecidableEq α] (hp : p ≤ l.length) (ha : a ∉ l) :
    (l.insertIdx p a).takeWhile (· ≠ a) = l.take p := by
  rw [insertIdx_eq hp, List.takeWhile_append_of_pos, List.takeWhile_cons_of_neg, List.append_nil]
  · simp
  · intro x hx
    exact decide_eq_true fun heq => ha (heq ▸ List.mem_of_mem_take hx)

/-- The elements in front of a kept element can be counted among the kept elements. -/
theorem countP_takeWhile_filter [DecidableEq α] (ha : K a = true) (hK : ∀ x, K' x = true → K x) :
    ((l.filter K).takeWhile (· ≠ a)).countP K' = (l.takeWhile (· ≠ a)).countP K' := by
  induction l with
  | nil => rfl
  | cons y l ih =>
      by_cases hy : y = a
      · subst hy
        rw [List.filter_cons_of_pos ha]
        simp
      · rw [List.takeWhile_cons_of_pos (by simpa using hy)]
        by_cases hkeep : K y = true
        · rw [List.filter_cons_of_pos hkeep, List.takeWhile_cons_of_pos (by simpa using hy),
            List.countP_cons, List.countP_cons, ih]
        · rw [List.filter_cons_of_neg hkeep, List.countP_cons_of_neg fun h => hkeep (hK y h), ih]

end

/-! ### Insertion in place -/

section

variable (d : α)

/-- The elements behind a position move by one place. The loop ends at the position. -/
def shiftDown (p : ℕ) : ℕ → List α → List α
  | 0, l => l
  | turns + 1, l => shiftDown p turns (l.set (p + turns + 1) (l.getD (p + turns) d))

theorem set_shiftDown (u v w : List α) (hu : u.length = p) :
    (shiftDown d p v.length (u ++ v ++ a :: w)).set p x = u ++ x :: (v ++ w) := by
  induction v using List.reverseRecOn generalizing a w with
  | nil => simp [shiftDown, ← hu]
  | append_singleton v b ih =>
      have hget : (u ++ (v ++ [b]) ++ a :: w).getD (p + v.length) d = b := by
        simp [← hu]
      have hset : (u ++ (v ++ [b]) ++ a :: w).set (p + v.length + 1) b =
          u ++ v ++ b :: (b :: w) := by
        rw [List.set_append_right (h := by simp [← hu]; omega)]
        simp [← hu, Nat.add_assoc]
      rw [List.length_append, List.length_singleton, shiftDown, hget, hset, ih (b :: w)]
      simp

/-- The loop inserts an element. -/
theorem set_shiftDown_concat (hp : p ≤ l.length) :
    (shiftDown d p (l.length - p) (l ++ [a])).set p x = l.insertIdx p x := by
  have hsplit := set_shiftDown (a := a) (x := x) d (l.take p) (l.drop p) []
    (List.length_take_of_le hp)
  rw [List.take_append_drop, List.append_nil, List.length_drop] at hsplit
  rw [hsplit, insertIdx_eq hp]

end

end InsertionOrder
