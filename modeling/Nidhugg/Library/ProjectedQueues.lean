import Mathlib.Data.List.Basic

/-! # Queues that are projections of one sequence

Items that each go to the queues of several keys. If all queues are projections of one sequence,
an item that is at the front of all its queues can be taken out of the sequence. -/

namespace ProjectedQueues

variable {κ α : Type*} (covers : α → κ → Bool)

/-- The items that go to the queue of a key. -/
def queue (items : List α) (k : κ) : List α := items.filter fun x => covers x k

variable {covers} {items front back : List α} {x : α} {k : κ}

theorem queue_concat : queue covers (items ++ [x]) k =
    queue covers items k ++ if covers x k then [x] else [] := by
  rw [queue, List.filter_append, List.filter_singleton, Bool.cond_eq_ite]
  rfl

theorem queue_cons_of_pos (h : covers x k = true) :
    queue covers (x :: items) k = x :: queue covers items k :=
  List.filter_cons_of_pos (p := fun x => covers x k) h

theorem queue_cons_of_neg (h : covers x k = false) :
    queue covers (x :: items) k = queue covers items k :=
  List.filter_cons_of_neg (p := fun x => covers x k) (by simp [h])

theorem queue_append : queue covers (front ++ back) k =
    queue covers front k ++ queue covers back k := List.filter_append ..

theorem queue_eq_nil (h : ∀ y ∈ items, covers y k = false) : queue covers items k = [] := by
  rw [queue, List.filter_eq_nil_iff]
  intro y hy hcovers
  rw [h y hy] at hcovers
  cases hcovers

/-- If the fronts of the queues of some keys have a property, then the first item that goes to one
of these queues has it. -/
theorem exists_first {P : α → Prop} {keys : List κ} (hkeys : keys ≠ [])
    (h : ∀ k ∈ keys, ∃ x, (queue covers items k).head? = some x ∧ P x) :
    ∃ front x back, items = front ++ x :: back ∧ P x ∧ (∃ k ∈ keys, covers x k = true) ∧
      ∀ y ∈ front, ∀ k ∈ keys, covers y k = false := by
  induction items with
  | nil =>
      obtain ⟨k, hk⟩ := List.exists_mem_of_ne_nil keys hkeys
      obtain ⟨x, hx, -⟩ := h k hk
      cases hx
  | cons y items ih =>
      by_cases hy : ∃ k ∈ keys, covers y k = true
      · obtain ⟨k, hk, hcovers⟩ := hy
        obtain ⟨x, hx, hP⟩ := h k hk
        rw [queue_cons_of_pos hcovers, List.head?_cons, Option.some.injEq] at hx
        subst hx
        exact ⟨[], y, items, rfl, hP, ⟨k, hk, hcovers⟩, fun z hz => absurd hz List.not_mem_nil⟩
      · have hnot : ∀ k ∈ keys, covers y k = false := by
          intro k hk
          rw [← Bool.not_eq_true]
          intro hcovers
          exact hy ⟨k, hk, hcovers⟩
        obtain ⟨front, x, back, hitems, hP, hcovers, hfront⟩ := ih (by
          intro k hk
          obtain ⟨x, hx, hP⟩ := h k hk
          rw [queue_cons_of_neg (hnot k hk)] at hx
          exact ⟨x, hx, hP⟩)
        refine ⟨y :: front, x, back, by rw [hitems]; rfl, hP, hcovers, ?_⟩
        intro z hz
        rcases List.mem_cons.mp hz with rfl | hz
        · exact hnot
        · exact hfront z hz

/-- The last item that goes to one of some queues. -/
theorem exists_last {keys : List κ} (h : ∃ x ∈ items, ∃ k ∈ keys, covers x k = true) :
    ∃ front x back, items = front ++ x :: back ∧ (∃ k ∈ keys, covers x k = true) ∧
      ∀ y ∈ back, ∀ k ∈ keys, covers y k = false := by
  induction items with
  | nil =>
      obtain ⟨x, hx, -⟩ := h
      cases hx
  | cons y items ih =>
      by_cases hitems : ∃ x ∈ items, ∃ k ∈ keys, covers x k = true
      · obtain ⟨front, x, back, heq, hx, hback⟩ := ih hitems
        exact ⟨y :: front, x, back, by rw [heq]; rfl, hx, hback⟩
      · obtain ⟨x, hx, k, hk, hcovers⟩ := h
        have hxy : x = y := by
          rcases List.mem_cons.mp hx with rfl | hx
          · rfl
          · exact absurd ⟨x, hx, k, hk, hcovers⟩ hitems
        subst hxy
        refine ⟨[], x, items, rfl, ⟨k, hk, hcovers⟩, ?_⟩
        intro z hz k' hk'
        rw [← Bool.not_eq_true]
        intro hcovers'
        exact hitems ⟨z, hz, k', hk', hcovers'⟩

/-- Taking out an item before which no item goes to one of its queues. -/
theorem queue_remove (hfront : ∀ y ∈ front, ∀ k, covers x k = true → covers y k = false) :
    queue covers (front ++ back) k = if covers x k
      then (queue covers (front ++ x :: back) k).tail
      else queue covers (front ++ x :: back) k := by
  rw [queue_append, queue_append]
  split
  · rename_i hcovers
    rw [queue_eq_nil fun y hy => hfront y hy k hcovers, queue_cons_of_pos hcovers]
    rfl
  · rename_i hcovers
    rw [queue_cons_of_neg (Bool.eq_false_iff.mpr hcovers)]

theorem head?_queue (hfront : ∀ y ∈ front, covers y k = false) (hcovers : covers x k = true) :
    (queue covers (front ++ x :: back) k).head? = some x := by
  rw [queue_append, queue_eq_nil hfront, queue_cons_of_pos hcovers]
  rfl

theorem getLast?_queue (hback : ∀ y ∈ back, covers y k = false) (hcovers : covers x k = true) :
    (queue covers (front ++ x :: back) k).getLast? = some x := by
  rw [queue_append, queue_cons_of_pos hcovers, queue_eq_nil hback, List.getLast?_concat]

end ProjectedQueues
