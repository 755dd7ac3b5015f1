import Mathlib.Data.Set.Basic

/-! # Slices of straight-line programs

A sequence of commands over a store, each with the places that it writes and the places that it
reads. The slice for a set of places keeps the commands that these places depend on. -/

namespace Nidhugg

structure Commands (κ α β : Type*) where
  exec : κ → (α → β) → α → β
  writes : κ → Set α
  reads : κ → Set α
  exec_frame : ∀ (k : κ) (m : α → β) (a : α), a ∉ writes k → exec k m a = m a
  exec_congr : ∀ (k : κ) (m m' : α → β), (∀ b ∈ reads k, m b = m' b) →
    ∀ a ∈ writes k, exec k m a = exec k m' a

namespace Commands

variable {κ α β : Type*} (C : Commands κ α β)

def run (m : α → β) (ks : List κ) : α → β := ks.foldl (fun m k => C.exec k m) m

/-- Whether a command writes a place that matters afterwards. -/
def Useful (after : Set α) (k : κ) : Prop := ∃ b ∈ C.writes k, b ∈ after

/-- The places whose content before the command matters for the places `after` it. -/
def liveBefore (after : Set α) (k : κ) : Set α :=
  { a | a ∈ after ∧ a ∉ C.writes k ∨ a ∈ C.reads k ∧ C.Useful after k }

/-- The places whose content before the commands matters for the places `goal` after them. -/
def live (goal : Set α) (ks : List κ) : Set α := ks.foldr (fun k after => C.liveBefore after k) goal

open Classical in
/-- The commands that the places `goal` depend on. -/
noncomputable def slice (goal : Set α) : List κ → List κ
  | [] => []
  | k :: ks =>
      if C.Useful (C.live goal ks) k then k :: slice goal ks else slice goal ks

variable {C}

@[simp]
theorem run_nil (m : α → β) : C.run m [] = m := rfl

@[simp]
theorem run_cons (m : α → β) (k : κ) (ks : List κ) : C.run m (k :: ks) = C.run (C.exec k m) ks :=
  rfl

theorem run_append (m : α → β) (ks ls : List κ) : C.run m (ks ++ ls) = C.run (C.run m ks) ls := by
  simp [run]

@[simp]
theorem live_nil (goal : Set α) : C.live goal [] = goal := rfl

@[simp]
theorem live_cons (goal : Set α) (k : κ) (ks : List κ) :
    C.live goal (k :: ks) = C.liveBefore (C.live goal ks) k := rfl

theorem live_append (goal : Set α) (ks ls : List κ) :
    C.live goal (ks ++ ls) = C.live (C.live goal ls) ks := by
  simp [live]

theorem run_frame {ks : List κ} {a : α} (h : ∀ k ∈ ks, a ∉ C.writes k) (m : α → β) :
    C.run m ks a = m a := by
  induction ks generalizing m with
  | nil => rfl
  | cons k ks ih =>
      rw [run_cons, ih (fun l hl => h l (List.mem_cons_of_mem k hl)),
        C.exec_frame k m a (h k List.mem_cons_self)]

theorem liveBefore_empty (k : κ) : C.liveBefore ∅ k = ∅ := by
  ext a
  simp [liveBefore, Useful]

theorem liveBefore_of_not_useful {after : Set α} {k : κ} (h : ¬C.Useful after k) :
    C.liveBefore after k = after := by
  ext a
  simp only [liveBefore, Set.mem_ofPred_eq, h, and_false, or_false, and_iff_left_iff_imp]
  intro ha hw
  exact h ⟨a, hw, ha⟩

theorem live_empty (ks : List κ) : C.live ∅ ks = ∅ := by
  induction ks with
  | nil => rfl
  | cons k ks ih => rw [live_cons, ih, liveBefore_empty]

@[simp]
theorem slice_nil (goal : Set α) : C.slice goal [] = [] := rfl

theorem slice_append (goal : Set α) (ks ls : List κ) :
    C.slice goal (ks ++ ls) = C.slice (C.live goal ls) ks ++ C.slice goal ls := by
  induction ks with
  | nil => rfl
  | cons k ks ih =>
      have hlive := live_append goal ks ls (C := C)
      by_cases huseful : C.Useful (C.live (C.live goal ls) ks) k
      · simp [slice, hlive, huseful, ih]
      · simp [slice, hlive, huseful, ih]

theorem slice_empty (ks : List κ) : C.slice ∅ ks = [] := by
  induction ks with
  | nil => rfl
  | cons k ks ih => simp [slice, live_empty, Useful, ih]

theorem slice_singleton_of_useful {goal : Set α} {k : κ} (h : C.Useful goal k) :
    C.slice goal [k] = [k] := by
  simp [slice, h]

theorem slice_singleton_of_not_useful {goal : Set α} {k : κ} (h : ¬C.Useful goal k) :
    C.slice goal [k] = [] := by
  simp [slice, h]

theorem mem_of_mem_slice {goal : Set α} {ks : List κ} {k : κ} (h : k ∈ C.slice goal ks) :
    k ∈ ks := by
  induction ks with
  | nil => simp at h
  | cons l ks ih =>
      rw [slice] at h
      split at h
      · cases h with
        | head => exact List.mem_cons_self
        | tail _ h => exact List.mem_cons_of_mem l (ih h)
      · exact List.mem_cons_of_mem l (ih h)

/-- A useful command computes the same live places from stores that agree before it. -/
theorem exec_agree {after : Set α} {k : κ} (huseful : C.Useful after k) {m m' : α → β}
    (h : ∀ a ∈ C.liveBefore after k, m a = m' a) : ∀ a ∈ after, C.exec k m a = C.exec k m' a := by
  intro a ha
  by_cases hwrites : a ∈ C.writes k
  · exact C.exec_congr k m m' (fun b hb => h b (Or.inr ⟨hb, huseful⟩)) a hwrites
  · rw [C.exec_frame k m a hwrites, C.exec_frame k m' a hwrites]
    exact h a (Or.inl ⟨ha, hwrites⟩)

/-- The slice computes the content of the places from any store with the same live places. -/
theorem run_slice_eq {goal : Set α} {ks : List κ} {m m' : α → β}
    (h : ∀ a ∈ C.live goal ks, m a = m' a) :
    ∀ a ∈ goal, C.run m (C.slice goal ks) a = C.run m' ks a := by
  induction ks generalizing m m' with
  | nil => exact h
  | cons k ks ih =>
      rw [slice]
      split
      · rename_i huseful
        exact ih (exec_agree huseful h)
      · rename_i huseful
        rw [run_cons]
        apply ih
        intro a ha
        have hwrites : a ∉ C.writes k := fun hw => huseful ⟨a, hw, ha⟩
        rw [C.exec_frame k m' a hwrites]
        exact h a (Or.inl ⟨ha, hwrites⟩)

theorem run_congr {goal : Set α} {ks : List κ} {m m' : α → β}
    (h : ∀ a ∈ C.live goal ks, m a = m' a) : ∀ a ∈ goal, C.run m ks a = C.run m' ks a := by
  intro a ha
  rw [← run_slice_eq (m := m) (fun _ _ => rfl) a ha]
  exact run_slice_eq h a ha

/-- The commands of a slice are useful for something. -/
theorem useful_of_mem_slice {goal : Set α} {ks : List κ} {k : κ} (h : k ∈ C.slice goal ks) :
    (C.writes k).Nonempty := by
  induction ks with
  | nil => simp at h
  | cons l ks ih =>
      rw [slice] at h
      split at h
      · rename_i huseful
        cases h with
        | head =>
            obtain ⟨b, hb, -⟩ := huseful
            exact ⟨b, hb⟩
        | tail _ h => exact ih h
      · exact ih h

/-- Without reads every place is on its own. -/
theorem live_subset (hreads : ∀ k, C.reads k = ∅) (goal : Set α) (ks : List κ) :
    C.live goal ks ⊆ goal := by
  induction ks with
  | nil => exact subset_rfl
  | cons k ks ih =>
      intro a ha
      cases ha with
      | inl ha => exact ih ha.1
      | inr ha => exact absurd ha.1 (by simp [hreads])

/-- Without reads the content of a written place does not depend on the initial store. -/
theorem run_eq_of_written (hreads : ∀ k, C.reads k = ∅) {ks : List κ} {a : α}
    (h : ∃ k ∈ ks, a ∈ C.writes k) (m m' : α → β) : C.run m ks a = C.run m' ks a := by
  induction ks generalizing m m' with
  | nil => simp at h
  | cons k ks ih =>
      by_cases hks : ∃ l ∈ ks, a ∈ C.writes l
      · exact ih hks _ _
      · have hk : a ∈ C.writes k := by
          obtain ⟨l, hl, ha⟩ := h
          cases hl with
          | head => exact ha
          | tail _ hl => exact absurd ⟨l, hl, ha⟩ hks
        have hframe : ∀ l ∈ ks, a ∉ C.writes l := fun l hl ha => hks ⟨l, hl, ha⟩
        rw [run_cons, run_cons, run_frame hframe, run_frame hframe]
        exact C.exec_congr k m m' (by simp [hreads]) a hk

end Commands

end Nidhugg
