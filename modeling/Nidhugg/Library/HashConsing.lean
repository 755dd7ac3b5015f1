import Mathlib.Data.List.Basic

/-! # Hash-consed trees

Nodes are kept in the lists of their parents or, without a parent, in the lists of roots. If
nodes of one list have different labels, a node is identified by its root and the labels on the
way to it. -/

namespace HashConsing

variable {κ L : Type*}

/-- Where a node is kept. -/
inductive Slot (κ : Type*) where
  | root (k : κ)
  | node (parent : ℕ)
deriving DecidableEq

variable (members : Slot κ → List ℕ) (label : ℕ → L)

/-- The labels on the way from a root to a node. -/
inductive Path : ℕ → κ → List L → Prop
  | first {n : ℕ} {k : κ} : n ∈ members (.root k) → Path n k [label n]
  | next {n parent : ℕ} {k : κ} {labels : List L} : Path parent k labels →
      n ∈ members (.node parent) → Path n k (labels ++ [label n])

/-- A node is kept in one list, in which no other node has its label. -/
structure Consed : Prop where
  slot_unique : ∀ {n a b}, n ∈ members a → n ∈ members b → a = b
  label_unique : ∀ {n m a}, n ∈ members a → m ∈ members a → label n = label m → n = m

variable {members label} {n m : ℕ} {k k' : κ} {labels labels' : List L}

theorem Path.ne_nil (h : Path members label n k labels) : labels ≠ [] := by
  cases h with
  | first _ => exact List.cons_ne_nil _ _
  | next _ _ => exact List.append_ne_nil_of_right_ne_nil _ (List.cons_ne_nil _ _)

/-- A node has one path. -/
theorem Path.functional (hconsed : Consed members label) (h : Path members label n k labels)
    (h' : Path members label n k' labels') : k = k' ∧ labels = labels' := by
  induction h generalizing labels' with
  | first hn =>
      cases h' with
      | first hn' =>
          cases hconsed.slot_unique hn hn'
          exact ⟨rfl, rfl⟩
      | next _ hn' => cases hconsed.slot_unique hn hn'
  | next _ hn ih =>
      cases h' with
      | first hn' => cases hconsed.slot_unique hn hn'
      | next hparent hn' =>
          cases hconsed.slot_unique hn hn'
          obtain ⟨hk, hlabels⟩ := ih hparent
          exact ⟨hk, by rw [hlabels]⟩

/-- A path leads to one node. -/
theorem Path.injective (hconsed : Consed members label) (h : Path members label n k labels)
    (h' : Path members label m k labels') (heq : labels = labels') : n = m := by
  induction h generalizing m labels' with
  | first hn =>
      cases h' with
      | first hm => exact hconsed.label_unique hn hm (List.cons.inj heq).1
      | next hparent _ =>
          have hlast := List.append_inj' (show [] ++ [_] = _ ++ [_] from heq) rfl
          exact absurd hlast.1.symm hparent.ne_nil
  | next hparent hn ih =>
      cases h' with
      | first _ =>
          have hlast := List.append_inj' (show _ ++ [_] = [] ++ [_] from heq) rfl
          exact absurd hlast.1 hparent.ne_nil
      | next hparent' hm =>
          obtain ⟨hlabels, hlabel⟩ := List.append_inj' heq rfl
          cases ih hparent' hlabels
          exact hconsed.label_unique hn hm (List.cons.inj hlabel).1

/-- Two nodes are the same exactly if their paths are. -/
theorem Path.eq_iff (hconsed : Consed members label) (h : Path members label n k labels)
    (h' : Path members label m k' labels') : n = m ↔ k = k' ∧ labels = labels' := by
  constructor
  · rintro rfl
    exact h.functional hconsed h'
  · rintro ⟨rfl, heq⟩
    exact h.injective hconsed h' heq

/-- Paths stay when nodes are added. -/
theorem Path.mono {members' : Slot κ → List ℕ} {label' : ℕ → L}
    (hmembers : ∀ a n, n ∈ members a → n ∈ members' a ∧ label' n = label n)
    (h : Path members label n k labels) : Path members' label' n k labels := by
  induction h with
  | first hn =>
      obtain ⟨hn', hlabel⟩ := hmembers _ _ hn
      rw [← hlabel]
      exact .first hn'
  | next _ hn ih =>
      obtain ⟨hn', hlabel⟩ := hmembers _ _ hn
      rw [← hlabel]
      exact .next ih hn'

end HashConsing
