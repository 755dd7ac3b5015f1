import Mathlib.Data.Finset.Card

/-! # Forests of copies

Objects that are copied from one another. An object keeps a link to the one that it was
copied from as long as it lives. An object without living copies is not an ancestor of any
other one. -/

namespace CopyForest

/-- The living objects, each with the object that it was copied from. -/
abbrev Forest := ℕ → Option (Option ℕ)

variable {f : Forest} {v w u : ℕ}

/-- `w` was copied from `v`. -/
def Child (f : Forest) (v w : ℕ) : Prop := f w = some (some v)

/-- `v` is an ancestor of `w`. -/
def Ancestor (f : Forest) : ℕ → ℕ → Prop := Relation.TransGen (Child f)

/-- The living copies of `v` among the first `n` objects. -/
def children (f : Forest) (n v : ℕ) : Finset ℕ := (Finset.range n).filter fun w => f w = some (some v)

theorem not_ancestor_of_childless (h : ∀ w, ¬ Child f v w) : ¬ Ancestor f v w := by
  intro hanc
  induction hanc using Relation.TransGen.head_induction_on with
  | single hchild => exact h _ hchild
  | head hchild _ _ => exact h _ hchild

/-- Copies are made after what they are copied from. -/
theorem lt_of_ancestor (hordered : ∀ v w, Child f v w → v < w) (h : Ancestor f v w) : v < w := by
  induction h with
  | single hchild => exact hordered _ _ hchild
  | tail _ hchild ih => exact ih.trans (hordered _ _ hchild)

/-- A new object is added as a copy of `v` or on its own. -/
theorem ancestor_add {parent : Option ℕ} (h : Ancestor f v w) (hw : f u = none) :
    Ancestor (Function.update f u (some parent)) v w := by
  induction h with
  | @single w hchild =>
      apply Relation.TransGen.single
      have hwu : w ≠ u := by
        rintro rfl
        rw [Child, hw] at hchild
        cases hchild
      rwa [Child, Function.update_of_ne hwu]
  | @tail b c _ hchild ih =>
      refine ih.tail ?_
      have hcu : c ≠ u := by
        rintro rfl
        rw [Child, hw] at hchild
        cases hchild
      rwa [Child, Function.update_of_ne hcu]

/-- Removing an object without copies keeps all ancestors of the others. -/
theorem ancestor_remove (hchildless : ∀ w, ¬ Child f u w) (h : Ancestor f v w) (hw : w ≠ u) :
    Ancestor (Function.update f u none) v w := by
  induction h with
  | @single w hchild =>
      apply Relation.TransGen.single
      rwa [Child, Function.update_of_ne hw]
  | @tail b c _ hchild ih =>
      have hb : b ≠ u := by
        rintro rfl
        exact hchildless c hchild
      refine (ih hb).tail ?_
      rwa [Child, Function.update_of_ne hw]

variable {n : ℕ}

theorem mem_children : w ∈ children f n v ↔ w < n ∧ Child f v w := by
  simp [children, Child]

theorem children_eq_empty_iff (hlive : ∀ w, f w ≠ none → w < n) :
    (children f n v).card = 0 ↔ ∀ w, ¬ Child f v w := by
  rw [Finset.card_eq_zero, Finset.eq_empty_iff_forall_notMem]
  constructor
  · intro h w hchild
    refine h w (mem_children.mpr ⟨hlive w ?_, hchild⟩)
    rw [hchild]
    exact Option.some_ne_none _
  · intro h w hw
    exact h w (mem_children.mp hw).2

/-- The number of copies after one more object has been added. -/
theorem card_children_add {parent : Option ℕ} :
    (children (Function.update f n (some parent)) (n + 1) v).card =
      (children f n v).card + if parent = some v then 1 else 0 := by
  have hold : (Finset.range n).filter (fun w => Function.update f n (some parent) w = some (some v)) =
      children f n v := by
    apply Finset.filter_congr
    intro w hw
    rw [Function.update_of_ne (Finset.mem_range.mp hw).ne]
  rw [children, Finset.range_add_one, Finset.filter_insert, hold, Function.update_self]
  by_cases hv : parent = some v
  · rw [if_pos (congrArg some hv), if_pos hv, Finset.card_insert_of_notMem]
    intro hmem
    exact absurd (mem_children.mp hmem).1 (lt_irrefl n)
  · rw [if_neg fun heq => hv (Option.some.inj heq), if_neg hv, Nat.add_zero]

/-- The number of copies after one of them has been removed. -/
theorem card_children_remove {parent : Option ℕ} (hu : u < n) (hf : f u = some parent) :
    (children f n v).card =
      (children (Function.update f u none) n v).card + if parent = some v then 1 else 0 := by
  have herase : children (Function.update f u none) n v = (children f n v).erase u := by
    ext w
    rw [Finset.mem_erase, mem_children, mem_children, Child, Child]
    by_cases hw : w = u
    · simp [hw]
    · simp [hw]
  rw [herase]
  by_cases hv : parent = some v
  · have hmem : u ∈ children f n v := mem_children.mpr ⟨hu, by rw [Child, hf, hv]⟩
    rw [if_pos hv, Finset.card_erase_add_one hmem]
  · have hmem : u ∉ children f n v := by
      intro hmem
      have hchild := (mem_children.mp hmem).2
      rw [Child, hf, Option.some.injEq] at hchild
      exact hv hchild
    rw [if_neg hv, Finset.erase_eq_of_notMem hmem, Nat.add_zero]

/-- Objects are numbered as they are made, and count their living copies. -/
structure Counted (f : Forest) (count : ℕ → Option ℕ) (n : ℕ) : Prop where
  fresh : ∀ v, f v ≠ none → v < n
  parent : ∀ v w, Child f v w → v < w ∧ f v ≠ none
  count : ∀ v c, count v = some c → c = (children f n v).card

variable {count count' : ℕ → Option ℕ}

theorem Counted.next_eq_none (h : Counted f count n) : f n = none := by
  by_contra hne
  exact absurd (h.fresh n hne) (lt_irrefl n)

theorem Counted.childless_iff (h : Counted f count n) {c : ℕ} (hv : count v = some c) :
    c = 0 ↔ ∀ w, ¬ Child f v w := by
  rw [h.count v c hv]
  exact children_eq_empty_iff h.fresh

theorem Counted.add {parent : Option ℕ} (h : Counted f count n)
    (hparent : ∀ p, parent = some p → f p ≠ none) (hnew : count' n = some 0)
    (hcount : ∀ w, w ≠ n →
      count' w = (count w).map fun c => c + if parent = some w then 1 else 0) :
    Counted (Function.update f n (some parent)) count' (n + 1) where
  fresh := by
    intro v hv
    by_cases heq : v = n
    · omega
    · rw [Function.update_of_ne heq] at hv
      exact (h.fresh v hv).trans (Nat.lt_succ_self n)
  parent := by
    intro v w hchild
    have hlive : f v ≠ none → v < n ∧ Function.update f n (some parent) v ≠ none := by
      intro hv
      have hlt := h.fresh v hv
      exact ⟨hlt, by rwa [Function.update_of_ne hlt.ne]⟩
    by_cases heq : w = n
    · subst heq
      rw [Child, Function.update_self, Option.some.injEq] at hchild
      exact hlive (hparent v hchild)
    · rw [Child, Function.update_of_ne heq] at hchild
      obtain ⟨hlt, hv⟩ := h.parent v w hchild
      exact ⟨hlt, (hlive hv).2⟩
  count := by
    intro v c hc
    rw [card_children_add]
    by_cases heq : v = n
    · subst heq
      have hzero : (children f v v).card = 0 := by
        rw [children_eq_empty_iff h.fresh]
        intro w hchild
        exact (h.parent v w hchild).2 h.next_eq_none
      have hself : ¬ parent = some v := fun hp => hparent v hp h.next_eq_none
      rw [hnew, Option.some.injEq] at hc
      rw [hzero, if_neg hself, ← hc]
    · rw [hcount v heq, Option.map_eq_some_iff] at hc
      obtain ⟨c', hc', rfl⟩ := hc
      rw [h.count v c' hc']

theorem Counted.remove {parent : Option ℕ} (h : Counted f count n)
    (hchildless : ∀ w, ¬ Child f u w) (hu : f u = some parent) (hgone : count' u = none)
    (hcount : ∀ w, w ≠ u →
      count' w = (count w).map fun c => c - if parent = some w then 1 else 0) :
    Counted (Function.update f u none) count' n where
  fresh := by
    intro v hv
    by_cases heq : v = u
    · rw [heq, Function.update_self] at hv
      exact absurd rfl hv
    · rw [Function.update_of_ne heq] at hv
      exact h.fresh v hv
  parent := by
    intro v w hchild
    have hw : w ≠ u := by
      rintro rfl
      rw [Child, Function.update_self] at hchild
      cases hchild
    rw [Child, Function.update_of_ne hw] at hchild
    obtain ⟨hlt, hv⟩ := h.parent v w hchild
    have hvu : v ≠ u := by
      rintro rfl
      exact hchildless w hchild
    exact ⟨hlt, by rwa [Function.update_of_ne hvu]⟩
  count := by
    intro v c hc
    have hv : v ≠ u := by
      rintro rfl
      rw [hgone] at hc
      cases hc
    have hlt : u < n := h.fresh u (by rw [hu]; exact Option.some_ne_none _)
    rw [hcount v hv, Option.map_eq_some_iff] at hc
    obtain ⟨c', hc', rfl⟩ := hc
    rw [h.count v c' hc', card_children_remove hlt hu, Nat.add_sub_cancel]

end CopyForest
