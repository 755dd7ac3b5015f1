import Nidhugg.Library.CopyForest

/-! # Shared blocks with one owner

Objects copied from one another share blocks of memory. A block belongs to one object and is
used by it and by objects that descend from it. An object without living copies has the blocks
that it owns for itself: it may write them and has to free them. -/

namespace CopyForest

/-- The blocks that are allocated, and which object uses and owns which one. -/
structure Blocks (β : Type*) where
  alloc : β → Prop
  uses : ℕ → β → Prop
  owns : ℕ → β → Prop

variable {β : Type*} {f : Forest} {b b' : Blocks β} {u v w : ℕ} {x : β}

/-- Every block has an owner, and only descendants of the owner use it as well. -/
structure Disciplined (f : Forest) (b : Blocks β) : Prop where
  uses_of_owns : ∀ {v x}, b.owns v x → b.uses v x
  alloc_of_uses : ∀ {v x}, b.uses v x → b.alloc x
  owned : ∀ {x}, b.alloc x → ∃ v, b.owns v x
  descends : ∀ {v w x}, b.owns v x → b.uses w x → w = v ∨ Ancestor f v w

/-- Nobody else uses what a childless object owns. -/
theorem Disciplined.eq_of_uses (h : Disciplined f b) (hchildless : ∀ w, ¬ Child f v w)
    (hv : b.owns v x) (hw : b.uses w x) : w = v := by
  rcases h.descends hv hw with heq | hanc
  · exact heq
  · exact absurd hanc (not_ancestor_of_childless hchildless)

theorem Disciplined.owner_unique (hordered : ∀ v w, Child f v w → v < w) (h : Disciplined f b)
    (hv : b.owns v x) (hw : b.owns w x) : v = w := by
  rcases h.descends hv (h.uses_of_owns hw) with heq | hanc
  · exact heq.symm
  rcases h.descends hw (h.uses_of_owns hv) with heq | hanc'
  · exact heq
  · exact absurd (lt_of_ancestor hordered hanc) (lt_of_ancestor hordered hanc').asymm

/-- What an object owns is what it uses together with its descendants alone. -/
theorem Disciplined.owns_iff (hordered : ∀ v w, Child f v w → v < w) (h : Disciplined f b) :
    b.owns v x ↔ b.uses v x ∧ ∀ w, b.uses w x → w = v ∨ Ancestor f v w := by
  constructor
  · intro hv
    exact ⟨h.uses_of_owns hv, fun w hw => h.descends hv hw⟩
  · rintro ⟨hv, hall⟩
    obtain ⟨w, hw⟩ := h.owned (h.alloc_of_uses hv)
    rcases hall w (h.uses_of_owns hw) with heq | hanc
    · rwa [← heq]
    rcases h.descends hw hv with heq | hanc'
    · rwa [heq]
    · exact absurd (lt_of_ancestor hordered hanc) (lt_of_ancestor hordered hanc').asymm

/-- What a step of one object does: it may allocate blocks for itself, stop using blocks, and
free blocks of its own. -/
structure OwnStep (v : ℕ) (b b' : Blocks β) : Prop where
  uses_other : ∀ {w x}, w ≠ v → (b'.uses w x ↔ b.uses w x)
  owns_other : ∀ {w x}, w ≠ v → (b'.owns w x ↔ b.owns w x)
  alloc : ∀ {x}, b'.alloc x ↔ (b.alloc x ∧ ¬ b.owns v x) ∨ b'.owns v x
  uses_of_owns : ∀ {x}, b'.owns v x → b'.uses v x
  uses : ∀ {x}, b'.uses v x → b'.owns v x ∨ (b.uses v x ∧ ¬ b.owns v x)
  owns : ∀ {x}, b'.owns v x → b.owns v x ∨ ¬ b.alloc x

theorem Disciplined.ownStep (h : Disciplined f b) (hchildless : ∀ w, ¬ Child f v w)
    (hstep : OwnStep v b b') : Disciplined f b' where
  uses_of_owns := by
    intro w x hw
    by_cases heq : w = v
    · subst heq
      exact hstep.uses_of_owns hw
    · exact (hstep.uses_other heq).mpr (h.uses_of_owns ((hstep.owns_other heq).mp hw))
  alloc_of_uses := by
    intro w x hw
    by_cases heq : w = v
    · subst heq
      rcases hstep.uses hw with hown | ⟨hold, hnot⟩
      · exact hstep.alloc.mpr (.inr hown)
      · exact hstep.alloc.mpr (.inl ⟨h.alloc_of_uses hold, hnot⟩)
    · have hold := (hstep.uses_other heq).mp hw
      exact hstep.alloc.mpr
        (.inl ⟨h.alloc_of_uses hold, fun hv => heq (h.eq_of_uses hchildless hv hold)⟩)
  owned := by
    intro x hx
    rcases hstep.alloc.mp hx with ⟨hold, hnot⟩ | hown
    · obtain ⟨w, hw⟩ := h.owned hold
      have heq : w ≠ v := fun heq => hnot (heq ▸ hw)
      exact ⟨w, (hstep.owns_other heq).mpr hw⟩
    · exact ⟨v, hown⟩
  descends := by
    intro u w x hu hw
    by_cases hwv : w = v
    · subst hwv
      by_cases huv : u = w
      · exact .inl huv.symm
      · have hu := (hstep.owns_other huv).mp hu
        rcases hstep.uses hw with hown | ⟨hold, -⟩
        · -- the block was owned before or it is new: both exclude another owner
          rcases hstep.owns hown with hown | hnew
          · exact absurd (h.eq_of_uses hchildless hown (h.uses_of_owns hu)) huv
          · exact absurd (h.alloc_of_uses (h.uses_of_owns hu)) hnew
        · exact h.descends hu hold
    · have hw := (hstep.uses_other hwv).mp hw
      by_cases huv : u = v
      · subst huv
        rcases hstep.owns hu with hown | hnew
        · exact .inl (h.eq_of_uses hchildless hown hw)
        · exact absurd (h.alloc_of_uses hw) hnew
      · exact h.descends ((hstep.owns_other huv).mp hu) hw

/-- A new object shares all blocks with the one that it is copied from. -/
theorem Disciplined.add {parent : Option ℕ} (h : Disciplined f b) (hu : f u = none)
    (hnew : ∀ x, ¬ b.uses u x) (halloc : ∀ x, b'.alloc x ↔ b.alloc x)
    (howns : ∀ w x, b'.owns w x ↔ b.owns w x)
    (huses : ∀ w x, w ≠ u → (b'.uses w x ↔ b.uses w x))
    (hcopy : ∀ x, b'.uses u x → ∃ p, parent = some p ∧ b.uses p x) :
    Disciplined (Function.update f u (some parent)) b' where
  uses_of_owns := by
    intro w x hw
    have hold := h.uses_of_owns ((howns w x).mp hw)
    exact (huses w x fun heq => hnew x (heq ▸ hold)).mpr hold
  alloc_of_uses := by
    intro w x hw
    by_cases heq : w = u
    · subst heq
      obtain ⟨p, -, hp⟩ := hcopy x hw
      exact (halloc x).mpr (h.alloc_of_uses hp)
    · exact (halloc x).mpr (h.alloc_of_uses ((huses w x heq).mp hw))
  owned := by
    intro x hx
    obtain ⟨w, hw⟩ := h.owned ((halloc x).mp hx)
    exact ⟨w, (howns w x).mpr hw⟩
  descends := by
    intro v w x hv hw
    have hv := (howns v x).mp hv
    by_cases heq : w = u
    · subst heq
      obtain ⟨p, rfl, hp⟩ := hcopy x hw
      have hchild : Child (Function.update f w (some (some p))) p w := by
        rw [Child, Function.update_self]
      rcases h.descends hv hp with rfl | hanc
      · exact .inr (.single hchild)
      · exact .inr ((ancestor_add hanc hu).tail hchild)
    · rcases h.descends hv ((huses w x heq).mp hw) with rfl | hanc
      · exact .inl rfl
      · exact .inr (ancestor_add hanc hu)

/-- A childless object goes together with the blocks that it owns. -/
theorem Disciplined.remove (h : Disciplined f b) (hchildless : ∀ w, ¬ Child f u w)
    (halloc : ∀ x, b'.alloc x ↔ b.alloc x ∧ ¬ b.owns u x)
    (howns : ∀ w x, b'.owns w x ↔ w ≠ u ∧ b.owns w x)
    (huses : ∀ w x, b'.uses w x ↔ w ≠ u ∧ b.uses w x) :
    Disciplined (Function.update f u none) b' where
  uses_of_owns := by
    intro w x hw
    obtain ⟨hne, hold⟩ := (howns w x).mp hw
    exact (huses w x).mpr ⟨hne, h.uses_of_owns hold⟩
  alloc_of_uses := by
    intro w x hw
    obtain ⟨hne, hold⟩ := (huses w x).mp hw
    exact (halloc x).mpr
      ⟨h.alloc_of_uses hold, fun hown => hne (h.eq_of_uses hchildless hown hold)⟩
  owned := by
    intro x hx
    obtain ⟨hold, hnot⟩ := (halloc x).mp hx
    obtain ⟨w, hw⟩ := h.owned hold
    exact ⟨w, (howns w x).mpr ⟨fun heq => hnot (heq ▸ hw), hw⟩⟩
  descends := by
    intro v w x hv hw
    obtain ⟨-, hv⟩ := (howns v x).mp hv
    obtain ⟨hne, hw⟩ := (huses w x).mp hw
    rcases h.descends hv hw with rfl | hanc
    · exact .inl rfl
    · exact .inr (ancestor_remove hchildless hanc hne)

end CopyForest
