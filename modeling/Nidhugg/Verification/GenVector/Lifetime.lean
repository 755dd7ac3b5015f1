import Nidhugg.Verification.GenVector.Writes

/-! # Copies and destruction of vectors

A copy shares everything with its source. A vector that is destroyed takes exactly the limbs and
the root table with it that it owns. -/

namespace Nidhugg.GenVectors

open GenVector CopyForest

variable {T : Type} {limbSize : ℕ} {s s' : GenVectors T} {v w u r l i : ℕ}
  {this new other : Members} {root : Root}

theorem WellFormed.withRefcount (h : WellFormed limbSize s this) {count : ℕ} :
    WellFormed limbSize s { this with debugRefcount := count } := by
  rcases h with hempty | ⟨root, hroot, htable⟩
  · exact .inl hempty
  · exact .inr ⟨root, hroot, htable.limb, htable.inj, htable.capacity⟩

/-! ### Construction -/

/-- A vector is made that has no root table of its own. -/
structure Constructs (s s' : GenVectors T) (new : Members) : Prop where
  limbs : s'.limbs = s.limbs
  roots : s'.roots = s.roots
  nextLimb : s'.nextLimb = s.nextLimb
  nextRoot : s'.nextRoot = s.nextRoot
  nextVector : s'.nextVector = s.nextVector + 1
  after : s'.vectors s.nextVector = some new
  others : ∀ {w}, w ≠ s.nextVector → s'.vectors w = (s.vectors w).map fun this : Members =>
    { this with debugRefcount := this.debugRefcount + if new.debugParent = some w then 1 else 0 }
  last : new.last = none
  refcount : new.debugRefcount = 0
  /-- It is empty or shares the table of the vector that it is copied from. -/
  shares : (new.start = none ∧ new.size = 0 ∧ new.debugParent = none) ∨
    ∃ p other, new.debugParent = some p ∧ s.vectors p = some other ∧
      new.start = other.start ∧ new.size = other.size

theorem Inv.vectors_next (h : Inv limbSize s) : s.vectors s.nextVector = none := by
  by_contra hne
  exact absurd (h.freshVector _ hne) (lt_irrefl _)

theorem Constructs.rootOf_eq (h : Constructs s s' new) : s'.rootOf this = s.rootOf this := by
  rw [rootOf, rootOf, h.roots]

theorem Constructs.deref_eq (h : Constructs s s' new) (start : Option ℕ) :
    s'.deref limbSize start i = s.deref limbSize start i := by
  simp only [deref, limbAt, h.roots, h.limbs]

theorem Constructs.forest_eq (h : Constructs s s' new) :
    s'.forest = Function.update s.forest s.nextVector (some new.debugParent) := by
  funext w
  by_cases hw : w = s.nextVector
  · subst hw
    rw [Function.update_self, forest, h.after, Option.map_some]
  · rw [Function.update_of_ne hw, forest, forest, h.others hw, Option.map_map]
    rfl

/-- The other vectors are as before, up to their reference counts. -/
theorem Constructs.exists_other (h : Constructs s s' new) (hw : w ≠ s.nextVector)
    (hother : s'.vectors w = some other) : ∃ this, s.vectors w = some this ∧
      other = { this with debugRefcount := other.debugRefcount } ∧ other.debugRefcount =
        this.debugRefcount + if new.debugParent = some w then 1 else 0 := by
  rw [h.others hw, Option.map_eq_some_iff] at hother
  obtain ⟨this, hthis, rfl⟩ := hother
  exact ⟨this, hthis, rfl, rfl⟩

theorem Constructs.disciplined_roots (h : Constructs s s' new) (hinv : Inv limbSize s) :
    Disciplined s'.forest s'.rootBlocks := by
  rw [h.forest_eq]
  refine hinv.roots.add (forest_eq_none.mpr hinv.vectors_next) ?_ ?_ ?_ ?_ ?_
  · rintro r ⟨this, hthis, -⟩
    rw [hinv.vectors_next] at hthis
    cases hthis
  · intro r
    simp only [rootBlocks, h.roots]
  · intro w r
    by_cases hw : w = s.nextVector
    · subst hw
      constructor
      · rintro ⟨this, hthis, -, hlast⟩
        rw [h.after, Option.some.injEq] at hthis
        rw [← hthis, h.last] at hlast
        cases hlast
      · rintro ⟨this, hthis, -⟩
        rw [hinv.vectors_next] at hthis
        cases hthis
    · exact exists_other_iff (h.others hw) fun _ => rfl
  · intro w r hw
    exact exists_other_iff (h.others hw) fun _ => rfl
  · rintro r ⟨this, hthis, hstart⟩
    rw [h.after, Option.some.injEq] at hthis
    subst hthis
    rcases h.shares with ⟨hnull, -⟩ | ⟨p, other, hp, hother, hsame, -⟩
    · rw [hnull] at hstart
      cases hstart
    · exact ⟨p, hp, other, hother, hsame ▸ hstart⟩

theorem Constructs.disciplined_limbs (h : Constructs s s' new) (hinv : Inv limbSize s) :
    Disciplined s'.forest (s'.limbBlocks limbSize) := by
  rw [h.forest_eq]
  refine hinv.limbs.add (forest_eq_none.mpr hinv.vectors_next) ?_ ?_ ?_ ?_ ?_
  · rintro l ⟨this, root, i, hthis, -⟩
    rw [hinv.vectors_next] at hthis
    cases hthis
  · intro l
    simp only [limbBlocks, h.limbs]
  · intro w l
    by_cases hw : w = s.nextVector
    · subst hw
      constructor
      · rintro ⟨this, root, i, hthis, -, -, hlast, -⟩
        rw [h.after, Option.some.injEq] at hthis
        rw [← hthis, h.last] at hlast
        cases hlast
      · rintro ⟨this, root, i, hthis, -⟩
        rw [hinv.vectors_next] at hthis
        cases hthis
    · exact exists_limb_iff (h.others hw) (fun _ _ => h.rootOf_eq) fun _ => rfl
  · intro w l hw
    exact exists_limb_iff (h.others hw) (fun _ _ => h.rootOf_eq) fun _ => rfl
  · rintro l ⟨this, root, i, hthis, hroot, hlimb⟩
    rw [h.after, Option.some.injEq] at hthis
    subst hthis
    rcases h.shares with ⟨hnull, -⟩ | ⟨p, other, hp, hother, hsame, hsize⟩
    · rw [rootOf, hnull] at hroot
      cases hroot
    · refine ⟨p, hp, other, root, i, hother, ?_, ?_⟩
      · rwa [h.rootOf_eq, rootOf, hsame] at hroot
      · rwa [HasLimb, hsize] at hlimb

theorem Constructs.inv (h : Constructs s s' new) (hinv : Inv limbSize s) : Inv limbSize s' where
  freshVector := by
    intro w hw
    rw [h.nextVector]
    by_cases heq : w = s.nextVector
    · omega
    · rw [h.others heq, ne_eq, Option.map_eq_none_iff] at hw
      exact (hinv.freshVector w hw).trans (Nat.lt_succ_self _)
  freshRoot := by
    rw [h.roots, h.nextRoot]
    exact hinv.freshRoot
  freshLimb := by
    rw [h.limbs, h.nextLimb]
    exact hinv.freshLimb
  parent := by
    intro v w hchild
    rw [h.forest_eq] at hchild ⊢
    have hlive : s.forest v ≠ none → v ≠ s.nextVector := by
      rintro hv rfl
      exact hv (forest_eq_none.mpr hinv.vectors_next)
    by_cases hw : w = s.nextVector
    · subst hw
      rw [Child, Function.update_self, Option.some.injEq] at hchild
      rcases h.shares with ⟨-, -, hnone⟩ | ⟨p, other, hp, hother, -⟩
      · rw [hnone] at hchild
        cases hchild
      · obtain rfl : p = v := by rwa [hp, Option.some.injEq] at hchild
        have hne : s.vectors p ≠ none := by
          rw [hother]
          exact Option.some_ne_none _
        have hforest : s.forest p ≠ none := fun h0 => hne (forest_eq_none.mp h0)
        refine ⟨hinv.freshVector p hne, ?_⟩
        rwa [Function.update_of_ne (hlive hforest)]
    · rw [Child, Function.update_of_ne hw] at hchild
      obtain ⟨hlt, hforest⟩ := hinv.parent v w hchild
      refine ⟨hlt, ?_⟩
      rwa [Function.update_of_ne (hlive hforest)]
  refcount := by
    intro w other hother
    rw [h.forest_eq, h.nextVector, card_children_add]
    by_cases hw : w = s.nextVector
    · subst hw
      rw [h.after, Option.some.injEq] at hother
      have hparent : new.debugParent ≠ some s.nextVector := by
        intro hself
        rcases h.shares with ⟨-, -, hnone⟩ | ⟨p, other, hp, hother, -⟩
        · rw [hnone] at hself
          cases hself
        · rw [hp, Option.some.injEq] at hself
          rw [hself, hinv.vectors_next] at hother
          cases hother
      have hzero : (children s.forest s.nextVector s.nextVector).card = 0 := by
        rw [Finset.card_eq_zero, Finset.eq_empty_iff_forall_notMem]
        intro w hw
        exact (hinv.parent _ _ (mem_children.mp hw).2).2 (forest_eq_none.mpr hinv.vectors_next)
      rw [← hother, h.refcount, hzero, if_neg hparent]
    · obtain ⟨this, hthis, -, hcount⟩ := h.exists_other hw hother
      rw [hcount, hinv.refcount w this hthis]
  wellFormed := by
    have hsame : ∀ this, WellFormed limbSize s this → WellFormed limbSize s' this := by
      intro this hwf
      rcases hwf with hempty | ⟨root, hroot, htable⟩
      · exact .inl hempty
      · refine .inr ⟨root, h.rootOf_eq.trans hroot, ?_, htable.inj, htable.capacity⟩
        rw [h.limbs]
        exact htable.limb
    intro w other hother
    by_cases hw : w = s.nextVector
    · subst hw
      rw [h.after, Option.some.injEq] at hother
      subst hother
      rcases h.shares with ⟨hnull, hsize, -⟩ | ⟨p, other, -, hother, hstart, hsize⟩
      · exact .inl ⟨hnull, h.last, hsize⟩
      · apply hsame
        rcases hinv.wellFormed p other hother with ⟨hnull, -, hzero⟩ | ⟨root, hroot, htable⟩
        · exact .inl ⟨hstart.trans hnull, h.last, hsize.trans hzero⟩
        · refine .inr ⟨root, by rwa [rootOf, hstart], ?_, ?_, ?_⟩
          · rw [hsize]
            exact htable.limb
          · intro i j l hi hj
            rw [HasLimb, hsize] at hi hj
            exact htable.inj hi hj
          · intro c hc
            rw [h.last] at hc
            cases hc
    · obtain ⟨this, hthis, heq, -⟩ := h.exists_other hw hother
      rw [heq]
      exact hsame _ (hinv.wellFormed w this hthis).withRefcount
  roots := h.disciplined_roots hinv
  limbs := h.disciplined_limbs hinv

theorem constructs_new (s : GenVectors T) : Constructs s s.new.1 ⟨0, none, none, none, 0⟩ where
  limbs := rfl
  roots := rfl
  nextLimb := rfl
  nextRoot := rfl
  nextVector := rfl
  after := Function.update_self ..
  others := by
    intro w hw
    refine (Function.update_of_ne hw ..).trans ?_
    cases s.vectors w with
    | none => rfl
    | some this => rfl
  last := rfl
  refcount := rfl
  shares := .inl ⟨rfl, rfl, rfl⟩

theorem copy_spec (hinv : Inv limbSize s) (hv : s.vectors v = some this) :
    ∃ s', s.copy v = some (s', s.nextVector) ∧ Constructs s s'
      ⟨this.size, this.start, none, if this.start.isSome then some v else none, 0⟩ := by
  cases hstart : this.start with
  | none =>
      refine ⟨(s.construct ⟨this.size, none, none, none, 0⟩).1, ?_, rfl, rfl, rfl, rfl, rfl,
        Function.update_self .., ?_, rfl, rfl, ?_⟩
      · rw [copy, hv, Option.bind_eq_bind, Option.bind_some, hstart]
        rfl
      · intro w hw
        refine (Function.update_of_ne hw ..).trans ?_
        cases s.vectors w with
        | none => rfl
        | some this => rfl
      · rcases hinv.wellFormed v this hv with ⟨-, -, hsize⟩ | ⟨root, hroot, -⟩
        · exact .inl ⟨rfl, hsize, rfl⟩
        · rw [rootOf, hstart] at hroot
          cases hroot
  | some r =>
      refine ⟨((s.setVector v { this with debugRefcount := this.debugRefcount + 1 }).construct
          ⟨this.size, some r, none, some v, 0⟩).1, ?_, rfl, rfl, rfl, rfl, rfl,
        Function.update_self .., ?_, rfl, rfl, .inr ⟨v, this, rfl, hv, hstart.symm, rfl⟩⟩
      · rw [copy, hv, Option.bind_eq_bind, Option.bind_some, hstart]
        rfl
      · intro w hw
        refine (Function.update_of_ne hw ..).trans ?_
        by_cases hwv : w = v
        · subst hwv
          rw [hv]
          exact (Function.update_self ..).trans (by simp)
        · have hvw : ¬ (some v : Option ℕ) = some w := fun h => hwv (Option.some.inj h).symm
          refine (Function.update_of_ne hwv ..).trans ?_
          cases s.vectors w with
          | none => rfl
          | some this => simp [hvw]

/-! ### Destruction -/

/-- The heap after the limbs have been freed that are owned at the first places of a table. -/
def freed (s : GenVectors T) (root : Root) (n : ℕ) : GenVectors T :=
  { s with limbs := fun l =>
      if ∃ i < n, root.slots[i]? = some (some l) ∧ bitSet root.bitmap i = false then none
      else s.limbs l }

theorem freed_zero : s.freed root 0 = s := by
  simp [freed]

/-- The elements at a place are objects. -/
theorem Filled.elementAt_isSome (hfilled : Filled limbSize s this)
    (hroot : s.rootOf this = some root) {limb : Limb T} (hslot : root.slots[i]? = some (some l))
    (hlimb : s.limbs l = some limb) {k : ℕ} (hk : k < limbSize) (hsize : i * limbSize + k < this.size) :
    (elementAt limb k).isSome := by
  have h := hfilled hsize
  rw [GenVectors.deref_eq hroot, div_of_place hk, mod_of_place hk, limbAt_eq hslot, hlimb] at h
  exact h

theorem freeLimb_freed (htable : Table limbSize s this root) (hroot : s.rootOf this = some root)
    (hlast : this.last.isSome) (hfilled : Filled limbSize s this)
    (hi : i < limbCount limbSize this.size) {elements : ℕ} (hle : elements ≤ limbSize)
    (hsize : i * limbSize + elements ≤ this.size) :
    freeLimb this elements (s.freed root i) i = some (s.freed root (i + 1)) := by
  have hcow : (s.freed root i).limbIsCow this i = some (bitSet root.bitmap i) :=
    htable.limbIsCow_eq hroot hlast hi
  have hroot' : (s.freed root i).rootOf this = some root := hroot
  obtain ⟨l, limb, hslot, hlimb, -⟩ := htable.limb i hi
  rw [freeLimb, hcow]
  cases hbit : bitSet root.bitmap i with
  | true =>
      simp only [Option.bind_eq_bind, Option.bind_some, if_true, Option.pure_def, freed,
        Option.some.injEq, GenVectors.mk.injEq, and_true, true_and]
      funext k
      simp only [Nat.exists_lt_succ_right, hbit, Bool.true_eq_false, and_false, or_false]
  | false =>
      have hkept : (s.freed root i).limbs l = some limb := by
        rw [freed, ← hlimb]
        apply if_neg
        rintro ⟨j, hj, hslot', -⟩
        exact hj.ne (htable.inj ⟨hj.trans hi, hslot'⟩ ⟨hi, hslot⟩)
      have hobjects : ∀ k < elements, (elementAt limb k).isSome := by
        intro k hk
        exact hfilled.elementAt_isSome hroot hslot hlimb (by omega) (by omega)
      simp only [Option.bind_eq_bind, Option.bind_some, Bool.false_eq_true, if_false, hroot', hslot,
        Option.join_some, hkept, guard_of hobjects, Option.pure_def, Option.some.injEq]
      simp only [freed, GenVectors.mk.injEq, and_true, true_and]
      funext k
      by_cases hk : k = l
      · subst hk
        rw [Function.update_self, if_pos ⟨i, Nat.lt_succ_self i, hslot, hbit⟩]
      · have hlk : ¬ l = k := fun h => hk h.symm
        rw [Function.update_of_ne hk]
        simp only [Nat.exists_lt_succ_right, hslot, Option.some.injEq, hlk, false_and, or_false]

/-- The loop over the full limbs. -/
theorem foldlM_freeLimb (hpos : 0 < limbSize) (htable : Table limbSize s this root)
    (hroot : s.rootOf this = some root) (hlast : this.last.isSome)
    (hfilled : Filled limbSize s this) {n : ℕ} (hn : n * limbSize ≤ this.size) :
    (List.range n).foldlM (freeLimb this limbSize) s = some (s.freed root n) := by
  induction n with
  | zero => rw [freed_zero]; rfl
  | succ n ih =>
      rw [Nat.succ_mul] at hn
      have hlt : n < limbCount limbSize this.size := by
        have := div_lt_limbCount hpos (show n * limbSize < this.size by omega)
        rwa [Nat.mul_div_cancel n hpos] at this
      rw [List.range_succ, List.foldlM_append, ih (by omega), Option.bind_eq_bind,
        Option.bind_some, List.foldlM_cons,
        freeLimb_freed htable hroot hlast hfilled hlt le_rfl hn]
      rfl

theorem freeRoot_spec (hpos : 0 < limbSize) (htable : Table limbSize s this root)
    (hstart : this.start = some r) (hr : s.roots r = some root) (hlast : this.last.isSome)
    (hfilled : Filled limbSize s this) :
    s.freeRoot limbSize this = some { s.freed root (limbCount limbSize this.size) with
      roots := Function.update s.roots r none } := by
  have hroot : s.rootOf this = some root := by rw [rootOf, hstart, Option.bind_some, hr]
  have hfull := foldlM_freeLimb hpos htable hroot hlast hfilled (Nat.div_mul_le_self this.size limbSize)
  have hlastLimb : (if this.size % limbSize ≠ 0 then freeLimb this (this.size % limbSize)
      (s.freed root (this.size / limbSize)) (this.size / limbSize)
      else some (s.freed root (this.size / limbSize))) =
      some (s.freed root (limbCount limbSize this.size)) := by
    by_cases hmod : this.size % limbSize = 0
    · rw [if_neg (not_not.mpr hmod), limbCount_of_mod_eq_zero hpos hmod]
    · have hcount := limbCount_of_mod_ne_zero hpos hmod
      have hsum := Nat.div_add_mod this.size limbSize
      rw [Nat.mul_comm] at hsum
      rw [if_pos hmod, freeLimb_freed htable hroot hlast hfilled (by omega)
        (Nat.mod_lt _ hpos).le hsum.le, hcount]
  have hsome : ((s.freed root (limbCount limbSize this.size)).roots r).isSome := by
    rw [show (s.freed root (limbCount limbSize this.size)).roots r = some root from hr]
    rfl
  simp only [freeRoot, hfull, Option.bind_eq_bind, Option.bind_some, hlastLimb, hstart,
    guard_of hsome]
  rfl

/-- A vector is destroyed together with what it owns. -/
structure Destroys (limbSize : ℕ) (s s' : GenVectors T) (v : ℕ) (this : Members) : Prop where
  before : s.vectors v = some this
  writable : this.debugRefcount = 0
  after : s'.vectors v = none
  others : ∀ {w}, w ≠ v → s'.vectors w = (s.vectors w).map fun other : Members =>
    { other with debugRefcount := other.debugRefcount - if this.debugParent = some w then 1 else 0 }
  limbs_owned : ∀ {l}, s.OwnsLimb limbSize v l → s'.limbs l = none
  limbs_kept : ∀ {l}, ¬ s.OwnsLimb limbSize v l → s'.limbs l = s.limbs l
  roots_owned : ∀ {r}, s.OwnsRoot v r → s'.roots r = none
  roots_kept : ∀ {r}, ¬ s.OwnsRoot v r → s'.roots r = s.roots r
  nextVector : s'.nextVector = s.nextVector
  nextLimb : s'.nextLimb = s.nextLimb
  nextRoot : s'.nextRoot = s.nextRoot

section Destroys

variable (h : Destroys limbSize s s' v this) (hinv : Inv limbSize s)
include h hinv

theorem Destroys.childless : ∀ w, ¬ Child s.forest v w := hinv.childless h.before h.writable

theorem Destroys.rootOf_other (hother : s.vectors w = some other) (hw : w ≠ v) :
    s'.rootOf other = s.rootOf other := by
  rw [rootOf, rootOf]
  cases hstart : other.start with
  | none => rfl
  | some r =>
      have huses : s.rootBlocks.uses w r := ⟨other, hother, hstart⟩
      exact h.roots_kept fun hown => hw (hinv.roots.eq_of_uses (h.childless hinv) hown huses)

theorem Destroys.limbs_other (hother : s.vectors w = some other) (hw : w ≠ v)
    (hroot : s.rootOf other = some root) (hlimb : HasLimb limbSize other root i l) :
    s'.limbs l = s.limbs l := by
  have huses : (s.limbBlocks limbSize).uses w l := ⟨other, root, i, hother, hroot, hlimb⟩
  exact h.limbs_kept fun hown => hw (hinv.limbs.eq_of_uses (h.childless hinv) hown huses)

/-- The other vectors keep their elements. -/
theorem Destroys.deref_other (hpos : 0 < limbSize) (hother : s.vectors w = some other)
    (hw : w ≠ v) (hi : i < other.size) :
    s'.deref limbSize other.start i = s.deref limbSize other.start i := by
  obtain ⟨root, hroot⟩ := hinv.exists_rootOf hother (.inr (by omega))
  have hroot' := (h.rootOf_other hinv hother hw).trans hroot
  have hlt := div_lt_limbCount hpos hi
  obtain ⟨l, limb, hslot, -, -⟩ := (hinv.table hother hroot).limb _ hlt
  rw [GenVectors.deref_eq hroot, GenVectors.deref_eq hroot', limbAt_eq hslot, limbAt_eq hslot,
    h.limbs_other hinv hother hw hroot ⟨hlt, hslot⟩]

omit hinv in
theorem Destroys.forest_eq : s'.forest = Function.update s.forest v none := by
  funext w
  by_cases hw : w = v
  · subst hw
    rw [Function.update_self, forest, h.after, Option.map_none]
  · rw [Function.update_of_ne hw, forest, forest, h.others hw, Option.map_map]
    rfl

theorem Destroys.disciplined_roots : Disciplined s'.forest s'.rootBlocks := by
  rw [h.forest_eq]
  refine hinv.roots.remove (h.childless hinv) ?_ ?_ ?_
  · intro r
    simp only [rootBlocks]
    by_cases hown : s.OwnsRoot v r
    · simp [h.roots_owned hown, hown]
    · simp [h.roots_kept hown, hown]
  · intro w r
    by_cases hw : w = v
    · simp [rootBlocks, OwnsRoot, hw, h.after]
    · rw [and_iff_right hw]
      exact exists_other_iff (h.others hw) fun _ => rfl
  · intro w r
    by_cases hw : w = v
    · simp [rootBlocks, UsesRoot, hw, h.after]
    · rw [and_iff_right hw]
      exact exists_other_iff (h.others hw) fun _ => rfl

theorem Destroys.disciplined_limbs : Disciplined s'.forest (s'.limbBlocks limbSize) := by
  rw [h.forest_eq]
  refine hinv.limbs.remove (h.childless hinv) ?_ ?_ ?_
  · intro l
    simp only [limbBlocks]
    by_cases hown : s.OwnsLimb limbSize v l
    · simp [h.limbs_owned hown, hown]
    · simp [h.limbs_kept hown, hown]
  · intro w l
    by_cases hw : w = v
    · simp [limbBlocks, OwnsLimb, hw, h.after]
    · rw [and_iff_right hw]
      exact exists_limb_iff (h.others hw)
        (fun _ hother => (h.rootOf_other hinv hother hw).trans rfl) fun _ => rfl
  · intro w l
    by_cases hw : w = v
    · simp [limbBlocks, UsesLimb, hw, h.after]
    · rw [and_iff_right hw]
      exact exists_limb_iff (h.others hw)
        (fun _ hother => (h.rootOf_other hinv hother hw).trans rfl) fun _ => rfl

theorem Destroys.inv : Inv limbSize s' where
  freshVector := by
    intro w hw
    rw [h.nextVector]
    by_cases heq : w = v
    · rw [heq, h.after] at hw
      exact absurd rfl hw
    · rw [h.others heq, ne_eq, Option.map_eq_none_iff] at hw
      exact hinv.freshVector w hw
  freshRoot := by
    intro r hr
    rw [h.nextRoot]
    by_cases hown : s.OwnsRoot v r
    · exact absurd (h.roots_owned hown) hr
    · exact hinv.freshRoot r (h.roots_kept hown ▸ hr)
  freshLimb := by
    intro l hl
    rw [h.nextLimb]
    by_cases hown : s.OwnsLimb limbSize v l
    · exact absurd (h.limbs_owned hown) hl
    · exact hinv.freshLimb l (h.limbs_kept hown ▸ hl)
  parent := by
    intro u w hchild
    rw [h.forest_eq] at hchild ⊢
    have hw : w ≠ v := by
      rintro rfl
      rw [Child, Function.update_self] at hchild
      cases hchild
    rw [Child, Function.update_of_ne hw] at hchild
    obtain ⟨hlt, hforest⟩ := hinv.parent u w hchild
    have hu : u ≠ v := by
      rintro rfl
      exact h.childless hinv w hchild
    refine ⟨hlt, ?_⟩
    rwa [Function.update_of_ne hu]
  refcount := by
    intro w other hother
    have hw : w ≠ v := by
      rintro rfl
      rw [h.after] at hother
      cases hother
    rw [h.others hw, Option.map_eq_some_iff] at hother
    obtain ⟨old, hold, rfl⟩ := hother
    have hlt : v < s.nextVector := by
      apply hinv.freshVector
      rw [h.before]
      exact Option.some_ne_none _
    have hforest : s.forest v = some this.debugParent := by rw [forest, h.before, Option.map_some]
    have hcard := card_children_remove (v := w) hlt hforest
    rw [← hinv.refcount w old hold] at hcard
    simp only [h.forest_eq, h.nextVector, hcard, Nat.add_sub_cancel]
  wellFormed := by
    intro w other hother
    have hw : w ≠ v := by
      rintro rfl
      rw [h.after] at hother
      cases hother
    rw [h.others hw, Option.map_eq_some_iff] at hother
    obtain ⟨old, hold, rfl⟩ := hother
    apply WellFormed.withRefcount
    rcases hinv.wellFormed w old hold with hempty | ⟨root, hroot, htable⟩
    · exact .inl hempty
    · refine .inr ⟨root, (h.rootOf_other hinv hold hw).trans hroot, ?_, htable.inj,
        htable.capacity⟩
      intro i hi
      obtain ⟨l, limb, hslot, hlimb, hlen⟩ := htable.limb i hi
      exact ⟨l, limb, hslot, (h.limbs_other hinv hold hw hroot ⟨hi, hslot⟩).trans hlimb, hlen⟩
  roots := h.disciplined_roots hinv
  limbs := h.disciplined_limbs hinv

end Destroys

theorem releaseParent_spec (hinv : Inv limbSize s) (hv : s.vectors v = some this) :
    ∃ s', s.releaseParent this = some s' ∧ s'.limbs = s.limbs ∧ s'.roots = s.roots ∧
      s'.nextVector = s.nextVector ∧ s'.nextLimb = s.nextLimb ∧ s'.nextRoot = s.nextRoot ∧
      ∀ w, s'.vectors w = (s.vectors w).map fun other : Members => { other with
        debugRefcount := other.debugRefcount - if this.debugParent = some w then 1 else 0 } := by
  cases hparent : this.debugParent with
  | none =>
      refine ⟨s, by rw [releaseParent, hparent], rfl, rfl, rfl, rfl, rfl, ?_⟩
      intro w
      cases s.vectors w with
      | none => rfl
      | some other => rfl
  | some p =>
      have hchild : Child s.forest p v := by rw [Child, forest, hv, Option.map_some, hparent]
      have hp := (hinv.parent p v hchild).2
      rw [ne_eq, forest_eq_none] at hp
      obtain ⟨other, hother⟩ := Option.ne_none_iff_exists'.mp hp
      refine ⟨s.setVector p { other with debugRefcount := other.debugRefcount - 1 }, ?_, rfl, rfl,
        rfl, rfl, rfl, ?_⟩
      · rw [releaseParent, hparent]
        simp [hother]
      · intro w
        by_cases hw : w = p
        · subst hw
          rw [hother]
          exact (Function.update_self ..).trans (by simp)
        · have hpw : ¬ (some p : Option ℕ) = some w := fun h => hw (Option.some.inj h).symm
          refine (Function.update_of_ne hw ..).trans ?_
          cases s.vectors w with
          | none => rfl
          | some other => simp [hpw]

/-- A vector without copies can be destroyed. -/
theorem destroy_spec (hinv : Inv limbSize s) (hpos : 0 < limbSize)
    (hv : s.vectors v = some this) (hzero : this.debugRefcount = 0)
    (hfilled : Filled limbSize s this) :
    ∃ s', s.destroy limbSize v = some s' ∧ Destroys limbSize s s' v this := by
  obtain ⟨s₁, heq₁, hlimbs, hroots, hnextVector, hnextLimb, hnextRoot, hvectors⟩ :=
    releaseParent_spec hinv hv
  by_cases hlast : this.last.isSome
  · rcases hinv.wellFormed v this hv with ⟨-, hnone, -⟩ | ⟨root, hroot, htable⟩
    · rw [hnone] at hlast
      cases hlast
    · obtain ⟨r, hstart, hr⟩ :=
        Option.bind_eq_some_iff.mp (show this.start.bind s.roots = _ from hroot)
      have htable₁ : Table limbSize s₁ this root := by
        refine ⟨?_, htable.inj, htable.capacity⟩
        rw [hlimbs]
        exact htable.limb
      have hfilled₁ : Filled limbSize s₁ this := by
        intro i hi
        have h := hfilled hi
        rwa [deref, ← hroots, show s.limbAt = s₁.limbAt by
          funext root i
          rw [limbAt, limbAt, hlimbs]] at h
      have hfree := freeRoot_spec hpos htable₁ hstart (by rw [hroots, hr]) hlast hfilled₁
      have hownsLimb : ∀ l, s.OwnsLimb limbSize v l ↔
          ∃ i < limbCount limbSize this.size, root.slots[i]? = some (some l) ∧
            bitSet root.bitmap i = false := by
        intro l
        rw [ownsLimb_iff hv hroot]
        simp only [HasLimb, hlast, true_and, and_assoc]
      have hownsRoot : ∀ r', s.OwnsRoot v r' ↔ r' = r := by
        intro r'
        rw [ownsRoot_iff hv, hstart]
        simp [hlast, eq_comm]
      refine ⟨{ s₁.freed root (limbCount limbSize this.size) with
          roots := Function.update s₁.roots r none
          vectors := Function.update s₁.vectors v none }, ?_, hv, hzero, Function.update_self ..,
        ?_, ?_, ?_, ?_, ?_, hnextVector, hnextLimb, hnextRoot⟩
      · simp only [destroy, hv, assertWritable, guard_of hzero, heq₁, hlast, if_true, hfree,
          Option.bind_eq_bind, Option.bind_some, Option.pure_def]
        rfl
      · intro w hw
        exact (Function.update_of_ne hw ..).trans (hvectors w)
      · intro l hown
        exact if_pos ((hownsLimb l).mp hown)
      · intro l hown
        exact (if_neg fun h => hown ((hownsLimb l).mpr h)).trans (by rw [hlimbs])
      · intro r' hown
        rw [hownsRoot] at hown
        subst hown
        exact Function.update_self ..
      · intro r' hown
        rw [hownsRoot] at hown
        exact (Function.update_of_ne hown ..).trans (by rw [hroots])
  · have hownsLimb : ∀ l, ¬ s.OwnsLimb limbSize v l := by
      rintro l ⟨this', root, i, hv', -, -, hlast', -⟩
      rw [hv, Option.some.injEq] at hv'
      exact hlast (hv' ▸ hlast')
    have hownsRoot : ∀ r, ¬ s.OwnsRoot v r := by
      rintro r ⟨this', hv', -, hlast'⟩
      rw [hv, Option.some.injEq] at hv'
      exact hlast (hv' ▸ hlast')
    refine ⟨{ s₁ with vectors := Function.update s₁.vectors v none }, ?_, hv, hzero,
      Function.update_self .., ?_, ?_, ?_, ?_, ?_, hnextVector, hnextLimb, hnextRoot⟩
    · simp only [destroy, hv, assertWritable, guard_of hzero, heq₁, hlast, Bool.false_eq_true,
        if_false, Option.bind_eq_bind, Option.bind_some, Option.pure_def]
    · intro w hw
      exact (Function.update_of_ne hw ..).trans (hvectors w)
    · intro l hown
      exact absurd hown (hownsLimb l)
    · intro l _
      exact congrFun hlimbs l
    · intro r hown
      exact absurd hown (hownsRoot r)
    · intro r _
      exact congrFun hroots r

end Nidhugg.GenVectors
