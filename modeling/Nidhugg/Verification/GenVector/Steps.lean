import Nidhugg.Verification.GenVector.Ownership

/-! # The writes of a vector

A vector without copies replaces its root table, puts a new limb into a table that it owns, or
writes an element of a limb that it owns. Each of these keeps the invariant and changes no
other vector. -/

namespace Nidhugg.GenVectors

open GenVector CopyForest

variable {T : Type} {limbSize : ℕ} {s s' : GenVectors T} {v w r l i : ℕ}
  {this this' other : Members} {root root' old : Root}

/-- A step of one vector after which the invariant holds. -/
structure OwnStepTo (limbSize : ℕ) (s s' : GenVectors T) (v : ℕ) (this this' : Members) :
    Prop where
  change : OwnChange limbSize s s' v this this'
  inv : Inv limbSize s'

/-- Blocks that are used and owned as before. -/
theorem OwnBlocks.of_same {β : Type*} {b b' : Blocks β} (halloc : ∀ x, b'.alloc x ↔ b.alloc x)
    (huses : ∀ x, b'.uses v x ↔ b.uses v x) (howns : ∀ x, b'.owns v x ↔ b.owns v x)
    (hown : ∀ x, b.owns v x → b.alloc x) : OwnBlocks v b b' where
  alloc := by
    intro x
    rw [halloc, howns]
    constructor
    · intro hx
      by_cases hv : b.owns v x
      · exact .inr hv
      · exact .inl ⟨hx, hv⟩
    · rintro (⟨hx, -⟩ | hv)
      · exact hx
      · exact hown x hv
  uses := by
    intro x
    rw [huses, howns]
    intro hx
    by_cases hv : b.owns v x
    · exact .inl hv
    · exact .inr ⟨hx, hv⟩
  owns := by
    intro x
    rw [howns]
    exact .inl

theorem Inv.alloc_of_ownsRoot (h : Inv limbSize s) (hown : s.OwnsRoot v r) : s.roots r ≠ none :=
  h.roots.alloc_of_uses (h.roots.uses_of_owns hown)

theorem Inv.alloc_of_ownsLimb (h : Inv limbSize s) (hown : s.OwnsLimb limbSize v l) :
    s.limbs l ≠ none :=
  h.limbs.alloc_of_uses (h.limbs.uses_of_owns hown)

theorem limbCount_zero : limbCount limbSize 0 = 0 := by
  rw [limbCount, Nat.div_eq_zero_iff]
  omega

/-- Places are in use only in vectors that are not empty. -/
theorem size_ne_zero_of_lt (h : i < limbCount limbSize this.size) : this.size ≠ 0 := by
  intro hzero
  rw [hzero, limbCount_zero] at h
  exact absurd h (Nat.not_lt_zero i)

/-! ### Replacing the root table -/

/-- The state after a vector has got a new root table, where some of the tables are gone. -/
def replaceRoot (s : GenVectors T) (v : ℕ) (this : Members) (roots : ℕ → Option Root)
    (root : Root) (capacity : ℕ) : GenVectors T :=
  setVector { s with
    roots := Function.update roots s.nextRoot (some root)
    nextRoot := s.nextRoot + 1 } v { this with start := some s.nextRoot, last := some capacity }

section ReplaceRoot

variable {roots : ℕ → Option Root} {c : ℕ}

theorem rootOf_replaceRoot :
    (s.replaceRoot v this roots root c).rootOf
      { this with start := some s.nextRoot, last := some c } = some root := by
  rw [rootOf, Option.bind_some, replaceRoot, setVector]
  exact Function.update_self ..

theorem ownChange_replaceRoot (hinv : Inv limbSize s) (hv : s.vectors v = some this)
    (hzero : this.debugRefcount = 0) (hkept : ∀ r, ¬ s.OwnsRoot v r → roots r = s.roots r) :
    OwnChange limbSize s (s.replaceRoot v this roots root c) v this
      { this with start := some s.nextRoot, last := some c } where
  before := hv
  vectors := rfl
  debugParent := rfl
  debugRefcount := rfl
  nextVector := rfl
  roots := by
    intro r hr hown
    have hne : r ≠ s.nextRoot := (hinv.freshRoot r hr).ne
    exact (Function.update_of_ne hne ..).trans (hkept r hown)
  limbs := fun _ _ => rfl
  childless := hinv.childless hv hzero

/-- The new table has the limbs of the old one. -/
theorem usesLimb_replaceRoot (hv : s.vectors v = some this)
    (hold : this.size ≠ 0 → s.rootOf this = some old)
    (hslots : ∀ i : ℕ, i < limbCount limbSize this.size → root.slots[i]? = old.slots[i]?) :
    (s.replaceRoot v this roots root c).UsesLimb limbSize v l ↔ s.UsesLimb limbSize v l := by
  rw [usesLimb_iff (Function.update_self ..) rootOf_replaceRoot]
  constructor
  · rintro ⟨i, hi, hslot⟩
    refine ⟨this, old, i, hv, hold (size_ne_zero_of_lt hi), hi, ?_⟩
    rwa [← hslots i hi]
  · rintro ⟨this', root', i, hv', hroot', hi, hslot⟩
    rw [hv, Option.some.injEq] at hv'
    subst hv'
    rw [hold (size_ne_zero_of_lt hi), Option.some.injEq] at hroot'
    subst hroot'
    exact ⟨i, hi, (hslots i hi).trans hslot⟩

/-- The new table owns the limbs that the old one owned. -/
theorem ownsLimb_replaceRoot (hv : s.vectors v = some this)
    (hold : this.size ≠ 0 → s.rootOf this = some old)
    (hslots : ∀ i : ℕ, i < limbCount limbSize this.size → root.slots[i]? = old.slots[i]?)
    (hbits : ∀ i : ℕ, i < limbCount limbSize this.size →
      (bitSet root.bitmap i = false ↔ this.last.isSome ∧ bitSet old.bitmap i = false)) :
    (s.replaceRoot v this roots root c).OwnsLimb limbSize v l ↔ s.OwnsLimb limbSize v l := by
  rw [ownsLimb_iff (Function.update_self ..) rootOf_replaceRoot]
  constructor
  · rintro ⟨i, ⟨hi, hslot⟩, -, hbit⟩
    refine ⟨this, old, i, hv, hold (size_ne_zero_of_lt hi), ⟨hi, ?_⟩, (hbits i hi).mp hbit⟩
    rwa [← hslots i hi]
  · rintro ⟨this', root', i, hv', hroot', ⟨hi, hslot⟩, hbit⟩
    rw [hv, Option.some.injEq] at hv'
    subst hv'
    rw [hold (size_ne_zero_of_lt hi), Option.some.injEq] at hroot'
    subst hroot'
    exact ⟨i, ⟨hi, (hslots i hi).trans hslot⟩, rfl, (hbits i hi).mpr hbit⟩

theorem table_replaceRoot (hinv : Inv limbSize s) (hv : s.vectors v = some this)
    (hold : this.size ≠ 0 → s.rootOf this = some old)
    (hslots : ∀ i : ℕ, i < limbCount limbSize this.size → root.slots[i]? = old.slots[i]?)
    (hlength : root.slots.length = c) (hbitmap : root.bitmap.length = bitmapSize c)
    (hclear : ∀ i : ℕ, limbCount limbSize this.size ≤ i → bitSet root.bitmap i = false) :
    Table limbSize (s.replaceRoot v this roots root c)
      { this with start := some s.nextRoot, last := some c } root where
  limb := by
    intro i hi
    rw [hslots i hi]
    exact (hinv.table hv (hold (size_ne_zero_of_lt hi))).limb i hi
  inj := by
    rintro i j l ⟨hi, hsloti⟩ ⟨hj, hslotj⟩
    rw [hslots i hi] at hsloti
    rw [hslots j hj] at hslotj
    exact (hinv.table hv (hold (size_ne_zero_of_lt hi))).inj ⟨hi, hsloti⟩ ⟨hj, hslotj⟩
  capacity := by
    intro c' hc'
    rw [Option.some.injEq] at hc'
    subst hc'
    exact ⟨hlength, hbitmap, hclear⟩

theorem ownStepTo_replaceRoot (hinv : Inv limbSize s) (hv : s.vectors v = some this)
    (hzero : this.debugRefcount = 0) (hfreed : ∀ r, s.OwnsRoot v r → roots r = none)
    (hkept : ∀ r, ¬ s.OwnsRoot v r → roots r = s.roots r)
    (hold : this.size ≠ 0 → s.rootOf this = some old)
    (hslots : ∀ i : ℕ, i < limbCount limbSize this.size → root.slots[i]? = old.slots[i]?)
    (hbits : ∀ i : ℕ, i < limbCount limbSize this.size →
      (bitSet root.bitmap i = false ↔ this.last.isSome ∧ bitSet old.bitmap i = false))
    (hlength : root.slots.length = c) (hbitmap : root.bitmap.length = bitmapSize c)
    (hclear : ∀ i : ℕ, limbCount limbSize this.size ≤ i → bitSet root.bitmap i = false) :
    OwnStepTo limbSize s (s.replaceRoot v this roots root c) v this
      { this with start := some s.nextRoot, last := some c } := by
  have hchange : OwnChange limbSize s (s.replaceRoot v this roots root c) v this
      { this with start := some s.nextRoot, last := some c } :=
    ownChange_replaceRoot hinv hv hzero hkept
  -- the allocated tables are those of the others and the new one
  have halloc : ∀ r, (s.replaceRoot v this roots root c).roots r ≠ none ↔
      (s.roots r ≠ none ∧ ¬ s.OwnsRoot v r) ∨ r = s.nextRoot := by
    intro r
    by_cases hr : r = s.nextRoot
    · subst hr
      simp [replaceRoot, setVector]
    · have heq : (s.replaceRoot v this roots root c).roots r = roots r :=
        Function.update_of_ne hr ..
      rw [heq]
      by_cases hown : s.OwnsRoot v r
      · simp [hfreed r hown, hown, hr]
      · simp [hkept r hown, hown, hr]
  have howns : ∀ r, (s.replaceRoot v this roots root c).OwnsRoot v r ↔ r = s.nextRoot := by
    intro r
    rw [ownsRoot_iff hchange.after]
    simp [eq_comm]
  refine ⟨hchange, hchange.inv hinv ?_ hinv.freshLimb
    (.inr ⟨root, rootOf_replaceRoot, table_replaceRoot hinv hv hold hslots hlength hbitmap hclear⟩)
    ⟨?_, ?_, ?_⟩
    (OwnBlocks.of_same (fun l => Iff.rfl) (fun l => usesLimb_replaceRoot hv hold hslots)
      (fun l => ownsLimb_replaceRoot hv hold hslots hbits)
      fun l hown => hinv.alloc_of_ownsLimb hown)⟩
  · intro r hr
    rcases (halloc r).mp hr with ⟨hold, -⟩ | rfl
    · exact (hinv.freshRoot r hold).trans (Nat.lt_succ_self _)
    · exact Nat.lt_succ_self _
  · intro r
    exact (halloc r).trans (or_congr_right (howns r).symm)
  · rintro r ⟨other, hother, hstart⟩
    rw [hchange.after, Option.some.injEq] at hother
    subst hother
    exact .inl ⟨_, hchange.after, hstart, rfl⟩
  · intro r hr
    rw [(howns r).mp hr]
    exact .inr fun halloc => absurd (hinv.freshRoot _ halloc) (lt_irrefl _)

theorem deref_replaceRoot (hpos : 0 < limbSize)
    (hold : this.size ≠ 0 → s.rootOf this = some old)
    (hslots : ∀ i : ℕ, i < limbCount limbSize this.size → root.slots[i]? = old.slots[i]?)
    (hi : i < this.size) :
    (s.replaceRoot v this roots root c).deref limbSize (some s.nextRoot) i =
      s.deref limbSize this.start i := by
  have hlt := div_lt_limbCount hpos hi
  have hroot : (s.replaceRoot v this roots root c).rootOf
      { this with start := some s.nextRoot, last := some c } = some root := rootOf_replaceRoot
  refine (deref_eq hroot).trans ?_
  rw [deref_eq (hold (size_ne_zero_of_lt hlt)), limbAt, limbAt, hslots _ hlt]
  rfl

end ReplaceRoot

/-! ### A new limb -/

/-- A limb is put at a place of a table that the vector owns, and the bit of the place is clear
afterwards. -/
structure PutLimb (limbSize : ℕ) (s : GenVectors T) (v : ℕ) (this this' : Members) (r : ℕ)
    (root : Root) (bitmap : List (BitVec 8)) (i : ℕ) : Prop where
  before : s.vectors v = some this
  writable : this.debugRefcount = 0
  start : this.start = some r
  root_eq : s.roots r = some root
  last : this.last.isSome
  start' : this'.start = this.start
  last' : this'.last = this.last
  debugParent : this'.debugParent = this.debugParent
  debugRefcount : this'.debugRefcount = this.debugRefcount
  place : i < root.slots.length
  count : ∀ j, j < limbCount limbSize this'.size ↔ j < limbCount limbSize this.size ∨ j = i
  shared : i < limbCount limbSize this.size → bitSet root.bitmap i = true
  bits : ∀ j, bitSet bitmap j = (bitSet root.bitmap j && j ≠ i)
  length_bitmap : bitmap.length = root.bitmap.length

section PutLimb

variable {bitmap : List (BitVec 8)} {limb : Limb T}

/-- The state after a limb has been put. -/
def afterPut (s : GenVectors T) (v : ℕ) (this' : Members) (r : ℕ) (root : Root)
    (bitmap : List (BitVec 8)) (i : ℕ) (limb : Limb T) : GenVectors T :=
  (s.putLimb r { root with bitmap := bitmap } i limb).setVector v this'

/-- The table after a limb has been put. -/
def rootAfterPut (s : GenVectors T) (root : Root) (bitmap : List (BitVec 8)) (i : ℕ) : Root :=
  ⟨root.slots.set i (some s.nextLimb), bitmap⟩

@[simp]
theorem bitmap_rootAfterPut : (s.rootAfterPut root bitmap i).bitmap = bitmap := rfl

theorem PutLimb.rootOf_before (h : PutLimb limbSize s v this this' r root bitmap i) :
    s.rootOf this = some root := by
  rw [rootOf, h.start, Option.bind_some, h.root_eq]

theorem PutLimb.rootOf_after (h : PutLimb limbSize s v this this' r root bitmap i) :
    (s.afterPut v this' r root bitmap i limb).rootOf this' =
      some (s.rootAfterPut root bitmap i) := by
  rw [rootOf, h.start', h.start, Option.bind_some]
  exact Function.update_self ..

theorem PutLimb.hasLimb_iff (h : PutLimb limbSize s v this this' r root bitmap i) {j : ℕ} :
    HasLimb limbSize this' (s.rootAfterPut root bitmap i) j l ↔
      (j = i ∧ l = s.nextLimb) ∨ (j ≠ i ∧ HasLimb limbSize this root j l) := by
  rw [HasLimb, HasLimb, h.count, rootAfterPut]
  by_cases hj : j = i
  · subst hj
    rw [List.getElem?_set_self h.place]
    simp [eq_comm]
  · rw [List.getElem?_set_ne (Ne.symm hj)]
    simp [hj]

theorem PutLimb.ownChange (h : PutLimb limbSize s v this this' r root bitmap i)
    (hinv : Inv limbSize s) :
    OwnChange limbSize s (s.afterPut v this' r root bitmap i limb) v this this' where
  before := h.before
  vectors := rfl
  debugParent := h.debugParent
  debugRefcount := h.debugRefcount
  nextVector := rfl
  roots := by
    intro r' _ hown
    have hne : r' ≠ r := by
      rintro rfl
      exact hown ⟨this, h.before, h.start, h.last⟩
    exact Function.update_of_ne hne ..
  limbs := by
    intro l hl _
    exact Function.update_of_ne (hinv.freshLimb l hl).ne ..
  childless := hinv.childless h.before h.writable

theorem PutLimb.ownsLimb_iff (h : PutLimb limbSize s v this this' r root bitmap i)
    (hinv : Inv limbSize s) :
    (s.afterPut v this' r root bitmap i limb).OwnsLimb limbSize v l ↔
      l = s.nextLimb ∨ s.OwnsLimb limbSize v l := by
  rw [GenVectors.ownsLimb_iff (h.ownChange hinv).after h.rootOf_after,
    GenVectors.ownsLimb_iff h.before h.rootOf_before]
  simp only [h.hasLimb_iff, bitmap_rootAfterPut, h.bits, h.last', h.last, true_and]
  constructor
  · rintro ⟨j, ⟨-, hl⟩ | ⟨hne, hlimb⟩, hbit⟩
    · exact .inl hl
    · refine .inr ⟨j, hlimb, ?_⟩
      simpa [hne] using hbit
  · rintro (hl | ⟨j, hlimb, hbit⟩)
    · exact ⟨i, .inl ⟨rfl, hl⟩, by simp⟩
    · have hne : j ≠ i := by
        rintro rfl
        rw [h.shared hlimb.1] at hbit
        cases hbit
      exact ⟨j, .inr ⟨hne, hlimb⟩, by simp [hbit]⟩

theorem PutLimb.table (h : PutLimb limbSize s v this this' r root bitmap i)
    (hinv : Inv limbSize s) (hlimb : limb.length = limbSize) :
    Table limbSize (s.afterPut v this' r root bitmap i limb) this'
      (s.rootAfterPut root bitmap i) where
  limb := by
    intro j hj
    have htable := hinv.table h.before h.rootOf_before
    by_cases hji : j = i
    · exact ⟨s.nextLimb, limb, (h.hasLimb_iff.mpr (.inl ⟨hji, rfl⟩)).2,
        Function.update_self .., hlimb⟩
    · obtain ⟨l, old, hslot, hold, hlen⟩ :=
        htable.limb j (((h.count j).mp hj).resolve_right hji)
      have hne : l ≠ s.nextLimb := by
        refine (hinv.freshLimb l ?_).ne
        rw [hold]
        exact Option.some_ne_none _
      refine ⟨l, old, ?_, (Function.update_of_ne hne ..).trans hold, hlen⟩
      rw [rootAfterPut, List.getElem?_set_ne (Ne.symm hji), hslot]
  inj := by
    intro j k l hj hk
    have hfresh : ∀ j, ¬ HasLimb limbSize this root j s.nextLimb := by
      intro j hj
      have huses : (s.limbBlocks limbSize).uses v s.nextLimb :=
        ⟨this, root, j, h.before, h.rootOf_before, hj⟩
      exact absurd (hinv.freshLimb _ (hinv.limbs.alloc_of_uses huses)) (lt_irrefl _)
    rcases h.hasLimb_iff.mp hj with ⟨hji, hl⟩ | ⟨-, hj'⟩
    · rcases h.hasLimb_iff.mp hk with ⟨hki, -⟩ | ⟨-, hk'⟩
      · exact hji.trans hki.symm
      · exact absurd (hl ▸ hk') (hfresh k)
    · rcases h.hasLimb_iff.mp hk with ⟨-, hl⟩ | ⟨-, hk'⟩
      · exact absurd (hl ▸ hj') (hfresh j)
      · exact (hinv.table h.before h.rootOf_before).inj hj' hk'
  capacity := by
    intro c hc
    rw [h.last'] at hc
    obtain ⟨hlength, hbitmap, hclear⟩ := (hinv.table h.before h.rootOf_before).capacity hc
    refine ⟨?_, h.length_bitmap.trans hbitmap, ?_⟩
    · rw [rootAfterPut, List.length_set, hlength]
    · intro j hj
      have hj : ¬ j < limbCount limbSize this.size ∧ j ≠ i := by
        rw [← not_lt, h.count, not_or] at hj
        exact hj
      rw [rootAfterPut, h.bits, hclear j (not_lt.mp hj.1), Bool.false_and]

theorem PutLimb.ownStepTo (h : PutLimb limbSize s v this this' r root bitmap i)
    (hinv : Inv limbSize s) (hlimb : limb.length = limbSize) :
    OwnStepTo limbSize s (s.afterPut v this' r root bitmap i limb) v this this' := by
  have hchange : OwnChange limbSize s (s.afterPut v this' r root bitmap i limb) v this this' :=
    h.ownChange hinv
  have halloc : ∀ r', (s.afterPut v this' r root bitmap i limb).roots r' ≠ none ↔
      s.roots r' ≠ none := by
    intro r'
    by_cases hr : r' = r
    · subst hr
      rw [h.root_eq]
      simp [afterPut, setVector, putLimb]
    · rw [show (s.afterPut v this' r root bitmap i limb).roots r' = s.roots r' from
        Function.update_of_ne hr ..]
  have hallocLimb : ∀ l, (s.afterPut v this' r root bitmap i limb).limbs l ≠ none ↔
      l = s.nextLimb ∨ s.limbs l ≠ none := by
    intro l
    by_cases hl : l = s.nextLimb
    · subst hl
      simp [afterPut, setVector, putLimb]
    · rw [show (s.afterPut v this' r root bitmap i limb).limbs l = s.limbs l from
        Function.update_of_ne hl ..]
      simp [hl]
  refine ⟨hchange, hchange.inv hinv ?_ ?_
    (.inr ⟨_, h.rootOf_after, h.table hinv hlimb⟩)
    (OwnBlocks.of_same halloc ?_ ?_ fun r hown => hinv.alloc_of_ownsRoot hown) ⟨?_, ?_, ?_⟩⟩
  · intro r' hr'
    exact hinv.freshRoot r' ((halloc r').mp hr')
  · intro l hl
    rcases (hallocLimb l).mp hl with rfl | hl
    · exact Nat.lt_succ_self _
    · exact (hinv.freshLimb l hl).trans (Nat.lt_succ_self _)
  · intro r'
    exact (usesRoot_iff hchange.after).trans (h.start' ▸ (usesRoot_iff h.before).symm)
  · intro r'
    refine (ownsRoot_iff hchange.after).trans ?_
    rw [h.start', h.last']
    exact (ownsRoot_iff h.before).symm
  · intro l
    refine (hallocLimb l).trans ?_
    have howns : (s.afterPut v this' r root bitmap i limb).OwnsLimb limbSize v l ↔
        l = s.nextLimb ∨ s.OwnsLimb limbSize v l := h.ownsLimb_iff hinv
    simp only [limbBlocks, howns]
    by_cases hown : s.OwnsLimb limbSize v l
    · simp [hown, hinv.alloc_of_ownsLimb hown]
    · simp [hown, or_comm]
  · intro l huses
    obtain ⟨j, hj⟩ := (usesLimb_iff hchange.after h.rootOf_after).mp huses
    rcases h.hasLimb_iff.mp hj with ⟨-, hl⟩ | ⟨hne, hj⟩
    · exact .inl ((h.ownsLimb_iff hinv).mpr (.inl hl))
    · by_cases hown : s.OwnsLimb limbSize v l
      · exact .inl ((h.ownsLimb_iff hinv).mpr (.inr hown))
      · exact .inr ⟨⟨this, root, j, h.before, h.rootOf_before, hj⟩, hown⟩
  · intro l hown
    rcases (h.ownsLimb_iff hinv).mp hown with rfl | hown
    · exact .inr fun halloc => absurd (hinv.freshLimb _ halloc) (lt_irrefl _)
    · exact .inl hown

/-- Elements at other places stay, those at the place of the new limb are read from it. -/
theorem PutLimb.deref (h : PutLimb limbSize s v this this' r root bitmap i)
    (hinv : Inv limbSize s) (hpos : 0 < limbSize) {j : ℕ} (hj : j < this.size) :
    (s.afterPut v this' r root bitmap i limb).deref limbSize this'.start j =
      if j / limbSize = i then elementAt limb (j % limbSize)
      else s.deref limbSize this.start j := by
  rw [deref_eq h.rootOf_after, deref_eq h.rootOf_before]
  by_cases hji : j / limbSize = i
  · have hslot : (s.rootAfterPut root bitmap i).slots[j / limbSize]? = some (some s.nextLimb) :=
      (h.hasLimb_iff.mpr (.inl ⟨hji, rfl⟩)).2
    rw [if_pos hji, limbAt_eq hslot, show (s.afterPut v this' r root bitmap i limb).limbs
      s.nextLimb = some limb from Function.update_self ..]
    rfl
  · have hlt := div_lt_limbCount hpos hj
    obtain ⟨l, old, hslot, hold, -⟩ := (hinv.table h.before h.rootOf_before).limb _ hlt
    have hslot' : (s.rootAfterPut root bitmap i).slots[j / limbSize]? = some (some l) :=
      (h.hasLimb_iff.mpr (.inr ⟨hji, hlt, hslot⟩)).2
    have hne : l ≠ s.nextLimb := by
      refine (hinv.freshLimb l ?_).ne
      rw [hold]
      exact Option.some_ne_none _
    rw [if_neg hji, limbAt_eq hslot, limbAt_eq hslot',
      show (s.afterPut v this' r root bitmap i limb).limbs l = s.limbs l from
        Function.update_of_ne hne ..]

end PutLimb

/-! ### Writing an element -/

section WriteLimb

variable {limb new : Limb T}

/-- The state after a limb has been overwritten. -/
def writeLimb (s : GenVectors T) (l : ℕ) (new : Limb T) : GenVectors T :=
  { s with limbs := Function.update s.limbs l (some new) }

theorem limbs_writeLimb_ne_none (hlimb : s.limbs l = some limb) {k : ℕ} :
    (s.writeLimb l new).limbs k ≠ none ↔ s.limbs k ≠ none := by
  by_cases hk : k = l
  · subst hk
    rw [hlimb]
    simp [writeLimb]
  · rw [show (s.writeLimb l new).limbs k = s.limbs k from Function.update_of_ne hk ..]

theorem ownStepTo_writeLimb (hinv : Inv limbSize s) (hv : s.vectors v = some this)
    (hzero : this.debugRefcount = 0) (hown : s.OwnsLimb limbSize v l)
    (hlimb : s.limbs l = some limb) (hnew : new.length = limbSize) :
    OwnStepTo limbSize s (s.writeLimb l new) v this this := by
  have hchange : OwnChange limbSize s (s.writeLimb l new) v this this :=
    { before := hv
      vectors := by
        rw [← hv, Function.update_eq_self]
        rfl
      debugParent := rfl
      debugRefcount := rfl
      nextVector := rfl
      roots := fun _ _ => rfl
      limbs := by
        intro k _ hk
        have hne : k ≠ l := fun h => hk (h ▸ hown)
        exact Function.update_of_ne hne ..
      childless := hinv.childless hv hzero }
  refine ⟨hchange, hchange.inv hinv hinv.freshRoot ?_ ?_
    (OwnBlocks.of_same (fun _ => Iff.rfl) (fun _ => Iff.rfl) (fun _ => Iff.rfl)
      fun r hown => hinv.alloc_of_ownsRoot hown)
    (OwnBlocks.of_same (fun k => limbs_writeLimb_ne_none hlimb) (fun _ => Iff.rfl)
      (fun _ => Iff.rfl) fun k hown => hinv.alloc_of_ownsLimb hown)⟩
  · intro k hk
    exact hinv.freshLimb k ((limbs_writeLimb_ne_none hlimb).mp hk)
  · rcases hinv.wellFormed v this hv with hempty | ⟨root, hroot, htable⟩
    · exact .inl hempty
    · refine .inr ⟨root, hroot, ?_, htable.inj, htable.capacity⟩
      intro i hi
      obtain ⟨k, old, hslot, hold, hlen⟩ := htable.limb i hi
      by_cases hk : k = l
      · subst hk
        exact ⟨k, new, hslot, Function.update_self .., hnew⟩
      · exact ⟨k, old, hslot, (Function.update_of_ne hk ..).trans hold, hlen⟩

/-- Elements of other limbs stay, those of the limb are read from what it is now. -/
theorem deref_writeLimb (hinv : Inv limbSize s) (hpos : 0 < limbSize)
    (hv : s.vectors v = some this) (hroot : s.rootOf this = some root)
    (hplace : HasLimb limbSize this root i l) {j : ℕ} (hj : j < this.size) :
    (s.writeLimb l new).deref limbSize this.start j =
      if j / limbSize = i then elementAt new (j % limbSize)
      else s.deref limbSize this.start j := by
  have hroot' : (s.writeLimb l new).rootOf this = some root := hroot
  have hlt := div_lt_limbCount hpos hj
  have htable := hinv.table hv hroot
  obtain ⟨k, old, hslot, hold, -⟩ := htable.limb _ hlt
  rw [deref_eq hroot', deref_eq hroot, limbAt_eq hslot, limbAt_eq hslot]
  by_cases hji : j / limbSize = i
  · have hkl : k = l := by
      rw [hji, hplace.2, Option.some.injEq, Option.some.injEq] at hslot
      exact hslot.symm
    rw [if_pos hji, hkl, show (s.writeLimb l new).limbs l = some new from
      Function.update_self ..]
    rfl
  · have hkl : k ≠ l := by
      rintro rfl
      exact hji (htable.inj ⟨hlt, hslot⟩ hplace)
    rw [if_neg hji, show (s.writeLimb l new).limbs k = s.limbs k from
      Function.update_of_ne hkl ..]

end WriteLimb

end Nidhugg.GenVectors
