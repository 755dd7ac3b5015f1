import Nidhugg.Verification.GenVector.Steps

/-! # What `push_back` and `mut` do

Both copy what is shared and then write an element in place. They succeed on every vector
without copies, and change no other vector. -/

namespace Nidhugg.GenVectors

open GenVector CopyForest

variable {T : Type} {limbSize : ℕ} {s s' s'' : GenVectors T} {v w r l i : ℕ}
  {this this' this'' other : Members} {root root' old : Root}

/-- The operations of one vector leave all others as they are. -/
structure Writes (limbSize : ℕ) (s s' : GenVectors T) (v : ℕ) (this this' : Members) : Prop where
  before : s.vectors v = some this
  after : s'.vectors v = some this'
  inv : Inv limbSize s'
  debugParent : this'.debugParent = this.debugParent
  debugRefcount : this'.debugRefcount = this.debugRefcount
  nextVector : s'.nextVector = s.nextVector
  vectors_other : ∀ {w}, w ≠ v → s'.vectors w = s.vectors w
  deref_other : ∀ {w other i}, w ≠ v → s.vectors w = some other → i < other.size →
    s'.deref limbSize other.start i = s.deref limbSize other.start i

theorem OwnStepTo.writes (h : OwnStepTo limbSize s s' v this this') (hinv : Inv limbSize s)
    (hpos : 0 < limbSize) : Writes limbSize s s' v this this' where
  before := h.change.before
  after := h.change.after
  inv := h.inv
  debugParent := h.change.debugParent
  debugRefcount := h.change.debugRefcount
  nextVector := h.change.nextVector
  vectors_other := fun hw => h.change.vectors_other hw
  deref_other := fun hw hother hi => h.change.deref_other hinv hpos hother hw hi

theorem Writes.refl (hinv : Inv limbSize s) (hv : s.vectors v = some this) :
    Writes limbSize s s v this this :=
  ⟨hv, hv, hinv, rfl, rfl, rfl, fun _ => rfl, fun _ _ _ => rfl⟩

theorem Writes.trans (h : Writes limbSize s s' v this this')
    (h' : Writes limbSize s' s'' v this' this'') : Writes limbSize s s'' v this this'' where
  before := h.before
  after := h'.after
  inv := h'.inv
  debugParent := h'.debugParent.trans h.debugParent
  debugRefcount := h'.debugRefcount.trans h.debugRefcount
  nextVector := h'.nextVector.trans h.nextVector
  vectors_other := fun hw => (h'.vectors_other hw).trans (h.vectors_other hw)
  deref_other := by
    intro w other i hw hother hi
    rw [h'.deref_other hw ((h.vectors_other hw).trans hother) hi, h.deref_other hw hother hi]

/-- The elements of a vector stay as well. -/
structure Reshapes (limbSize : ℕ) (s s' : GenVectors T) (v : ℕ) (this this' : Members) : Prop
    extends Writes limbSize s s' v this this' where
  size : this'.size = this.size
  deref : ∀ {i}, i < this.size → s'.deref limbSize this'.start i = s.deref limbSize this.start i

theorem Reshapes.trans (h : Reshapes limbSize s s' v this this')
    (h' : Reshapes limbSize s' s'' v this' this'') : Reshapes limbSize s s'' v this this'' where
  toWrites := h.toWrites.trans h'.toWrites
  size := h'.size.trans h.size
  deref := by
    intro i hi
    rw [h'.deref (h.size ▸ hi), h.deref hi]

/-- All elements of a vector are objects. -/
def Filled (limbSize : ℕ) (s : GenVectors T) (this : Members) : Prop :=
  ∀ {i}, i < this.size → (s.deref limbSize this.start i).isSome

theorem Reshapes.filled (h : Reshapes limbSize s s' v this this')
    (hfilled : Filled limbSize s this) : Filled limbSize s' this' := by
  intro i hi
  rw [h.size] at hi
  rw [h.deref hi]
  exact hfilled hi

/-- The vector owns the limb at a place. -/
def OwnsPlace (limbSize : ℕ) (s : GenVectors T) (this : Members) (i : ℕ) : Prop :=
  ∃ root l, s.rootOf this = some root ∧ HasLimb limbSize this root i l ∧ this.last.isSome ∧
    bitSet root.bitmap i = false

/-! ### The root table -/

/-- The table of a vector has room for all limbs. -/
theorem Table.limbCount_le (h : Table limbSize s this root) :
    limbCount limbSize this.size ≤ root.slots.length := by
  by_contra hlt
  rw [not_le] at hlt
  obtain ⟨l, limb, hslot, -⟩ := h.limb _ hlt
  rw [List.getElem?_eq_none le_rfl] at hslot
  cases hslot

/-- The pointers of a table copied to a larger one. -/
def copiedSlots (capacity oldCapacity : ℕ) (source : List (Option ℕ)) : List (Option ℕ) :=
  source.take oldCapacity ++ List.replicate (capacity - oldCapacity) none

section CopiedSlots

variable {capacity oldCapacity : ℕ} {source : List (Option ℕ)}

theorem allocRootCopyFrom_eq (h : oldCapacity ≤ source.length) :
    allocRootCopyFrom capacity source oldCapacity =
      some (copiedSlots capacity oldCapacity source) := by
  simp [allocRootCopyFrom, h, copiedSlots]

theorem getElem?_copiedSlots (h : oldCapacity ≤ source.length) (hi : i < oldCapacity) :
    (copiedSlots capacity oldCapacity source)[i]? = source[i]? := by
  have hlen : i < (source.take oldCapacity).length := by
    rw [List.length_take]
    omega
  rw [copiedSlots, List.getElem?_append_left hlen, List.getElem?_take_of_lt hi]

theorem length_copiedSlots (h : oldCapacity ≤ source.length) (hcapacity : oldCapacity ≤ capacity) :
    (copiedSlots capacity oldCapacity source).length = capacity := by
  rw [copiedSlots, List.length_append, List.length_take, List.length_replicate]
  omega

end CopiedSlots

/-- The root table is copied. -/
theorem uncowRoot_spec (hinv : Inv limbSize s) (hpos : 0 < limbSize)
    (hv : s.vectors v = some this) (hzero : this.debugRefcount = 0) (hlast : this.last = none)
    (hstart : this.start.isSome) :
    ∃ s' this', s.uncowRoot limbSize v this = some (s', this') ∧
      Reshapes limbSize s s' v this this' ∧ this'.last.isSome ∧ this'.start.isSome := by
  obtain ⟨root, hroot⟩ := hinv.exists_rootOf hv (.inl hstart)
  have hle := (hinv.table hv hroot).limbCount_le
  have hlt := lt_nextCapacity (limbCount limbSize this.size)
  set n := limbCount limbSize this.size with hn
  have hslots : ∀ i : ℕ, i < n → (copiedSlots (nextCapacity n) n root.slots)[i]? = root.slots[i]? :=
    fun i hi => getElem?_copiedSlots hle hi
  have hnone : ∀ r, ¬ s.OwnsRoot v r := by
    intro r hown
    rw [ownsRoot_iff hv, hlast] at hown
    cases hown.2
  refine ⟨s.replaceRoot v this s.roots ⟨copiedSlots (nextCapacity n) n root.slots,
      cowBitmap n (bitmapSize (nextCapacity n))⟩ (nextCapacity n),
    { this with start := some s.nextRoot, last := some (nextCapacity n) }, ?_, ⟨?_, rfl, ?_⟩,
    rfl, rfl⟩
  · simp only [uncowRoot, hlast, hroot, ← hn, guard_true, Option.bind_eq_bind, Option.bind_some,
      Option.pure_def, allocRootCopyFrom_eq hle]
    rfl
  · refine (ownStepTo_replaceRoot hinv hv hzero (fun r hown => absurd hown (hnone r))
      (fun _ _ => rfl) (fun _ => hroot) hslots ?_ (length_copiedSlots hle (by omega))
      (length_cowBitmap (div_lt_bitmapSize (by omega))) ?_).writes hinv hpos
    · intro i hi
      simp [bitSet_cowBitmap, hn, hi, hlast]
    · intro i hi
      simpa [bitSet_cowBitmap] using hi
  · intro i hi
    exact deref_replaceRoot hpos (fun _ => hroot) hslots hi

theorem Reshapes.refl (hinv : Inv limbSize s) (hv : s.vectors v = some this) :
    Reshapes limbSize s s v this this := ⟨Writes.refl hinv hv, rfl, fun _ => rfl⟩

theorem uncowRootIfNeeded_spec (hinv : Inv limbSize s) (hpos : 0 < limbSize)
    (hv : s.vectors v = some this) (hzero : this.debugRefcount = 0) :
    ∃ s' this', s.uncowRootIfNeeded limbSize v this = some (s', this') ∧
      Reshapes limbSize s s' v this this' ∧ (this'.last.isSome ∨ this'.start = none) := by
  by_cases h : this.last = none ∧ this.start ≠ none
  · obtain ⟨s', this', heq, hreshapes, hlast, -⟩ :=
      uncowRoot_spec hinv hpos hv hzero h.1 (Option.isSome_iff_ne_none.mpr h.2)
    exact ⟨s', this', by rw [uncowRootIfNeeded, if_pos h, heq], hreshapes, .inl hlast⟩
  · refine ⟨s, this, by rw [uncowRootIfNeeded, if_neg h], Reshapes.refl hinv hv, ?_⟩
    rw [not_and_or, not_not] at h
    exact h.imp_left Option.isSome_iff_ne_none.mpr

theorem uncowRootIfNeededAssumeNonempty_spec (hinv : Inv limbSize s) (hpos : 0 < limbSize)
    (hv : s.vectors v = some this) (hzero : this.debugRefcount = 0)
    (hstart : this.start.isSome) :
    ∃ s' this', s.uncowRootIfNeededAssumeNonempty limbSize v this = some (s', this') ∧
      Reshapes limbSize s s' v this this' ∧ this'.last.isSome ∧ this'.start.isSome := by
  by_cases h : this.last = none
  · obtain ⟨s', this', heq, hreshapes, hlast⟩ := uncowRoot_spec hinv hpos hv hzero h hstart
    exact ⟨s', this', by simp [uncowRootIfNeededAssumeNonempty, hstart, h, heq], hreshapes, hlast⟩
  · exact ⟨s, this, by simp [uncowRootIfNeededAssumeNonempty, hstart, h], Reshapes.refl hinv hv,
      Option.isSome_iff_ne_none.mpr h, hstart⟩

/-! ### A shared limb -/

/-- The bit of a place in use can be read. -/
theorem Table.limbIsCow_eq (h : Table limbSize s this root) (hroot : s.rootOf this = some root)
    (hlast : this.last.isSome) (hi : i < limbCount limbSize this.size) :
    s.limbIsCow this i = some (bitSet root.bitmap i) := by
  obtain ⟨c, hc⟩ := Option.isSome_iff_exists.mp hlast
  obtain ⟨hlength, hbitmap, -⟩ := h.capacity hc
  have hbit := div_lt_bitmapSize (hi.trans_le (h.limbCount_le.trans_eq hlength))
  rw [← hbitmap] at hbit
  simp [limbIsCow, hlast, hroot, bitmapBit_eq hbit]

theorem copyLimb_eq {limb : Limb T} {elements : ℕ}
    (h : ∀ limbIx < elements, (elementAt limb limbIx).isSome) :
    copyLimb limbSize limb elements =
      some (limb.take elements ++ List.replicate (limbSize - elements) none) := by
  rw [copyLimb, guard, if_pos h]
  rfl

theorem setVector_self (hv : s.vectors v = some this) : s.setVector v this = s := by
  rw [setVector, ← hv, Function.update_eq_self]

/-- A limb in use that is shared is copied. -/
theorem uncow_spec (hinv : Inv limbSize s) (hpos : 0 < limbSize) (hv : s.vectors v = some this)
    (hzero : this.debugRefcount = 0) (hlast : this.last.isSome) (hfilled : Filled limbSize s this)
    (hi : i < limbCount limbSize this.size) (hroot : s.rootOf this = some root)
    (hbit : bitSet root.bitmap i = true) :
    ∃ s', s.uncow limbSize this i = some s' ∧ Reshapes limbSize s s' v this this ∧
      OwnsPlace limbSize s' this i := by
  have htable := hinv.table hv hroot
  obtain ⟨l, limb, hslot, hlimb, hlen⟩ := htable.limb i hi
  obtain ⟨r, hstart, hr⟩ := Option.bind_eq_some_iff.mp (show this.start.bind s.roots = _ from hroot)
  have hmul := mul_lt_of_lt_limbCount hpos hi
  -- the elements of the limb that are in use
  set elements := min (this.size - i * limbSize) limbSize with helements
  have hderef : ∀ k < limbSize, s.deref limbSize this.start (i * limbSize + k) =
      elementAt limb k := by
    intro k hk
    rw [deref_eq hroot, div_of_place hk, mod_of_place hk, limbAt_eq hslot, hlimb]
    rfl
  have hobjects : ∀ k < elements, (elementAt limb k).isSome := by
    intro k hk
    have hk' : k < limbSize := by omega
    rw [← hderef k hk']
    exact hfilled (by omega)
  have hput : PutLimb limbSize s v this this r root (clearBit root.bitmap i) i :=
    { before := hv, writable := hzero, start := hstart, root_eq := hr, last := hlast,
      start' := rfl, last' := rfl, debugParent := rfl, debugRefcount := rfl
      place := hi.trans_le htable.limbCount_le
      count := by
        intro j
        constructor
        · exact .inl
        · rintro (hj | rfl)
          · exact hj
          · exact hi
      shared := fun _ => hbit
      bits := fun j => bitSet_clearBit _ _ _
      length_bitmap := length_clearBit _ _ }
  set new : Limb T := limb.take elements ++ List.replicate (limbSize - elements) none with hnew
  have hnewlen : new.length = limbSize := by
    rw [hnew, List.length_append, List.length_take, List.length_replicate, hlen]
    omega
  have hstep := hput.ownStepTo hinv hnewlen
  refine ⟨s.afterPut v this r root (clearBit root.bitmap i) i new, ?_,
    ⟨hstep.writes hinv hpos, rfl, ?_⟩, ?_⟩
  · have hsame : s.afterPut v this r root (clearBit root.bitmap i) i new =
        s.putLimb r { root with bitmap := clearBit root.bitmap i } i new :=
      setVector_self hv
    rw [hsame]
    have helements' : 0 < elements := by omega
    simp only [uncow, htable.limbIsCow_eq hroot hlast hi, hbit, hstart, hr, limbAt_eq hslot,
      hlimb, ← helements, helements', Option.bind_eq_bind, Option.bind_some, guard_true,
      Option.pure_def, copyLimb_eq hobjects, hnew]
  · intro j hj
    rw [hput.deref hinv hpos hj]
    by_cases hji : j / limbSize = i
    · have hmod := Nat.mod_lt j hpos
      have hj' : i * limbSize + j % limbSize = j := by
        rw [← hji, Nat.mul_comm]
        exact Nat.div_add_mod j limbSize
      rw [if_pos hji]
      conv_rhs => rw [← hj', hderef _ hmod]
      rw [elementAt, elementAt, hnew, List.getElem?_append_left, List.getElem?_take_of_lt]
      · omega
      · rw [List.length_take, hlen]
        omega
    · rw [if_neg hji]
  · refine ⟨_, s.nextLimb, hput.rootOf_after, hput.hasLimb_iff.mpr (.inl ⟨rfl, rfl⟩), hlast, ?_⟩
    rw [bitmap_rootAfterPut, bitSet_clearBit]
    simp

theorem uncowIfNeeded_spec (hinv : Inv limbSize s) (hpos : 0 < limbSize)
    (hv : s.vectors v = some this) (hzero : this.debugRefcount = 0) (hlast : this.last.isSome)
    (hfilled : Filled limbSize s this) (hi : i < limbCount limbSize this.size) :
    ∃ s', s.uncowIfNeeded limbSize this i = some s' ∧ Reshapes limbSize s s' v this this ∧
      OwnsPlace limbSize s' this i := by
  obtain ⟨root, hroot⟩ := hinv.exists_rootOf hv (.inr (size_ne_zero_of_lt hi))
  have hcow := (hinv.table hv hroot).limbIsCow_eq hroot hlast hi
  cases hbit : bitSet root.bitmap i with
  | true =>
      obtain ⟨s', heq, hs'⟩ := uncow_spec hinv hpos hv hzero hlast hfilled hi hroot hbit
      exact ⟨s', by simp [uncowIfNeeded, hcow, hlast, hbit, heq],
        hs'⟩
  | false =>
      obtain ⟨l, limb, hslot, -⟩ := (hinv.table hv hroot).limb i hi
      exact ⟨s, by simp [uncowIfNeeded, hcow, hlast, hbit],
        Reshapes.refl hinv hv, root, l, hroot, ⟨hi, hslot⟩, hlast, hbit⟩

/-! ### Growing -/

/-- A full root table is replaced by a larger one. -/
theorem growRoot_spec (hinv : Inv limbSize s) (hpos : 0 < limbSize)
    (hv : s.vectors v = some this) (hzero : this.debugRefcount = 0)
    (howner : this.last.isSome ∨ this.start = none)
    (hfull : limbCount limbSize this.size = this.last.getD 0) :
    ∃ s' this', s.growRoot v this = some (s', this') ∧ Reshapes limbSize s s' v this this' ∧
      this'.last.isSome ∧ this'.start.isSome ∧
      limbCount limbSize this'.size < this'.last.getD 0 := by
  have hlt := lt_nextCapacity (limbCount limbSize this.size)
  set n := limbCount limbSize this.size with hn
  rcases hinv.wellFormed v this hv with ⟨hstart, hlast, hsize⟩ | ⟨root, hroot, htable⟩
  · -- the first table of an empty vector
    have hn0 : n = 0 := by rw [hn, hsize, limbCount_zero]
    have hnone : ∀ r, ¬ s.OwnsRoot v r := by
      intro r hown
      rw [ownsRoot_iff hv, hlast] at hown
      cases hown.2
    have hzeros : ∀ i, bitSet (List.replicate (bitmapSize (nextCapacity 0)) 0#8) i = false := by
      intro i
      have := bitSet_append_zeros [] (bitmapSize (nextCapacity 0)) i
      rw [List.nil_append] at this
      rw [this, bitSet]
      simp
    refine ⟨s.replaceRoot v this s.roots ⟨copiedSlots (nextCapacity 0) 0 [],
        List.replicate (bitmapSize (nextCapacity 0)) 0#8⟩ (nextCapacity 0),
      { this with start := some s.nextRoot, last := some (nextCapacity 0) }, ?_, ⟨?_, rfl, ?_⟩,
      rfl, rfl, ?_⟩
    · simp only [growRoot, hlast, hstart]
      rfl
    · have hold : this.size ≠ 0 → s.rootOf this = some ⟨[], []⟩ := fun h => absurd hsize h
      refine (ownStepTo_replaceRoot hinv hv hzero
        (fun r hown => absurd hown (hnone r)) (fun _ _ => rfl) hold ?_ ?_
        (length_copiedSlots (Nat.zero_le _) (Nat.zero_le _)) List.length_replicate ?_).writes hinv hpos
      · intro i hi
        rw [← hn, hn0] at hi
        omega
      · intro i hi
        rw [← hn, hn0] at hi
        omega
      · intro i _
        exact hzeros i
    · intro i hi
      omega
    · rw [hn0] at hn
      simp only [Option.getD_some, ← hn]
      decide
  · obtain ⟨r, hstart, hr⟩ :=
      Option.bind_eq_some_iff.mp (show this.start.bind s.roots = _ from hroot)
    have hlast : this.last = some n := by
      rcases howner with hlast | hnull
      · obtain ⟨c, hc⟩ := Option.isSome_iff_exists.mp hlast
        rw [hc, Option.getD_some] at hfull
        rw [hc, hfull]
      · rw [hstart] at hnull
        cases hnull
    obtain ⟨hlength, hbitmap, hclear⟩ := htable.capacity hlast
    have hle : n ≤ root.slots.length := hlength.ge
    have hslots : ∀ i : ℕ, i < n →
        (copiedSlots (nextCapacity n) n root.slots)[i]? = root.slots[i]? :=
      fun i hi => getElem?_copiedSlots hle hi
    have htake : root.bitmap.take (bitmapSize n) = root.bitmap :=
      List.take_of_length_le hbitmap.le
    have howns : ∀ r', s.OwnsRoot v r' ↔ r' = r := by
      intro r'
      rw [ownsRoot_iff hv, hstart, hlast]
      simp [eq_comm]
    refine ⟨s.replaceRoot v this (Function.update s.roots r none)
        ⟨copiedSlots (nextCapacity n) n root.slots, root.bitmap ++
          List.replicate (bitmapSize (nextCapacity n) - bitmapSize n) 0#8⟩ (nextCapacity n),
      { this with start := some s.nextRoot, last := some (nextCapacity n) }, ?_, ⟨?_, rfl, ?_⟩,
      rfl, rfl, ?_⟩
    · simp only [growRoot, hlast, hstart, hr, Option.getD_some, Option.bind_eq_bind,
        Option.bind_some, Option.pure_def, allocRootCopyFrom_eq hle, hbitmap, le_refl, guard_true,
        htake]
      rfl
    · refine (ownStepTo_replaceRoot hinv hv hzero ?_ ?_ (fun _ => hroot) hslots ?_
        (length_copiedSlots hle (by omega)) ?_ ?_).writes hinv hpos
      · intro r' hown
        rw [(howns r').mp hown, Function.update_self]
      · intro r' hown
        rw [howns] at hown
        rw [Function.update_of_ne hown]
      · intro i hi
        rw [bitSet_append_zeros, hlast]
        simp
      · rw [List.length_append, List.length_replicate, hbitmap]
        have := bitmapSize_mono (show n ≤ nextCapacity n by omega)
        omega
      · intro i hi
        rw [bitSet_append_zeros]
        exact hclear i hi
    · intro i hi
      exact deref_replaceRoot hpos (fun _ => hroot) hslots hi
    · simp only [Option.getD_some, ← hn]
      omega

/-- A place in use is made for one more element. -/
structure Extends (limbSize : ℕ) (s s' : GenVectors T) (v : ℕ) (this this' : Members) : Prop
    extends Writes limbSize s s' v this this' where
  size : this'.size = this.size + 1
  deref : ∀ {i}, i < this.size → s'.deref limbSize this'.start i = s.deref limbSize this.start i
  owned : OwnsPlace limbSize s' this' (this.size / limbSize)

theorem Extends.of_reshapes (h : Reshapes limbSize s s' v this this')
    (h' : Extends limbSize s' s'' v this' this'') : Extends limbSize s s'' v this this'' where
  toWrites := h.toWrites.trans h'.toWrites
  size := by rw [h'.size, h.size]
  deref := by
    intro i hi
    rw [h'.deref (h.size ▸ hi), h.deref hi]
  owned := h.size ▸ h'.owned

/-- A new limb behind the last one. -/
theorem extends_putLimb (hinv : Inv limbSize s) (hpos : 0 < limbSize)
    (hv : s.vectors v = some this) (hzero : this.debugRefcount = 0) (hlast : this.last.isSome)
    (hstart : this.start = some r) (hr : s.roots r = some root)
    (hmod : this.size % limbSize = 0) (hroom : limbCount limbSize this.size < this.last.getD 0) :
    Extends limbSize s ((s.putLimb r root (limbCount limbSize this.size)
      (List.replicate limbSize none)).setVector v { this with size := this.size + 1 }) v this
      { this with size := this.size + 1 } := by
  obtain ⟨c, hc⟩ := Option.isSome_iff_exists.mp hlast
  have hroot : s.rootOf this = some root := by rw [rootOf, hstart, Option.bind_some, hr]
  have htable := hinv.table hv hroot
  obtain ⟨hlength, hbitmap, hclear⟩ := htable.capacity hc
  have hcount := limbCount_of_mod_eq_zero hpos hmod
  have hput : PutLimb limbSize s v this { this with size := this.size + 1 } r root root.bitmap
      (limbCount limbSize this.size) :=
    { before := hv, writable := hzero, start := hstart, root_eq := hr, last := hlast,
      start' := rfl, last' := rfl, debugParent := rfl, debugRefcount := rfl
      place := by
        rw [hc, Option.getD_some] at hroom
        rwa [hlength]
      count := by
        intro j
        simp only [limbCount_succ hpos, hcount]
        omega
      shared := fun h => absurd h (lt_irrefl _)
      bits := by
        intro j
        by_cases hj : j = limbCount limbSize this.size
        · rw [hj, hclear _ le_rfl]
          rfl
        · simp [hj]
      length_bitmap := rfl }
  refine ⟨(hput.ownStepTo hinv List.length_replicate).writes hinv hpos, rfl, ?_, ?_⟩
  · intro i hi
    have hne : i / limbSize ≠ limbCount limbSize this.size := (div_lt_limbCount hpos hi).ne
    exact (hput.deref hinv hpos hi).trans (if_neg hne)
  · rw [← hcount]
    refine ⟨_, s.nextLimb, hput.rootOf_after, hput.hasLimb_iff.mpr (.inl ⟨rfl, rfl⟩), hlast, ?_⟩
    rw [bitmap_rootAfterPut, hclear _ le_rfl]

theorem grow_spec (hinv : Inv limbSize s) (hpos : 0 < limbSize) (hv : s.vectors v = some this)
    (hzero : this.debugRefcount = 0) (howner : this.last.isSome ∨ this.start = none)
    (hmod : this.size % limbSize = 0) :
    ∃ s' this', s.grow limbSize v this = some (s', this') ∧
      Extends limbSize s (s'.setVector v { this' with size := this'.size + 1 }) v this
        { this' with size := this'.size + 1 } := by
  have hguard : this.last.isSome ∨ this.size = 0 := by
    rcases howner with hlast | hnull
    · exact .inl hlast
    · rcases hinv.wellFormed v this hv with ⟨-, -, hsize⟩ | ⟨root, hroot, -⟩
      · exact .inr hsize
      · rw [rootOf, hnull] at hroot
        cases hroot
  -- the table has room before the limb is allocated
  obtain ⟨s₁, this₁, heq, hreshapes, hlast, hstart, hroom⟩ :
      ∃ s₁ this₁, (if limbCount limbSize this.size = this.last.getD 0 then s.growRoot v this
          else some (s, this)) = some (s₁, this₁) ∧ Reshapes limbSize s s₁ v this this₁ ∧
        this₁.last.isSome ∧ this₁.start.isSome ∧
        limbCount limbSize this₁.size < this₁.last.getD 0 := by
    by_cases hfull : limbCount limbSize this.size = this.last.getD 0
    · obtain ⟨s₁, this₁, heq, h⟩ := growRoot_spec hinv hpos hv hzero howner hfull
      exact ⟨s₁, this₁, by rw [if_pos hfull, heq], h⟩
    · rcases hinv.wellFormed v this hv with ⟨-, hlast, hsize⟩ | ⟨root, hroot, htable⟩
      · rw [hsize, hlast, limbCount_zero] at hfull
        exact absurd rfl hfull
      · obtain ⟨r, hstart, hr⟩ :=
          Option.bind_eq_some_iff.mp (show this.start.bind s.roots = _ from hroot)
        have hlast : this.last.isSome := howner.resolve_right (by simp [hstart])
        obtain ⟨c, hc⟩ := Option.isSome_iff_exists.mp hlast
        have hle := htable.limbCount_le
        rw [(htable.capacity hc).1] at hle
        refine ⟨s, this, by rw [if_neg hfull], Reshapes.refl hinv hv, hlast, by simp [hstart], ?_⟩
        rw [hc, Option.getD_some] at hfull ⊢
        omega
  obtain ⟨r, hr⟩ := Option.isSome_iff_exists.mp hstart
  obtain ⟨root, hroot⟩ := hreshapes.inv.exists_rootOf hreshapes.after (.inl hstart)
  have hroots : s₁.roots r = some root := by rwa [rootOf, hr, Option.bind_some] at hroot
  have hzero₁ : this₁.debugRefcount = 0 := hreshapes.debugRefcount.trans hzero
  refine ⟨_, this₁, ?_, Extends.of_reshapes hreshapes (extends_putLimb hreshapes.inv hpos
    hreshapes.after hzero₁ hlast hr hroots (hreshapes.size ▸ hmod) hroom)⟩
  simp only [grow, hguard, hmod, heq, guard_true, Option.bind_eq_bind, Option.bind_some, hroom, hr,
    hroots, Option.pure_def]

/-- The last limb has room for one more element. -/
theorem extends_setVector (hinv : Inv limbSize s) (hpos : 0 < limbSize)
    (hv : s.vectors v = some this) (hzero : this.debugRefcount = 0)
    (hmod : this.size % limbSize ≠ 0) (hown : OwnsPlace limbSize s this (this.size / limbSize)) :
    Extends limbSize s (s.setVector v { this with size := this.size + 1 }) v this
      { this with size := this.size + 1 } := by
  have hcount : limbCount limbSize (this.size + 1) = limbCount limbSize this.size := by
    rw [limbCount_succ hpos, limbCount_of_mod_ne_zero hpos hmod]
  have hlimb : ∀ {root i l}, HasLimb limbSize { this with size := this.size + 1 } root i l ↔
      HasLimb limbSize this root i l := by
    intro root i l
    rw [HasLimb, HasLimb, hcount]
  obtain ⟨root, l, hroot, hplace, hlast, hbit⟩ := hown
  have htable := hinv.table hv hroot
  have hroot' : (s.setVector v { this with size := this.size + 1 }).rootOf
      { this with size := this.size + 1 } = some root := hroot
  have hchange : OwnChange limbSize s (s.setVector v { this with size := this.size + 1 }) v this
      { this with size := this.size + 1 } :=
    { before := hv, vectors := rfl, debugParent := rfl, debugRefcount := rfl, nextVector := rfl
      roots := fun _ _ => rfl, limbs := fun _ _ => rfl, childless := hinv.childless hv hzero }
  have huses : ∀ l, (s.setVector v { this with size := this.size + 1 }).UsesLimb limbSize v l ↔
      s.UsesLimb limbSize v l := by
    intro l
    rw [usesLimb_iff hchange.after hroot', usesLimb_iff hv hroot]
    exact exists_congr fun i => hlimb
  have howns : ∀ l, (s.setVector v { this with size := this.size + 1 }).OwnsLimb limbSize v l ↔
      s.OwnsLimb limbSize v l := by
    intro l
    rw [ownsLimb_iff hchange.after hroot', ownsLimb_iff hv hroot]
    exact exists_congr fun i => and_congr_left fun _ => hlimb
  have hinv' := hchange.inv hinv hinv.freshRoot hinv.freshLimb ?_
    (OwnBlocks.of_same (fun _ => Iff.rfl)
      (fun r => (usesRoot_iff hchange.after).trans (usesRoot_iff hv).symm)
      (fun r => (ownsRoot_iff hchange.after).trans (ownsRoot_iff hv).symm)
      fun r hown => hinv.alloc_of_ownsRoot hown)
    (OwnBlocks.of_same (fun _ => Iff.rfl) huses howns fun l hown => hinv.alloc_of_ownsLimb hown)
  · exact ⟨(OwnStepTo.mk hchange hinv').writes hinv hpos, rfl, fun _ => rfl, root, l, hroot',
      hlimb.mpr hplace, hlast, hbit⟩
  · refine .inr ⟨root, hroot', ?_, ?_, ?_⟩
    · intro i hi
      exact htable.limb i (hcount ▸ hi)
    · intro i j l hi hj
      exact htable.inj (hlimb.mp hi) (hlimb.mp hj)
    · intro c hc
      rw [hcount]
      exact htable.capacity hc

/-! ### `push_back` and `mut` -/

theorem guard_of {p : Prop} [Decidable p] (h : p) : (guard p : Option Unit) = some () := by
  rw [guard, if_pos h]
  rfl

/-- An element of a limb that the vector owns is written. -/
theorem writeElement_spec (hinv : Inv limbSize s) (hpos : 0 < limbSize)
    (hv : s.vectors v = some this) (hzero : this.debugRefcount = 0)
    (hown : OwnsPlace limbSize s this i) {k : ℕ} (hk : k < limbSize) (x : T) :
    ∃ s', s.writeElement this i k x = some s' ∧ Writes limbSize s s' v this this ∧
      ∀ j < this.size, s'.deref limbSize this.start j =
        if j / limbSize = i ∧ j % limbSize = k then some x else s.deref limbSize this.start j := by
  obtain ⟨root, l, hroot, hplace, hlast, hbit⟩ := hown
  obtain ⟨l', old, hslot, hold, hlen⟩ := (hinv.table hv hroot).limb i hplace.1
  have hl : l' = l := by
    rw [hplace.2, Option.some.injEq, Option.some.injEq] at hslot
    exact hslot.symm
  subst hl
  have hstep : OwnStepTo limbSize s (s.writeLimb l' (old.set k (some x))) v this this :=
    ownStepTo_writeLimb hinv hv hzero ⟨this, root, i, hv, hroot, hplace, hlast, hbit⟩ hold
      (by rw [List.length_set, hlen])
  refine ⟨s.writeLimb l' (old.set k (some x)), ?_, hstep.writes hinv hpos, ?_⟩
  · simp only [writeElement, hroot, hslot, Option.bind_eq_bind, Option.bind_some,
      Option.join_some, hold, guard_of (hk.trans_eq hlen.symm)]
    rfl
  · intro j hj
    rw [deref_writeLimb hinv hpos hv hroot hplace hj]
    by_cases hji : j / limbSize = i
    · by_cases hjk : j % limbSize = k
      · rw [if_pos hji, if_pos ⟨hji, hjk⟩, elementAt, hjk,
          List.getElem?_set_self (hk.trans_eq hlen.symm)]
        rfl
      · rw [if_pos hji, if_neg fun h => hjk h.2, elementAt,
          List.getElem?_set_ne (Ne.symm hjk), deref_eq hroot, hji, limbAt_eq hslot, hold]
        rfl
    · rw [if_neg hji, if_neg fun h => hji h.1]

theorem pushBackInternal_spec (hinv : Inv limbSize s) (hpos : 0 < limbSize)
    (hv : s.vectors v = some this) (hzero : this.debugRefcount = 0)
    (hfilled : Filled limbSize s this) :
    ∃ s' this', s.pushBackInternal limbSize v this = some (s', this') ∧
      Extends limbSize s s' v this this' := by
  obtain ⟨s₁, this₁, heq₁, h₁, howner⟩ := uncowRootIfNeeded_spec hinv hpos hv hzero
  have hzero₁ : this₁.debugRefcount = 0 := h₁.debugRefcount.trans hzero
  by_cases hmod : this.size % limbSize = 0
  · obtain ⟨s₂, this₂, heq₂, h₂⟩ :=
      grow_spec h₁.inv hpos h₁.after hzero₁ howner (h₁.size ▸ hmod)
    refine ⟨_, _, ?_, Extends.of_reshapes h₁ h₂⟩
    simp only [pushBackInternal, assertWritable, guard_of hzero, heq₁, hmod, ne_eq,
      not_true_eq_false, if_false, heq₂, Option.bind_eq_bind, Option.bind_some, Option.pure_def]
  · have hne : this₁.size ≠ 0 := by
      rw [h₁.size]
      rintro hsize
      exact hmod (by simp [hsize])
    have hlast : this₁.last.isSome := by
      refine howner.resolve_right fun hnull => ?_
      obtain ⟨root, hroot⟩ := h₁.inv.exists_rootOf h₁.after (.inr hne)
      rw [rootOf, hnull] at hroot
      cases hroot
    have hplace : this.size / limbSize < limbCount limbSize this₁.size := by
      rw [h₁.size, limbCount_of_mod_ne_zero hpos hmod]
      exact Nat.lt_succ_self _
    obtain ⟨s₂, heq₂, h₂, hown⟩ := uncowIfNeeded_spec h₁.inv hpos h₁.after hzero₁ hlast
      (h₁.filled hfilled) hplace
    have h₃ := extends_setVector h₂.inv hpos h₂.after hzero₁ (h₁.size ▸ hmod) (h₁.size ▸ hown)
    refine ⟨_, _, ?_, Extends.of_reshapes (h₁.trans h₂) h₃⟩
    simp only [pushBackInternal, assertWritable, guard_of hzero, heq₁, hmod, ne_eq,
      not_false_eq_true, if_true, heq₂, Option.bind_eq_bind, Option.bind_some, Option.pure_def,
      Option.map_some]

/-- `push_back` appends an element. -/
theorem pushBack_spec (hinv : Inv limbSize s) (hpos : 0 < limbSize)
    (hv : s.vectors v = some this) (hzero : this.debugRefcount = 0)
    (hfilled : Filled limbSize s this) (x : T) :
    ∃ s' this', s.pushBack limbSize v x = some s' ∧ Writes limbSize s s' v this this' ∧
      this'.size = this.size + 1 ∧
      (∀ i < this.size, s'.deref limbSize this'.start i = s.deref limbSize this.start i) ∧
      s'.deref limbSize this'.start this.size = some x := by
  obtain ⟨s₁, this₁, heq₁, h₁⟩ := pushBackInternal_spec hinv hpos hv hzero hfilled
  obtain ⟨s₂, heq₂, h₂, hderef⟩ := writeElement_spec h₁.inv hpos h₁.after
    (h₁.debugRefcount.trans hzero) h₁.owned (Nat.mod_lt this.size hpos) x
  refine ⟨s₂, this₁, ?_, h₁.toWrites.trans h₂, h₁.size, ?_, ?_⟩
  · simp only [pushBack, hv, heq₁, heq₂, Option.bind_eq_bind, Option.bind_some]
  · intro i hi
    rw [hderef i (by rw [h₁.size]; omega), if_neg, h₁.deref hi]
    rintro ⟨hdiv, hmod⟩
    have h := Nat.div_add_mod i limbSize
    rw [hdiv, hmod, Nat.div_add_mod] at h
    omega
  · rw [hderef _ (by rw [h₁.size]; omega), if_pos ⟨rfl, rfl⟩]

/-- `mut` gives the element for writing. -/
theorem mutElement_spec (hinv : Inv limbSize s) (hpos : 0 < limbSize)
    (hv : s.vectors v = some this) (hzero : this.debugRefcount = 0)
    (hfilled : Filled limbSize s this) {ix : ℕ} (hix : ix < this.size) {x : T}
    (hx : s.deref limbSize this.start ix = some x) (write : T → T) :
    ∃ s' this', s.mutElement limbSize v ix write = some (s', x) ∧
      Writes limbSize s s' v this this' ∧ this'.size = this.size ∧
      ∀ i < this.size, s'.deref limbSize this'.start i =
        if i = ix then some (write x) else s.deref limbSize this.start i := by
  have hstart : this.start.isSome := by
    obtain ⟨root, hroot⟩ := hinv.exists_rootOf hv (.inr (by omega))
    obtain ⟨r, hr, -⟩ := Option.bind_eq_some_iff.mp (show this.start.bind s.roots = _ from hroot)
    rw [hr]
    rfl
  obtain ⟨s₁, this₁, heq₁, h₁, hlast, -⟩ :=
    uncowRootIfNeededAssumeNonempty_spec hinv hpos hv hzero hstart
  have hzero₁ : this₁.debugRefcount = 0 := h₁.debugRefcount.trans hzero
  obtain ⟨s₂, heq₂, h₂, hown⟩ := uncowIfNeeded_spec h₁.inv hpos h₁.after hzero₁ hlast
    (h₁.filled hfilled) (div_lt_limbCount hpos (h₁.size ▸ hix))
  have hx₂ : s₂.deref limbSize this₁.start ix = some x := by
    rw [h₂.deref (h₁.size ▸ hix), h₁.deref hix, hx]
  obtain ⟨s₃, heq₃, h₃, hderef⟩ := writeElement_spec h₂.inv hpos h₂.after hzero₁ hown
    (Nat.mod_lt ix hpos) (write x)
  refine ⟨s₃, this₁, ?_, (h₁.toWrites.trans h₂.toWrites).trans h₃, h₁.size, ?_⟩
  · simp only [mutElement, hv, guard_of hix, assertWritable, guard_of hzero, heq₁, heq₂, hx₂, heq₃,
      Option.bind_eq_bind, Option.bind_some, Option.pure_def]
  · intro i hi
    have hiff : (i / limbSize = ix / limbSize ∧ i % limbSize = ix % limbSize) ↔ i = ix := by
      constructor
      · rintro ⟨hdiv, hmod⟩
        have h := Nat.div_add_mod i limbSize
        rw [hdiv, hmod, Nat.div_add_mod] at h
        exact h.symm
      · rintro rfl
        exact ⟨rfl, rfl⟩
    rw [hderef i (h₁.size ▸ hi), h₂.deref (h₁.size ▸ hi), h₁.deref hi]
    simp only [hiff]

end Nidhugg.GenVectors
