import Mathlib.Tactic.IntervalCases
import Nidhugg.Library.CopyOnWrite
import Nidhugg.Model.GenVector

/-! # The bitmap of shared limbs

What the bit operations on the bitmap of a root table mean for single bits. -/

namespace Nidhugg.GenVector

open GenVectors

/-- Whether a bit is set. Bits outside the bitmap are clear. -/
def bitSet (bitmap : List (BitVec 8)) (i : ℕ) : Bool :=
  (bitmap[i / bitsPerUint]?.getD 0#8).getLsbD (i % bitsPerUint)

theorem bitmapBit_eq {bitmap : List (BitVec 8)} {i : ℕ} (h : i / bitsPerUint < bitmap.length) :
    bitmapBit bitmap i = some (bitSet bitmap i) := by
  rw [bitmapBit, bitSet, List.getElem?_eq_getElem h]
  simp only [Option.bind_eq_bind, Option.bind_some, Option.pure_def, Option.getD_some,
    Option.some.injEq]
  rw [Bool.eq_iff_iff, decide_eq_true_iff, BitVec.and_one_eq_setWidth_ofBool_getLsbD,
    BitVec.getLsbD_ushiftRight, Nat.add_zero]
  cases bitmap[i / bitsPerUint].getLsbD (i % bitsPerUint) with
  | false => simp
  | true => simp

theorem length_clearBit (bitmap : List (BitVec 8)) (i : ℕ) :
    (clearBit bitmap i).length = bitmap.length := by
  rw [clearBit, List.length_modify]

theorem bitSet_clearBit (bitmap : List (BitVec 8)) (i j : ℕ) :
    bitSet (clearBit bitmap i) j = (bitSet bitmap j && j ≠ i) := by
  rw [bitSet, bitSet, clearBit, List.getElem?_modify]
  have hbit : j % bitsPerUint < 8 := Nat.mod_lt _ (by decide)
  by_cases hword : i / bitsPerUint = j / bitsPerUint
  · have hiff : j = i ↔ j % bitsPerUint = i % bitsPerUint := by
      constructor
      · intro h
        rw [h]
      · intro h
        simp only [bitsPerUint] at hword h
        omega
    simp only [if_pos hword]
    cases bitmap[j / bitsPerUint]? with
    | none => simp
    | some uint =>
        simp only [Option.map_eq_map, Option.map_some, Option.getD_some, BitVec.getLsbD_and, BitVec.getLsbD_not,
          BitVec.getLsbD_shiftLeft, hbit]
        have hi : i % bitsPerUint < 8 := Nat.mod_lt _ (by decide)
        rcases Nat.lt_trichotomy (j % bitsPerUint) (i % bitsPerUint) with hlt | heq | hgt
        · have hji : j ≠ i := fun h => hlt.ne (hiff.mp h)
          simp [hlt, hji]
        · simp [hiff.mpr heq]
        · have hne : j % bitsPerUint - i % bitsPerUint ≠ 0 := by omega
          have hji : j ≠ i := fun h => hgt.ne' (hiff.mp h)
          simp [hji, hne, hgt.not_gt]
  · have hne : j ≠ i := fun h => hword (by rw [h])
    simp [hword, hne]

theorem getLsbD_allOnes_below {k i : ℕ} (hk : k < 8) :
    ((1#8 <<< k) - 1#8).getLsbD i = decide (i < k) := by
  have heq : (1#8 <<< k) - 1#8 = BitVec.ofNat 8 (2 ^ k - 1) := by
    interval_cases k <;> rfl
  rw [heq, BitVec.getLsbD_ofNat, Nat.testBit_two_pow_sub_one]
  by_cases hi : i < k
  · simp [hi, hi.trans hk]
  · simp [hi]

theorem bitSet_cowBitmap (oldCapacity bitmapUints i : ℕ) :
    bitSet (cowBitmap oldCapacity bitmapUints) i = decide (i < oldCapacity) := by
  have hk : oldCapacity % bitsPerUint < 8 := Nat.mod_lt _ (by decide)
  have hi : i % bitsPerUint < 8 := Nat.mod_lt _ (by decide)
  rw [bitSet, cowBitmap]
  rcases Nat.lt_trichotomy (i / bitsPerUint) (oldCapacity / bitsPerUint) with hlt | heq | hgt
  · have hbelow : i < oldCapacity := by
      simp only [bitsPerUint] at hlt
      omega
    rw [List.getElem?_append_left (by simpa using hlt), List.getElem?_replicate, if_pos hlt]
    simp only [Option.getD_some, BitVec.getLsbD_not]
    simp [hbelow, hi]
  · have hiff : i < oldCapacity ↔ i % bitsPerUint < oldCapacity % bitsPerUint := by
      simp only [bitsPerUint] at heq ⊢
      omega
    rw [heq, List.getElem?_append_right (by simp)]
    simp only [List.length_replicate, Nat.sub_self, List.getElem?_cons_zero, Option.getD_some]
    rw [getLsbD_allOnes_below hk, decide_eq_decide, hiff]
  · have habove : ¬ i < oldCapacity := by
      simp only [bitsPerUint] at hgt
      omega
    have hpos : i / bitsPerUint - oldCapacity / bitsPerUint ≠ 0 := by omega
    obtain ⟨d, hd⟩ := Nat.exists_eq_succ_of_ne_zero hpos
    rw [List.getElem?_append_right (by simpa using hgt.le), List.length_replicate, hd,
      List.getElem?_cons_succ, List.getElem?_replicate]
    split
    · simp [habove]
    · simp [habove]

theorem length_cowBitmap {oldCapacity bitmapUints : ℕ}
    (h : oldCapacity / bitsPerUint < bitmapUints) :
    (cowBitmap oldCapacity bitmapUints).length = bitmapUints := by
  rw [cowBitmap, List.length_append, List.length_cons, List.length_replicate,
    List.length_replicate]
  omega

/-- Bytes of zeros behind a bitmap change no bit. -/
theorem bitSet_append_zeros (bitmap : List (BitVec 8)) (n i : ℕ) :
    bitSet (bitmap ++ List.replicate n 0#8) i = bitSet bitmap i := by
  rw [bitSet, bitSet]
  by_cases h : i / bitsPerUint < bitmap.length
  · rw [List.getElem?_append_left h]
  · rw [not_lt] at h
    rw [List.getElem?_append_right h, List.getElem?_replicate, List.getElem?_eq_none h]
    split
    · rfl
    · rfl

/-- The byte of a bit below the capacity is in the bitmap. -/
theorem div_lt_bitmapSize {i capacity : ℕ} (h : i < capacity) :
    i / bitsPerUint < bitmapSize capacity := by
  rw [bitmapSize, bitsPerUint]
  omega

theorem lt_nextCapacity (capacity : ℕ) : capacity + 1 < nextCapacity capacity := by
  rw [nextCapacity]
  omega

theorem bitmapSize_mono {m n : ℕ} (h : m ≤ n) : bitmapSize m ≤ bitmapSize n := by
  rw [bitmapSize, bitmapSize, bitsPerUint]
  omega

end Nidhugg.GenVector

/-! # Ownership of roots and limbs

A root table belongs to the vector that keeps its bitmap. A limb belongs to the vector whose
bitmap has a clear bit for it. Both are used by their owner and by copies of it. -/

namespace Nidhugg.GenVectors

open GenVector CopyForest

variable {T : Type} {limbSize : ℕ} {s s' : GenVectors T} {v w r l i : ℕ}
  {this this' other : Members} {root root' : Root}

/-! ### Sizes -/

theorem div_lt_limbCount (hpos : 0 < limbSize) {size : ℕ} (h : i < size) :
    i / limbSize < limbCount limbSize size := by
  rw [limbCount, Nat.div_lt_iff_lt_mul hpos]
  have hmod := Nat.mod_lt (size + limbSize - 1) hpos
  have hdiv := Nat.div_add_mod (size + limbSize - 1) limbSize
  rw [Nat.mul_comm] at hdiv
  omega

theorem mul_lt_of_lt_limbCount (hpos : 0 < limbSize) {size : ℕ} (h : i < limbCount limbSize size) :
    i * limbSize < size := by
  rw [limbCount, Nat.lt_iff_add_one_le, Nat.le_div_iff_mul_le hpos, Nat.add_mul, Nat.one_mul] at h
  omega

theorem limbCount_of_mod_eq_zero (hpos : 0 < limbSize) {size : ℕ} (h : size % limbSize = 0) :
    limbCount limbSize size = size / limbSize := by
  apply le_antisymm
  · by_contra hlt
    have := mul_lt_of_lt_limbCount hpos (not_le.mp hlt)
    have hdiv := Nat.div_add_mod size limbSize
    rw [Nat.mul_comm] at hdiv
    omega
  · rw [limbCount]
    exact Nat.div_le_div_right (by omega)

theorem limbCount_succ (hpos : 0 < limbSize) (size : ℕ) :
    limbCount limbSize (size + 1) = size / limbSize + 1 := by
  have heq : size + 1 + limbSize - 1 = size + limbSize := by omega
  rw [limbCount, heq, Nat.add_div_right _ hpos]

theorem limbCount_of_mod_ne_zero (hpos : 0 < limbSize) {size : ℕ} (h : size % limbSize ≠ 0) :
    limbCount limbSize size = size / limbSize + 1 := by
  obtain ⟨n, rfl⟩ : ∃ n, size = n + 1 := Nat.exists_eq_succ_of_ne_zero fun h0 => h (by simp [h0])
  rw [limbCount_succ hpos]
  congr 1
  rw [Nat.succ_div, if_neg, Nat.add_zero]
  intro hdvd
  exact h (Nat.mod_eq_zero_of_dvd hdvd)

/-- The limb of the element at a place of a limb. -/
theorem div_of_place {k : ℕ} (hk : k < limbSize) : (i * limbSize + k) / limbSize = i := by
  rw [Nat.mul_comm, Nat.mul_add_div (by omega), Nat.div_eq_of_lt hk, Nat.add_zero]

theorem mod_of_place {k : ℕ} (hk : k < limbSize) : (i * limbSize + k) % limbSize = k := by
  rw [Nat.mul_comm, Nat.mul_add_mod, Nat.mod_eq_of_lt hk]

/-! ### Who uses and owns what -/

/-- The vectors with what they were copied from. -/
def forest (s : GenVectors T) : Forest := fun v => (s.vectors v).map Members.debugParent

def UsesRoot (s : GenVectors T) (v r : ℕ) : Prop :=
  ∃ this, s.vectors v = some this ∧ this.start = some r

def OwnsRoot (s : GenVectors T) (v r : ℕ) : Prop :=
  ∃ this, s.vectors v = some this ∧ this.start = some r ∧ this.last.isSome

/-- A limb at a place of a root table that is in use. -/
def HasLimb (limbSize : ℕ) (this : Members) (root : Root) (i l : ℕ) : Prop :=
  i < limbCount limbSize this.size ∧ root.slots[i]? = some (some l)

def UsesLimb (limbSize : ℕ) (s : GenVectors T) (v l : ℕ) : Prop :=
  ∃ this root i, s.vectors v = some this ∧ s.rootOf this = some root ∧
    HasLimb limbSize this root i l

def OwnsLimb (limbSize : ℕ) (s : GenVectors T) (v l : ℕ) : Prop :=
  ∃ this root i, s.vectors v = some this ∧ s.rootOf this = some root ∧
    HasLimb limbSize this root i l ∧ this.last.isSome ∧ bitSet root.bitmap i = false

def rootBlocks (s : GenVectors T) : Blocks ℕ := ⟨fun r => s.roots r ≠ none, s.UsesRoot, s.OwnsRoot⟩

def limbBlocks (limbSize : ℕ) (s : GenVectors T) : Blocks ℕ :=
  ⟨fun l => s.limbs l ≠ none, s.UsesLimb limbSize, s.OwnsLimb limbSize⟩

/-- The root table of a vector: different limbs at the places in use, and a bitmap of the right
size that is clear behind them. -/
structure Table (limbSize : ℕ) (s : GenVectors T) (this : Members) (root : Root) : Prop where
  limb : ∀ i : ℕ, i < limbCount limbSize this.size → ∃ l limb, root.slots[i]? = some (some l) ∧
    s.limbs l = some limb ∧ limb.length = limbSize
  inj : ∀ {i j l : ℕ}, HasLimb limbSize this root i l → HasLimb limbSize this root j l → i = j
  capacity : ∀ {c : ℕ}, this.last = some c → root.slots.length = c ∧
    root.bitmap.length = bitmapSize c ∧
      ∀ i : ℕ, limbCount limbSize this.size ≤ i → bitSet root.bitmap i = false

/-- A vector has no root table and is empty, or it has one. -/
def WellFormed (limbSize : ℕ) (s : GenVectors T) (this : Members) : Prop :=
  (this.start = none ∧ this.last = none ∧ this.size = 0) ∨
    ∃ root, s.rootOf this = some root ∧ Table limbSize s this root

/-- The invariant of a family of vectors. -/
structure Inv (limbSize : ℕ) (s : GenVectors T) : Prop where
  freshVector : ∀ v, s.vectors v ≠ none → v < s.nextVector
  freshRoot : ∀ r, s.roots r ≠ none → r < s.nextRoot
  freshLimb : ∀ l, s.limbs l ≠ none → l < s.nextLimb
  parent : ∀ v w, Child s.forest v w → v < w ∧ s.forest v ≠ none
  refcount : ∀ v this, s.vectors v = some this →
    this.debugRefcount = (children s.forest s.nextVector v).card
  wellFormed : ∀ v this, s.vectors v = some this → WellFormed limbSize s this
  roots : Disciplined s.forest s.rootBlocks
  limbs : Disciplined s.forest (s.limbBlocks limbSize)

theorem inv_init : Inv limbSize (init : GenVectors T) where
  freshVector := fun v h => absurd rfl h
  freshRoot := fun r h => absurd rfl h
  freshLimb := fun l h => absurd rfl h
  parent := by
    intro v w h
    cases h
  refcount := by
    intro v this h
    cases h
  wellFormed := by
    intro v this h
    cases h
  roots := by
    constructor
    · rintro v r ⟨this, h, -⟩
      cases h
    · rintro v r ⟨this, h, -⟩
      cases h
    · intro r h
      exact absurd rfl h
    · rintro v w r ⟨this, h, -⟩
      cases h
  limbs := by
    constructor
    · rintro v l ⟨this, root, i, h, -⟩
      cases h
    · rintro v l ⟨this, root, i, h, -⟩
      cases h
    · intro l h
      exact absurd rfl h
    · rintro v w l ⟨this, root, i, h, -⟩
      cases h

theorem forest_eq_none : s.forest v = none ↔ s.vectors v = none := by
  rw [forest, Option.map_eq_none_iff]

/-- A vector that may be written has no copies. -/
theorem Inv.childless (h : Inv limbSize s) (hv : s.vectors v = some this)
    (hzero : this.debugRefcount = 0) : ∀ w, ¬ Child s.forest v w := by
  rw [h.refcount v this hv] at hzero
  refine (children_eq_empty_iff fun w hw => h.freshVector w ?_).mp hzero
  rwa [ne_eq, forest_eq_none] at hw

theorem Inv.table (h : Inv limbSize s) (hv : s.vectors v = some this)
    (hroot : s.rootOf this = some root) : Table limbSize s this root := by
  rcases h.wellFormed v this hv with ⟨hstart, -, -⟩ | ⟨root', hroot', htable⟩
  · rw [rootOf, hstart] at hroot
    cases hroot
  · rw [hroot, Option.some.injEq] at hroot'
    rwa [hroot']

/-- A vector that is not empty has a root table. -/
theorem Inv.exists_rootOf (h : Inv limbSize s) (hv : s.vectors v = some this)
    (hsome : this.start.isSome ∨ this.size ≠ 0) : ∃ root, s.rootOf this = some root := by
  rcases h.wellFormed v this hv with ⟨hstart, -, hsize⟩ | ⟨root, hroot, -⟩
  · rw [hstart, hsize] at hsome
    simp at hsome
  · exact ⟨root, hroot⟩

/-- A vector whose members change in a part that a property does not depend on. -/
theorem exists_other_iff {f : Members → Members} {P : Members → Prop}
    (hother : s'.vectors w = (s.vectors w).map f) (hP : ∀ other, P (f other) = P other) :
    (∃ other, s'.vectors w = some other ∧ P other) ↔
      ∃ other, s.vectors w = some other ∧ P other := by
  simp only [hother, Option.map_eq_some_iff]
  constructor
  · rintro ⟨_, ⟨other, hv, rfl⟩, h⟩
    exact ⟨other, hv, hP other ▸ h⟩
  · rintro ⟨other, hv, h⟩
    exact ⟨_, ⟨other, hv, rfl⟩, (hP other).symm ▸ h⟩

/-- The same for a property of its members, its root table and a limb. -/
theorem exists_limb_iff {f : Members → Members} {P : Members → Root → ℕ → Prop}
    (hother : s'.vectors w = (s.vectors w).map f)
    (hroot : ∀ other, s.vectors w = some other → s'.rootOf (f other) = s.rootOf other)
    (hP : ∀ other, P (f other) = P other) :
    (∃ other root i, s'.vectors w = some other ∧ s'.rootOf other = some root ∧ P other root i) ↔
      ∃ other root i, s.vectors w = some other ∧ s.rootOf other = some root ∧ P other root i := by
  simp only [hother, Option.map_eq_some_iff]
  constructor
  · rintro ⟨_, root, i, ⟨other, hv, rfl⟩, hr, h⟩
    exact ⟨other, root, i, hv, (hroot other hv).symm.trans hr, hP other ▸ h⟩
  · rintro ⟨other, root, i, hv, hr, h⟩
    exact ⟨_, root, i, ⟨other, hv, rfl⟩, (hroot other hv).trans hr, (hP other).symm ▸ h⟩

theorem ownsLimb_iff (hv : s.vectors v = some this) (hroot : s.rootOf this = some root) :
    s.OwnsLimb limbSize v l ↔
      ∃ i, HasLimb limbSize this root i l ∧ this.last.isSome ∧ bitSet root.bitmap i = false := by
  constructor
  · rintro ⟨this', root', i, hv', hroot', hlimb, hlast, hbit⟩
    rw [hv, Option.some.injEq] at hv'
    subst hv'
    rw [hroot, Option.some.injEq] at hroot'
    subst hroot'
    exact ⟨i, hlimb, hlast, hbit⟩
  · rintro ⟨i, hlimb, hlast, hbit⟩
    exact ⟨this, root, i, hv, hroot, hlimb, hlast, hbit⟩

theorem usesLimb_iff (hv : s.vectors v = some this) (hroot : s.rootOf this = some root) :
    s.UsesLimb limbSize v l ↔ ∃ i, HasLimb limbSize this root i l := by
  constructor
  · rintro ⟨this', root', i, hv', hroot', hlimb⟩
    rw [hv, Option.some.injEq] at hv'
    subst hv'
    rw [hroot, Option.some.injEq] at hroot'
    subst hroot'
    exact ⟨i, hlimb⟩
  · rintro ⟨i, hlimb⟩
    exact ⟨this, root, i, hv, hroot, hlimb⟩

theorem ownsRoot_iff (hv : s.vectors v = some this) :
    s.OwnsRoot v r ↔ this.start = some r ∧ this.last.isSome := by
  constructor
  · rintro ⟨this', hv', h⟩
    rw [hv, Option.some.injEq] at hv'
    rwa [hv']
  · intro h
    exact ⟨this, hv, h⟩

theorem usesRoot_iff (hv : s.vectors v = some this) : s.UsesRoot v r ↔ this.start = some r := by
  constructor
  · rintro ⟨this', hv', h⟩
    rw [hv, Option.some.injEq] at hv'
    rwa [hv']
  · intro h
    exact ⟨this, hv, h⟩

/-! ### Steps of one vector -/

/-- A step of a vector without copies leaves what it does not own alone. -/
structure OwnChange (limbSize : ℕ) (s s' : GenVectors T) (v : ℕ) (this this' : Members) : Prop where
  before : s.vectors v = some this
  vectors : s'.vectors = Function.update s.vectors v (some this')
  debugParent : this'.debugParent = this.debugParent
  debugRefcount : this'.debugRefcount = this.debugRefcount
  nextVector : s'.nextVector = s.nextVector
  roots : ∀ {r}, s.roots r ≠ none → ¬ s.OwnsRoot v r → s'.roots r = s.roots r
  limbs : ∀ {l}, s.limbs l ≠ none → ¬ s.OwnsLimb limbSize v l → s'.limbs l = s.limbs l
  childless : ∀ w, ¬ Child s.forest v w

theorem OwnChange.after (h : OwnChange limbSize s s' v this this') :
    s'.vectors v = some this' := by
  rw [h.vectors, Function.update_self]

theorem OwnChange.vectors_other (h : OwnChange limbSize s s' v this this') (hw : w ≠ v) :
    s'.vectors w = s.vectors w := by
  rw [h.vectors, Function.update_of_ne hw]

theorem OwnChange.forest_eq (h : OwnChange limbSize s s' v this this') :
    s'.forest = s.forest := by
  funext w
  by_cases hw : w = v
  · rw [hw, forest, forest, h.after, h.before, Option.map_some, Option.map_some, h.debugParent]
  · rw [forest, forest, h.vectors_other hw]

/-- Other vectors keep their root tables. -/
theorem OwnChange.rootOf_other (h : OwnChange limbSize s s' v this this') (hinv : Inv limbSize s)
    (hother : s.vectors w = some other) (hw : w ≠ v) : s'.rootOf other = s.rootOf other := by
  rw [rootOf, rootOf]
  cases hstart : other.start with
  | none => rfl
  | some r =>
      have huses : s.rootBlocks.uses w r := ⟨other, hother, hstart⟩
      exact h.roots (hinv.roots.alloc_of_uses huses)
        fun hown => hw (hinv.roots.eq_of_uses h.childless hown huses)

/-- Other vectors keep their limbs. -/
theorem OwnChange.limbs_other (h : OwnChange limbSize s s' v this this') (hinv : Inv limbSize s)
    (hother : s.vectors w = some other) (hw : w ≠ v) (hroot : s.rootOf other = some root)
    (hlimb : HasLimb limbSize other root i l) : s'.limbs l = s.limbs l := by
  have huses : (s.limbBlocks limbSize).uses w l := ⟨other, root, i, hother, hroot, hlimb⟩
  exact h.limbs (hinv.limbs.alloc_of_uses huses)
    fun hown => hw (hinv.limbs.eq_of_uses h.childless hown huses)

/-- The elements of a vector by limbs. -/
theorem deref_eq (hroot : s.rootOf this = some root) :
    s.deref limbSize this.start i =
      (s.limbAt root (i / limbSize)).bind fun limb => elementAt limb (i % limbSize) := by
  rw [rootOf] at hroot
  obtain ⟨r, hr, hroot⟩ := Option.bind_eq_some_iff.mp hroot
  rw [deref, hr]
  simp [hroot]

theorem limbAt_eq (hslot : root.slots[i]? = some (some l)) : s.limbAt root i = s.limbs l := by
  rw [limbAt, hslot]
  rfl

/-- Other vectors keep their elements. -/
theorem OwnChange.deref_other (h : OwnChange limbSize s s' v this this') (hinv : Inv limbSize s)
    (hpos : 0 < limbSize) (hother : s.vectors w = some other) (hw : w ≠ v) (hi : i < other.size) :
    s'.deref limbSize other.start i = s.deref limbSize other.start i := by
  obtain ⟨root, hroot⟩ := hinv.exists_rootOf hother (.inr (by omega))
  have hroot' := h.rootOf_other hinv hother hw
  have hlt := div_lt_limbCount hpos hi
  obtain ⟨l, limb, hslot, -, -⟩ := (hinv.table hother hroot).limb _ hlt
  rw [deref_eq hroot, deref_eq (hroot'.trans hroot), limbAt_eq hslot, limbAt_eq hslot,
    h.limbs_other hinv hother hw hroot ⟨hlt, hslot⟩]

theorem OwnChange.wellFormed_other (h : OwnChange limbSize s s' v this this')
    (hinv : Inv limbSize s) (hother : s.vectors w = some other) (hw : w ≠ v) :
    WellFormed limbSize s' other := by
  rcases hinv.wellFormed w other hother with hempty | ⟨root, hroot, htable⟩
  · exact .inl hempty
  · refine .inr ⟨root, (h.rootOf_other hinv hother hw).trans hroot, ?_, htable.inj,
      htable.capacity⟩
    intro i hi
    obtain ⟨l, limb, hslot, hlimb, hlen⟩ := htable.limb i hi
    exact ⟨l, limb, hslot, (h.limbs_other hinv hother hw hroot ⟨hi, hslot⟩).trans hlimb, hlen⟩

/-- What a step of a vector has to respect for the blocks of one kind. -/
structure OwnBlocks {β : Type*} (v : ℕ) (b b' : Blocks β) : Prop where
  alloc : ∀ {x}, b'.alloc x ↔ (b.alloc x ∧ ¬ b.owns v x) ∨ b'.owns v x
  uses : ∀ {x}, b'.uses v x → b'.owns v x ∨ (b.uses v x ∧ ¬ b.owns v x)
  owns : ∀ {x}, b'.owns v x → b.owns v x ∨ ¬ b.alloc x

/-- A step of one vector keeps the invariant if it respects its own blocks. -/
theorem OwnChange.inv (h : OwnChange limbSize s s' v this this') (hinv : Inv limbSize s)
    (hfreshRoot : ∀ r, s'.roots r ≠ none → r < s'.nextRoot)
    (hfreshLimb : ∀ l, s'.limbs l ≠ none → l < s'.nextLimb)
    (hwellFormed : WellFormed limbSize s' this') (hroots : OwnBlocks v s.rootBlocks s'.rootBlocks)
    (hlimbs : OwnBlocks v (s.limbBlocks limbSize) (s'.limbBlocks limbSize)) :
    Inv limbSize s' where
  freshVector := by
    intro w hw
    rw [h.nextVector]
    by_cases heq : w = v
    · rw [heq]
      apply hinv.freshVector
      rw [h.before]
      exact Option.some_ne_none _
    · rw [h.vectors_other heq] at hw
      exact hinv.freshVector w hw
  freshRoot := hfreshRoot
  freshLimb := hfreshLimb
  parent := by
    rw [h.forest_eq]
    exact hinv.parent
  refcount := by
    intro w other hother
    rw [h.forest_eq, h.nextVector]
    by_cases heq : w = v
    · subst heq
      rw [h.after, Option.some.injEq] at hother
      rw [← hother, h.debugRefcount]
      exact hinv.refcount w this h.before
    · rw [h.vectors_other heq] at hother
      exact hinv.refcount w other hother
  wellFormed := by
    intro w other hother
    by_cases heq : w = v
    · subst heq
      rw [h.after, Option.some.injEq] at hother
      rwa [← hother]
    · rw [h.vectors_other heq] at hother
      exact h.wellFormed_other hinv hother heq
  roots := by
    rw [h.forest_eq]
    refine hinv.roots.ownStep h.childless ⟨?_, ?_, hroots.alloc, ?_, hroots.uses, hroots.owns⟩
    · intro w r hw
      simp only [rootBlocks, UsesRoot, h.vectors_other hw]
    · intro w r hw
      simp only [rootBlocks, OwnsRoot, h.vectors_other hw]
    · rintro r ⟨other, hother, hstart, -⟩
      exact ⟨other, hother, hstart⟩
  limbs := by
    rw [h.forest_eq]
    refine hinv.limbs.ownStep h.childless ⟨?_, ?_, hlimbs.alloc, ?_, hlimbs.uses, hlimbs.owns⟩
    · intro w l hw
      exact exists_limb_iff (f := id) (by simp [h.vectors_other hw])
        (fun _ hother => h.rootOf_other hinv hother hw) fun _ => rfl
    · intro w l hw
      exact exists_limb_iff (f := id) (by simp [h.vectors_other hw])
        (fun _ hother => h.rootOf_other hinv hother hw) fun _ => rfl
    · rintro l ⟨other, root, i, hother, hroot, hlimb, -⟩
      exact ⟨other, root, i, hother, hroot, hlimb⟩

end Nidhugg.GenVectors
