import Nidhugg.Library.Reachability
import Nidhugg.Verification.GenVector.Lifetime

/-! # Families of lists

What generational vectors are for: each vector is a list. A copy starts with the list of its
source. A vector that has living copies may not be changed, unless it was empty when they were
made. -/

namespace Nidhugg

open CopyForest GenVector

/-- A list and the one that it was copied from. -/
structure ListVector (T : Type) where
  elements : List T
  parent : Option ℕ

structure ListVectors (T : Type) where
  vectors : ℕ → Option (ListVector T)
  next : ℕ

namespace ListVectors

variable {T : Type}

def init : ListVectors T := ⟨fun _ => none, 0⟩

def forest (t : ListVectors T) : Forest := fun v => (t.vectors v).map ListVector.parent

/-- No copy of the list lives. -/
def isWritable (t : ListVectors T) (v : ℕ) : Bool := (children t.forest t.next v).card = 0

def set (t : ListVectors T) (v : ℕ) (list : Option (ListVector T)) : ListVectors T :=
  { t with vectors := Function.update t.vectors v list }

def add (t : ListVectors T) (list : ListVector T) : ListVectors T :=
  { t.set t.next (some list) with next := t.next + 1 }

/-- One operation. Empty if the operation is not allowed. -/
def step (t : ListVectors T) : Op T → Option (ListVectors T × Output T)
  | .new => some (t.add ⟨[], none⟩, .made t.next)
  | .copy v => do
      let other ← t.vectors v
      return (t.add ⟨other.elements, if other.elements.isEmpty then none else some v⟩, .made t.next)
  | .destroy v => do
      let _ ← t.vectors v
      guard (t.isWritable v)
      return (t.set v none, .done)
  | .pushBack v val => do
      let this ← t.vectors v
      guard (t.isWritable v)
      return (t.set v (some { this with elements := this.elements ++ [val] }), .done)
  | .mutElement v ix write => do
      let this ← t.vectors v
      let x ← this.elements[ix]?
      guard (t.isWritable v)
      return (t.set v (some { this with elements := this.elements.set ix (write x) }), .element x)
  | .subscript v ix => do return (t, .element (← (← t.vectors v).elements[ix]?))
  | .atIndex v ix => do
      match (← t.vectors v).elements[ix]? with
      | none => return (t, .outOfRange)
      | some x => return (t, .element x)
  | .back v => do return (t, .element (← (← t.vectors v).elements.getLast?))
  | .size v => do return (t, .size (← t.vectors v).elements.length)
  | .iterate v => do return (t, .elements (← t.vectors v).elements)
  | .forEach v => do return (t, .elements (← t.vectors v).elements)

end ListVectors

end Nidhugg

/-! # Generational vectors are lists

Every sequence of operations on a family of vectors gives the outputs of the same operations on
a family of lists. In the states reached, the bitmaps tell exactly which limbs a vector has for
itself. -/

namespace Nidhugg.GenVectors

open GenVector CopyForest Simulation

variable {T : Type} {limbSize : ℕ} {s s' : GenVectors T} {t : ListVectors T} {v w r l i : ℕ}
  {this this' other : Members} {root : Root} {list list' : ListVector T}

/-- The elements of a vector are those of a list. -/
structure Represents (limbSize : ℕ) (s : GenVectors T) (this : Members) (list : ListVector T) :
    Prop where
  parent : this.debugParent = list.parent
  size : this.size = list.elements.length
  start : this.start.isSome → this.size ≠ 0
  deref : ∀ i : ℕ, i < this.size → s.deref limbSize this.start i = list.elements[i]?

structure Refines (limbSize : ℕ) (s : GenVectors T) (t : ListVectors T) : Prop where
  inv : Inv limbSize s
  next : s.nextVector = t.next
  vectors : ∀ v, (s.vectors v = none ∧ t.vectors v = none) ∨ ∃ this list,
    s.vectors v = some this ∧ t.vectors v = some list ∧ Represents limbSize s this list

theorem refines_init : Refines limbSize (init : GenVectors T) ListVectors.init :=
  ⟨inv_init, rfl, fun _ => .inl ⟨rfl, rfl⟩⟩

theorem Represents.filled (h : Represents limbSize s this list) : Filled limbSize s this := by
  intro i hi
  rw [h.deref i hi, List.getElem?_eq_getElem (h.size ▸ hi)]
  rfl

theorem Refines.forest_eq (h : Refines limbSize s t) : s.forest = t.forest := by
  funext v
  rw [forest, ListVectors.forest]
  rcases h.vectors v with ⟨hs, ht⟩ | ⟨this, list, hs, ht, hrep⟩
  · rw [hs, ht]
    rfl
  · rw [hs, ht, Option.map_some, Option.map_some, hrep.parent]

/-- The reference count tells whether a copy lives. -/
theorem Refines.isWritable_iff (h : Refines limbSize s t) (hv : s.vectors v = some this) :
    t.isWritable v = true ↔ this.debugRefcount = 0 := by
  rw [h.inv.refcount v this hv, ListVectors.isWritable, h.forest_eq, h.next, decide_eq_true_iff]

/-- An operation on one vector that changes its list. -/
theorem Refines.of_writes (h : Refines limbSize s t) (hwrites : Writes limbSize s s' v this this')
    (hrep : Represents limbSize s' this' list) :
    Refines limbSize s' (t.set v (some list)) where
  inv := hwrites.inv
  next := hwrites.nextVector.trans h.next
  vectors := by
    intro w
    rw [ListVectors.set]
    by_cases hw : w = v
    · subst hw
      exact .inr ⟨this', list, hwrites.after, Function.update_self .., hrep⟩
    · simp only [Function.update_of_ne hw, hwrites.vectors_other hw]
      rcases h.vectors w with hnone | ⟨other, list', hs, ht, hrep'⟩
      · exact .inl hnone
      · refine .inr ⟨other, list', hs, ht, hrep'.parent, hrep'.size, hrep'.start, ?_⟩
        intro i hi
        rw [hwrites.deref_other hw hs hi, hrep'.deref i hi]

theorem Refines.of_constructs (h : Refines limbSize s t) {new : Members}
    (hconstructs : Constructs s s' new) (hrep : Represents limbSize s new list) :
    Refines limbSize s' (t.add list) where
  inv := hconstructs.inv h.inv
  next := by rw [hconstructs.nextVector, h.next]; rfl
  vectors := by
    intro w
    rw [ListVectors.add, ListVectors.set]
    by_cases hw : w = t.next
    · subst hw
      refine .inr ⟨new, list, ?_, Function.update_self .., hrep.parent, hrep.size, hrep.start, ?_⟩
      · rw [← h.next]
        exact hconstructs.after
      · intro i hi
        rw [hconstructs.deref_eq, hrep.deref i hi]
    · have hw' : w ≠ s.nextVector := by rwa [h.next]
      simp only [Function.update_of_ne hw, hconstructs.others hw']
      rcases h.vectors w with ⟨hs, ht⟩ | ⟨other, list', hs, ht, hrep'⟩
      · exact .inl ⟨by rw [hs]; rfl, ht⟩
      · rw [hs, Option.map_some]
        refine .inr ⟨_, list', rfl, ht, hrep'.parent, hrep'.size, hrep'.start, ?_⟩
        intro i hi
        rw [hconstructs.deref_eq]
        exact hrep'.deref i hi

theorem Refines.of_destroys (h : Refines limbSize s t) (hpos : 0 < limbSize)
    (hdestroys : Destroys limbSize s s' v this) : Refines limbSize s' (t.set v none) where
  inv := hdestroys.inv h.inv
  next := hdestroys.nextVector.trans h.next
  vectors := by
    intro w
    rw [ListVectors.set]
    by_cases hw : w = v
    · subst hw
      exact .inl ⟨hdestroys.after, Function.update_self ..⟩
    · simp only [Function.update_of_ne hw, hdestroys.others hw]
      rcases h.vectors w with ⟨hs, ht⟩ | ⟨other, list', hs, ht, hrep⟩
      · exact .inl ⟨by rw [hs]; rfl, ht⟩
      · rw [hs, Option.map_some]
        refine .inr ⟨_, list', rfl, ht, hrep.parent, hrep.size, hrep.start, ?_⟩
        intro i hi
        exact (hdestroys.deref_other h.inv hpos hs hw hi).trans (hrep.deref i hi)

/-! ### Iteration -/

theorem mapM_range_eq_take {α : Type} {f : ℕ → Option α} {xs : List α} {n : ℕ} (hn : n ≤ xs.length)
    (h : ∀ i : ℕ, i < n → f i = xs[i]?) : (List.range n).mapM f = some (xs.take n) := by
  induction n with
  | zero => rfl
  | succ n ih =>
      rw [List.range_succ, List.mapM_append, ih (by omega) fun i hi => h i (by omega),
        List.take_add_one]
      simp [h n (Nat.lt_succ_self n), List.getElem?_eq_getElem hn]

theorem flatten_limbs (xs : List T) (n : ℕ) :
    ((List.range n).map fun limb => (xs.drop (limb * limbSize)).take limbSize).flatten =
      xs.take (n * limbSize) := by
  induction n with
  | zero => simp
  | succ n ih =>
      rw [List.range_succ, List.map_append, List.flatten_append, ih, Nat.succ_mul, List.take_add]
      simp

theorem Represents.iterate (h : Represents limbSize s this list) (hv : s.vectors v = some this) :
    s.iterate limbSize v = some list.elements := by
  rw [GenVectors.iterate, hv, Option.bind_eq_bind, Option.bind_some,
    mapM_range_eq_take h.size.le h.deref, h.size, List.take_length]

/-- The elements of one limb. -/
theorem Represents.visit (h : Represents limbSize s this list) (hinv : Inv limbSize s)
    (hv : s.vectors v = some this) {limb elements : ℕ} (hle : elements ≤ limbSize)
    (hsize : limb * limbSize + elements ≤ this.size) :
    ((List.range elements).mapM fun limbIx => do
      let root ← s.rootOf this
      elementAt (← s.limbAt root limb) limbIx) =
      some ((list.elements.drop (limb * limbSize)).take elements) := by
  apply mapM_range_eq_take
  · rw [List.length_drop, ← h.size]
    omega
  · intro k hk
    have hk' : k < limbSize := by omega
    obtain ⟨root, hroot⟩ := hinv.exists_rootOf hv (.inr (by omega))
    have hderef := h.deref (limb * limbSize + k) (by omega)
    rw [GenVectors.deref_eq hroot, div_of_place hk', mod_of_place hk'] at hderef
    rw [List.getElem?_drop, ← hderef, hroot]
    rfl

theorem Represents.forEach (h : Represents limbSize s this list) (hinv : Inv limbSize s)
    (hpos : 0 < limbSize) (hv : s.vectors v = some this) :
    s.forEach limbSize v = some list.elements := by
  have hsum := Nat.div_add_mod this.size limbSize
  rw [Nat.mul_comm] at hsum
  have hfull : ((List.range (this.size / limbSize)).mapM fun limb =>
      (List.range limbSize).mapM fun limbIx => do
        let root ← s.rootOf this
        elementAt (← s.limbAt root limb) limbIx) =
      some ((List.range (this.size / limbSize)).map fun limb =>
        (list.elements.drop (limb * limbSize)).take limbSize) := by
    have hlength : this.size / limbSize ≤ ((List.range (this.size / limbSize)).map fun limb =>
        (list.elements.drop (limb * limbSize)).take limbSize).length := by simp
    refine (mapM_range_eq_take hlength ?_).trans (by rw [List.take_of_length_le (by simp)])
    intro limb hlimb
    rw [List.getElem?_map, List.getElem?_range hlimb, Option.map_some]
    apply h.visit hinv hv le_rfl
    have hmul := Nat.mul_le_mul_right limbSize (Nat.succ_le_of_lt hlimb)
    rw [Nat.succ_mul] at hmul
    omega
  have hrest := h.visit hinv hv (Nat.mod_lt this.size hpos).le hsum.le
  rw [GenVectors.forEach, hv]
  simp only [Option.bind_eq_bind, Option.bind_some, Option.pure_def] at hfull hrest ⊢
  rw [hfull, hrest, Option.bind_some, Option.bind_some, flatten_limbs, ← List.take_add, hsum, h.size,
    List.take_length]

/-! ### Simulation -/

/-- The copy of a vector is a list with the same elements. -/
theorem Represents.copied (h : Represents limbSize s this list) (hinv : Inv limbSize s)
    (hv : s.vectors v = some this) :
    Represents limbSize s
      ⟨this.size, this.start, none, if this.start.isSome then some v else none, 0⟩
      ⟨list.elements, if list.elements.isEmpty then none else some v⟩ where
  parent := by
    have hiff : this.start.isSome = true ↔ ¬ list.elements.isEmpty = true := by
      rw [List.isEmpty_iff, ← List.length_eq_zero_iff, ← h.size]
      constructor
      · exact h.start
      · intro hsize
        obtain ⟨root, hroot⟩ := hinv.exists_rootOf hv (.inr hsize)
        obtain ⟨r, hr, -⟩ :=
          Option.bind_eq_some_iff.mp (show this.start.bind s.roots = _ from hroot)
        rw [hr]
        rfl
    by_cases hstart : this.start.isSome = true
    · simp only [if_pos hstart, if_neg (hiff.mp hstart)]
    · simp only [if_neg hstart, if_pos (not_not.mp fun hne => hstart (hiff.mpr hne))]
  size := h.size
  start := h.start
  deref := h.deref

/-- The list of a vector after `push_back`. -/
theorem Represents.pushed (h : Represents limbSize s this list)
    (hparent : this'.debugParent = this.debugParent) (hsize : this'.size = this.size + 1)
    (hderef : ∀ i < this.size, s'.deref limbSize this'.start i = s.deref limbSize this.start i)
    {x : T} (hx : s'.deref limbSize this'.start this.size = some x) :
    Represents limbSize s' this' { list with elements := list.elements ++ [x] } where
  parent := hparent.trans h.parent
  size := by rw [hsize, h.size, List.length_append, List.length_singleton]
  start := fun _ => by omega
  deref := by
    intro i hi
    by_cases hlast : i = this.size
    · rw [hlast, hx, h.size, List.getElem?_append_right le_rfl, Nat.sub_self]
      rfl
    · have hi' : i < this.size := by omega
      rw [hderef i hi', h.deref i hi', List.getElem?_append_left (h.size ▸ hi')]

/-- The list of a vector after a write through `mut`. -/
theorem Represents.written (h : Represents limbSize s this list)
    (hparent : this'.debugParent = this.debugParent) (hsize : this'.size = this.size) {ix : ℕ}
    (hix : ix < this.size) {x : T} (hderef : ∀ i < this.size, s'.deref limbSize this'.start i =
      if i = ix then some x else s.deref limbSize this.start i) :
    Represents limbSize s' this' { list with elements := list.elements.set ix x } where
  parent := hparent.trans h.parent
  size := by rw [hsize, h.size, List.length_set]
  start := fun _ => by omega
  deref := by
    intro i hi
    rw [hsize] at hi
    rw [hderef i hi]
    by_cases hi' : i = ix
    · subst hi'
      rw [if_pos rfl, List.getElem?_set_self (h.size ▸ hi)]
    · rw [if_neg hi', List.getElem?_set_ne (Ne.symm hi'), h.deref i hi]

/-- Every operation on the vectors does what it does on the lists. -/
theorem step_agrees (hpos : 0 < limbSize) (h : Refines limbSize s t) (op : Op T) :
    Agrees (Refines limbSize) (s.step limbSize op) (t.step op) := by
  cases op with
  | new =>
      have hrep : Represents limbSize s ⟨0, none, none, none, 0⟩ ⟨[], none⟩ :=
        { parent := rfl
          size := rfl
          start := fun hsome => absurd hsome Bool.false_ne_true
          deref := fun i hi => absurd hi (Nat.not_lt_zero i) }
      exact ⟨h.of_constructs (constructs_new s) hrep, congrArg Output.made h.next⟩
  | copy v =>
      rcases h.vectors v with ⟨hs, ht⟩ | ⟨this, list, hs, ht, hrep⟩
      · simp [step, ListVectors.step, copy, hs, ht, Agrees]
      · obtain ⟨s', heq, hconstructs⟩ := copy_spec h.inv hs
        simp only [step, ListVectors.step, heq, ht, Option.bind_eq_bind, Option.bind_some,
          Option.pure_def, Agrees]
        exact ⟨h.of_constructs hconstructs (hrep.copied h.inv hs), congrArg Output.made h.next⟩
  | destroy v =>
      rcases h.vectors v with ⟨hs, ht⟩ | ⟨this, list, hs, ht, hrep⟩
      · simp [step, ListVectors.step, destroy, hs, ht, Agrees]
      · by_cases hzero : this.debugRefcount = 0
        · obtain ⟨s', heq, hdestroys⟩ := destroy_spec h.inv hpos hs hzero hrep.filled
          simp only [step, ListVectors.step, heq, ht, Option.bind_eq_bind, Option.bind_some,
            Option.pure_def, Agrees, guard_of ((h.isWritable_iff hs).mpr hzero)]
          exact ⟨h.of_destroys hpos hdestroys, trivial⟩
        · have hwritable : ¬ t.isWritable v = true := fun hw => hzero ((h.isWritable_iff hs).mp hw)
          simp [step, ListVectors.step, destroy, hs, ht, Agrees, assertWritable, hzero, hwritable]
  | pushBack v val =>
      rcases h.vectors v with ⟨hs, ht⟩ | ⟨this, list, hs, ht, hrep⟩
      · simp [step, ListVectors.step, pushBack, hs, ht, Agrees]
      · by_cases hzero : this.debugRefcount = 0
        · obtain ⟨s', this', heq, hwrites, hsize, hderef, hval⟩ :=
            pushBack_spec h.inv hpos hs hzero hrep.filled val
          simp only [step, ListVectors.step, heq, ht, Option.bind_eq_bind, Option.bind_some,
            Option.pure_def, Agrees, guard_of ((h.isWritable_iff hs).mpr hzero)]
          exact ⟨h.of_writes hwrites (hrep.pushed hwrites.debugParent hsize hderef hval), trivial⟩
        · have hwritable : ¬ t.isWritable v = true := fun hw => hzero ((h.isWritable_iff hs).mp hw)
          simp [step, ListVectors.step, pushBack, pushBackInternal, hs, ht, Agrees, assertWritable,
            hzero, hwritable]
  | mutElement v ix write =>
      rcases h.vectors v with ⟨hs, ht⟩ | ⟨this, list, hs, ht, hrep⟩
      · simp [step, ListVectors.step, mutElement, hs, ht, Agrees]
      · by_cases hix : ix < this.size
        · have hget : list.elements[ix]? = some (list.elements.get ⟨ix, hrep.size ▸ hix⟩) :=
            List.getElem?_eq_getElem _
          by_cases hzero : this.debugRefcount = 0
          · obtain ⟨s', this', heq, hwrites, hsize, hderef⟩ := mutElement_spec h.inv hpos hs hzero
              hrep.filled hix ((hrep.deref ix hix).trans hget) write
            simp only [step, ListVectors.step, heq, ht, hget, Option.bind_eq_bind,
              Option.bind_some, Option.pure_def, Agrees,
              guard_of ((h.isWritable_iff hs).mpr hzero)]
            exact ⟨h.of_writes hwrites (hrep.written hwrites.debugParent hsize hix hderef), trivial⟩
          · have hwritable : ¬ t.isWritable v = true :=
              fun hw => hzero ((h.isWritable_iff hs).mp hw)
            simp [step, ListVectors.step, mutElement, hs, ht, Agrees, assertWritable, hzero,
              hwritable, hix]
        · have hget : list.elements[ix]? = none :=
            List.getElem?_eq_none (hrep.size ▸ not_lt.mp hix)
          simp [step, ListVectors.step, mutElement, hs, ht, Agrees, hix, hget]
  | subscript v ix =>
      rcases h.vectors v with ⟨hs, ht⟩ | ⟨this, list, hs, ht, hrep⟩
      · simp [step, ListVectors.step, subscript, hs, ht, Agrees]
      · by_cases hix : ix < this.size
        · have hget : list.elements[ix]? = some (list.elements.get ⟨ix, hrep.size ▸ hix⟩) :=
            List.getElem?_eq_getElem _
          simp [step, ListVectors.step, subscript, hs, ht, Agrees, hix, hrep.deref ix hix, hget, h]
        · have hget : list.elements[ix]? = none :=
            List.getElem?_eq_none (hrep.size ▸ not_lt.mp hix)
          simp [step, ListVectors.step, subscript, hs, ht, Agrees, hix, hget]
  | atIndex v ix =>
      rcases h.vectors v with ⟨hs, ht⟩ | ⟨this, list, hs, ht, hrep⟩
      · simp [step, ListVectors.step, atIndex, hs, ht, Agrees]
      · by_cases hix : ix < this.size
        · have hget : list.elements[ix]? = some (list.elements.get ⟨ix, hrep.size ▸ hix⟩) :=
            List.getElem?_eq_getElem _
          simp [step, ListVectors.step, atIndex, hs, ht, Agrees, not_le.mpr hix,
            hrep.deref ix hix, hget, h]
        · have hget : list.elements[ix]? = none :=
            List.getElem?_eq_none (hrep.size ▸ not_lt.mp hix)
          simp [step, ListVectors.step, atIndex, hs, ht, Agrees, not_lt.mp hix, hget, h]
  | back v =>
      rcases h.vectors v with ⟨hs, ht⟩ | ⟨this, list, hs, ht, hrep⟩
      · simp [step, ListVectors.step, back, hs, ht, Agrees]
      · by_cases hsize : this.size = 0
        · have hnil : list.elements = [] := List.length_eq_zero_iff.mp (hrep.size ▸ hsize)
          simp [step, ListVectors.step, back, hs, ht, Agrees, hsize, hnil]
        · have hlt : this.size - 1 < this.size := by omega
          have hget : list.elements[this.size - 1]? =
              some (list.elements.get ⟨this.size - 1, hrep.size ▸ hlt⟩) :=
            List.getElem?_eq_getElem _
          have hlast : list.elements.getLast? = list.elements[this.size - 1]? := by
            rw [List.getLast?_eq_getElem?, hrep.size]
          simp [step, ListVectors.step, back, subscript, hs, ht, Agrees, hsize, hlt,
            hrep.deref _ hlt, hlast, hget, h]
  | size v =>
      rcases h.vectors v with ⟨hs, ht⟩ | ⟨this, list, hs, ht, hrep⟩
      · simp [step, ListVectors.step, hs, ht, Agrees]
      · simp [step, ListVectors.step, hs, ht, Agrees, h, hrep.size]
  | iterate v =>
      rcases h.vectors v with ⟨hs, ht⟩ | ⟨this, list, hs, ht, hrep⟩
      · simp [step, ListVectors.step, iterate, hs, ht, Agrees]
      · simp [step, ListVectors.step, hrep.iterate hs, ht, Agrees, h]
  | forEach v =>
      rcases h.vectors v with ⟨hs, ht⟩ | ⟨this, list, hs, ht, hrep⟩
      · simp [step, ListVectors.step, forEach, hs, ht, Agrees]
      · simp [step, ListVectors.step, hrep.forEach h.inv hpos hs, ht, Agrees, h]

/-! ### Bitmaps -/

/-- The bitmap of the vector marks the limb as its own. -/
def Marked (limbSize : ℕ) (s : GenVectors T) (v l : ℕ) : Prop :=
  ∃ this root i, s.vectors v = some this ∧ s.rootOf this = some root ∧
    HasLimb limbSize this root i l ∧ s.limbIsCow this i = some false

/-- The bitmaps of the vectors mark exactly the limbs that they may write and have to free. -/
structure BitmapsExact (limbSize : ℕ) (s : GenVectors T) : Prop where
  /-- A marked limb is used besides only by copies of the vector. -/
  shared : ∀ v l, s.Marked limbSize v l ↔
    s.UsesLimb limbSize v l ∧ ∀ w, s.UsesLimb limbSize w l → w = v ∨ Ancestor s.forest v w
  /-- While the vector may be written, nobody else uses the limbs that are marked. -/
  mayWrite : ∀ v this l, s.vectors v = some this → this.debugRefcount = 0 →
    (s.Marked limbSize v l ↔
      s.UsesLimb limbSize v l ∧ ∀ w, s.UsesLimb limbSize w l → w = v)
  /-- Every limb is marked by the one vector that has to free it. -/
  mustFree : ∀ l, s.limbs l ≠ none → ∃! v, s.Marked limbSize v l
  /-- The destructor frees the limbs that are marked. -/
  frees : ∀ v s', s.destroy limbSize v = some s' → ∀ l, s.limbs l ≠ none →
    (s'.limbs l = none ↔ s.Marked limbSize v l)

theorem marked_iff (hinv : Inv limbSize s) : s.Marked limbSize v l ↔ s.OwnsLimb limbSize v l := by
  constructor
  · rintro ⟨this, root, i, hv, hroot, hlimb, hcow⟩
    have hlast : this.last.isSome := by
      by_contra hnone
      simp [limbIsCow, hnone] at hcow
    rw [(hinv.table hv hroot).limbIsCow_eq hroot hlast hlimb.1, Option.some.injEq] at hcow
    exact ⟨this, root, i, hv, hroot, hlimb, hlast, hcow⟩
  · rintro ⟨this, root, i, hv, hroot, hlimb, hlast, hbit⟩
    refine ⟨this, root, i, hv, hroot, hlimb, ?_⟩
    rw [(hinv.table hv hroot).limbIsCow_eq hroot hlast hlimb.1, hbit]

theorem Refines.bitmapsExact (h : Refines limbSize s t) (hpos : 0 < limbSize) :
    BitmapsExact limbSize s where
  shared := by
    intro v l
    rw [marked_iff h.inv]
    exact h.inv.limbs.owns_iff fun v w hchild => (h.inv.parent v w hchild).1
  mayWrite := by
    intro v this l hv hzero
    have hchildless := h.inv.childless hv hzero
    rw [marked_iff h.inv]
    refine (h.inv.limbs.owns_iff fun v w hchild => (h.inv.parent v w hchild).1).trans ?_
    refine and_congr_right fun _ => forall_congr' fun w => imp_congr_right fun _ => ?_
    exact or_iff_left (not_ancestor_of_childless hchildless)
  mustFree := by
    intro l hl
    obtain ⟨v, hv⟩ := h.inv.limbs.owned hl
    refine ⟨v, (marked_iff h.inv).mpr hv, ?_⟩
    intro w hw
    exact h.inv.limbs.owner_unique (fun v w hchild => (h.inv.parent v w hchild).1)
      ((marked_iff h.inv).mp hw) hv
  frees := by
    intro v s' heq l hl
    rw [marked_iff h.inv]
    rcases h.vectors v with ⟨hs, -⟩ | ⟨this, list, hs, -, hrep⟩
    · rw [destroy, hs] at heq
      cases heq
    · have hzero : this.debugRefcount = 0 := by
        by_contra hne
        simp [destroy, hs, assertWritable, hne] at heq
      obtain ⟨s'', heq', hdestroys⟩ := destroy_spec h.inv hpos hs hzero hrep.filled
      rw [heq, Option.some.injEq] at heq'
      subst heq'
      constructor
      · intro hfreed
        by_contra hown
        rw [hdestroys.limbs_kept hown] at hfreed
        exact hl hfreed
      · exact hdestroys.limbs_owned

/-- Every sequence of operations on generational vectors gives the outputs that it gives on
lists, and leaves exact bitmaps. -/
theorem refines_lists (hpos : 0 < limbSize) (ops : List (Op T)) :
    Agrees (fun s _ => BitmapsExact limbSize s) (runOutputs (step limbSize) init ops)
      (runOutputs ListVectors.step ListVectors.init ops) := by
  have hinit : Refines limbSize (init : GenVectors T) ListVectors.init := refines_init
  have hrun := runOutputs_agrees (fun s t op h => step_agrees hpos h op) hinit ops
  exact hrun.imp fun s t h => h.bitmapsExact hpos

/-- A copy changes the first limb and appends a limb while its source keeps the old elements. -/
theorem refines_lists_copied :
    (runOutputs (step 2) (init : GenVectors ℕ) [.new, .pushBack 0 1, .pushBack 0 2, .pushBack 0 3,
      .copy 0, .mutElement 1 0 (· + 8), .pushBack 1 4, .pushBack 1 5, .iterate 0, .forEach 1,
      .destroy 1, .back 0]).map Prod.snd =
      some [.made 0, .done, .done, .done, .made 1, .element 1, .done, .done, .elements [1, 2, 3],
        .elements [9, 2, 3, 4, 5], .done, .element 3] ∧
    Agrees (fun s _ => BitmapsExact 2 s) (runOutputs (step 2) (init : GenVectors ℕ) [.new,
      .pushBack 0 1, .pushBack 0 2, .pushBack 0 3, .copy 0, .mutElement 1 0 (· + 8),
      .pushBack 1 4, .pushBack 1 5, .iterate 0, .forEach 1, .destroy 1, .back 0])
      (runOutputs ListVectors.step ListVectors.init [.new,
      .pushBack 0 1, .pushBack 0 2, .pushBack 0 3, .copy 0, .mutElement 1 0 (· + 8),
      .pushBack 1 4, .pushBack 1 5, .iterate 0, .forEach 1, .destroy 1, .back 0]) :=
  ⟨by rfl, refines_lists (by decide) _⟩

end Nidhugg.GenVectors
