import Mathlib.Data.Nat.Notation
import Mathlib.Logic.Function.Basic

/-! # Generational vectors

`gen::vector`: a root table of pointers to chunks of elements, the limbs. A copy shares the root
of its source and copies it on the first write. Behind its pointers, a root that a vector owns
has a bitmap with a bit for each limb that is still shared. The heap is explicit. An operation
that fails an assertion, or that reads or frees what is not there, has no result. -/

namespace Nidhugg

namespace GenVector

/-- A chunk of elements. A place without an object is empty. -/
abbrev Limb (T : Type) := List (Option T)

/-- A root table with the bitmap behind it. -/
structure Root where
  slots : List (Option ℕ)
  bitmap : List (BitVec 8)

/-- The members of a vector. `last` is given by its distance from `start`. Null pointers are
empty. -/
structure Members where
  size : ℕ
  start : Option ℕ
  last : Option ℕ
  debugParent : Option ℕ
  debugRefcount : ℕ

abbrev bitsPerUint : ℕ := 8

def nextCapacity (oldCapacity : ℕ) : ℕ := max (oldCapacity + 2) (oldCapacity + (oldCapacity + 1) / 2)

def bitmapSize (capacity : ℕ) : ℕ := (capacity + bitsPerUint - 1) / bitsPerUint

end GenVector

open GenVector

/-- The living vectors and the heap. Vectors and heap blocks are numbered as they are made. -/
structure GenVectors (T : Type) where
  vectors : ℕ → Option Members
  limbs : ℕ → Option (Limb T)
  roots : ℕ → Option Root
  nextVector : ℕ
  nextLimb : ℕ
  nextRoot : ℕ

namespace GenVectors

variable {T : Type} (limbSize : ℕ)

def init : GenVectors T := ⟨fun _ => none, fun _ => none, fun _ => none, 0, 0, 0⟩

/-- The number of limbs of a vector of some size. -/
def limbCount (size : ℕ) : ℕ := (size + limbSize - 1) / limbSize

def setVector (s : GenVectors T) (v : ℕ) (this : Members) : GenVectors T :=
  { s with vectors := Function.update s.vectors v (some this) }

/-- The root table of a vector. -/
def rootOf (s : GenVectors T) (this : Members) : Option Root := this.start.bind s.roots

def assertWritable (this : Members) : Option Unit := guard (this.debugRefcount = 0)

/-! ### Reading -/

/-- The limb at a place of a root table. -/
def limbAt (s : GenVectors T) (root : Root) (limb : ℕ) : Option (Limb T) := do
  s.limbs (← (root.slots[limb]?).join)

/-- The element at a place of a limb. -/
def elementAt (limb : Limb T) (limbIx : ℕ) : Option T := (limb[limbIx]?).join

def deref (s : GenVectors T) (start : Option ℕ) (ix : ℕ) : Option T := do
  let root ← s.roots (← start)
  elementAt (← s.limbAt root (ix / limbSize)) (ix % limbSize)

/-- `operator[]`. -/
def subscript (s : GenVectors T) (v ix : ℕ) : Option T := do
  let this ← s.vectors v
  guard (ix < this.size)
  s.deref limbSize this.start ix

/-- `at`. The outer option is for undefined behaviour, the inner one for the exception. -/
def atIndex (s : GenVectors T) (v ix : ℕ) : Option (Option T) := do
  let this ← s.vectors v
  if this.size ≤ ix then return none
  else
    let x ← s.deref limbSize this.start ix
    return some x

/-- `back`. For an empty vector the index wraps around and the assertion fails. -/
def back (s : GenVectors T) (v : ℕ) : Option T := do
  let this ← s.vectors v
  guard (this.size ≠ 0)
  s.subscript limbSize v (this.size - 1)

/-- From `begin` to `end` with a `const_iterator`. -/
def iterate (s : GenVectors T) (v : ℕ) : Option (List T) := do
  let this ← s.vectors v
  (List.range this.size).mapM (s.deref limbSize this.start)

/-- The elements that `for_each` visits: all limbs that are full, then the last one. -/
def forEach (s : GenVectors T) (v : ℕ) : Option (List T) := do
  let this ← s.vectors v
  let visit (limb elements : ℕ) : Option (List T) := (List.range elements).mapM fun limbIx => do
    let root ← s.rootOf this
    elementAt (← s.limbAt root limb) limbIx
  let full ← (List.range (this.size / limbSize)).mapM fun limb => visit limb limbSize
  let rest ← visit (this.size / limbSize) (this.size % limbSize)
  return full.flatten ++ rest

/-! ### Copying what is shared -/

/-- Whether the bit of a limb is set in a bitmap. -/
def bitmapBit (bitmap : List (BitVec 8)) (limbIndex : ℕ) : Option Bool := do
  let uint ← bitmap[limbIndex / bitsPerUint]?
  return (uint >>> (limbIndex % bitsPerUint)) &&& 1#8 ≠ 0#8

def limbIsCow (s : GenVectors T) (this : Members) (limbIndex : ℕ) : Option Bool := do
  guard this.last.isSome
  bitmapBit (← s.rootOf this).bitmap limbIndex

/-- The first elements of a limb in a new one. They have to be objects. -/
def copyLimb (limb : Limb T) (elements : ℕ) : Option (Limb T) := do
  guard (∀ limbIx < elements, (elementAt limb limbIx).isSome)
  return limb.take elements ++ List.replicate (limbSize - elements) none

/-- Allocates a limb and writes the pointer to it into a root table. -/
def putLimb (s : GenVectors T) (r : ℕ) (root : Root) (limbIndex : ℕ) (limb : Limb T) :
    GenVectors T :=
  { s with
    limbs := Function.update s.limbs s.nextLimb (some limb)
    nextLimb := s.nextLimb + 1
    roots := Function.update s.roots r
      (some { root with slots := root.slots.set limbIndex (some s.nextLimb) }) }

def clearBit (bitmap : List (BitVec 8)) (limbIndex : ℕ) : List (BitVec 8) :=
  bitmap.modify (limbIndex / bitsPerUint) fun uint =>
    uint &&& ~~~(1#8 <<< (limbIndex % bitsPerUint))

def uncow (s : GenVectors T) (this : Members) (limbIndex : ℕ) : Option (GenVectors T) := do
  guard ((← s.limbIsCow this limbIndex) = true)
  let limbValidElements := min (this.size - limbIndex * limbSize) limbSize
  guard (0 < limbValidElements)
  let r ← this.start
  let root ← s.roots r
  let newLimb ← copyLimb limbSize (← s.limbAt root limbIndex) limbValidElements
  return s.putLimb r { root with bitmap := clearBit root.bitmap limbIndex } limbIndex newLimb

def uncowIfNeeded (s : GenVectors T) (this : Members) (limbIndex : ℕ) : Option (GenVectors T) := do
  guard this.last.isSome
  if (← s.limbIsCow this limbIndex) then s.uncow limbSize this limbIndex else return s

/-- The pointers of a new root table that is copied from another one. -/
def allocRootCopyFrom (capacity : ℕ) (source : List (Option ℕ)) (oldCapacity : ℕ) :
    Option (List (Option ℕ)) := do
  guard (oldCapacity ≤ source.length)
  return source.take oldCapacity ++ List.replicate (capacity - oldCapacity) none

/-- The first bits are set, the others are clear. -/
def cowBitmap (oldCapacity bitmapUints : ℕ) : List (BitVec 8) :=
  List.replicate (oldCapacity / bitsPerUint) (~~~ 0#8) ++
    ((1#8 <<< (oldCapacity % bitsPerUint)) - 1#8) ::
      List.replicate (bitmapUints - (oldCapacity / bitsPerUint + 1)) 0#8

def uncowRoot (s : GenVectors T) (v : ℕ) (this : Members) : Option (GenVectors T × Members) := do
  guard (this.last = none)
  let root ← s.rootOf this
  let oldCapacity := limbCount limbSize this.size
  let newCapacity := nextCapacity oldCapacity
  let newStart ← allocRootCopyFrom newCapacity root.slots oldCapacity
  let newBitmap := cowBitmap oldCapacity (bitmapSize newCapacity)
  let this := { this with start := some s.nextRoot, last := some newCapacity }
  return (setVector { s with
    roots := Function.update s.roots s.nextRoot (some ⟨newStart, newBitmap⟩)
    nextRoot := s.nextRoot + 1 } v this, this)

def uncowRootIfNeeded (s : GenVectors T) (v : ℕ) (this : Members) :
    Option (GenVectors T × Members) :=
  if this.last = none ∧ this.start ≠ none then s.uncowRoot limbSize v this else some (s, this)

def uncowRootIfNeededAssumeNonempty (s : GenVectors T) (v : ℕ) (this : Members) :
    Option (GenVectors T × Members) := do
  guard this.start.isSome
  if this.last = none then s.uncowRoot limbSize v this else return (s, this)

/-! ### Writing -/

/-- The part of `grow` that replaces a full root table. -/
def growRoot (s : GenVectors T) (v : ℕ) (this : Members) : Option (GenVectors T × Members) := do
  let oldCapacity := this.last.getD 0
  let newCapacity := nextCapacity oldCapacity
  let bitmapUints := bitmapSize newCapacity
  let oldBitmapUints := bitmapSize oldCapacity
  let root ← match this.start with
    | none => some ⟨[], []⟩
    | some r => s.roots r
  let newStart ← allocRootCopyFrom newCapacity root.slots oldCapacity
  guard (oldBitmapUints ≤ root.bitmap.length)
  let newBitmap := root.bitmap.take oldBitmapUints ++
    List.replicate (bitmapUints - oldBitmapUints) 0#8
  let roots := match this.start with
    | none => s.roots
    | some r => Function.update s.roots r none
  let this := { this with start := some s.nextRoot, last := some newCapacity }
  return (setVector { s with
    roots := Function.update roots s.nextRoot (some ⟨newStart, newBitmap⟩)
    nextRoot := s.nextRoot + 1 } v this, this)

def grow (s : GenVectors T) (v : ℕ) (this : Members) : Option (GenVectors T × Members) := do
  guard (this.last.isSome ∨ this.size = 0)
  guard (this.size % limbSize = 0)
  let (s, this) ← (if limbCount limbSize this.size = this.last.getD 0 then s.growRoot v this
    else some (s, this))
  guard (limbCount limbSize this.size < this.last.getD 0)
  let r ← this.start
  let root ← s.roots r
  return (s.putLimb r root (limbCount limbSize this.size) (List.replicate limbSize none), this)

/-- Writes an element of a vector in place. -/
def writeElement (s : GenVectors T) (this : Members) (limb limbIx : ℕ) (x : T) :
    Option (GenVectors T) := do
  let root ← s.rootOf this
  let l ← (root.slots[limb]?).join
  let old ← s.limbs l
  guard (limbIx < old.length)
  return { s with limbs := Function.update s.limbs l (some (old.set limbIx (some x))) }

/-- Makes place for one more element. -/
def pushBackInternal (s : GenVectors T) (v : ℕ) (this : Members) :
    Option (GenVectors T × Members) := do
  assertWritable this
  let limb := this.size / limbSize
  let limbIx := this.size % limbSize
  let (s, this) ← s.uncowRootIfNeeded limbSize v this
  let (s, this) ← (if limbIx ≠ 0 then (s.uncowIfNeeded limbSize this limb).map (·, this)
    else s.grow limbSize v this)
  let this := { this with size := this.size + 1 }
  return (s.setVector v this, this)

/-- `push_back` and `emplace_back`. -/
def pushBack (s : GenVectors T) (v : ℕ) (val : T) : Option (GenVectors T) := do
  let old ← s.vectors v
  let (s, this) ← s.pushBackInternal limbSize v old
  s.writeElement this (old.size / limbSize) (old.size % limbSize) val

/-- Writes through the reference that `mut` returns. The value before is returned. -/
def mutElement (s : GenVectors T) (v ix : ℕ) (write : T → T) : Option (GenVectors T × T) := do
  let this ← s.vectors v
  guard (ix < this.size)
  assertWritable this
  let limb := ix / limbSize
  let limbIx := ix % limbSize
  let (s, this) ← s.uncowRootIfNeededAssumeNonempty limbSize v this
  let s ← s.uncowIfNeeded limbSize this limb
  let x ← s.deref limbSize this.start ix
  let s ← s.writeElement this limb limbIx (write x)
  return (s, x)

/-! ### Construction and destruction -/

/-- A vector that is made, with the name it gets. -/
def construct (s : GenVectors T) (this : Members) : GenVectors T × ℕ :=
  ({ s.setVector s.nextVector this with nextVector := s.nextVector + 1 }, s.nextVector)

/-- The default constructor. -/
def new (s : GenVectors T) : GenVectors T × ℕ := s.construct ⟨0, none, none, none, 0⟩

/-- The copy constructor. -/
def copy (s : GenVectors T) (v : ℕ) : Option (GenVectors T × ℕ) := do
  let other ← s.vectors v
  let s := if other.start.isSome then
      s.setVector v { other with debugRefcount := other.debugRefcount + 1 }
    else s
  return s.construct
    ⟨other.size, other.start, none, if other.start.isSome then some v else none, 0⟩

/-- Destroys the elements of a limb and frees it, if it is not shared. -/
def freeLimb (this : Members) (elements : ℕ) (s : GenVectors T) (limb : ℕ) :
    Option (GenVectors T) := do
  if (← s.limbIsCow this limb) then return s
  else
    let root ← s.rootOf this
    let l ← (root.slots[limb]?).join
    let old ← s.limbs l
    guard (∀ limbIx < elements, (elementAt old limbIx).isSome)
    return { s with limbs := Function.update s.limbs l none }

/-- Frees the limbs that a vector owns, then its root table. -/
def freeRoot (s : GenVectors T) (this : Members) : Option (GenVectors T) := do
  let fullLimbCount := this.size / limbSize
  let s ← (List.range fullLimbCount).foldlM (freeLimb this limbSize) s
  let elementsInLastLimb := this.size % limbSize
  let s ← (if elementsInLastLimb ≠ 0 then freeLimb this elementsInLastLimb s fullLimbCount
    else some s)
  let r ← this.start
  guard (s.roots r).isSome
  return { s with roots := Function.update s.roots r none }

/-- The decrement of the reference count of the source of a copy. -/
def releaseParent (s : GenVectors T) (this : Members) : Option (GenVectors T) :=
  match this.debugParent with
  | none => some s
  | some parent => do
      let other ← s.vectors parent
      return s.setVector parent { other with debugRefcount := other.debugRefcount - 1 }

def destroy (s : GenVectors T) (v : ℕ) : Option (GenVectors T) := do
  let this ← s.vectors v
  assertWritable this
  let s ← s.releaseParent this
  let s ← (if this.last.isSome then s.freeRoot limbSize this else some s)
  return { s with vectors := Function.update s.vectors v none }

end GenVectors

namespace GenVector

/-- The operations on a family of vectors, each given by its name. -/
inductive Op (T : Type) where
  | new
  | copy (v : ℕ)
  | destroy (v : ℕ)
  | pushBack (v : ℕ) (val : T)
  | mutElement (v ix : ℕ) (write : T → T)
  | subscript (v ix : ℕ)
  | atIndex (v ix : ℕ)
  | back (v : ℕ)
  | size (v : ℕ)
  | iterate (v : ℕ)
  | forEach (v : ℕ)

inductive Output (T : Type) where
  | done
  | made (v : ℕ)
  | element (x : T)
  | outOfRange
  | size (n : ℕ)
  | elements (xs : List T)

end GenVector

namespace GenVectors

variable {T : Type} (limbSize : ℕ)

/-- One operation. Empty if it fails an assertion or has undefined behaviour. -/
def step (s : GenVectors T) : Op T → Option (GenVectors T × Output T)
  | .new => some (s.new.1, .made s.new.2)
  | .copy v => do
      let (s, w) ← s.copy v
      return (s, .made w)
  | .destroy v => do return (← s.destroy limbSize v, .done)
  | .pushBack v val => do return (← s.pushBack limbSize v val, .done)
  | .mutElement v ix write => do
      let (s, x) ← s.mutElement limbSize v ix write
      return (s, .element x)
  | .subscript v ix => do return (s, .element (← s.subscript limbSize v ix))
  | .atIndex v ix => do
      match ← s.atIndex limbSize v ix with
      | none => return (s, .outOfRange)
      | some x => return (s, .element x)
  | .back v => do return (s, .element (← s.back limbSize v))
  | .size v => do return (s, .size (← s.vectors v).size)
  | .iterate v => do return (s, .elements (← s.iterate limbSize v))
  | .forEach v => do return (s, .elements (← s.forEach limbSize v))

end GenVectors

end Nidhugg
