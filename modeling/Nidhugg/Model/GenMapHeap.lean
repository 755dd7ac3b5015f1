import Mathlib.Logic.Function.Basic
import Nidhugg.Model.GenMap

/-! # Generational hash maps on the heap

`gen::map` with its pointers. A map and its copies share nodes and leaves; the generation in
them is all that tells a map which ones it may write and has to free. The loops along pointers
have a bound on their turns. An operation that fails an assertion or reads, writes or frees
what is not there has no result. -/

namespace Nidhugg

namespace GenMap

/-- What a pointer to a `child` points to. Null pointers are empty. -/
inductive Cell (K T : Type) where
  | leaf (generation : ℤ) (key : K) (value : T) (next : Option ℕ)
  | node (generation : ℤ) (bitmap : BitVec 32) (array : List (Option ℕ))

def Cell.getGeneration {K T : Type} : Cell K T → ℤ
  | .leaf generation _ _ _ => generation
  | .node generation _ _ => generation

/-- The memory of all maps. Blocks are numbered as they are allocated. -/
structure Heap (K T : Type) where
  cells : ℕ → Option (Cell K T)
  next : ℕ

namespace Heap

variable {K T : Type}

def alloc (h : Heap K T) (cell : Cell K T) : Heap K T × ℕ :=
  (⟨Function.update h.cells h.next (some cell), h.next + 1⟩, h.next)

def free (h : Heap K T) (p : ℕ) : Option (Heap K T) := do
  let _ ← h.cells p
  return { h with cells := Function.update h.cells p none }

def allocNode (generation : ℤ) (h : Heap K T) (bitmap : BitVec 32) (array : List (Option ℕ)) :
    Option (Heap K T × ℕ) := do
  guard (popcount bitmap = array.length)
  guard (0 < array.length)
  return h.alloc (.node generation bitmap array)

/-- A write to a place of the array of a node. -/
def setSlot (h : Heap K T) (p position : ℕ) (child : ℕ) : Option (Heap K T) := do
  match ← h.cells p with
  | .leaf .. => none
  | .node generation bitmap array =>
      guard (position < array.length)
      let cell := Cell.node generation bitmap (array.set position (some child))
      return { h with cells := Function.update h.cells p (some cell) }

/-- A write to `next` of a leaf. -/
def setNext (h : Heap K T) (p child : ℕ) : Option (Heap K T) := do
  match ← h.cells p with
  | .leaf generation key value _ =>
      return { h with
        cells := Function.update h.cells p (some (.leaf generation key value (some child))) }
  | .node .. => none

/-- A write through the reference to the value of a leaf. -/
def writeValue (h : Heap K T) (p : ℕ) (write : T → T) : Option (Heap K T) := do
  match ← h.cells p with
  | .leaf generation key value next =>
      return { h with
        cells := Function.update h.cells p (some (.leaf generation key (write value) next)) }
  | .node .. => none

/-! ### Reading -/

/-- The first loop of `find`: to a leaf list, or to nothing. -/
def findLeaves (h : Heap K T) : ℕ → Option ℕ → ℕ → Option (Option ℕ)
  | 0, _, _ => none
  | _ + 1, none, _ => some none
  | turns + 1, some p, hash => do
      match ← h.cells p with
      | .leaf .. => return some p
      | .node _ bitmap array =>
          let index := hash % arity
          if bitmap.getLsbD index then
            h.findLeaves turns (← array[popcount (bitmap >>> index) - 1]?) (hash / arity)
          else return none

/-- The loop along a leaf list to the leaf of a key. -/
def findLeaf [DecidableEq K] (h : Heap K T) (k : K) : ℕ → Option ℕ → Option (Option ℕ)
  | 0, _ => none
  | _ + 1, none => some none
  | turns + 1, some p => do
      match ← h.cells p with
      | .leaf _ key _ next => if key = k then return some p else h.findLeaf k turns next
      | .node .. => none

/-- `for_each` along a leaf list. -/
def forEachLeaf (h : Heap K T) : ℕ → ℕ → Option (List (K × T))
  | 0, _ => none
  | turns + 1, p => do
      match ← h.cells p with
      | .leaf _ key value none => return [(key, value)]
      | .leaf _ key value (some next) => return (key, value) :: (← h.forEachLeaf turns next)
      | .node .. => none

/-- `for_each` below a child. A null pointer is dereferenced. -/
def forEach (h : Heap K T) (turns : ℕ) : ℕ → Option ℕ → Option (List (K × T))
  | 0, _ => none
  | _ + 1, none => none
  | depth + 1, some p => do
      match ← h.cells p with
      | .leaf .. => h.forEachLeaf turns p
      | .node _ bitmap array =>
          guard (popcount bitmap ≤ array.length)
          return (← (array.take (popcount bitmap)).mapM (h.forEach turns depth)).flatten

/-! ### Destruction -/

/-- The loop of `free_child` along a leaf list. -/
def freeLeaves (generation : ℤ) : ℕ → Heap K T → ℕ → Option (Heap K T)
  | 0, _, _ => none
  | turns + 1, h, p => do
      match ← h.cells p with
      | .leaf _ _ _ next =>
          let h ← h.free p
          match next with
          | none => return h
          | some q =>
              if (← h.cells q).getGeneration = generation then freeLeaves generation turns h q
              else return h
      | .node .. => none

/-- `free_child`. The children of a node are freed from the last one on. -/
def freeChild (generation : ℤ) (turns : ℕ) : ℕ → Heap K T → Option ℕ → Option (Heap K T)
  | 0, _, _ => none
  | _ + 1, h, none => some h
  | depth + 1, h, some p => do
      let cell ← h.cells p
      if cell.getGeneration ≠ generation then return h
      else match cell with
        | .leaf .. => freeLeaves generation turns h p
        | .node _ bitmap array => do
            guard (popcount bitmap ≤ array.length)
            let h ← (array.take (popcount bitmap)).reverse.foldlM (freeChild generation turns depth) h
            h.free p

/-! ### Writing -/

/-- The loop that copies the leaves from one on up to the last argument. The leaf that
replaces the first one is returned with the copy of the last one. -/
def uncowLeaves (generation : ℤ) (target : ℕ) : ℕ → Heap K T → ℕ → Option (Heap K T × ℕ × ℕ)
  | 0, _, _ => none
  | turns + 1, h, p => do
      match ← h.cells p with
      | .leaf _ key value next =>
          let (h, copy) := h.alloc (.leaf generation key value next)
          if p = target then return (h, copy, copy)
          else do
            let (h, q, leaf) ← uncowLeaves generation target turns h (← next)
            let h ← h.setNext copy q
            return (h, copy, leaf)
      | .node .. => none

/-- The loop past the leaves of the own generation, before the others are copied. -/
def uncowTo (generation : ℤ) (target : ℕ) : ℕ → Heap K T → ℕ → Option (Heap K T × ℕ × ℕ)
  | 0, _, _ => none
  | turns + 1, h, p => do
      match ← h.cells p with
      | .leaf gen _ _ next =>
          if gen = generation then do
            let (h, q, leaf) ← uncowTo generation target turns h (← next)
            let h ← h.setNext p q
            return (h, p, leaf)
          else uncowLeaves generation target (turns + 1) h p
      | .node .. => none

/-- The loop that puts nodes above an existing leaf list until its hash and the new one differ.
The new leaf is put beside it. The top node is returned with the new leaf. -/
def disambiguate (generation : ℤ) (k : K) (init : T) (existing : ℕ) :
    ℕ → Heap K T → ℕ → ℕ → Option (Heap K T × ℕ × ℕ)
  | 0, _, _, _ => none
  | turns + 1, h, firstHash, hash => do
      let indexForExisting := firstHash % arity
      let indexForNew := hash % arity
      let bitmap := bit indexForExisting ||| bit indexForNew
      if indexForExisting = indexForNew then do
        let (h, node) ← h.allocNode generation bitmap [some existing]
        let (h, child, leaf) ← disambiguate generation k init existing turns h (firstHash / arity)
          (hash / arity)
        let h ← h.setSlot node 0 child
        return (h, node, leaf)
      else do
        let positionForNew := if indexForNew < indexForExisting then 1 else 0
        let array := if indexForNew < indexForExisting then [some existing, none]
          else [none, some existing]
        let (h, node) ← h.allocNode generation bitmap array
        let (h, leaf) := h.alloc (.leaf generation k init none)
        let h ← h.setSlot node positionForNew leaf
        return (h, node, leaf)

section Mut

variable [DecidableEq K] (hashKey : K → BitVec 64) (longShift : ℕ → ℕ → ℕ) (generation : ℤ) (k : K)
  (init : T)

/-- `>>` for `size_t`. A shift by the width or more may give anything. -/
def shiftRight (hash depth : ℕ) : ℕ :=
  if depth < 64 then hash >>> depth else longShift hash depth % 2 ^ 64

/-- The end of `mut` at an empty place or at a leaf list. The child that is then in this place
is returned with the leaf of the key and whether this is a new leaf. -/
def mutLeaves (turns : ℕ) (h : Heap K T) (child : Option ℕ) (hash depth : ℕ) :
    Option (Heap K T × ℕ × ℕ × Bool) := do
  match ← h.findLeaf k turns child with
  | some leaf =>
      let first ← child
      if (← h.cells leaf).getGeneration ≠ generation then do
        let (h, first, leaf) ← uncowTo generation leaf turns h first
        return (h, first, leaf, false)
      else return (h, first, leaf, false)
  | none =>
      match child with
      | none =>
          let (h, leaf) := h.alloc (.leaf generation k init none)
          return (h, leaf, leaf, true)
      | some first =>
          match ← h.cells first with
          | .leaf _ firstKey _ _ =>
              let firstHash := shiftRight longShift (hashKey firstKey).toNat depth
              if firstHash = hash then
                let (h, leaf) := h.alloc (.leaf generation k init (some first))
                return (h, leaf, leaf, true)
              else do
                let (h, node, leaf) ← disambiguate generation k init first 13 h firstHash hash
                return (h, node, leaf, true)
          | .node .. => none

/-- `mut` from a place on, where a child is. -/
def mutChild (turns : ℕ) : ℕ → Heap K T → ℕ → ℕ → ℕ → Option (Heap K T × ℕ × ℕ × Bool)
  | 0, _, _, _, _ => none
  | limit + 1, h, p, hash, depth => do
      match ← h.cells p with
      | .leaf .. => mutLeaves hashKey longShift generation k init turns h (some p) hash depth
      | .node gen bitmap array =>
          let index := hash % arity
          let hash := hash / arity
          let depth := depth + log2Arity
          if bitmap.getLsbD index then do
            let position := popcount (bitmap >>> index) - 1
            -- `uncow_node`
            let (h, p) ← (if gen ≠ generation then
                h.allocNode generation bitmap (array.take (popcount bitmap))
              else some (h, p))
            let child ← (← array[position]?)
            let (h, child, leaf, new) ← mutChild turns limit h child hash depth
            let h ← h.setSlot p position child
            return (h, p, leaf, new)
          else do
            -- grow the node to include the new child
            let position := popcount (bitmap >>> index)
            let newBitmap := bitmap ||| bit index
            let newArray := (array.take (popcount bitmap)).insertIdx position none
            -- `realloc` moves a node of the own generation
            let h ← (if gen = generation then h.free p else some h)
            let (h, p) ← h.allocNode generation newBitmap newArray
            let (h, child, leaf, new) ←
              mutLeaves hashKey longShift generation k init turns h none hash depth
            let h ← h.setSlot p position child
            return (h, p, leaf, new)

/-- `mut` from the root on. -/
def mutRoot (turns : ℕ) (h : Heap K T) (root : Option ℕ) : Option (Heap K T × ℕ × ℕ × Bool) :=
  match root with
  | none => mutLeaves hashKey longShift generation k init turns h none (hashKey k).toNat 0
  | some p => mutChild hashKey longShift generation k init turns turns h p (hashKey k).toNat 0

end Mut

end Heap

/-- The members of a map. -/
structure Members where
  generation : ℤ
  size : ℕ
  root : Option ℕ
  debugParent : Option ℕ
  debugRefcount : ℕ

end GenMap

open GenMap

/-- The living maps and the heap. -/
structure GenMaps (K T : Type) where
  maps : ℕ → Option Members
  heap : Heap K T
  nextMap : ℕ

namespace GenMaps

variable {K T : Type}

def init : GenMaps K T := ⟨fun _ => none, ⟨fun _ => none, 0⟩, 0⟩

/-- A bound on the turns of all loops: a list or a path has no more cells than were made. -/
def limit (s : GenMaps K T) : ℕ := s.heap.next + 1

def setMap (s : GenMaps K T) (v : ℕ) (this : Members) : GenMaps K T :=
  { s with maps := Function.update s.maps v (some this) }

def assertWritable (this : Members) : Option Unit := guard (this.debugRefcount = 0)

def construct (s : GenMaps K T) (this : Members) : GenMaps K T × ℕ :=
  ({ s.setMap s.nextMap this with nextMap := s.nextMap + 1 }, s.nextMap)

/-- The default constructor. -/
def new (s : GenMaps K T) : GenMaps K T × ℕ := s.construct ⟨0, 0, none, none, 0⟩

/-- The copy constructor. An overflow of the generation is undefined. -/
def copy (s : GenMaps K T) (v : ℕ) : Option (GenMaps K T × ℕ) := do
  let other ← s.maps v
  match other.root with
  | none => return s.construct ⟨0, other.size, none, none, 0⟩
  | some root =>
      guard (other.generation + 1 < 2 ^ 31)
      let s := s.setMap v { other with debugRefcount := other.debugRefcount + 1 }
      return s.construct ⟨other.generation + 1, other.size, some root, some v, 0⟩

/-- The decrement of the reference count of the source of a copy. -/
def releaseParent (s : GenMaps K T) (this : Members) : Option (GenMaps K T) :=
  match this.debugParent with
  | none => some s
  | some parent => do
      let other ← s.maps parent
      return s.setMap parent { other with debugRefcount := other.debugRefcount - 1 }

def destroy (s : GenMaps K T) (v : ℕ) : Option (GenMaps K T) := do
  let this ← s.maps v
  assertWritable this
  let s ← s.releaseParent this
  let heap ← Heap.freeChild this.generation s.limit s.limit s.heap this.root
  return { s with heap := heap, maps := Function.update s.maps v none }

def size (s : GenMaps K T) (v : ℕ) : Option ℕ := do return (← s.maps v).size

def forEach (s : GenMaps K T) (v : ℕ) : Option (List (K × T)) := do
  match (← s.maps v).root with
  | none => return []
  | some root => s.heap.forEach s.limit s.limit (some root)

variable [DecidableEq K] (hashKey : K → BitVec 64) (longShift : ℕ → ℕ → ℕ)

def find (s : GenMaps K T) (v : ℕ) (k : K) : Option (Option T) := do
  let leaves ← s.heap.findLeaves s.limit (← s.maps v).root (hashKey k).toNat
  match ← s.heap.findLeaf k s.limit leaves with
  | none => return none
  | some p =>
      match ← s.heap.cells p with
      | .leaf _ _ value _ => return some value
      | .node .. => none

/-- `mut`, with a write through the reference that it returns. A new key starts with the
default value. -/
def mutate (defaultValue : T) (s : GenMaps K T) (v : ℕ) (k : K) (write : T → T) :
    Option (GenMaps K T) := do
  let this ← s.maps v
  assertWritable this
  let (heap, root, leaf, new) ←
    Heap.mutRoot hashKey longShift this.generation k defaultValue s.limit s.heap this.root
  let heap ← heap.writeValue leaf write
  let size := if new then (this.size + 1) % 2 ^ 32 else this.size
  return { s.setMap v { this with root := some root, size := size } with heap := heap }

end GenMaps

namespace GenMap

/-- The operations on a family of maps that change the family or the heap. -/
inductive MapOp (K T : Type) where
  | new
  | copy (v : ℕ)
  | destroy (v : ℕ)
  | mutate (v : ℕ) (k : K) (write : T → T)

end GenMap

namespace GenMaps

variable {K T : Type} [DecidableEq K] (hashKey : K → BitVec 64) (longShift : ℕ → ℕ → ℕ)
  (defaultValue : T)

def step (s : GenMaps K T) : MapOp K T → Option (GenMaps K T)
  | .new => some s.new.1
  | .copy v => (s.copy v).map Prod.fst
  | .destroy v => s.destroy v
  | .mutate v k write => s.mutate hashKey longShift defaultValue v k write

end GenMaps

end Nidhugg
