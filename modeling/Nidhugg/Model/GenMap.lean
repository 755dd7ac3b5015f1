import Mathlib.Algebra.Group.Int.Defs
import Mathlib.Algebra.Group.Nat.Defs

/-! # Generational hash maps

`gen::map`: a trie over the hash bits, five at a time, with the keys of equal hashes in
lists at its leaves. Nodes and leaves carry the generation of the map that may write them;
copies share the trie and start a new generation. The trie is a value here: a map never
writes a node of another generation. -/

namespace Nidhugg

namespace GenMap

/-- One element of a leaf list. -/
structure Leaf (K T : Type*) where
  generation : ℤ
  key : K
  value : T

inductive Child (K T : Type*) where
  /-- A leaf and those behind it. -/
  | leaf (first : Leaf K T) (next : List (Leaf K T))
  | node (generation : ℤ) (bitmap : BitVec 32) (array : List (Child K T))

abbrev arity : ℕ := 32

abbrev log2Arity : ℕ := 5

def popcount (bitmap : BitVec 32) : ℕ := (List.range 32).countP bitmap.getLsbD

/-- `1 << index`. -/
def bit (index : ℕ) : BitVec 32 := 1#32 <<< index

variable {K T : Type*} [DecidableEq K]

/-- The value of a key in a leaf list. -/
def findLeaf (k : K) (leaves : List (Leaf K T)) : Option T :=
  (leaves.find? fun leaf => leaf.key = k).map Leaf.value

mutual

/-- `find` below a child, with the hash bits that are left. -/
def Child.find (k : K) : Child K T → ℕ → Option T
  | .leaf first next, _ => findLeaf k (first :: next)
  | .node _ bitmap array, hash =>
      let index := hash % arity
      if bitmap.getLsbD index then
        findAt k array (popcount (bitmap >>> index) - 1) (hash / arity)
      else none

/-- `find` below the child at a position of an array. -/
def findAt (k : K) : List (Child K T) → ℕ → ℕ → Option T
  | [], _, _ => none
  | child :: _, 0, hash => child.find k hash
  | _ :: array, position + 1, hash => findAt k array position hash

end

/-- Writes through the reference to the value of a key. Leaves up to it are copied if it
belongs to another generation. Empty if the key is not in the list. -/
def mutLeaf (generation : ℤ) (k : K) (write : T → T) (leaves : List (Leaf K T)) :
    Option (List (Leaf K T)) :=
  match leaves.span fun leaf => leaf.key ≠ k with
  | (_, []) => none
  | (before, leaf :: after) =>
      let before := if leaf.generation = generation then before
        else before.map fun l => { l with generation := generation }
      some (before ++ ⟨generation, leaf.key, write leaf.value⟩ :: after)

/-- The loop that puts nodes above an existing leaf list until its hash and the new one
differ. The first argument bounds its turns. -/
def disambiguate (generation : ℤ) (existing new : Child K T) : ℕ → ℕ → ℕ → Option (Child K T)
  | 0, _, _ => none
  | turns + 1, firstHash, hash =>
      let indexForExisting := firstHash % arity
      let indexForNew := hash % arity
      if indexForExisting = indexForNew then do
        let child ← disambiguate generation existing new turns (firstHash / arity) (hash / arity)
        return .node generation (bit indexForExisting ||| bit indexForNew) [child]
      else
        let array := if indexForExisting < indexForNew then [new, existing] else [existing, new]
        some (.node generation (bit indexForExisting ||| bit indexForNew) array)

/-- The end of `mut` at a leaf list: whether the key is new, and the list or the nodes that
replace it. A shift by the width of the hash or more is undefined. -/
def mutLeaves (hashKey : K → BitVec 64) (generation : ℤ) (k : K) (write : T → T) (init : T)
    (first : Leaf K T) (next : List (Leaf K T)) (hash depth : ℕ) :
    Option (Bool × Child K T) :=
  match mutLeaf generation k write (first :: next) with
  | some (first :: next) => some (false, .leaf first next)
  | some [] => none
  | none =>
      if 64 ≤ depth then none
      else
        let firstHash := (hashKey first.key).toNat >>> depth
        let leaf : Leaf K T := ⟨generation, k, write init⟩
        if firstHash = hash then some (true, .leaf leaf (first :: next))
        else do
          let child ←
            disambiguate generation (.leaf first next) (.leaf leaf []) 13 firstHash hash
          return (true, child)

mutual

/-- `mut` below a child, with the hash bits that are left and the depth: whether the key is
new, and the child that replaces this one. -/
def Child.mutate (hashKey : K → BitVec 64) (generation : ℤ) (k : K) (write : T → T) (init : T) :
    Child K T → ℕ → ℕ → Option (Bool × Child K T)
  | .leaf first next, hash, depth =>
      mutLeaves hashKey generation k write init first next hash depth
  | .node _ bitmap array, hash, depth =>
      let index := hash % arity
      if bitmap.getLsbD index then do
        let (new, array) ← mutateAt hashKey generation k write init array
          (popcount (bitmap >>> index) - 1) (hash / arity) (depth + log2Arity)
        return (new, .node generation bitmap array)
      else
        -- grow the node to include the new child
        let leaf : Leaf K T := ⟨generation, k, write init⟩
        some (true, .node generation (bitmap ||| bit index)
          (array.insertIdx (popcount (bitmap >>> index)) (.leaf leaf [])))

def mutateAt (hashKey : K → BitVec 64) (generation : ℤ) (k : K) (write : T → T) (init : T) :
    List (Child K T) → ℕ → ℕ → ℕ → Option (Bool × List (Child K T))
  | [], _, _, _ => none
  | child :: array, 0, hash, depth => do
      let (new, child) ← child.mutate hashKey generation k write init hash depth
      return (new, child :: array)
  | child :: array, position + 1, hash, depth => do
      let (new, array) ← mutateAt hashKey generation k write init array position hash depth
      return (new, child :: array)

end

mutual

/-- The elements that `for_each` visits below a child, in its order. -/
def Child.forEach : Child K T → List (K × T)
  | .leaf first next => (first :: next).map fun leaf => (leaf.key, leaf.value)
  | .node _ _ array => forEachIn array

def forEachIn : List (Child K T) → List (K × T)
  | [] => []
  | child :: array => child.forEach ++ forEachIn array

end

end GenMap

open GenMap

/-- `gen::map`. The generation is a signed 32-bit number, the size an unsigned one. -/
structure GenMap (K T : Type*) where
  generation : ℤ
  size : ℕ
  root : Option (Child K T)

namespace GenMap

variable {K T : Type*}

def empty : GenMap K T := ⟨0, 0, none⟩

/-- The copy constructor. An overflow of the generation is undefined. -/
def copy (m : GenMap K T) : Option (GenMap K T) :=
  match m.root with
  | none => some ⟨0, m.size, none⟩
  | some root =>
      if m.generation + 1 < 2 ^ 31 then some ⟨m.generation + 1, m.size, some root⟩ else none

def forEach (m : GenMap K T) : List (K × T) :=
  match m.root with
  | none => []
  | some root => root.forEach

variable [DecidableEq K] (hashKey : K → BitVec 64)

def find (m : GenMap K T) (k : K) : Option T :=
  m.root.bind fun root => root.find k (hashKey k).toNat

/-- `at` throws for a missing key. -/
def atKey (m : GenMap K T) (k : K) : Except String T :=
  match m.find hashKey k with
  | some v => .ok v
  | none => .error "k not in map"

/-- `operator[]` reads a missing key as the default value. -/
def getElem (init : T) (m : GenMap K T) (k : K) : T := (m.find hashKey k).getD init

def count (m : GenMap K T) (k : K) : ℕ := if (m.find hashKey k).isSome then 1 else 0

/-- The map after the caller of `mut` has written through the returned reference. A new key
starts with the default value. -/
def mutate (init : T) (m : GenMap K T) (k : K) (write : T → T) : Option (GenMap K T) :=
  match m.root with
  | none =>
      some ⟨m.generation, (m.size + 1) % 2 ^ 32,
        some (.leaf ⟨m.generation, k, write init⟩ [])⟩
  | some root => do
      let (new, root) ←
        root.mutate hashKey m.generation k write init (hashKey k).toNat 0
      return ⟨m.generation, if new then (m.size + 1) % 2 ^ 32 else m.size, some root⟩

/-- The operations that change a map or replace it by its copy. -/
inductive Operation (K T : Type*) where
  | mutate (k : K) (write : T → T)
  | copy

def apply (init : T) (m : GenMap K T) : Operation K T → Option (GenMap K T)
  | .mutate k write => m.mutate hashKey init k write
  | .copy => m.copy

end GenMap

end Nidhugg
