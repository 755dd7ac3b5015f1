import Nidhugg.Model.VecSet

/-! # Sorted vectors, changed in place

The operations of `VecSet` as they work on the vector, element by element. A failed assertion or
an access outside a vector has no result. -/

namespace Nidhugg.VecSet

variable {α : Type} (lt : α → α → Bool)

/-! ### Single elements -/

/-- Copies elements one position up, from `j` down to the position after `i`. -/
def moveUp (i : ℕ) : ℕ → List α → Option (List α)
  | 0, vec => some vec
  | j + 1, vec =>
      if i < j + 1 then (vec[j]?).bind fun x => moveUp i j (vec.set (j + 1) x)
      else some vec

/-- Makes room for a new element. -/
def pushAt (vec : List α) (i : ℕ) (t : α) : Option (List α) :=
  match vec.getLast? with
  | none => some (vec ++ [t])
  | some back => (moveUp i (vec.length - 1) (vec ++ [back])).map fun vec => vec.set i t

/-- `insert`: also gives the position of the element and whether it is new. -/
def insertElement (vec : List α) (t : α) : Option (List α × ℕ × Bool) :=
  let i := findGeq lt vec t
  match vec[i]? with
  | none => (pushAt vec i t).map fun vec => (vec, i, true)
  | some x =>
      if !lt t x then if lt x t then none else some (vec, i, false)
      else (pushAt vec i t).map fun vec => (vec, i, true)

def insertGeq [DecidableEq α] (vec : List α) (t : α) : Option (List α × ℕ × Bool) :=
  match vec.getLast? with
  | none => some (vec ++ [t], vec.length, true)
  | some back =>
      if lt t back then none
      else if back = t then some (vec, vec.length - 1, false)
      else some (vec ++ [t], vec.length, true)

def insertGt (vec : List α) (t : α) : Option (List α) :=
  match vec.getLast? with
  | none => some (vec ++ [t])
  | some back => if lt back t then some (vec ++ [t]) else none

/-- The constructor from a range of elements. -/
def construct (range : List α) : Option (List α) :=
  range.foldlM (fun vec x =>
    match vec.getLast? with
    | none => (insertElement lt vec x).map (·.1)
    | some back =>
        if lt back x then some (vec ++ [x]) else (insertElement lt vec x).map (·.1)) []

/-- Moves the elements behind a position down by one. -/
def eraseAt (vec : List α) (p : ℕ) : Option (List α) :=
  if vec.isEmpty then none
  else
    ((List.range' p (vec.length - 1 - p)).foldlM (fun vec j =>
      (vec[j + 1]?).map fun x => vec.set j x) vec).map List.dropLast

/-- `erase`: also gives the number of erased elements. -/
def eraseElement (vec : List α) (t : α) : Option (List α × ℕ) :=
  let i := findGeq lt vec t
  match vec[i]? with
  | none => some (vec, 0)
  | some x => if lt t x then some (vec, 0) else (eraseAt vec i).map fun vec => (vec, 1)

/-! ### Operations with another set -/

/-- Fills the first `i` positions from behind with the largest of the first `a` elements of the
vector and the first `b` elements of `s` that are left. -/
def mergeInPlace (s : List α) : ℕ → ℕ → ℕ → List α → Option (List α)
  | 0, 0, 0, vec => some vec
  | 0, _, _, _ => none
  | _ + 1, 0, 0, _ => none
  | i + 1, 0, b + 1, vec => (s[b]?).bind fun y => mergeInPlace s i 0 b (vec.set i y)
  | i + 1, a + 1, 0, vec =>
      if i < a then none
      else (vec[a]?).bind fun x => mergeInPlace s i a 0 (vec.set i x)
  | i + 1, a + 1, b + 1, vec =>
      if i < a then none
      else
        (vec[a]?).bind fun x => (s[b]?).bind fun y =>
          if lt x y then mergeInPlace s i (a + 1) b (vec.set i y)
          else if !lt y x then mergeInPlace s i a b (vec.set i x)
          else mergeInPlace s i a (b + 1) (vec.set i x)

/-- `insert` of a set: also gives the number of new elements. -/
def insertAll (vec s : List α) : Option (List α × ℕ) :=
  match s with
  | [] => some (vec, 0)
  | [y] => (insertElement lt vec y).map fun r => (r.1, if r.2.2 then 1 else 0)
  | y :: _ =>
      let count := countMissing lt vec s
      if 0 < count then
        (mergeInPlace lt s (vec.length + count) vec.length s.length
          (vec ++ List.replicate count y)).map fun vec => (vec, count)
      else some (vec, count)

/-- Copies an element down unless it is in its place. -/
def copyDown (vec : List α) (a ains : ℕ) (x : α) : List α :=
  if ains ≠ a then vec.set ains x else vec

@[simp] theorem length_copyDown (vec : List α) (a ains : ℕ) (x : α) :
    (copyDown vec a ains x).length = vec.length := by
  unfold copyDown
  split <;> simp

/-- The main loop of `erase` of a set. Gives the vector, the positions up to which it has been read
and written, and the number of erased elements. -/
def eraseLoop (s : List α) (a b ains count : ℕ) (vec : List α) : Option (List α × ℕ × ℕ × ℕ) :=
  if h : a < vec.length ∧ b < s.length then
    let x := vec[a]
    let y := s[b]
    if lt x y then eraseLoop s (a + 1) b (ains + 1) count (copyDown vec a ains x)
    else if lt y x then eraseLoop s a (b + 1) ains count vec
    else eraseLoop s (a + 1) (b + 1) ains (count + 1) vec
  else some (vec, a, ains, count)
termination_by (vec.length - a) + (s.length - b)
decreasing_by
  · simp only [length_copyDown]
    omega
  · omega
  · omega

/-- Copies the elements from position `a` on down to position `ains`, and drops what is left. -/
def moveTail (vec : List α) (a ains : ℕ) : Option (List α) :=
  ((List.range' a (vec.length - a)).foldlM (fun (s : List α × ℕ) a =>
    (s.1[a]?).map fun x => (s.1.set s.2 x, s.2 + 1)) (vec, ains)).map fun s => s.1.take s.2

/-- `erase` of a set: also gives the number of erased elements. -/
def eraseAll (vec s : List α) : Option (List α × ℕ) :=
  if vec.isEmpty || s.isEmpty then some (vec, 0)
  else
    (eraseLoop lt s 0 0 0 0 vec).bind fun (vec, a, ains, count) =>
      if ains ≠ a then (moveTail vec a ains).map fun vec => (vec, count)
      else some (vec, count)

/-- The loop of `subset_of`. -/
def subsetFrom (vec s : List α) (a b : ℕ) : Bool :=
  if ha : a < vec.length then
    if hb : s.length - b < vec.length - a then false
    else
      let x := vec[a]
      let y := s[b]
      if lt x y then false
      else if !lt y x then subsetFrom vec s (a + 1) (b + 1)
      else subsetFrom vec s a (b + 1)
  else true
termination_by (vec.length - a) + (s.length - b)

def subsetOf (vec s : List α) : Bool :=
  if s.length < vec.length then false else subsetFrom lt vec s 0 0

/-! ### Programs -/

/-- An operation on sets that have names. -/
inductive Op (α : Type) where
  | construct (x : ℕ) (range : List α)
  | insert (x : ℕ) (t : α)
  | insertGeq (x : ℕ) (t : α)
  | insertGt (x : ℕ) (t : α)
  | insertSet (x y : ℕ)
  | erase (x : ℕ) (t : α)
  | eraseAt (x p : ℕ)
  | eraseSet (x y : ℕ)
  | find (x : ℕ) (t : α)
  | count (x : ℕ) (t : α)
  | subsetOf (x y : ℕ)
  | intersects (x y : ℕ)

/-- What an operation returns. -/
inductive Answer where
  | done
  | position (i : ℕ) (isNew : Bool)
  | number (n : ℕ)
  | found (i : Option ℕ)
  | decided (b : Bool)
deriving DecidableEq, Repr

/-- One operation: the vectors afterwards and the answer. -/
def step [DecidableEq α] (vecs : ℕ → List α) : Op α → Option ((ℕ → List α) × Answer)
  | .construct x range =>
      (construct lt range).map fun vec => (Function.update vecs x vec, .done)
  | .insert x t =>
      (insertElement lt (vecs x) t).map fun (vec, i, isNew) =>
        (Function.update vecs x vec, .position i isNew)
  | .insertGeq x t =>
      (insertGeq lt (vecs x) t).map fun (vec, i, isNew) =>
        (Function.update vecs x vec, .position i isNew)
  | .insertGt x t =>
      (insertGt lt (vecs x) t).map fun vec => (Function.update vecs x vec, .done)
  | .insertSet x y =>
      (insertAll lt (vecs x) (vecs y)).map fun (vec, n) =>
        (Function.update vecs x vec, .number n)
  | .erase x t =>
      (eraseElement lt (vecs x) t).map fun (vec, n) => (Function.update vecs x vec, .number n)
  | .eraseAt x p => (eraseAt (vecs x) p).map fun vec => (Function.update vecs x vec, .done)
  | .eraseSet x y =>
      (eraseAll lt (vecs x) (vecs y)).map fun (vec, n) =>
        (Function.update vecs x vec, .number n)
  | .find x t => some (vecs, .found (find lt (vecs x) t))
  | .count x t => some (vecs, .number (count lt (vecs x) t))
  | .subsetOf x y => some (vecs, .decided (subsetOf lt (vecs x) (vecs y)))
  | .intersects x y => some (vecs, .decided (intersects lt (vecs x) (vecs y)))

/-- A sequence of operations: the vectors afterwards and the answers. -/
def run [DecidableEq α] (vecs : ℕ → List α) : List (Op α) → Option ((ℕ → List α) × List Answer)
  | [] => some (vecs, [])
  | op :: ops =>
      (step lt vecs op).bind fun (vecs, answer) =>
        (run vecs ops).map fun (vecs, answers) => (vecs, answer :: answers)

end Nidhugg.VecSet
