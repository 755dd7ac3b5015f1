import Mathlib.Data.List.InsertIdx

/-! # Sets as sorted vectors

`VecSet` for a comparison `lt`. Elements count as equal if neither is less than the other. -/

namespace Nidhugg.VecSet

variable {α : Type} (lt : α → α → Bool)

/-- The binary search of `find_geq` between two positions. -/
def findGeqBetween (vec : List α) (t : α) : ℕ → ℕ → ℕ → ℕ
  | 0, a, _ => a
  | turns + 1, a, b =>
      if a < b then
        let c := (a + b) / 2
        match vec[c]? with
        | none => a
        | some x =>
            if lt x t then findGeqBetween vec t turns (c + 1) b
            else if !lt t x then c
            else findGeqBetween vec t turns a c
      else a

/-- The interval gets smaller with each turn. -/
def findGeq (vec : List α) (t : α) : ℕ := findGeqBetween lt vec t (vec.length + 1) 0 vec.length

def insert (vec : List α) (t : α) : List α :=
  let i := findGeq lt vec t
  match vec[i]? with
  | none => vec.insertIdx i t
  | some x => if !lt t x then vec else vec.insertIdx i t

/-- The set without a value, if it was there. -/
def erase (vec : List α) (t : α) : Option (List α) :=
  let i := findGeq lt vec t
  match vec[i]? with
  | none => none
  | some x => if lt t x then none else some (vec.eraseIdx i)

/-- The place of the value in the set. It must be equal, not only neither less nor greater. -/
def find [DecidableEq α] (vec : List α) (t : α) : Option ℕ :=
  let i := findGeq lt vec t
  match vec[i]? with
  | none => none
  | some x => if x = t then some i else none

def count [DecidableEq α] (vec : List α) (t : α) : ℕ := if (find lt vec t).isSome then 1 else 0

/-! ### Operations with another set -/

/-- The set of the elements of a range. -/
def ofRange (range : List α) : List α :=
  range.foldl (fun vec x =>
    if vec.getLast?.any (lt · x) then vec ++ [x] else insert lt vec x) []

/-- The number of elements of `s` that are not in the set. -/
def countMissing : List α → List α → ℕ
  | x :: vec, y :: s =>
      if lt x y then countMissing vec (y :: s)
      else if !lt y x then countMissing vec s
      else 1 + countMissing (x :: vec) s
  | _, s => s.length
termination_by vec s => vec.length + s.length

/-- Merges two sets from their largest elements on, in front of what is built already. -/
def mergeBack : List α → List α → List α → List α
  | x :: vec, y :: s, built =>
      if lt x y then mergeBack (x :: vec) s (y :: built)
      else if !lt y x then mergeBack vec s (x :: built)
      else mergeBack vec (y :: s) (x :: built)
  | [], s, built => s.reverse ++ built
  | vec, [], built => vec.reverse ++ built
termination_by vec s => vec.length + s.length

def insertSet (vec s : List α) : List α :=
  match s with
  | [] => vec
  | [y] => insert lt vec y
  | s => if 0 < countMissing lt vec s then mergeBack lt vec.reverse s.reverse [] else vec

def eraseSet : List α → List α → List α
  | x :: vec, y :: s =>
      if lt x y then x :: eraseSet vec (y :: s)
      else if lt y x then eraseSet (x :: vec) s
      else eraseSet vec s
  | vec, _ => vec
termination_by vec s => vec.length + s.length

def intersects : List α → List α → Bool
  | x :: vec, y :: s =>
      if lt x y then intersects vec (y :: s)
      else if !lt y x then true
      else intersects (x :: vec) s
  | _, _ => false
termination_by vec s => vec.length + s.length

/-! ### Comparison -/

def seqLt : List α → List α → Bool
  | _, [] => false
  | [], _ :: _ => true
  | x :: xs, y :: ys => if lt x y then true else if lt y x then false else seqLt xs ys

def seqEq : List α → List α → Bool
  | [], [] => true
  | x :: xs, y :: ys => !lt x y && !lt y x && seqEq xs ys
  | _, _ => false

end Nidhugg.VecSet
