import Mathlib.Data.List.DropRight
import Mathlib.Order.Lattice
import Nidhugg.Model.Basic

/-! # Integer vector clocks

`VClock<int>` stores its entries in a vector and reads absent entries as zero. -/

namespace Nidhugg

structure VClock where
  vec : List ℕ
deriving DecidableEq, Repr, Inhabited

namespace VClock

/-- The clock in which every entry is zero. -/
def empty : VClock := ⟨[]⟩

/-- The read-only `operator[]`. -/
def get (c : VClock) (d : ℕ) : ℕ := c.vec.getD d 0

def sizeUb (c : VClock) : ℕ := c.vec.length

/-- `std::vector::resize` in the direction the clocks use it: it never shrinks. -/
def resize (v : List ℕ) (n : ℕ) : List ℕ := v ++ List.replicate (n - v.length) 0

/-- Assignment through the mutable `operator[]`. -/
def set (c : VClock) (d value : ℕ) : VClock :=
  ⟨(resize c.vec (d + 1)).set d value⟩

/-- `operator+=`, the pointwise maximum. -/
def addAssign (a b : VClock) : VClock :=
  ⟨(resize a.vec b.vec.length).mapIdx fun i x =>
    if i < b.vec.length ∧ x < b.get i then b.get i else x⟩

/-- `operator+`. -/
def add (a b : VClock) : VClock :=
  ⟨(List.range (max a.vec.length b.vec.length)).map fun i => max (a.get i) (b.get i)⟩

/-- `operator-`. -/
def sub (a b : VClock) : VClock :=
  ⟨(List.range (max a.vec.length b.vec.length)).map fun i => min (a.get i) (b.get i)⟩

/-- `operator-=`. It leaves the entries behind the end of the argument as they are. -/
def subAssign (a b : VClock) : VClock :=
  ⟨(resize a.vec b.vec.length).mapIdx fun i x =>
    if i < b.vec.length ∧ b.get i < x then b.get i else x⟩

/-- The length of the vector without the zeros at its end. -/
def size (c : VClock) : ℕ := (c.vec.rdropWhile (· == 0)).length

/-- `operator==`. -/
def eq (a b : VClock) : Bool :=
  (List.range (max a.vec.length b.vec.length)).all fun i => a.get i == b.get i

def leq (a b : VClock) : Bool :=
  (List.range (min a.vec.length b.vec.length)).all (fun i => a.get i ≤ b.get i) &&
    (a.vec.drop (min a.vec.length b.vec.length)).all (· == 0)

def geq (a b : VClock) : Bool :=
  (List.range (max a.vec.length b.vec.length)).all fun i => !decide (a.get i < b.get i)

/-- The loop of the strict comparisons: no entry of `a` may be greater. -/
def strictlyBelow (a b : VClock) : List ℕ → Bool → Bool
  | [], strict => strict
  | i :: is, strict =>
      if b.get i < a.get i then false
      else strictlyBelow a b is (strict || decide (a.get i < b.get i))

def lt (a b : VClock) : Bool :=
  strictlyBelow a b (List.range (max a.vec.length b.vec.length)) false

def gt (a b : VClock) : Bool :=
  strictlyBelow b a (List.range (max a.vec.length b.vec.length)) false

/-- The loop of `operator<`: the first entries that differ decide. -/
def lessFrom (a b : VClock) : List ℕ → Bool
  | [] => false
  | i :: is =>
      if a.get i < b.get i then true
      else if b.get i < a.get i then false
      else lessFrom a b is

/-- `operator<`. -/
def less (a b : VClock) : Bool := lessFrom a b (List.range (max a.vec.length b.vec.length))

def includes (c : VClock) (iid : IID) : Bool := iid.index ≤ c.get iid.pid

end VClock

/-- One clock of a `VClockVec`: a fixed number of entries, all of them present. -/
abbrev ClockRef := List ℕ

/-- `VClockVec::Ref::operator=`. -/
def ClockRef.assign (size : ℕ) (c : VClock) : ClockRef := (List.range size).map c.get

/-- `VClockVec::Ref::operator-=`, the pointwise minimum. -/
def ClockRef.subAssign (a b : ClockRef) : ClockRef :=
  a.mapIdx fun i x => if b.getD i 0 < x then b.getD i 0 else x

end Nidhugg

/-! # Vector clocks over an ordered domain

`VClock<DOM>` stores its entries in a map, sorted by their keys, and reads absent entries as zero.
An entry of the map can be zero, too. -/

namespace Nidhugg

structure VClockMap (δ : Type*) [LinearOrder δ] where
  clocks : List (δ × ℕ)
  sorted : clocks.Pairwise (·.1 < ·.1)

namespace VClockMap

variable {δ : Type*} [LinearOrder δ]

/-- The value that a sequence of entries gives to a process. -/
def value (entries : List (δ × ℕ)) (d : δ) : ℕ := (entries.lookup d).getD 0

/-- The read-only `operator[]`. -/
def get (c : VClockMap δ) (d : δ) : ℕ := value c.clocks d

/-! ### Comparisons entry by entry -/

/-- The loop over the entries of two maps in the order of their keys. Each entry, or pair of
entries with one key, may end the comparison with a negative answer, and may set a flag. -/
def mergeFrom (onlyRight onlyLeft : ℕ → Bool → Option Bool) (both : ℕ → ℕ → Bool → Option Bool) :
    List (δ × ℕ) → List (δ × ℕ) → Bool → Option Bool
  | [], [], strict => some strict
  | [], (_, n) :: b, strict =>
      (onlyRight n strict).bind (mergeFrom onlyRight onlyLeft both [] b)
  | (_, m) :: a, [], strict =>
      (onlyLeft m strict).bind (mergeFrom onlyRight onlyLeft both a [])
  | (x, m) :: a, (y, n) :: b, strict =>
      if y < x then
        (onlyRight n strict).bind (mergeFrom onlyRight onlyLeft both ((x, m) :: a) b)
      else if x < y then
        (onlyLeft m strict).bind (mergeFrom onlyRight onlyLeft both a ((y, n) :: b))
      else (both m n strict).bind (mergeFrom onlyRight onlyLeft both a b)
termination_by a b => a.length + b.length

/-- `operator==`. -/
def eq (a b : VClockMap δ) : Bool :=
  (mergeFrom (fun n strict => if n ≠ 0 then none else some strict)
    (fun m strict => if m ≠ 0 then none else some strict)
    (fun m n strict => if m ≠ n then none else some strict) a.clocks b.clocks false).isSome

def lt (a b : VClockMap δ) : Bool :=
  (mergeFrom (fun n strict => some (if 0 < n then true else strict))
    (fun m strict => if 0 < m then none else some strict)
    (fun m n strict => if n < m then none else some (if m < n then true else strict))
    a.clocks b.clocks false).getD false

def leq (a b : VClockMap δ) : Bool :=
  (mergeFrom (fun _ strict => some strict)
    (fun m strict => if 0 < m then none else some strict)
    (fun m n strict => if n < m then none else some strict) a.clocks b.clocks false).isSome

def gt (a b : VClockMap δ) : Bool := lt b a

def geq (a b : VClockMap δ) : Bool := leq b a

/-! ### Lexicographic comparisons -/

def skipZeros (entries : List (δ × ℕ)) : List (δ × ℕ) := entries.dropWhile (·.2 == 0)

omit [LinearOrder δ] in
theorem length_lt_of_skipZeros {entries rest : List (δ × ℕ)} {e : δ × ℕ}
    (h : skipZeros entries = e :: rest) : rest.length < entries.length := by
  have hle := (List.dropWhile_suffix (fun e : δ × ℕ => e.2 == 0) (l := entries)).length_le
  rw [show entries.dropWhile (·.2 == 0) = e :: rest from h] at hle
  exact hle

/-- The loop of `operator<` and `operator<=`. They differ in what they answer when the left map
ends, which depends on whether the right one does not, and when there is nothing to compare. -/
def lexFrom (leftEnds : Bool → Bool) (atEnd : Bool) (a b : List (δ × ℕ)) : Bool :=
  if a.isEmpty && b.isEmpty then atEnd
  else
    match ha : skipZeros a, skipZeros b with
    | [], b => leftEnds !b.isEmpty
    | _ :: _, [] => false
    | (x, m) :: a', (y, n) :: b' =>
        have : a'.length < a.length := length_lt_of_skipZeros ha
        if x < y then true
        else if y < x then false
        else if m < n then true
        else if n < m then false
        else lexFrom leftEnds atEnd a' b'
termination_by a.length

/-- `operator<`. -/
def less (a b : VClockMap δ) : Bool := lexFrom (fun more => more) false a.clocks b.clocks

/-- `operator<=`. -/
def lessEq (a b : VClockMap δ) : Bool := lexFrom (fun _ => true) true a.clocks b.clocks

end VClockMap

end Nidhugg
