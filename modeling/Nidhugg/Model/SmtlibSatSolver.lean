import Nidhugg.Model.RfscPrefixes
import Nidhugg.Model.SExpr

/-! # The solver for SMT-LIB

The commands that `SmtlibSatSolver` sends to the solver, and how it reads a model from the answer.
`unsigned` has 32 bits. -/

namespace Nidhugg.SmtlibSatSolver

open Numerals SExpr

/-! ### Variables -/

/-- The loop of `ilog2`: the masks and the numbers of bits below them. -/
def ilog2Steps : List (ℕ × ℕ) :=
  [(0xFFFF0000, 16), (0xFF00, 8), (0xF0, 4), (0xC, 2), (0x2, 1)]

def ilog2 (v : ℕ) : ℕ :=
  (ilog2Steps.foldl (fun (v, r) (mask, shift) =>
    if v &&& mask ≠ 0 then (v >>> shift, r ||| shift) else (v, r)) (v, 0)).2

/-- `count - 2`, which wraps around. -/
def hexdigs (count : ℕ) : ℕ := ilog2 ((count + 2 ^ 32 - 2) % 2 ^ 32) / 4 + 1

/-- `1u << n`, which is undefined from the width of the type on. -/
def shiftedOne (n : ℕ) : Option ℕ := if n < 32 then some (2 ^ n) else none

/-- The commands about variables, which are numbered from zero. -/
inductive Command where
  | declareBitVec (i width : ℕ)
  /-- `(assert (bvult e_i #x...))` -/
  | bvultConst (i : ℕ) (hex : List Char)
  | declareInt (i : ℕ)
  | geZero (i : ℕ)
  | ltConst (i n : ℕ)
  | distinct (count : ℕ)
  /-- A constraint, with `bvult` or with `<`. -/
  | constraint (bv : Bool) (c : SatConstraint)

/-- A number in hexadecimal, padded with zeros. -/
def paddedHex (width n : ℕ) : List Char :=
  List.replicate (width - (numeral 16 n).length) '0' ++ numeral 16 n

/-- The declaration of a variable and its bounds. `cl_bv` chooses bit-vectors. -/
def declareVariable (bv : Bool) (count i : ℕ) : Option (List Command) :=
  if bv then
    (shiftedOne (hexdigs count * 4)).map fun capacity =>
      .declareBitVec i (hexdigs count * 4) ::
        if count ≠ capacity then [.bvultConst i (paddedHex (hexdigs count) count)] else []
  else some [.declareInt i, .geZero i, .ltConst i count]

def declareVariables (bv : Bool) (count : ℕ) : Option (List Command) :=
  ((List.range count).mapM (declareVariable bv count)).map List.flatten

/-- `alloc_variables` -/
def allocVariables (bv : Bool) (count : ℕ) : Option (List Command) :=
  (declareVariables bv count).map fun commands => commands ++ [.distinct count]

/-- `alloc_variables`, and then `add_edge` and `add_edge_disj` for all constraints. -/
def encode (bv : Bool) (count : ℕ) (constraints : List SatConstraint) : Option (List Command) :=
  (allocVariables bv count).map fun commands => commands ++ constraints.map (.constraint bv)

/-! ### Models -/

/-- What stops `get_model`. An access outside of a vector is undefined. -/
inductive ModelFault where
  | parseError (e : ParseError)
  | assertion
  | abort
  | outOfRange (i : ℕ)
deriving DecidableEq

/-- A `long` that is assigned to an `unsigned`. -/
def toUnsigned (value : ℤ) : ℕ := (value % 2 ^ 32).toNat

/-- `res[i] = value` -/
def writeAt (res : List ℕ) (i : ℕ) (value : ℤ) : Except ModelFault (List ℕ) :=
  if i < res.length then .ok (res.set i (toUnsigned value)) else .error (.outOfRange i)

/-- Assigns the number that a string begins with, and asserts that the string ends there. -/
def writeNumber (res : List ℕ) (i base : ℕ) (str : List Char) : Except ModelFault (List ℕ) := do
  let (value, rest) := strtol base str
  let res ← writeAt res i value
  if rest.isEmpty then return res else throw .assertion

/-- The value of a variable, as a bit-vector or as an integer. -/
def writeValue (bv : Bool) (res : List ℕ) (i : ℕ) : SExpr → Except ModelFault (List ℕ)
  | .int value => if bv then .error .assertion else writeAt res i value
  | .token name =>
      if !bv then .error .assertion
      else match name with
        | '#' :: 'x' :: d :: str => writeNumber res i 16 (d :: str)
        | '#' :: 'b' :: d :: str => writeNumber res i 2 (d :: str)
        | '#' :: _ :: _ :: _ => .error .abort
        | _ => .error .assertion
  | .list elems =>
      if !bv then .error .assertion
      else match elems with
        | [_, .token ('b' :: 'v' :: d :: str), _] => writeNumber res i 10 (d :: str)
        | _ => .error .assertion

def writePair (bv : Bool) (res : List ℕ) (i : ℕ) : SExpr → Except ModelFault (List ℕ)
  | .list [.token name, value] =>
      if name = 'e' :: numeral 10 i then writeValue bv res i value else .error .assertion
  | _ => .error .assertion

/-- `get_model`. Its vector is empty: space is reserved, but the vector is not resized. -/
def getModel (bv : Bool) (noVars : ℕ) (out : List Char) : Except ModelFault (List ℕ) :=
  match read (2 * out.length + 1) out with
  | some (.ok (.list elems, _)) => (List.range noVars).foldlM (fun res i =>
      match elems[i]? with
      | some e => writePair bv res i e
      | none => .error (.outOfRange i)) []
  | some (.error e) => .error (.parseError e)
  | _ => .error .assertion

end Nidhugg.SmtlibSatSolver
