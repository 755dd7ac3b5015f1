import Nidhugg.Library.Numerals

/-! # S-expressions

The answers of an SMT solver, as `SExpr` prints and reads them. A stream is the list of the
characters that are left. -/

namespace Nidhugg

open Numerals

inductive SExpr where
  | token (name : List Char)
  | int (value : ℤ)
  | list (elems : List SExpr)

namespace SExpr

/-- `std::isspace` -/
def isSpace (c : Char) : Bool := c = ' ' || ('\t' ≤ c && c ≤ '\r')

/-- `endoftok` -/
def endOfTok (c : Char) : Bool := isSpace c || c = ')' || c = '('

/-! ### Numbers -/

/-- The sign of a number: whether it is negative, and what follows. -/
def sign : List Char → Bool × List Char
  | '-' :: str => (true, str)
  | '+' :: str => (false, str)
  | str => (false, str)

/-- The prefix that `strtol` skips in base 16, if a digit follows it. -/
def skipPrefix (base : ℕ) (str : List Char) : List Char :=
  match str with
  | '0' :: x :: d :: rest =>
      if base = 16 && (x = 'x' || x = 'X') && isDigit base d then d :: rest else str
  | _ => str

/-- A `long` that is not less or more than its type can hold. -/
def clampLong (value : ℤ) : ℤ := max (-2 ^ 63) (min (2 ^ 63 - 1) value)

/-- `std::strtol`: the number at the beginning of a string, and the end of that number. -/
def strtol (base : ℕ) (str : List Char) : ℤ × List Char :=
  let (negative, unsigned) := sign (str.dropWhile isSpace)
  let unsigned := skipPrefix base unsigned
  let digits := unsigned.takeWhile (isDigit base)
  if digits.isEmpty then (0, str)
  else (clampLong (if negative then -value base digits else value base digits),
    unsigned.drop digits.length)

/-- An `int` that a `long` is assigned to. -/
def toInt (value : ℤ) : ℤ := value.bmod (2 ^ 32)

def printInt (value : ℤ) : List Char :=
  if value < 0 then '-' :: numeral 10 value.natAbs else numeral 10 value.natAbs

/-! ### Printing -/

mutual

/-- `operator<<` -/
def print : SExpr → List Char
  | .token name => name
  | .int value => printInt value
  | .list elems => '(' :: (printElems elems ++ [')'])

/-- The elements of a list, with spaces between them. -/
def printElems : List SExpr → List Char
  | [] => []
  | e :: elems => e.print ++ printRest elems

def printRest : List SExpr → List Char
  | [] => []
  | e :: elems => ' ' :: (e.print ++ printRest elems)

end

/-! ### Reading -/

/-- The messages of `parse_error`. -/
inductive ParseError where
  | gotEof
  | unmatchedClosingParen
deriving DecidableEq

def ParseError.message : ParseError → String
  | .gotEof => "Got EOF"
  | .unmatchedClosingParen => "Unmatched closing paren"

/-- A number or a token. The character after it is put back. At the end of the stream there is none,
and the flags of the stream, which the model leaves out, then record a failed read. -/
def readAtom (is : List Char) : SExpr × List Char :=
  let str := is.takeWhile fun c => !endOfTok c
  let (num, rest) := strtol 10 str
  (if rest.isEmpty then .int (toInt num) else .token str, is.drop str.length)

mutual

/-- `operator>>`, with a bound for the number of calls and turns of loops. -/
def read : ℕ → List Char → Option (Except ParseError (SExpr × List Char))
  | 0, _ => none
  | turns + 1, is =>
      match is.dropWhile isSpace with
      | [] => some (.error .gotEof)
      | ')' :: _ => some (.error .unmatchedClosingParen)
      | '(' :: is => (readElems turns is).map fun result =>
          result.map fun (elems, is) => (.list elems, is)
      | is => some (.ok (readAtom is))

/-- The elements of a list up to the closing parenthesis. -/
def readElems : ℕ → List Char → Option (Except ParseError (List SExpr × List Char))
  | 0, _ => none
  | turns + 1, is =>
      match is.dropWhile isSpace with
      | ')' :: is => some (.ok ([], is))
      | is => (read turns is).bind fun
          | .error e => some (.error e)
          | .ok (e, is) => (readElems turns is).map fun result =>
              result.map fun (elems, is) => (e :: elems, is)

end

end SExpr

end Nidhugg
