import Mathlib.Data.Nat.Notation
import Mathlib.Logic.Function.Basic

/-! # Read-modify-write actions

The effect of an atomic read-modify-write on the bytes of its address, as the interpreter
replays it. The byte order of the host is a parameter. -/

namespace Nidhugg

abbrev Byte := BitVec 8

/-- A string of `n` bytes in address order. -/
abbrev Bytes (n : ℕ) := { xs : List Byte // xs.length = n }

def Bytes.of (xs : List Byte) : Bytes xs.length := ⟨xs, rfl⟩

inductive RmwKind where
  | xchg
  | add
  | sub
  | and
  | nand
  | or
  | xor
  | max
  | min
  | umax
  | umin
deriving DecidableEq, Repr

structure RmwAction (n : ℕ) where
  operand : Bytes n
  kind : RmwKind
  resultUsed : Bool
deriving DecidableEq

namespace RmwAction

/-- The bytes from the least significant to the most significant one. -/
def leastFirst (bigEndian : Bool) (xs : List Byte) : List Byte :=
  if bigEndian then xs.reverse else xs

/-- The bytes from the most significant to the least significant one. -/
def mostFirst (bigEndian : Bool) (xs : List Byte) : List Byte :=
  if bigEndian then xs else xs.reverse

def memcmp : List Byte → List Byte → Ordering
  | l :: ls, r :: rs => if r < l then .gt else if l < r then .lt else memcmp ls rs
  | _, _ => .eq

/-- Compares two unsigned numbers. -/
def apcmp (bigEndian : Bool) (lhs rhs : List Byte) : Ordering :=
  memcmp (mostFirst bigEndian lhs) (mostFirst bigEndian rhs)

/-- The sign of a number in two's complement. -/
def signBit (bigEndian : Bool) (xs : List Byte) : Bool :=
  match mostFirst bigEndian xs with
  | [] => false
  | x :: _ => x.msb

/-- Compares two numbers in two's complement. -/
def sapcmp (bigEndian : Bool) (lhs rhs : List Byte) : Ordering :=
  let lsign := signBit bigEndian lhs
  let rsign := signBit bigEndian rhs
  if lsign ≠ rsign then (if lsign then .lt else .gt) else apcmp bigEndian lhs rhs

/-- One byte of the addition or subtraction: the result and the carry into the next byte.
The sum is a 16-bit word and the carry a signed byte. -/
def carryByte (kind : RmwKind) (carry inp arg : Byte) : Byte × Byte :=
  let sum : BitVec 16 :=
    if kind = .add then inp.setWidth 16 + arg.setWidth 16 + carry.signExtend 16
    else inp.setWidth 16 - arg.setWidth 16 + carry.signExtend 16
  (sum.setWidth 8, (sum >>> 8).setWidth 8)

def carryLoop (kind : RmwKind) (carry : Byte) : List Byte → List Byte → List Byte
  | inp :: inps, arg :: args =>
      (carryByte kind carry inp arg).1 ::
        carryLoop kind (carryByte kind carry inp arg).2 inps args
  | _, _ => []

/-- Whether a minimum or maximum is the operand. -/
def takeRhs (bigEndian : Bool) (kind : RmwKind) (data operand : List Byte) : Bool :=
  let isSigned := kind = .max || kind = .min
  let out := (if isSigned then sapcmp else apcmp) bigEndian data operand
  let greater := out == .gt
  if kind = .max || kind = .umax then !greater else greater

/-- The bytes that `apply_to` writes for input `data`. -/
def result (bigEndian : Bool) (kind : RmwKind) (data operand : List Byte) : List Byte :=
  match kind with
  | .add | .sub =>
      leastFirst bigEndian
        (carryLoop kind 0 (leastFirst bigEndian data) (leastFirst bigEndian operand))
  | .and => List.zipWith (fun lhs rhs => lhs &&& rhs) data operand
  | .nand => List.zipWith (fun lhs rhs => ~~~(lhs &&& rhs)) data operand
  | .or => List.zipWith (fun lhs rhs => lhs ||| rhs) data operand
  | .xor => List.zipWith (fun lhs rhs => lhs ^^^ rhs) data operand
  | .max | .min | .umax | .umin => if takeRhs bigEndian kind data operand then operand else data
  | .xchg => operand

theorem length_leastFirst (bigEndian : Bool) (xs : List Byte) :
    (leastFirst bigEndian xs).length = xs.length := by
  cases bigEndian <;> simp [leastFirst]

theorem length_carryLoop (kind : RmwKind) (carry : Byte) (xs ys : List Byte) :
    (carryLoop kind carry xs ys).length = min xs.length ys.length := by
  induction xs generalizing carry ys with
  | nil => simp [carryLoop]
  | cons x xs ih =>
      cases ys with
      | nil => simp [carryLoop]
      | cons y ys => simp [carryLoop, ih]

theorem length_result (bigEndian : Bool) (kind : RmwKind) {data operand : List Byte}
    (h : operand.length = data.length) :
    (result bigEndian kind data operand).length = data.length := by
  cases kind with
  | add | sub => simp [result, length_leastFirst, length_carryLoop, h]
  | and | nand | or | xor => simp [result, h]
  | max | min | umax | umin =>
      simp only [result]
      split
      · exact h
      · rfl
  | xchg => exact h

/-- `apply_to` on memory that holds `data`. -/
def applyTo {n : ℕ} (bigEndian : Bool) (action : RmwAction n) (data : Bytes n) : Bytes n :=
  ⟨result bigEndian action.kind data.1 action.operand.1, by
    rw [length_result bigEndian action.kind (by rw [action.operand.2, data.2]), data.2]⟩

end RmwAction

/-- The options of a run that the trace builders read. -/
structure Configuration where
  commuteRmws : Bool
deriving DecidableEq, Repr

def rmwactionCommutes (conf : Configuration) (lhs : RmwKind) (lhsUsed : Bool) (rhs : RmwKind)
    (rhsUsed : Bool) : Bool :=
  if !conf.commuteRmws then false
  else if lhsUsed || rhsUsed then false
  else match lhs with
    | .add | .sub => rhs = .add || rhs = .sub
    | .xchg => false
    | _ => rhs = lhs

end Nidhugg

/-! # Read-modify-writes on buffers

`apply_to` as it runs over the memory of the host: the output may be the input itself, so a loop
overwrites bytes of its input while it runs. The operand has a block of its own. -/

namespace Nidhugg.RmwAction

/-- The memory of the host. -/
abbrev Memory := ℕ → Byte

/-- Where the pointers of the carry loop are after `i` steps. -/
def position (bigEndian : Bool) (size i : ℕ) : ℕ := if bigEndian then size - 1 - i else i

/-- One round of the carry loop, on the memory and the carry. -/
def carryRound (bigEndian : Bool) (kind : RmwKind) (size : ℕ) (argp : List Byte) (outp inp : ℕ)
    (st : Memory × Byte) (i : ℕ) : Memory × Byte :=
  let p := position bigEndian size i
  let sum := carryByte kind st.2 (st.1 (inp + p)) (argp.getD p 0)
  (Function.update st.1 (outp + p) sum.1, sum.2)

/-- One round of a loop that computes byte `i` from byte `i` of the input. -/
def byteRound (f : ℕ → Byte → Byte) (outp inp : ℕ) (memory : Memory) (i : ℕ) : Memory :=
  Function.update memory (outp + i) (f i (memory (inp + i)))

def bitwise (kind : RmwKind) (lhs rhs : Byte) : Byte :=
  match kind with
  | .and => lhs &&& rhs
  | .nand => ~~~(lhs &&& rhs)
  | .or => lhs ||| rhs
  | _ => lhs ^^^ rhs

/-- `memcpy` of the operand or of the input. -/
def copyRound (argp : List Byte) (takeRhs : Bool) (i : ℕ) (inp : Byte) : Byte :=
  if takeRhs then argp.getD i 0 else inp

def bytesAt (memory : Memory) (ptr size : ℕ) : List Byte :=
  (List.range size).map fun i => memory (ptr + i)

/-- `apply_to` from the buffer at `data` to the buffer at `dst`. -/
def applyToBuffer (bigEndian : Bool) (kind : RmwKind) (size : ℕ) (argp : List Byte)
    (dst data : ℕ) (memory : Memory) : Memory :=
  match kind with
  | .add | .sub =>
      ((List.range size).foldl (carryRound bigEndian kind size argp dst data) (memory, 0)).1
  | .and | .nand | .or | .xor =>
      (List.range size).foldl
        (byteRound (fun i lhs => bitwise kind lhs (argp.getD i 0)) dst data) memory
  | .max | .min | .umax | .umin =>
      let take := takeRhs bigEndian kind (bytesAt memory data size) argp
      (List.range size).foldl (byteRound (copyRound argp take) dst data) memory
  | .xchg => (List.range size).foldl (byteRound (copyRound argp true) dst data) memory

end Nidhugg.RmwAction
