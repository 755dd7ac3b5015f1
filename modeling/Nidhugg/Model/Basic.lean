import Mathlib.Algebra.Group.Nat.Defs
import Mathlib.Logic.Function.Basic

/-! # Identifiers and symbolic addresses

The small value types shared by the trace builders: event identifiers and symbolic
memory addresses. -/

namespace Nidhugg

/-- The event number `index` of process `pid`. Indices start at one. -/
structure IID where
  pid : ℕ
  index : ℕ
deriving DecidableEq, Repr, Inhabited

/-- A symbolic memory block. A `pid` of `2^16 - 1` marks a global block, and stack
blocks have a negative `alloc`. -/
structure SymMBlock where
  pid : ℕ
  alloc : ℤ
deriving DecidableEq, Repr, Inhabited

def SymMBlock.global (no : ℕ) : SymMBlock := ⟨2 ^ 16 - 1, no⟩

def SymMBlock.stack (pid no : ℕ) : SymMBlock := ⟨pid, -1 - no⟩

def SymMBlock.heap (pid no : ℕ) : SymMBlock := ⟨pid, no⟩

/-- A byte of a symbolic block. -/
structure SymAddr where
  block : SymMBlock
  offset : ℕ
deriving DecidableEq, Repr, Inhabited

/-- The offset is a 32-bit field, so address arithmetic wraps. -/
def SymAddr.add (a : SymAddr) (addend : ℕ) : SymAddr :=
  { a with offset := (a.offset + addend) % 2 ^ 32 }

/-- A range of `size` bytes that starts at `addr`. -/
structure SymAddrSize where
  addr : SymAddr
  size : ℕ
deriving DecidableEq, Repr, Inhabited

/-- The bytes visited by iterating from `begin()` to `end()`. -/
def SymAddrSize.bytes (ml : SymAddrSize) : List SymAddr :=
  (List.range ml.size).map ml.addr.add

def SymAddrSize.overlaps (a b : SymAddrSize) : Bool :=
  a.addr.block = b.addr.block && b.addr.offset < a.addr.offset + a.size &&
    a.addr.offset < b.addr.offset + b.size

end Nidhugg
