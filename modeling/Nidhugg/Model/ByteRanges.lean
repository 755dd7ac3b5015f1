import Nidhugg.Model.Basic
import Nidhugg.Model.RmwAction

/-! # Ranges of bytes

`SymAddrSize` with fields of a fixed width, and the loads of a dry run, which go through the pending
stores of the dry run. -/

namespace Nidhugg.ByteRanges

open RmwAction

/-- `SymAddr`. -/
structure SymAddr where
  block : SymMBlock
  offset : UInt32
deriving DecidableEq, Repr

namespace SymAddr

/-- `operator++`. -/
def increment (a : SymAddr) : SymAddr := { a with offset := a.offset + 1 }

/-- `operator+`. The addend is wider than the offset. -/
def add (a : SymAddr) (addend : UInt64) : SymAddr :=
  { a with offset := (a.offset.toUInt64 + addend).toUInt32 }

end SymAddr

/-- `SymAddrSize`. -/
structure SymAddrSize where
  addr : SymAddr
  size : UInt16
deriving DecidableEq, Repr

namespace SymAddrSize

def subsetof (x other : SymAddrSize) : Bool :=
  if x.addr.block ≠ other.addr.block then false
  else
    let thisLow := x.addr.offset.toUInt64
    let thisHigh := thisLow + x.size.toUInt64
    let otherLow := other.addr.offset.toUInt64
    let otherHigh := otherLow + other.size.toUInt64
    thisLow ≥ otherLow && thisHigh ≤ otherHigh

def overlaps (x other : SymAddrSize) : Bool :=
  if x.addr.block ≠ other.addr.block then false
  else
    let thisLow := x.addr.offset.toUInt64
    let thisHigh := thisLow + x.size.toUInt64
    let otherLow := other.addr.offset.toUInt64
    let otherHigh := otherLow + other.size.toUInt64
    otherLow < thisHigh && thisLow < otherHigh

/-- The sum has 32 bits, as the size is promoted to the type of the offset. -/
def includes (x : SymAddrSize) (sa : SymAddr) : Bool :=
  x.addr.block = sa.block && x.addr.offset ≤ sa.offset &&
    x.addr.offset + x.size.toUInt32 > sa.offset

def begin (x : SymAddrSize) : SymAddr := x.addr

/-- `end`. -/
def finish (x : SymAddrSize) : SymAddr := x.addr.add x.size.toUInt64

/-- The addresses from an iterator up to another one, which is not reached if there is not enough
fuel. -/
def visit (last : SymAddr) : ℕ → SymAddr → Option (List SymAddr)
  | 0, _ => none
  | fuel + 1, it =>
      if it ≠ last then (visit last fuel it.increment).map (it :: ·) else some []

/-- A loop over all addresses of a range. -/
def iterate (x : SymAddrSize) (fuel : ℕ) : Option (List SymAddr) := visit x.finish fuel x.begin

end SymAddrSize

/-- `SymData`. -/
structure SymData where
  ref : SymAddrSize
  block : List Byte
  fits : ref.size.toNat ≤ block.length

/-- The loop over the offsets that a store and a load have in common. -/
def overwrite (sd : SymData) (srcSas : SymAddrSize) (last o : UInt32) (buf : List Byte) :
    List Byte :=
  if o < last then
    overwrite sd srcSas last (o + 1)
      (buf.set (o - srcSas.addr.offset).toNat
        (sd.block.getD (o - sd.ref.addr.offset).toNat 0))
  else buf
termination_by last.toNat - o.toNat
decreasing_by
  have hlt := UInt32.lt_iff_toNat_lt.mp ‹o < last›
  have hmax := last.toNat_lt
  rw [UInt32.toNat_add, UInt32.toNat_one, Nat.mod_eq_of_lt (by omega)]
  omega

/-- A turn of the loop over `DryRunMem`. -/
def overwriteWith (srcSas : SymAddrSize) (buf : List Byte) (sd : SymData) : List Byte :=
  if !sd.ref.overlaps srcSas then buf
  else
    let start := max sd.ref.addr.offset srcSas.addr.offset
    let last := min (sd.ref.addr.offset + sd.ref.size.toUInt32)
      (srcSas.addr.offset + srcSas.size.toUInt32)
    overwrite sd srcSas last start buf

/-- `DryRunLoadValueFromMemory`. The value is decoded by `LoadValueFromMemory`. -/
def dryRunLoadValueFromMemory {α : Type} (loadValueFromMemory : List Byte → α)
    (memory : ℕ → Byte) (src : ℕ) (srcSas : SymAddrSize) (dryRunMem : List SymData) : α :=
  let buf := (List.range srcSas.size.toNat).map fun i => memory (src + i)
  loadValueFromMemory (dryRunMem.foldl (overwriteWith srcSas) buf)

end Nidhugg.ByteRanges
