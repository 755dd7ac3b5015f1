import Mathlib.Data.Int.Notation
import Nidhugg.Model.VecSet

/-! # Accesses of POWER and ARM events

An event loads from and stores to ranges of memory. Their addresses and data become known one after
the other, and `register_addr` and `register_data` keep the accesses to single bytes up to date. The
prefix of a thread's events with known addresses is left out. -/

namespace Nidhugg.PowerArmAccesses

structure MRef where
  ref : ℕ
  size : ℕ
deriving DecidableEq, Repr

def MRef.includes (r : MRef) (p : ℕ) : Bool := r.ref ≤ p && p < r.ref + r.size

/-- The bytes of a memory block. A block that is stored has as many bytes as its address. -/
abbrev MBlock := List UInt8

inductive AccessType where
  | load
  | store
deriving DecidableEq, Repr

structure Access where
  type : AccessType
  addr : MRef
  data : MBlock
  addrKnown : Bool
  dataKnown : Bool
deriving DecidableEq, Repr

structure ByteAccess where
  type : AccessType
  addr : ℕ
  data : UInt8
  dataKnown : Bool
deriving DecidableEq, Repr

/-- The loads come first among the accesses. -/
structure Event where
  loadCount : ℕ
  accesses : List Access
  baccesses : List ByteAccess
  accessTgts : List ℕ
  unknownAddrCount : ℤ
  unknownDataCount : ℤ
deriving DecidableEq, Repr

/-- An access whose address and data are not known. -/
def Access.new (type : AccessType) : Access := ⟨type, ⟨0, 1⟩, [], false, false⟩

/-- An event that has been fetched. -/
def Event.new (loadCount storeCount : ℕ) : Event where
  loadCount := loadCount
  accesses := List.replicate loadCount (.new .load) ++ List.replicate storeCount (.new .store)
  baccesses := []
  accessTgts := []
  unknownAddrCount := loadCount + storeCount
  unknownDataCount := storeCount

namespace Event

variable (evt : Event)

/-- The address of an access is known, and it includes the byte. -/
def covers (j p : ℕ) : Bool :=
  match evt.accesses[j]? with
  | some access => access.addrKnown && access.addr.includes p
  | none => false

/-- The last other store to a byte, from the end of the accesses on. -/
def lastOther (a p : ℕ) : ℕ → Option ℕ
  | 0 => none
  | j + 1 =>
      if j < evt.loadCount then none
      else if j ≠ a && evt.covers j p then some j
      else lastOther a p j

/-- Writes the data of the first store to a byte. There must be one. -/
def updateData (p : ℕ) (d : UInt8) : List ByteAccess → Option (List ByteAccess)
  | [] => none
  | b :: baccesses =>
      if b.type = .store && b.addr = p then
        some ({ b with data := d, dataKnown := true } :: baccesses)
      else (updateData p d baccesses).map (b :: ·)

/-- The byte accesses for byte `i` of an access whose address has become known. -/
def addByte (a : ℕ) (access : Access) (i : ℕ) : Option (List ByteAccess) :=
  let p := access.addr.ref + i
  match access.type with
  | .load =>
      if (List.range evt.loadCount).any fun j => j ≠ a && evt.covers j p then some evt.baccesses
      else some (evt.baccesses ++ [⟨.load, p, 0, false⟩])
  | .store =>
      let d := access.data.getD i 0
      match evt.lastOther a p evt.accesses.length with
      | none =>
          some (evt.baccesses ++
            [if access.dataKnown then ⟨.store, p, d, true⟩ else ⟨.store, p, 0, false⟩])
      | some j =>
          -- this store overwrites the previous one, or a later store overwrites it
          if j < a then
            if access.dataKnown then updateData p d evt.baccesses else some evt.baccesses
          else some evt.baccesses

def registerAddrByte (a : ℕ) (evt : Event) (i : ℕ) : Option Event := do
  let access ← evt.accesses[a]?
  let baccesses ← evt.addByte a access i
  return { evt with
    baccesses := baccesses
    accessTgts := VecSet.insert (· < ·) evt.accessTgts (access.addr.ref + i) }

/-- `register_addr`. It asserts that the address is not known. -/
def registerAddr (a : ℕ) (addr : MRef) : Option Event := do
  let access ← evt.accesses[a]?
  if access.addrKnown then none
  else
    (List.range addr.size).foldlM (registerAddrByte a) { evt with
      accesses := evt.accesses.set a { access with addr := addr, addrKnown := true }
      unknownAddrCount := evt.unknownAddrCount - 1 }

def registerDataByte (a : ℕ) (evt : Event) (i : ℕ) : Option Event := do
  let access ← evt.accesses[a]?
  let p := access.addr.ref + i
  if (List.range evt.accesses.length).any fun j => a < j && evt.covers j p then return evt
  else
    let baccesses ← updateData p (access.data.getD i 0) evt.baccesses
    return { evt with baccesses := baccesses }

/-- `register_data`. It asserts that the access is a store whose data is not known. -/
def registerData (a : ℕ) (data : MBlock) : Option Event := do
  let access ← evt.accesses[a]?
  if a < evt.loadCount || access.type ≠ .store || access.dataKnown then none
  else
    let evt := { evt with
      accesses := evt.accesses.set a { access with data := data, dataKnown := true }
      unknownDataCount := evt.unknownDataCount - 1 }
    if access.addrKnown then (List.range access.addr.size).foldlM (registerDataByte a) evt
    else return evt

end Event

/-- A call for an access, which is registered with its address or its data. -/
inductive Call where
  | addr (a : ℕ)
  | data (a : ℕ)
deriving DecidableEq

def register (addrOf : ℕ → MRef) (dataOf : ℕ → MBlock) (evt : Event) : Call → Option Event
  | .addr a => evt.registerAddr a (addrOf a)
  | .data a => evt.registerData a (dataOf a)

end Nidhugg.PowerArmAccesses
