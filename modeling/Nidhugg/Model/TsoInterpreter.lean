import Nidhugg.Library.LabelledRun
import Nidhugg.Model.StoreBuffer

/-! # Loads and stores under TSO

The interpreter and the trace builder each keep a store buffer of a thread. A thread that
must wait for its buffer is refused and made available again by its auxiliary thread. The
model follows one thread; the other threads appear only through their writes to memory. -/

namespace Nidhugg

open Youngest

/-- The contents of memory. -/
abbrev Memory := SymAddr → Byte

/-- `memcpy` to the bytes of a range. -/
def Memory.write (mem : Memory) (sd : SymData) : Memory := fun a =>
  if a.block = sd.ref.1.addr.block ∧ sd.ref.1.addr.offset ≤ a.offset then
    sd.block.1.getD (a.offset - sd.ref.1.addr.offset) (mem a)
  else mem a

/-- The bytes of a range. -/
def Memory.read (mem : Memory) (ml : SymAddrSize) : List Byte :=
  (List.range ml.size).map fun k => mem ⟨ml.addr.block, ml.addr.offset + k⟩

/-- `TSOThread` of the interpreter. -/
structure TsoThread where
  storeBuffer : List SymData
  /-- The buffer length at which the waiting thread is enabled, or `-1`. -/
  partialBufferFlush : ℤ

/-- What the trace builder keeps of the thread and its auxiliary thread. -/
structure TsoBuilderThread where
  storeBuffer : List PendingStore
  available : Bool
  auxAvailable : Bool

structure TsoState where
  mem : Memory
  thread : TsoThread
  builder : TsoBuilderThread

/-- The memory instructions of a thread. Stores that are sequentially consistent have fence
semantics. -/
inductive TsoInstruction where
  | store (sd : SymData)
  | atomicStore (sd : SymData)
  | load (ml : AccessRange)

namespace TsoState

/-- The state of a new thread. -/
def initial (mem : Memory) : TsoState :=
  ⟨mem, ⟨[], -1⟩, ⟨[], true, false⟩⟩

/-- The thread waits until its buffer has at most `flush` entries. `refuse_schedule` makes it
unavailable. -/
def refuse (s : TsoState) (flush : ℤ) : TsoState :=
  { s with
    thread := { s.thread with partialBufferFlush := flush }
    builder := { s.builder with available := false } }

/-- The state after the instruction is refused, if it is. -/
def checkRefuse (s : TsoState) : TsoInstruction → Option TsoState
  | .store _ => none
  | .atomicStore _ => if s.thread.storeBuffer.isEmpty then none else some (s.refuse 0)
  | .load ml => do
      let i ← youngest? (fun sd : SymData => ml.1.overlaps sd.ref.1) s.thread.storeBuffer
      let sd ← s.thread.storeBuffer[i]?
      if ml = sd.ref then none else some (s.refuse ((s.thread.storeBuffer.length : ℤ) - i - 1))

/-- The bytes that a load returns and whether they come from the buffer. The entry must have
the size of the load. -/
def visitLoadInst (s : TsoState) (ml : AccessRange) : Option (List Byte × Bool) :=
  match youngest? (fun sd : SymData => ml.1.addr = sd.ref.1.addr) s.thread.storeBuffer with
  | some i => do
      let sd ← s.thread.storeBuffer[i]?
      if ml.1.size = sd.ref.1.size then some (sd.block.1, true) else none
  | none => some (s.mem.read ml.1, false)

/-- `TSOTraceBuilder::do_load` as far as it concerns the store buffer. -/
def builderLoad (s : TsoState) (ml : AccessRange) (prefixIdx : ℕ) : TsoState :=
  match PendingStore.rowe? s.builder.storeBuffer ml.1 with
  | some i => { s with builder.storeBuffer := PendingStore.setRowe s.builder.storeBuffer i prefixIdx }
  | none => s

/-- An instruction that was not refused. -/
def visit (s : TsoState) (prefixIdx : ℕ) : TsoInstruction → Option TsoState
  | .store sd => some { s with
      thread.storeBuffer := s.thread.storeBuffer ++ [sd]
      builder.storeBuffer := s.builder.storeBuffer ++ [⟨sd.ref.1, prefixIdx, none⟩]
      builder.auxAvailable := true }
  | .atomicStore sd =>
      if s.thread.storeBuffer.isEmpty && s.builder.storeBuffer.isEmpty then
        some { s with mem := s.mem.write sd }
      else none
  | .load ml => (s.visitLoadInst ml).map fun _ => s.builderLoad ml prefixIdx

/-- One turn of the thread. -/
def execute (s : TsoState) (prefixIdx : ℕ) (i : TsoInstruction) : Option TsoState :=
  if s.builder.available then
    match s.checkRefuse i with
    | some t => some t
    | none => s.visit prefixIdx i
  else none

/-- The auxiliary thread performs an update from the store buffer to memory. -/
def runAux (s : TsoState) : Option TsoState :=
  match s.thread.storeBuffer, s.builder.storeBuffer with
  | sd :: rest, _ :: builderRest =>
      let flushed : Bool := (rest.length : ℤ) ≤ s.thread.partialBufferFlush
      if s.builder.auxAvailable then
        some
          { mem := s.mem.write sd
            thread := ⟨rest, if flushed then -1 else s.thread.partialBufferFlush⟩
            builder := ⟨builderRest, s.builder.available || flushed,
              !rest.isEmpty && !builderRest.isEmpty⟩ }
      else none
  | _, _ => none

end TsoState

/-- A turn of the thread, of its auxiliary thread, or a write by another thread. -/
inductive TsoTurn where
  | execute (prefixIdx : ℕ) (i : TsoInstruction)
  | runAux
  | other (sd : SymData)

def TsoState.step (s : TsoState) : TsoTurn → Option TsoState
  | .execute prefixIdx i => s.execute prefixIdx i
  | .runAux => s.runAux
  | .other sd => some { s with mem := s.mem.write sd }

end Nidhugg
