import Nidhugg.Model.PsoTraceBuilder
import Nidhugg.Model.TsoInterpreter

/-! # Loads and stores under PSO

The interpreter and the trace builder each keep one buffer for every byte that a thread has
pending stores to. The model follows one thread and its auxiliary threads; the other threads
appear only through their writes to memory. The builder's bookkeeping of clocks and of loads that
read early is left out. -/

namespace Nidhugg

/-- The bytes of a range. A range does not go beyond the last offset of its block. -/
def AccessRange.bytes (ml : AccessRange) : List SymAddr :=
  (List.range ml.1.size).map fun k => ⟨ml.1.addr.block, ml.1.addr.offset + k⟩

/-- `std::map<SymAddr,std::vector<α>>`. Buffers that become empty are erased. -/
structure ByteBuffers (α : Type) where
  keys : List SymAddr
  get : SymAddr → List α

namespace ByteBuffers

variable {α : Type}

def empty : ByteBuffers α := ⟨[], fun _ => []⟩

def push (buffers : ByteBuffers α) (b : SymAddr) (x : α) : ByteBuffers α :=
  ⟨if b ∈ buffers.keys then buffers.keys else b :: buffers.keys,
    Function.update buffers.get b (buffers.get b ++ [x])⟩

def pop (buffers : ByteBuffers α) (b : SymAddr) : ByteBuffers α :=
  let rest := (buffers.get b).tail
  ⟨if rest.isEmpty then buffers.keys.filter (· ≠ b) else buffers.keys,
    Function.update buffers.get b rest⟩

/-- Pushes to the buffers of all bytes of a range. -/
def pushRange (buffers : ByteBuffers α) (ml : AccessRange) (x : SymAddr → α) : ByteBuffers α :=
  ml.bytes.foldl (fun buffers b => buffers.push b (x b)) buffers

def popRange (buffers : ByteBuffers α) (ml : AccessRange) : ByteBuffers α :=
  ml.bytes.foldl pop buffers

end ByteBuffers

/-- The numbering of auxiliary threads by the addresses at which stores start. -/
structure AuxNumbering where
  auxToByte : List SymAddr
  byteToAux : SymAddr → Option ℕ

def AuxNumbering.empty : AuxNumbering := ⟨[], fun _ => none⟩

/-- Gives a number to an address that has none. -/
def AuxNumbering.add (numbering : AuxNumbering) (b : SymAddr) : AuxNumbering :=
  match numbering.byteToAux b with
  | some _ => numbering
  | none => ⟨numbering.auxToByte ++ [b],
      Function.update numbering.byteToAux b (some numbering.auxToByte.length)⟩

/-- `PendingStoreByte` of the interpreter. -/
structure PendingByte where
  ml : AccessRange
  val : Byte
deriving DecidableEq

inductive BufferFlush where
  | no
  | full
  /-- The thread waits until it can load `buffer_flush_ml`. -/
  | loadable (ml : AccessRange)
deriving DecidableEq

/-- `PSOThread` of the interpreter. -/
structure PsoInterpreterThread where
  aux : AuxNumbering
  storeBuffers : ByteBuffers PendingByte
  awaitingBufferFlush : BufferFlush

namespace PsoInterpreterThread

def readable (thread : PsoInterpreterThread) (ml : AccessRange) : Bool :=
  ml.bytes.all fun b => (thread.storeBuffers.get b).getLast?.all fun pst => pst.ml = ml

def allBuffersEmpty (thread : PsoInterpreterThread) : Bool := thread.storeBuffers.keys.isEmpty

end PsoInterpreterThread

/-- What the trace builder keeps of the thread and its auxiliary threads. -/
structure PsoBuilderThread where
  aux : AuxNumbering
  storeBuffers : ByteBuffers AccessRange
  available : Bool
  auxAvailable : ℕ → Bool

namespace PsoBuilderThread

/-- `PSOTraceBuilder::store` -/
def store (builder : PsoBuilderThread) (ml : AccessRange) : PsoBuilderThread :=
  let aux := builder.aux.add ml.1.addr
  { builder with
    aux := aux
    storeBuffers := builder.storeBuffers.pushRange ml fun _ => ml
    auxAvailable := match aux.byteToAux ml.1.addr with
      | some k => Function.update builder.auxAvailable k true
      | none => builder.auxAvailable }

/-- `is_aux_at_head` -/
def isAuxAtHead (builder : PsoBuilderThread) (k : ℕ) : Bool :=
  builder.aux.auxToByte[k]?.any fun b0 =>
    (builder.storeBuffers.get b0).head?.any fun ml =>
      ml.bytes.all fun b => b = b0 || (builder.storeBuffers.get b).head?.any fun front =>
        front.1.addr = b0

/-- `PSOTraceBuilder::atomic_store` by an auxiliary thread. Its assertion fails if the range is
not the oldest one at its address. -/
def update (builder : PsoBuilderThread) (k : ℕ) (ml : AccessRange) : Option PsoBuilderThread :=
  if (builder.storeBuffers.get ml.1.addr).head? = some ml then
    some { builder with
      storeBuffers := builder.storeBuffers.popRange ml
      auxAvailable := Function.update builder.auxAvailable k
        (builder.auxAvailable k && ml.bytes.all fun b => 1 < (builder.storeBuffers.get b).length) }
  else none

end PsoBuilderThread

/-- The memory instructions of a thread. Stores that are sequentially consistent have fence
semantics. -/
inductive PsoInstruction where
  | store (sd : SymData)
  | atomicStore (sd : SymData)
  | load (ml : AccessRange)
deriving DecidableEq

structure PsoState where
  mem : Memory
  thread : PsoInterpreterThread
  builder : PsoBuilderThread
  /-- The next instruction of the thread, once it has been refused or run dry. -/
  next : Option PsoInstruction

namespace PsoState

/-- The state of a new thread. -/
def initial (mem : Memory) : PsoState :=
  ⟨mem, ⟨.empty, .empty, .no⟩, ⟨.empty, .empty, true, fun _ => false⟩, none⟩

/-- The thread waits for its buffers. `refuse_schedule` makes it unavailable. -/
def refuse (s : PsoState) (flush : BufferFlush) : PsoState :=
  { s with thread.awaitingBufferFlush := flush, builder.available := false }

/-- The state after the instruction is refused, if it is. -/
def checkRefuse (s : PsoState) : PsoInstruction → Option PsoState
  | .store _ => none
  | .atomicStore _ => if s.thread.allBuffersEmpty then none else some (s.refuse .full)
  | .load ml => if s.thread.readable ml then none else some (s.refuse (.loadable ml))

/-- The bytes that a load returns. If the first byte is pending, the youngest entries of all bytes
must have the range of the load. -/
def visitLoadInst (s : PsoState) (ml : AccessRange) : Option (List Byte) :=
  if ml.1.addr ∈ s.thread.storeBuffers.keys then
    ml.bytes.mapM fun b => do
      let pst ← (s.thread.storeBuffers.get b).getLast?
      if pst.ml = ml then some pst.val else none
  else some (s.mem.read ml.1)

/-- A store to the buffers. The interpreter numbers the auxiliary thread before it calls the trace
builder, which does nothing in a dry run. -/
def visitStoreInst (s : PsoState) (sd : SymData) (dryRun : Bool) : PsoState :=
  let s := { s with thread.aux := s.thread.aux.add sd.ref.1.addr }
  if dryRun then s
  else { s with
    builder := s.builder.store sd.ref
    thread.storeBuffers := s.thread.storeBuffers.pushRange sd.ref fun b =>
      ⟨sd.ref, sd.block.1.getD (b.offset - sd.ref.1.addr.offset) 0⟩ }

/-- An instruction that was not refused. -/
def visit (s : PsoState) : PsoInstruction → Option PsoState
  | .store sd => some (s.visitStoreInst sd false)
  | .atomicStore sd =>
      if s.thread.allBuffersEmpty && s.builder.storeBuffers.keys.isEmpty then
        some { s with mem := s.mem.write sd }
      else none
  | .load ml => (s.visitLoadInst ml).map fun _ => s

/-- One turn of the thread. -/
def execute (s : PsoState) (i : PsoInstruction) : Option PsoState :=
  if s.builder.available && s.next.all (· = i) then
    match s.checkRefuse i with
    | some t => some { t with next := some i }
    | none => (s.visit i).map fun t => { t with next := none }
  else none

/-- A dry run of the next instruction. Only instructions that were executed in the same state
before are run dry, so they are not refused. Stores of a sequentially consistent kind and loads
change nothing. -/
def dryRun (s : PsoState) (i : PsoInstruction) : Option PsoState :=
  if s.next.all (· = i) && (s.checkRefuse i).isNone then
    match i with
    | .store sd => some { s.visitStoreInst sd true with next := some i }
    | .atomicStore _ | .load _ => some { s with next := some i }
  else none

/-- The range of the oldest store at the address of an auxiliary thread. The assertions of `runAux`
say that it starts there and is the oldest one for all its bytes. -/
def auxRange (s : PsoState) (k : ℕ) : Option AccessRange := do
  let b0 ← s.thread.aux.auxToByte[k]?
  let front ← (s.thread.storeBuffers.get b0).head?
  if front.ml.1.addr = b0 && front.ml.bytes.all fun b =>
      (s.thread.storeBuffers.get b).head?.any fun pst => pst.ml = front.ml then
    some front.ml
  else none

/-- The values of the oldest stores to the bytes of a range. -/
def oldestData (s : PsoState) (ml : AccessRange) : SymData where
  ref := ml
  block := ⟨ml.bytes.map fun b => ((s.thread.storeBuffers.get b).head?.map (·.val)).getD 0, by
    simp [AccessRange.bytes]⟩

/-- Whether an update re-enables the thread. -/
def enables (thread : PsoInterpreterThread) (ml : AccessRange) : Bool :=
  match thread.awaitingBufferFlush with
  | .no => false
  | .full => thread.allBuffersEmpty
  | .loadable flush => ml.1.overlaps flush.1 && thread.readable flush

/-- An auxiliary thread performs its oldest store. -/
def runAux (s : PsoState) (k : ℕ) : Option PsoState := do
  let ml ← s.auxRange k
  let builder ← s.builder.update k ml
  let thread := { s.thread with storeBuffers := s.thread.storeBuffers.popRange ml }
  return { s with
    mem := s.mem.write (s.oldestData ml)
    thread := { thread with
      awaitingBufferFlush := if enables thread ml then .no else thread.awaitingBufferFlush }
    builder := { builder with available := builder.available || enables thread ml } }

end PsoState

/-- A turn of the thread, a dry run, a turn of an auxiliary thread that is available and at the
head of its buffers, or a write by another thread. -/
inductive PsoTurn where
  | execute (i : PsoInstruction)
  | dryRun (i : PsoInstruction)
  | runAux (k : ℕ)
  | other (sd : SymData)

def PsoState.step (s : PsoState) : PsoTurn → Option PsoState
  | .execute i => s.execute i
  | .dryRun i => s.dryRun i
  | .runAux k =>
      if s.builder.auxAvailable k && s.builder.isAuxAtHead k then s.runAux k else none
  | .other sd => some { s with mem := s.mem.write sd }

end Nidhugg
