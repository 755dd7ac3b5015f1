import Nidhugg.Library.SharedSystem
import Nidhugg.Model.PsoInterpreter

/-! # Memory models

The interpreters for sequential consistency, for TSO and for PSO run the memory operations of all
threads over one memory. Waiting for threads and for mutexes is left out. -/

namespace Nidhugg

open SharedSystem

/-- A memory operation of a thread. -/
inductive Operation where
  | store (sd : SymData)
  | atomicStore (sd : SymData)
  | load (ml : AccessRange)
  | fence
  /-- A read-modify-write or compare-and-exchange instruction, which may write nothing. -/
  | rmw (ml : AccessRange) (update : List Byte → Option (Bytes ml.1.size))

namespace Operation

def isFence : Operation → Bool
  | .store _ | .load _ => false
  | .atomicStore _ | .fence | .rmw _ _ => true

/-- The bytes that are read or written. -/
def bytes : Operation → List SymAddr
  | .store sd | .atomicStore sd => sd.ref.bytes
  | .load ml | .rmw ml _ => ml.bytes
  | .fence => []

/-- The effect on memory and the bytes that are returned. -/
def perform (mem : Memory) : Operation → Memory × List Byte
  | .store sd | .atomicStore sd => (mem.write sd, [])
  | .load ml => (mem, mem.read ml.1)
  | .fence => (mem, [])
  | .rmw ml update =>
      let old := mem.read ml.1
      ((update old).elim mem fun block => mem.write ⟨ml, block⟩, old)

/-- The stores of a thread since its last operation with fence semantics. -/
def unfenced (stores : List SymData) : Operation → List SymData
  | .store sd => stores ++ [sd]
  | .load _ => stores
  | .atomicStore _ | .fence | .rmw _ _ => []

end Operation

/-- Sequential consistency. The stores since the last operation with fence semantics are only
noted. -/
def sc : Discipline Memory Operation (List Byte) (List SymData) Empty where
  initial := []
  issue mem stores _ op :=
    let (mem, r) := op.perform mem
    some (mem, op.unfenced stores, some r)
  background _ _ b := b.elim

namespace TsoState

/-- The state after an operation is refused, if it is. -/
def checkRefuseOperation (s : TsoState) : Operation → Option TsoState
  | .store _ => none
  | .load ml => s.checkRefuse (.load ml)
  | .atomicStore _ | .fence | .rmw _ _ =>
      if s.thread.storeBuffer.isEmpty then none else some (s.refuse 0)

/-- An operation that was not refused. -/
def visitOperation (s : TsoState) (prefixIdx : ℕ) : Operation → Option (TsoState × List Byte)
  | .store sd => (s.visit prefixIdx (.store sd)).map fun t => (t, [])
  | .load ml => (s.visitLoadInst ml).map fun (bytes, _) => (s.builderLoad ml prefixIdx, bytes)
  | op =>
      if s.thread.storeBuffer.isEmpty && s.builder.storeBuffer.isEmpty then
        let (mem, r) := op.perform s.mem
        some ({ s with mem := mem }, r)
      else none

/-- One turn of the thread. -/
def issue (s : TsoState) (prefixIdx : ℕ) (op : Operation) : Option (TsoState × Option (List Byte)) :=
  if s.builder.available then
    match s.checkRefuseOperation op with
    | some t => some (t, none)
    | none => (s.visitOperation prefixIdx op).map fun (t, r) => (t, some r)
  else none

end TsoState

/-- TSO. -/
def tso : Discipline Memory Operation (List Byte) (TsoThread × TsoBuilderThread) Unit where
  initial := (⟨[], -1⟩, ⟨[], true, false⟩)
  issue mem c prefixIdx op := (TsoState.issue ⟨mem, c.1, c.2⟩ prefixIdx op).map fun (t, r) =>
    (t.mem, (t.thread, t.builder), r)
  background mem c _ := (TsoState.runAux ⟨mem, c.1, c.2⟩).map fun t =>
    (t.mem, (t.thread, t.builder))

namespace PsoState

/-- The state after an operation is refused, if it is. -/
def checkRefuseOperation (s : PsoState) : Operation → Option PsoState
  | .store _ => none
  | .load ml => s.checkRefuse (.load ml)
  | .atomicStore _ | .fence | .rmw _ _ =>
      if s.thread.allBuffersEmpty then none else some (s.refuse .full)

/-- An operation that was not refused. -/
def visitOperation (s : PsoState) : Operation → Option (PsoState × List Byte)
  | .store sd => some (s.visitStoreInst sd false, [])
  | .load ml => (s.visitLoadInst ml).map fun bytes => (s, bytes)
  | op =>
      if s.thread.allBuffersEmpty && s.builder.storeBuffers.keys.isEmpty then
        let (mem, r) := op.perform s.mem
        some ({ s with mem := mem }, r)
      else none

/-- One turn of the thread. -/
def issue (s : PsoState) (op : Operation) : Option (PsoState × Option (List Byte)) :=
  if s.builder.available then
    match s.checkRefuseOperation op with
    | some t => some (t, none)
    | none => (s.visitOperation op).map fun (t, r) => (t, some r)
  else none

end PsoState

/-- PSO. The turns in the background are those of auxiliary threads that are available and at the
head of their buffers. -/
def pso : Discipline Memory Operation (List Byte) (PsoInterpreterThread × PsoBuilderThread) ℕ where
  initial := (⟨.empty, .empty, .no⟩, ⟨.empty, .empty, true, fun _ => false⟩)
  issue mem c _ op := (PsoState.issue ⟨mem, c.1, c.2, none⟩ op).map fun (t, r) =>
    (t.mem, (t.thread, t.builder), r)
  background mem c k := (PsoState.step ⟨mem, c.1, c.2, none⟩ (.runAux k)).map fun t =>
    (t.mem, (t.thread, t.builder))

end Nidhugg
