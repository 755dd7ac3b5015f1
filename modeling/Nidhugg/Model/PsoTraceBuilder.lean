import Nidhugg.Library.LabelledRun
import Nidhugg.Model.Basic

/-! # Store buffers under PSO

A `PSOTraceBuilder` keeps the pending stores of a thread byte by byte, and one auxiliary
thread for every address at which the thread has started a store. The model has the part of
its state that decides which auxiliary threads can be scheduled; the sets
`available_threads` and `available_auxs` list the available threads. -/

namespace Nidhugg

/-- The range of a buffered store, with a 32-bit offset and a positive 16-bit size. -/
abbrev StoreRange :=
  { ml : SymAddrSize // ml.addr.offset < 2 ^ 32 ∧ 0 < ml.size ∧ ml.size < 2 ^ 16 }

/-- A byte of a pending store. -/
structure PendingStoreByte where
  ml : SymAddrSize
deriving DecidableEq, Repr

structure PsoThread where
  /-- The number by which the interpreter knows the thread or, for an auxiliary thread, the
  real thread that it belongs to. -/
  proc : ℕ
  /-- The index of an auxiliary thread. -/
  aux : Option ℕ
  available : Bool
  parent : Option ℕ
  /-- For each auxiliary thread the address at which its stores start. -/
  auxToByte : List SymAddr
  byteToAux : SymAddr → Option ℕ
  auxToIpid : List ℕ
  /-- For each byte the pending stores to it, the oldest first. -/
  storeBuffers : SymAddr → List PendingStoreByte

/-- The constructor of `Thread`. -/
def PsoThread.new (proc : ℕ) (aux parent : Option ℕ) : PsoThread :=
  ⟨proc, aux, true, parent, [], fun _ => none, [], fun _ => []⟩

structure PsoTraceBuilder where
  threads : List PsoThread
  procToIpid : List ℕ

namespace PsoTraceBuilder

def initial : PsoTraceBuilder := ⟨[PsoThread.new 0 none none], [0]⟩

def modifyThread (s : PsoTraceBuilder) (pid : ℕ) (f : PsoThread → PsoThread) : PsoTraceBuilder :=
  { s with threads := s.threads.modify pid f }

def markAvailableIpid (s : PsoTraceBuilder) (pid : ℕ) : PsoTraceBuilder :=
  s.modifyThread pid fun t => { t with available := true }

def markUnavailableIpid (s : PsoTraceBuilder) (pid : ℕ) : PsoTraceBuilder :=
  s.modifyThread pid fun t => { t with available := false }

/-- The real thread of an auxiliary thread, the address of its stores and the oldest pending
store to that byte. -/
def auxFront (s : PsoTraceBuilder) (pid : ℕ) : Option (ℕ × SymAddr × SymAddrSize) := do
  let thread ← s.threads[pid]?
  let aux ← thread.aux
  let parentPid ← thread.parent
  let parent ← s.threads[parentPid]?
  let b0 ← parent.auxToByte[aux]?
  let pst ← (parent.storeBuffers b0).head?
  return (parentPid, b0, pst.ml)

/-- The pending stores of a thread to a byte. -/
def pending (s : PsoTraceBuilder) (pid : ℕ) (b : SymAddr) : List PendingStoreByte :=
  (s.threads[pid]?.map fun t => t.storeBuffers b).getD []

def isAuxAtHead (s : PsoTraceBuilder) (pid : ℕ) : Bool :=
  (s.auxFront pid).any fun (parentPid, b0, ml) =>
    ml.bytes.all fun b => b = b0 || (s.pending parentPid b).head?.any fun pst => pst.ml.addr = b0

/-- A real thread creates another one. -/
def spawn (s : PsoTraceBuilder) (pid : ℕ) : PsoTraceBuilder :=
  let proc := (s.threads.map PsoThread.proc).foldl (fun m p => max m (p + 1)) 0
  { threads := s.threads ++ [PsoThread.new proc none (some pid)]
    procToIpid := s.procToIpid ++ [s.threads.length] }

/-- Pushes the store to the buffers of all its bytes. -/
def pushPending (t : PsoThread) (ml : SymAddrSize) : PsoThread :=
  { t with storeBuffers :=
      ml.bytes.foldl (fun buffers b => Function.update buffers b (buffers b ++ [⟨ml⟩])) t.storeBuffers }

/-- A real thread buffers a store, and creates an auxiliary thread for its address if there
is none yet. -/
def store (s : PsoTraceBuilder) (pid : ℕ) (ml : SymAddrSize) : Option PsoTraceBuilder := do
  let thread ← s.threads[pid]?
  let t := s.modifyThread pid fun t => pushPending t ml
  match thread.byteToAux ml.addr with
  | none =>
      let aux := thread.auxToByte.length
      let updIpid := s.threads.length
      let t := { t with threads := t.threads ++ [PsoThread.new thread.proc (some aux) (some pid)] }
      let t := t.modifyThread pid fun t =>
        { t with
          byteToAux := Function.update t.byteToAux ml.addr (some aux)
          auxToByte := t.auxToByte ++ [ml.addr]
          auxToIpid := t.auxToIpid ++ [updIpid] }
      return t.markAvailableIpid updIpid
  | some aux =>
      let updIpid ← thread.auxToIpid[aux]?
      return t.markAvailableIpid updIpid

/-- Removes the oldest pending store to a byte. An auxiliary thread becomes unavailable as soon
as this empties the buffer of a byte. -/
def popPending (tipid uipid : ℕ) (s : PsoTraceBuilder) (b : SymAddr) : PsoTraceBuilder :=
  let rest := (s.pending tipid b).tail
  let s := s.modifyThread tipid fun t =>
    { t with storeBuffers := Function.update t.storeBuffers b rest }
  if rest.isEmpty then s.markUnavailableIpid uipid else s

/-- `atomic_store` by an auxiliary thread. -/
def update (s : PsoTraceBuilder) (uipid tipid : ℕ) (ml : SymAddrSize) : PsoTraceBuilder :=
  ml.bytes.foldl (popPending tipid uipid) s

/-- Whether a thread is real and available. -/
def isRunnable (s : PsoTraceBuilder) (pid : ℕ) : Bool :=
  s.threads[pid]?.any fun t => t.aux.isNone && t.available

def isAvailable (s : PsoTraceBuilder) (pid : ℕ) : Bool := s.threads[pid]?.any PsoThread.available

/-- What the interpreter makes the trace builder do. Loads, atomic operations and dry runs
change neither the buffers nor who is available. -/
inductive Turn where
  | spawn (pid : ℕ)
  | store (pid : ℕ) (ml : StoreRange)
  /-- An auxiliary thread performs its oldest pending store. `PSOInterpreter::runAux` asserts
  that the store starts at the address of the thread. -/
  | update (pid : ℕ)
  | markAvailable (proc : ℕ)
  /-- The thread terminates, is refused, or waits for a condition variable. -/
  | markUnavailable (proc : ℕ)
  | reset

def step (s : PsoTraceBuilder) : Turn → Option PsoTraceBuilder
  | .spawn pid => if s.isRunnable pid then some (s.spawn pid) else none
  | .store pid ml => if s.isRunnable pid then s.store pid ml.1 else none
  | .update pid => do
      let (tipid, b0, ml) ← s.auxFront pid
      if s.isAvailable pid && s.isAuxAtHead pid && ml.addr = b0 then
        some (s.update pid tipid ml)
      else none
  | .markAvailable proc => s.procToIpid[proc]?.map s.markAvailableIpid
  | .markUnavailable proc => s.procToIpid[proc]?.map s.markUnavailableIpid
  | .reset => some initial

end PsoTraceBuilder

end Nidhugg
