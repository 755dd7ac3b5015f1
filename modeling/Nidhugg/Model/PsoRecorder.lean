import Nidhugg.Library.AssocList
import Nidhugg.Model.PsoInterpreter
import Nidhugg.Model.VClock

/-! # What a PSO trace builder records of a run

The part of `PSOTraceBuilder` that gives the events their clocks and that puts threads to sleep
and wakes them up. Branches, and which threads are available, are left out: any thread may be
scheduled, and in a replay any threads may be put to sleep. The maps of the source are association
lists. -/

namespace Nidhugg

/-- `PendingStoreByte` of the trace builder. -/
structure PsoPendingStore where
  ml : AccessRange
  clock : VClock
  /-- The last load that read the entry early. -/
  lastRowe : Option ℕ
deriving DecidableEq, Repr

/-- What the next event of a sleeping thread accesses, as its dry run has shown. -/
structure PsoSleep where
  sleeping : Bool
  sleepAccessesR : List SymAddr
  sleepAccessesW : List SymAddr
  sleepFullMemoryConflict : Bool

def PsoSleep.awake : PsoSleep := ⟨false, [], [], false⟩

/-- `PSOTraceBuilder::Thread` without its clocks. -/
structure PsoRecordedThread where
  proc : ℕ
  /-- The real thread that an auxiliary thread belongs to. -/
  owner : Option ℕ
  /-- The auxiliary threads of a real thread, by the addresses at which their stores start. -/
  auxs : List (SymAddr × ℕ)
  storeBuffers : ByteBuffers PsoPendingStore
  sleep : PsoSleep

/-- The constructor of `Thread`. -/
def PsoRecordedThread.new (proc : ℕ) (owner : Option ℕ) : PsoRecordedThread :=
  ⟨proc, owner, [], .empty, .awake⟩

/-- `PSOTraceBuilder::Event` -/
structure PsoEvent where
  iid : IID
  alt : ℕ
  clock : VClock
  mayConflict : Bool
  sleep : List ℕ
  wakeup : List ℕ

/-- `PSOTraceBuilder::ByteInfo` -/
structure PsoByteInfo where
  lastUpdate : Option ℕ
  lastUpdateMl : SymAddrSize
  /-- The last reads by process numbers. -/
  lastRead : List (ℕ × ℕ)

def PsoByteInfo.new : PsoByteInfo := ⟨none, ⟨⟨.global 0, 0⟩, 1⟩, []⟩

/-- `PSOTraceBuilder::Mutex` -/
structure PsoMutex where
  lastAccess : Option ℕ
  lastLock : Option ℕ
  locked : Bool

def PsoMutex.new : PsoMutex := ⟨none, none, false⟩

/-- `PSOTraceBuilder::CondVar` -/
structure PsoCondVar where
  lastSignal : Option ℕ
  waiters : List ℕ

/-- `PSOTraceBuilder::Access` -/
inductive PsoAccess where
  | r (b : SymAddr)
  | w (b : SymAddr)
  | wAllMemory

/-- The calls by which the interpreter tells what an event does. Mutexes and condition variables
are identified by their addresses. -/
inductive PsoCall where
  | spawn
  | store (ml : AccessRange)
  | atomicStore (ml : AccessRange)
  | compareExchange (ml : AccessRange) (success : Bool)
  | atomicRmw (ml : AccessRange)
  | load (ml : AccessRange)
  | fullMemoryConflict
  | fence
  | join (tgtProc : ℕ)
  | mutexLock (m : SymAddr)
  | mutexUnlock (m : SymAddr)
  | mutexTrylock (m : SymAddr)
  | mutexInit (m : SymAddr)
  | mutexDestroy (m : SymAddr)
  | condInit (c : SymAddr)
  | condSignal (c : SymAddr)
  | condBroadcast (c : SymAddr)
  | condWait (c m : SymAddr)
  | condAwake (c m : SymAddr)
  | condDestroy (c : SymAddr)
  | registerAlternatives (altCount : ℕ)
deriving DecidableEq

/-- The last accesses to everything that is shared. -/
structure PsoAccesses where
  mem : List (SymAddr × PsoByteInfo)
  lastFullMemoryConflict : Option ℕ
  mutexes : List (SymAddr × PsoMutex)
  condVars : List (SymAddr × PsoCondVar)

/-- Who makes calls. Nobody does before the first event and after an event is refused. -/
inductive PsoRunning where
  | nobody
  /-- The current event. -/
  | event
  /-- A thread in a dry run. -/
  | dryRun (pid : ℕ)
deriving DecidableEq

structure PsoRecorder where
  threadCount : ℕ
  threads : ℕ → PsoRecordedThread
  /-- The clocks of the threads. -/
  threadClock : ℕ → VClock
  /-- For each real thread the sum of the clocks of its auxiliary threads. -/
  auxClockSum : ℕ → VClock
  procToIpid : List ℕ
  /-- The events up to `prefix_idx`. -/
  events : List PsoEvent
  accesses : PsoAccesses
  running : PsoRunning
  replay : Bool
  /-- The threads that were run dry since the last event. -/
  drySleepers : List ℕ

namespace PsoRecorder

/-- The state before an execution. All but the first execution begin with a replay. -/
def initial (replay : Bool) : PsoRecorder where
  threadCount := 1
  threads := fun _ => .new 0 none
  threadClock := fun _ => .empty
  auxClockSum := fun _ => .empty
  procToIpid := [0]
  events := []
  accesses := ⟨[], none, [], []⟩
  running := .nobody
  replay := replay
  drySleepers := []

/-! ### Reading and writing the current event and the threads -/

/-- `prefix_idx` -/
def prefixIdx (s : PsoRecorder) : ℕ := s.events.length - 1

def clockOf (s : PsoRecorder) (i : ℕ) : VClock := (s.events[i]?.map PsoEvent.clock).getD .empty

def pidOf (s : PsoRecorder) (i : ℕ) : ℕ := (s.events[i]?.map fun e => e.iid.pid).getD 0

/-- The real thread of an auxiliary thread, or the thread itself. -/
def realThread (s : PsoRecorder) (pid : ℕ) : ℕ := (s.threads pid).owner.getD pid

def modifyCurnode (s : PsoRecorder) (f : PsoEvent → PsoEvent) : PsoRecorder :=
  { s with events := s.events.modify s.prefixIdx f }

def modifyThread (s : PsoRecorder) (pid : ℕ) (f : PsoRecordedThread → PsoRecordedThread) :
    PsoRecorder :=
  { s with threads := Function.update s.threads pid (f (s.threads pid)) }

/-- `curnode().may_conflict = true` -/
def conflicting (s : PsoRecorder) : PsoRecorder :=
  s.modifyCurnode fun e => { e with mayConflict := true }

def addThreadClock (s : PsoRecorder) (pid : ℕ) (c : VClock) : PsoRecorder :=
  { s with threadClock := Function.update s.threadClock pid ((s.threadClock pid).addAssign c) }

/-- Adds a clock to the current event and to a thread. -/
def addClock (s : PsoRecorder) (pid : ℕ) (c : VClock) : PsoRecorder :=
  (s.modifyCurnode fun e => { e with clock := e.clock.addAssign c }).addThreadClock pid c

/-- `see_events`: adds the clocks of the events to those of the current event and its thread. -/
def seeEvents (s : PsoRecorder) (pid : ℕ) (seen : List ℕ) : PsoRecorder :=
  seen.foldl (fun s i => s.addClock pid (s.clockOf i)) s

/-! ### Waking threads up -/

def hasPendingStore (s : PsoRecorder) (pid : ℕ) (b : SymAddr) : Bool :=
  b ∈ (s.threads pid).storeBuffers.keys

/-- Whether an access by `pid` wakes up the thread `p`. -/
def wakes (s : PsoRecorder) (pid p : ℕ) (access : PsoAccess) : Bool :=
  let sleep := (s.threads p).sleep
  match access with
  | .wAllMemory => sleep.sleepFullMemoryConflict || !sleep.sleepAccessesW.isEmpty ||
      sleep.sleepAccessesR.any fun b => !s.hasPendingStore p b
  | .r b => sleep.sleepFullMemoryConflict ||
      ((s.threads p).proc ≠ (s.threads pid).proc && sleep.sleepAccessesW.contains b)
  | .w b => sleep.sleepFullMemoryConflict ||
      ((s.threads p).proc ≠ (s.threads pid).proc && (sleep.sleepAccessesW.contains b ||
        (sleep.sleepAccessesR.contains b && !s.hasPendingStore p b)))

def wakeup (s : PsoRecorder) (pid : ℕ) (access : PsoAccess) : PsoRecorder :=
  let woken := fun p => (s.threads p).sleep.sleeping && s.wakes pid p access
  { s.modifyCurnode fun e =>
      { e with wakeup := e.wakeup ++ (List.range s.threadCount).filter woken } with
    threads := fun p => { s.threads p with
      sleep := if woken p then .awake else (s.threads p).sleep } }

/-! ### The events that an operation sees -/

def lastFullMemoryConflict (s : PsoRecorder) : List ℕ := s.accesses.lastFullMemoryConflict.toList

def byteInfo (s : PsoRecorder) (b : SymAddr) : PsoByteInfo := (s.accesses.mem.lookup b).getD .new

def mutex? (s : PsoRecorder) (m : SymAddr) : Option PsoMutex := s.accesses.mutexes.lookup m

def condVar? (s : PsoRecorder) (c : SymAddr) : Option PsoCondVar := s.accesses.condVars.lookup c

/-- The updates of a byte by other threads, and the reads of it by other threads. -/
def storeSees (s : PsoRecorder) (tipid : ℕ) (b : SymAddr) : List ℕ :=
  (s.byteInfo b).lastUpdate.toList.filter (fun i => s.realThread (s.pidOf i) ≠ tipid) ++
    ((s.byteInfo b).lastRead.map Prod.snd).filter fun i => s.pidOf i ≠ tipid

/-- The last update of a byte, if it is the thread's own. -/
def ownUpdate (s : PsoRecorder) (tipid : ℕ) (b : SymAddr) : List ℕ :=
  (s.byteInfo b).lastUpdate.toList.filter fun i => s.realThread (s.pidOf i) = tipid

def loadSees (s : PsoRecorder) (ipid : ℕ) (b : SymAddr) : List ℕ :=
  (s.byteInfo b).lastUpdate.toList.filter fun i => s.realThread (s.pidOf i) ≠ ipid

/-- The own update of a byte, if its range is not that of the load. -/
def loadJoins (s : PsoRecorder) (ipid : ℕ) (ml : AccessRange) (b : SymAddr) : List ℕ :=
  if ml.1 ≠ (s.byteInfo b).lastUpdateMl then s.ownUpdate ipid b else []

def fullMemorySees (s : PsoRecorder) : List ℕ :=
  s.accesses.mem.flatMap (fun e => e.2.lastUpdate.toList ++ e.2.lastRead.map Prod.snd) ++
    s.accesses.mutexes.flatMap (fun e => e.2.lastAccess.toList) ++ s.lastFullMemoryConflict

def mutexSees (s : PsoRecorder) (mutex : PsoMutex) : List ℕ :=
  mutex.lastAccess.toList ++ s.lastFullMemoryConflict

/-! ### Stores and loads -/

/-- Registers an access to a byte. -/
def writeByte (s : PsoRecorder) (b : SymAddr) (f : PsoByteInfo → PsoByteInfo) : PsoRecorder :=
  { s with accesses.mem := AssocList.insert s.accesses.mem b (f (s.byteInfo b)) }

/-- Adds a thread, with the clock of the thread that creates it. -/
def addThread (s : PsoRecorder) (thread : PsoRecordedThread) (clock : VClock) : PsoRecorder :=
  { s with
    threadCount := s.threadCount + 1
    threads := Function.update s.threads s.threadCount thread
    threadClock := Function.update s.threadClock s.threadCount clock
    auxClockSum := Function.update s.auxClockSum s.threadCount .empty }

def spawn (s : PsoRecorder) (pid : ℕ) : PsoRecorder :=
  let proc := ((List.range s.threadCount).map fun p => (s.threads p).proc + 1).foldl max 0
  { s.addThread (.new proc none) (s.threadClock pid) with
    procToIpid := s.procToIpid ++ [s.threadCount] }

/-- Creates the auxiliary thread for an address, unless there is one. -/
def createAux (s : PsoRecorder) (pid : ℕ) (b : SymAddr) : PsoRecorder :=
  match (s.threads pid).auxs.lookup b with
  | some _ => s
  | none =>
      let t := s.modifyThread pid fun t => { t with auxs := t.auxs ++ [(b, s.threadCount)] }
      t.addThread (.new (s.threads pid).proc (some pid)) (s.threadClock pid)

def store (s : PsoRecorder) (pid : ℕ) (ml : AccessRange) : PsoRecorder :=
  let s := s.modifyThread pid fun t => { t with
    storeBuffers := t.storeBuffers.pushRange ml fun _ => ⟨ml, s.threadClock pid, none⟩ }
  s.createAux pid ml.1.addr

/-- The oldest entry at the first byte of a range, if it has that range. -/
def oldestStore (s : PsoRecorder) (tipid : ℕ) (ml : AccessRange) : Option PsoPendingStore :=
  ((s.threads tipid).storeBuffers.get ml.1.addr).head?.filter fun pst => pst.ml = ml

/-- The record of a byte after a store, which replaces the last read of the thread if the store has
been read early. -/
def storedInfo (idx proc : ℕ) (ml : AccessRange) (lastRowe : Option ℕ) (bi : PsoByteInfo) :
    PsoByteInfo where
  lastUpdate := some idx
  lastUpdateMl := ml.1
  lastRead := match lastRowe with
    | some i => AssocList.insert bi.lastRead proc i
    | none => bi.lastRead

def registerByte (pid proc : ℕ) (ml : AccessRange) (lastRowe : Option ℕ) (s : PsoRecorder)
    (b : SymAddr) : PsoRecorder :=
  (s.writeByte b (storedInfo s.prefixIdx proc ml lastRowe)).wakeup pid (.w b)

/-- Registers a store to the bytes of a range and wakes up the threads that depend on it. -/
def registerStore (s : PsoRecorder) (pid : ℕ) (ml : AccessRange) (lastRowe : Option ℕ) :
    PsoRecorder :=
  ml.bytes.foldl (registerByte pid (s.threads (s.realThread pid)).proc ml lastRowe) s

/-- Sees the accesses that conflict with a store to a range, and registers the store. -/
def performStore (s : PsoRecorder) (pid : ℕ) (ml : AccessRange) (lastRowe : Option ℕ) :
    PsoRecorder :=
  let tipid := s.realThread pid
  let s := s.seeEvents pid (ml.bytes.flatMap (s.ownUpdate tipid))
  let s := s.seeEvents pid
    (ml.bytes.flatMap (s.storeSees tipid) ++ s.lastFullMemoryConflict)
  s.registerStore pid ml lastRowe

/-- `atomic_store` by an auxiliary thread: performs the oldest pending store to the range. -/
def update (s : PsoRecorder) (uipid tipid : ℕ) (ml : AccessRange) : Option PsoRecorder := do
  let pst ← s.oldestStore tipid ml
  let s := s.conflicting.addClock uipid pst.clock
  let s := s.performStore uipid ml pst.lastRowe
  let s := s.modifyThread tipid fun t => { t with storeBuffers := t.storeBuffers.popRange ml }
  let sum := (s.auxClockSum tipid).addAssign (s.clockOf s.prefixIdx)
  return { s with auxClockSum := Function.update s.auxClockSum tipid sum }

def allBuffersEmpty (s : PsoRecorder) (pid : ℕ) : Bool :=
  (s.threads pid).storeBuffers.keys.isEmpty

/-- `atomic_store` by a real thread, which has fence semantics. -/
def realStore (s : PsoRecorder) (tipid : ℕ) (ml : AccessRange) : Option PsoRecorder :=
  if s.allBuffersEmpty tipid then
    some (((s.threads tipid).auxs.foldl (fun s aux => s.addClock tipid (s.threadClock aux.2))
      s.conflicting).performStore tipid ml none)
  else none

def atomicStore (s : PsoRecorder) (pid : ℕ) (ml : AccessRange) : Option PsoRecorder :=
  match (s.threads pid).owner with
  | some tipid => s.update pid tipid ml
  | none => s.realStore pid ml

/-- Notes in the youngest entry of a buffer that it has been read early. -/
def markRowe (s : PsoRecorder) (pid : ℕ) (b : SymAddr) : PsoRecorder :=
  s.modifyThread pid fun t => { t with
    storeBuffers := { t.storeBuffers with
      get := Function.update t.storeBuffers.get b
        ((t.storeBuffers.get b).modify ((t.storeBuffers.get b).length - 1) fun pst =>
          { pst with lastRowe := some s.prefixIdx }) } }

def readByte (pid : ℕ) (s : PsoRecorder) (b : SymAddr) : PsoRecorder :=
  (s.writeByte b fun bi =>
    { bi with lastRead := AssocList.insert bi.lastRead (s.threads pid).proc s.prefixIdx }).wakeup
      pid (.r b)

/-- A load from memory. -/
def memoryLoad (s : PsoRecorder) (pid : ℕ) (ml : AccessRange) : PsoRecorder :=
  let s := s.seeEvents pid (ml.bytes.flatMap (s.loadJoins pid ml))
  let s := s.seeEvents pid (ml.bytes.flatMap (s.loadSees pid) ++ s.lastFullMemoryConflict)
  ml.bytes.foldl (readByte pid) s

/-- A load. The assertion for reading early is that the youngest entry has the range of the load. -/
def load (s : PsoRecorder) (pid : ℕ) (ml : AccessRange) : Option PsoRecorder :=
  if s.hasPendingStore pid ml.1.addr then
    if ((s.threads pid).storeBuffers.get ml.1.addr).getLast?.any fun pst => pst.ml = ml then
      some (s.conflicting.markRowe pid ml.1.addr)
    else none
  else some (s.conflicting.memoryLoad pid ml)

def compareExchange (s : PsoRecorder) (pid : ℕ) (ml : AccessRange) (success : Bool) :
    Option PsoRecorder :=
  if success then s.atomicStore pid ml else s.load pid ml

/-- `TSOPSOTraceBuilder::atomic_rmw` -/
def atomicRmw (s : PsoRecorder) (pid : ℕ) (ml : AccessRange) : Option PsoRecorder :=
  (s.load pid ml).bind fun s => s.atomicStore pid ml

def fullMemoryConflict (s : PsoRecorder) (pid : ℕ) : PsoRecorder :=
  { (s.conflicting.seeEvents pid s.fullMemorySees).wakeup pid .wAllMemory with
    accesses.lastFullMemoryConflict := some s.prefixIdx
    accesses.mem := [] }

/-! ### Fences, mutexes and condition variables -/

/-- The assertions are that the thread is real and that its buffers are empty. -/
def fence (s : PsoRecorder) (pid : ℕ) : Option PsoRecorder :=
  if (s.threads pid).owner.isNone && s.allBuffersEmpty pid then
    some (s.addClock pid (s.auxClockSum pid))
  else none

def join (s : PsoRecorder) (pid tgtProc : ℕ) : Option PsoRecorder := do
  let tgt ← s.procToIpid[tgtProc]?
  let s := s.modifyCurnode fun e => { e with
    clock := (e.clock.addAssign (s.threadClock tgt)).addAssign (s.auxClockSum tgt) }
  return s.addThreadClock pid (s.clockOf s.prefixIdx)

def setMutex (s : PsoRecorder) (m : SymAddr) (mutex : PsoMutex) : PsoRecorder :=
  { s with accesses.mutexes := AssocList.insert s.accesses.mutexes m mutex }

def mutexLock (s : PsoRecorder) (pid : ℕ) (m : SymAddr) : Option PsoRecorder := do
  let s ← s.fence pid
  let s := s.conflicting.wakeup pid (.w m)
  let mutex := (s.mutex? m).getD .new
  let s := match mutex.lastLock with
    | none => s.seeEvents pid (s.mutexSees mutex)
    | some _ => (s.seeEvents pid mutex.lastAccess.toList).seeEvents pid
        s.lastFullMemoryConflict
  return s.setMutex m ⟨some s.prefixIdx, some s.prefixIdx, true⟩

def mutexUnlock (s : PsoRecorder) (pid : ℕ) (m : SymAddr) : Option PsoRecorder := do
  let s ← s.fence pid
  let mutex ← s.mutex? m
  let _ ← mutex.lastAccess
  let s := s.conflicting.wakeup pid (.w m)
  let s := s.seeEvents pid (s.mutexSees mutex)
  return s.setMutex m { mutex with lastAccess := some s.prefixIdx, locked := false }

def mutexTrylock (s : PsoRecorder) (pid : ℕ) (m : SymAddr) : Option PsoRecorder := do
  let s ← s.fence pid
  let mutex ← s.mutex? m
  let s := s.conflicting.wakeup pid (.w m)
  let s := s.seeEvents pid (s.mutexSees mutex)
  return s.setMutex m
    { lastAccess := some s.prefixIdx
      lastLock := if mutex.locked then mutex.lastLock else some s.prefixIdx
      locked := true }

/-- The only operation on mutexes that wakes up no thread. -/
def mutexInit (s : PsoRecorder) (pid : ℕ) (m : SymAddr) : Option PsoRecorder := do
  let s ← s.fence pid
  let s := s.conflicting
  let mutex := (s.mutex? m).getD .new
  let s := s.seeEvents pid (s.mutexSees mutex)
  return s.setMutex m { mutex with lastAccess := some s.prefixIdx }

def mutexDestroy (s : PsoRecorder) (pid : ℕ) (m : SymAddr) : Option PsoRecorder := do
  let s ← s.fence pid
  let mutex ← s.mutex? m
  let s := s.conflicting.wakeup pid (.w m)
  let s := s.seeEvents pid (s.mutexSees mutex)
  return { s with accesses.mutexes := AssocList.erase s.accesses.mutexes m }

def setCondVar (s : PsoRecorder) (c : SymAddr) (condVar : PsoCondVar) : PsoRecorder :=
  { s with accesses.condVars := AssocList.insert s.accesses.condVars c condVar }

/-- A condition variable that exists already is an error. -/
def condInit (s : PsoRecorder) (pid : ℕ) (c : SymAddr) : Option PsoRecorder := do
  let s ← s.fence pid
  match s.condVar? c with
  | some _ => some s
  | none =>
      let s := s.conflicting.setCondVar c ⟨some s.prefixIdx, []⟩
      some (s.seeEvents pid s.lastFullMemoryConflict)

/-- The next instruction of the thread that waits at an event is ordered after the current
event. -/
def wakeWaiter (s : PsoRecorder) (i : ℕ) : PsoRecorder :=
  s.addThreadClock (s.pidOf i) (s.clockOf s.prefixIdx)

/-- Wakes up the waiter with the number `alt`. There is one if there is any waiter. -/
def signalWaiter (s : PsoRecorder) (pid : ℕ) (c : SymAddr) (condVar : PsoCondVar) (alt : ℕ) :
    Option PsoRecorder :=
  match condVar.waiters[alt]? with
  | some i =>
      let s := (s.wakeWaiter i).setCondVar c ⟨some s.prefixIdx, condVar.waiters.eraseIdx alt⟩
      some (s.seeEvents pid (s.lastFullMemoryConflict ++ [i]))
  | none =>
      if condVar.waiters.isEmpty then
        some ((s.setCondVar c ⟨some s.prefixIdx, []⟩).seeEvents pid s.lastFullMemoryConflict)
      else none

def curAlt (s : PsoRecorder) : ℕ := (s.events.getLast?.map PsoEvent.alt).getD 0

/-- An unknown condition variable is an error here and below. -/
def condSignal (s : PsoRecorder) (pid : ℕ) (c : SymAddr) : Option PsoRecorder := do
  let s ← s.fence pid
  let s := s.conflicting.wakeup pid (.w c)
  match s.condVar? c with
  | none => some s
  | some condVar => s.signalWaiter pid c condVar s.curAlt

def condBroadcast (s : PsoRecorder) (pid : ℕ) (c : SymAddr) : Option PsoRecorder := do
  let s ← s.fence pid
  let s := s.conflicting.wakeup pid (.w c)
  match s.condVar? c with
  | none => some s
  | some condVar =>
      let s := (condVar.waiters.foldl wakeWaiter s).setCondVar c ⟨some s.prefixIdx, []⟩
      some (s.seeEvents pid (s.lastFullMemoryConflict ++ condVar.waiters))

/-- Whether `cond_wait` accepts the mutex: the thread made the last lock of it. -/
def condWaitAccepts (s : PsoRecorder) (pid : ℕ) (m : SymAddr) : Bool :=
  (s.mutex? m).any fun mutex => mutex.lastLock.any fun i => s.pidOf i = pid

/-- What remains of `cond_wait` after the mutex is unlocked. -/
def waitFor (s : PsoRecorder) (pid : ℕ) (c : SymAddr) : Option PsoRecorder := do
  let s ← s.fence pid
  let s := s.conflicting.wakeup pid (.r c)
  match s.condVar? c with
  | none => some s
  | some condVar =>
      let s := s.setCondVar c { condVar with waiters := condVar.waiters ++ [s.prefixIdx] }
      some (s.seeEvents pid (s.lastFullMemoryConflict ++ condVar.lastSignal.toList))

def condWait (s : PsoRecorder) (pid : ℕ) (c m : SymAddr) : Option PsoRecorder :=
  if s.condWaitAccepts pid m then (s.mutexUnlock pid m).bind fun s => s.waitFor pid c else some s

def condDestroy (s : PsoRecorder) (pid : ℕ) (c : SymAddr) : Option PsoRecorder := do
  let s ← s.fence pid
  let s := s.conflicting.wakeup pid (.w c)
  match s.condVar? c with
  | none => some s
  | some condVar =>
      let s := s.seeEvents pid
        (condVar.lastSignal.toList ++ s.lastFullMemoryConflict ++ condVar.waiters)
      some { s with accesses.condVars := AssocList.erase s.accesses.condVars c }

/-! ### Calls -/

/-- A call by the current event of a thread. -/
def exec (s : PsoRecorder) (pid : ℕ) : PsoCall → Option PsoRecorder
  | .spawn => some (s.spawn pid)
  | .store ml => some (s.store pid ml)
  | .atomicStore ml => s.atomicStore pid ml
  | .compareExchange ml success => s.compareExchange pid ml success
  | .atomicRmw ml => s.atomicRmw pid ml
  | .load ml => s.load pid ml
  | .fullMemoryConflict => some (s.fullMemoryConflict pid)
  | .fence => s.fence pid
  | .join tgtProc => s.join pid tgtProc
  | .mutexLock m => s.mutexLock pid m
  | .mutexUnlock m => s.mutexUnlock pid m
  | .mutexTrylock m => s.mutexTrylock pid m
  | .mutexInit m => s.mutexInit pid m
  | .mutexDestroy m => s.mutexDestroy pid m
  | .condInit c => s.condInit pid c
  | .condSignal c => s.condSignal pid c
  | .condBroadcast c => s.condBroadcast pid c
  | .condWait c m => s.condWait pid c m
  | .condAwake _ m => s.mutexLock pid m
  | .condDestroy c => s.condDestroy pid c
  | .registerAlternatives _ => some s.conflicting

def rangeStoreSees (s : PsoRecorder) (pid : ℕ) (ml : AccessRange) : List ℕ :=
  ml.bytes.flatMap (s.storeSees (s.realThread pid)) ++ s.lastFullMemoryConflict

def rangeLoadSees (s : PsoRecorder) (pid : ℕ) (ml : AccessRange) : List ℕ :=
  if s.hasPendingStore pid ml.1.addr then []
  else ml.bytes.flatMap (s.loadSees pid) ++ s.lastFullMemoryConflict

def lockSees (s : PsoRecorder) (m : SymAddr) : List ℕ :=
  let mutex := (s.mutex? m).getD .new
  mutex.lastLock.toList ++ s.mutexSees mutex

/-- What an operation on a condition variable sees, unless it is an error. -/
def condSees (s : PsoRecorder) (c : SymAddr) (sees : PsoCondVar → List ℕ) : List ℕ :=
  match s.condVar? c with
  | none => []
  | some condVar => sees condVar ++ s.lastFullMemoryConflict

/-- The events that a call would see if a thread made it next. A signal may see any waiter. -/
def sees (s : PsoRecorder) (pid : ℕ) : PsoCall → List ℕ
  | .spawn | .store _ | .fence | .join _ | .registerAlternatives _ => []
  | .atomicStore ml => s.rangeStoreSees pid ml
  | .compareExchange ml success =>
      if success then s.rangeStoreSees pid ml else s.rangeLoadSees pid ml
  | .atomicRmw ml => s.rangeLoadSees pid ml ++ s.rangeStoreSees pid ml
  | .load ml => s.rangeLoadSees pid ml
  | .fullMemoryConflict => s.fullMemorySees
  | .mutexLock m | .condAwake _ m => s.lockSees m
  | .mutexUnlock m | .mutexTrylock m | .mutexDestroy m | .mutexInit m =>
      s.mutexSees ((s.mutex? m).getD .new)
  | .condInit c => if (s.condVar? c).isSome then [] else s.lastFullMemoryConflict
  | .condSignal c | .condBroadcast c => s.condSees c PsoCondVar.waiters
  | .condWait c m =>
      if s.condWaitAccepts pid m then
        s.mutexSees ((s.mutex? m).getD .new) ++ s.condSees c fun condVar => condVar.lastSignal.toList
      else []
  | .condDestroy c => s.condSees c fun condVar => condVar.lastSignal.toList ++ condVar.waiters

/-- The bytes that a call reads as far as a dry run notes it. -/
def dryReads : PsoCall → List SymAddr
  | .load ml | .atomicRmw ml | .compareExchange ml false => ml.bytes
  | .condWait c _ => [c]
  | _ => []

/-- The bytes that a call writes as far as a dry run notes it. -/
def dryWrites : PsoCall → List SymAddr
  | .atomicStore ml | .atomicRmw ml | .compareExchange ml true => ml.bytes
  | .mutexLock m | .mutexUnlock m | .mutexTrylock m | .mutexInit m | .mutexDestroy m
  | .condWait _ m | .condAwake _ m => [m]
  | .condInit c | .condSignal c | .condBroadcast c | .condDestroy c => [c]
  | _ => []

/-- A call in the dry run of a thread. `spawn` and `register_alternatives` do not ask whether they
are run dry. -/
def dryCall (s : PsoRecorder) (pid : ℕ) : PsoCall → Option PsoRecorder
  | .spawn => s.events.getLast?.map fun e => s.spawn e.iid.pid
  | .registerAlternatives _ => some s.conflicting
  | call => some (s.modifyThread pid fun t => { t with
      sleep.sleepAccessesR := t.sleep.sleepAccessesR ++ dryReads call
      sleep.sleepAccessesW := t.sleep.sleepAccessesW ++ dryWrites call
      sleep.sleepFullMemoryConflict :=
        t.sleep.sleepFullMemoryConflict || call = .fullMemoryConflict })

/-- The interpreter refuses loads that are not readable, and operations with fence semantics by
threads with pending stores. Before it makes an auxiliary thread perform a store, it asserts that
this is the oldest one for all its bytes. -/
def permitted (s : PsoRecorder) (pid : ℕ) : PsoCall → Bool
  | .store _ | .fullMemoryConflict => (s.threads pid).owner.isNone
  | .load ml => (s.threads pid).owner.isNone && ml.bytes.all fun b =>
      ((s.threads pid).storeBuffers.get b).getLast?.all fun pst => pst.ml = ml
  | .atomicStore ml => (s.threads pid).owner.all fun tipid => ml.bytes.all fun b =>
      ((s.threads tipid).storeBuffers.get b).head?.any fun pst => pst.ml = ml
  | .compareExchange _ _ | .atomicRmw _ | .condWait _ _ =>
      (s.threads pid).owner.isNone && s.allBuffersEmpty pid
  | _ => true

/-! ### Scheduling -/

def setThreadClock (s : PsoRecorder) (pid value : ℕ) : PsoRecorder :=
  { s with threadClock := Function.update s.threadClock pid ((s.threadClock pid).set pid value) }

/-- Begins an event of a thread. -/
def beginEvent (s : PsoRecorder) (pid alt : ℕ) : PsoRecorder :=
  let index := (s.threadClock pid).get pid + 1
  let t := s.setThreadClock pid index
  { t with
    events := s.events ++ [⟨⟨pid, index⟩, alt, t.threadClock pid, false, s.drySleepers, []⟩]
    running := .event
    drySleepers := [] }

/-- Merges the last two events, if they belong to one thread and the last one has no conflicts. -/
def mergeLast (s : PsoRecorder) : PsoRecorder :=
  match s.events.reverse with
  | e :: d :: _ =>
      if e.iid.pid = d.iid.pid && !e.mayConflict && e.sleep.isEmpty then
        { s with events := s.events.dropLast }
      else s
  | _ => s

/-- `refuse_schedule`, with the assertion that nothing has happened in the event. -/
def refuseSchedule (s : PsoRecorder) : Option PsoRecorder := do
  let e ← s.events.getLast?
  let s := s.setThreadClock e.iid.pid ((s.threadClock e.iid.pid).get e.iid.pid - 1)
  if e.mayConflict then none
  else some { s with events := s.events.dropLast, running := .nobody }

/-- The next event of the replayed execution. -/
def nextEvent (s : PsoRecorder) (pid alt : ℕ) : Option PsoRecorder :=
  if s.replay && decide (pid < s.threadCount) then some (s.beginEvent pid alt) else none

/-- The next instruction of the current event in a replay. -/
def continueEvent (s : PsoRecorder) : Option PsoRecorder :=
  if s.replay && s.running = .event then
    s.events.getLast?.map fun e =>
      s.setThreadClock e.iid.pid ((s.threadClock e.iid.pid).get e.iid.pid + 1)
  else none

/-- A thread is put to sleep before the next event of the replayed execution. -/
def beginDryRun (s : PsoRecorder) (pid : ℕ) : Option PsoRecorder :=
  if s.replay && decide (pid < s.threadCount) then
    some { s.modifyThread pid fun t => { t with sleep.sleeping := true } with
      running := .dryRun pid
      drySleepers := s.drySleepers ++ [pid] }
  else none

/-- A new event, of a thread that is awake. -/
def newEvent (s : PsoRecorder) (pid : ℕ) : Option PsoRecorder :=
  if s.drySleepers.isEmpty && decide (pid < s.threadCount) &&
      !(s.threads pid).sleep.sleeping then
    some ({ s.mergeLast with replay := false }.beginEvent pid 0)
  else none

/-- A call by the thread that is run dry, or by the current event. -/
def performCall (s : PsoRecorder) (call : PsoCall) : Option PsoRecorder :=
  match s.running with
  | .nobody => none
  | .dryRun pid => if s.permitted pid call then s.dryCall pid call else none
  | .event => s.events.getLast?.bind fun e =>
      if s.permitted e.iid.pid call then s.exec e.iid.pid call else none

inductive Turn where
  | next (pid alt : ℕ)
  | continue
  | dryRun (pid : ℕ)
  | cancelReplay
  | schedule (pid : ℕ)
  /-- A new event that the interpreter refuses. -/
  | refused (pid : ℕ)
  | call (call : PsoCall)

def step (s : PsoRecorder) : Turn → Option PsoRecorder
  | .next pid alt => s.nextEvent pid alt
  | .continue => s.continueEvent
  | .dryRun pid => s.beginDryRun pid
  | .cancelReplay => some { s with replay := false }
  | .schedule pid => s.newEvent pid
  | .refused pid => (s.newEvent pid).bind refuseSchedule
  | .call call => s.performCall call

end PsoRecorder

end Nidhugg
