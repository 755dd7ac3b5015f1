import Nidhugg.Model.PsoRecorder
import Nidhugg.Model.VecSet

/-! # How a PSO trace builder explores

The branches that `PSOTraceBuilder` registers when it sees events, and the executions that it begins
at them. It goes through the calls of the recorder once more. As there, an event of a replayed
execution may be continued any number of times, and any thread that is awake may be scheduled. -/

namespace Nidhugg

/-- `PSOTraceBuilder::Branch` -/
structure PsoBranch where
  pid : ℕ
  alt : ℕ
deriving DecidableEq

/-- `operator<` -/
def PsoBranch.lt (b c : PsoBranch) : Bool := b.pid < c.pid || (b.pid = c.pid && b.alt < c.alt)

/-- What an event has besides what the recorder keeps of it. -/
structure PsoNode where
  branch : List PsoBranch
  /-- The threads that the event has woken up in earlier executions. -/
  wakeup : List ℕ

/-- The events up to `prefix_idx`. -/
structure PsoPrefix where
  recorder : PsoRecorder
  nodes : List PsoNode

namespace PsoRecorder

def indexOf (s : PsoRecorder) (i : ℕ) : ℕ := (s.events[i]?.map fun e => e.iid.index).getD 0

/-- The events among those that the current event sees for which `see_events` adds branches. -/
def races (s : PsoRecorder) (seen : List ℕ) : List ℕ :=
  (VecSet.ofRange (fun i j => decide (i < j)) seen).filter fun i =>
    !(s.clockOf i).leq (s.clockOf s.prefixIdx) &&
      seen.all fun j => i = j || !(s.clockOf i).leq (s.clockOf j)

end PsoRecorder

/-- How the loop of `add_branch` ends. -/
inductive PsoCandidate where
  /-- A candidate is a branch already, or asleep. -/
  | registered
  /-- The last candidate, unless there is none. -/
  | last (cand : Option ℕ)

namespace PsoPrefix

open PsoRecorder

def branchAt (s : PsoPrefix) (i : ℕ) : List PsoBranch := (s.nodes[i]?.map PsoNode.branch).getD []

def sleepAt (s : PsoPrefix) (i : ℕ) : List ℕ := (s.recorder.events[i]?.map PsoEvent.sleep).getD []

/-- The threads that an event wakes up, now or in earlier executions. -/
def wakeupAt (s : PsoPrefix) (i : ℕ) : List ℕ :=
  (s.nodes[i]?.map PsoNode.wakeup).getD [] ++
    (s.recorder.events[i]?.map PsoEvent.wakeup).getD []

/-- `sleep_set_at` -/
def sleepSetAt (s : PsoPrefix) (i : ℕ) : List ℕ :=
  (List.range i).foldl (fun sleep j => (sleep ++ s.sleepAt j).filter (· ∉ s.wakeupAt j)) [] ++
    s.sleepAt i

/-- Whether an event with a certain clock is after a candidate. -/
def isAfter (candidates : List (ℕ × ℕ)) (pclock : VClock) : Bool :=
  candidates.any fun c => c.2 ≤ pclock.get c.1

/-- The loop of `add_branch` over events after `i`. A candidate is a thread and the index of its
event. -/
def findCandidate (s : PsoPrefix) (i j : ℕ) (candidates : List (ℕ × ℕ)) (cand : Option ℕ) :
    List ℕ → PsoCandidate
  | [] => .last cand
  | k :: ks =>
      let p := s.recorder.pidOf k
      let pclock := s.recorder.clockOf k
      if (candidates.lookup p).isSome then s.findCandidate i j candidates cand ks
      else if k ≠ j && (s.recorder.clockOf i).leq pclock then s.findCandidate i j candidates cand ks
      else if isAfter candidates pclock then s.findCandidate i j candidates cand ks
      else if ⟨p, 0⟩ ∈ s.branchAt i || p ∈ s.sleepSetAt i then .registered
      else s.findCandidate i j ((p, s.recorder.indexOf k) :: candidates) (some p) ks

/-- `add_branch`: the branches at `prefix[i]` afterwards, unless an assertion fails. -/
def addBranch (s : PsoPrefix) (i j : ℕ) : Option (List PsoBranch) :=
  if i < j && j ≤ s.recorder.prefixIdx then
    match s.findCandidate i j [] none (List.range' (i + 1) (j - i)) with
    | .registered => some (s.branchAt i)
    | .last none => none
    | .last (some p) => some (VecSet.insert PsoBranch.lt (s.branchAt i) ⟨p, 0⟩)
  else none

end PsoPrefix

/-- An event of the replayed execution after `prefix_idx`. -/
structure PsoPlanned where
  pid : ℕ
  alt : ℕ
  mayConflict : Bool
  sleep : List ℕ
  node : PsoNode

/-- A call of `add_branch`. -/
structure PsoAddBranch where
  before : PsoPrefix
  i : ℕ
  j : ℕ

structure PsoExploration extends PsoPrefix where
  planned : List PsoPlanned
  /-- All calls of `add_branch` up to now. -/
  calls : List PsoAddBranch

namespace PsoExploration

open PsoRecorder

/-- The state before the first execution. -/
def initial : PsoExploration := ⟨⟨.initial false, []⟩, [], []⟩

/-! ### Branches -/

/-- What only the recorder notices. -/
def record (t : PsoExploration) (f : PsoRecorder → PsoRecorder) : PsoExploration :=
  { t with recorder := f t.recorder }

def record? (t : PsoExploration) (f : PsoRecorder → Option PsoRecorder) : Option PsoExploration :=
  (f t.recorder).map fun s => { t with recorder := s }

def modifyBranch (t : PsoExploration) (i : ℕ) (f : List PsoBranch → List PsoBranch) :
    PsoExploration :=
  { t with nodes := t.nodes.modify i fun n => { n with branch := f n.branch } }

/-- Calls `add_branch` for an event and the current one. -/
def callAddBranch (t : PsoExploration) (i : ℕ) : PsoExploration :=
  let j := t.recorder.prefixIdx
  { t.modifyBranch i fun branch => (t.toPsoPrefix.addBranch i j).getD branch with
    calls := t.calls ++ [⟨t.toPsoPrefix, i, j⟩] }

/-- `see_events` -/
def seeEvents (t : PsoExploration) (pid : ℕ) (seen : List ℕ) : PsoExploration :=
  (t.recorder.races seen).foldl callAddBranch (t.record (·.seeEvents pid seen))

/-- Calls `add_branch` for an event, unless the current event is after it. -/
def conflictWith (t : PsoExploration) (i : ℕ) : PsoExploration :=
  if (t.recorder.clockOf i).leq (t.recorder.clockOf t.recorder.prefixIdx) then t
  else t.callAddBranch i

/-- Registers the alternatives of the current event, but for the first one. -/
def insertAlternatives (t : PsoExploration) (altCount : ℕ) : PsoExploration :=
  let i := t.recorder.prefixIdx
  if t.recorder.curAlt = 0 then
    t.modifyBranch i fun branch => (List.range' 1 (altCount - 1)).foldl
      (fun branch alt => VecSet.insert PsoBranch.lt branch ⟨t.recorder.pidOf i, alt⟩) branch
  else t

def registerAlternatives (t : PsoExploration) (altCount : ℕ) : PsoExploration :=
  (t.record conflicting).insertAlternatives altCount

/-! ### Stores and loads -/

def performStore (t : PsoExploration) (pid : ℕ) (ml : AccessRange) (lastRowe : Option ℕ) :
    PsoExploration :=
  let tipid := t.recorder.realThread pid
  let t := t.record fun s => s.seeEvents pid (ml.bytes.flatMap (s.ownUpdate tipid))
  let t := t.seeEvents pid
    (ml.bytes.flatMap (t.recorder.storeSees tipid) ++ t.recorder.lastFullMemoryConflict)
  t.record (·.registerStore pid ml lastRowe)

def update (t : PsoExploration) (uipid tipid : ℕ) (ml : AccessRange) : Option PsoExploration := do
  let pst ← t.recorder.oldestStore tipid ml
  let t := t.record fun s => s.conflicting.addClock uipid pst.clock
  let t := t.performStore uipid ml pst.lastRowe
  return t.record fun s =>
    let s := s.modifyThread tipid fun t => { t with storeBuffers := t.storeBuffers.popRange ml }
    let sum := (s.auxClockSum tipid).addAssign (s.clockOf s.prefixIdx)
    { s with auxClockSum := Function.update s.auxClockSum tipid sum }

def realStore (t : PsoExploration) (tipid : ℕ) (ml : AccessRange) : Option PsoExploration :=
  if t.recorder.allBuffersEmpty tipid then
    some ((t.record fun s => (s.threads tipid).auxs.foldl
      (fun s aux => s.addClock tipid (s.threadClock aux.2)) s.conflicting).performStore tipid ml
        none)
  else none

def atomicStore (t : PsoExploration) (pid : ℕ) (ml : AccessRange) : Option PsoExploration :=
  match (t.recorder.threads pid).owner with
  | some tipid => t.update pid tipid ml
  | none => t.realStore pid ml

def memoryLoad (t : PsoExploration) (pid : ℕ) (ml : AccessRange) : PsoExploration :=
  let t := t.record fun s => s.seeEvents pid (ml.bytes.flatMap (s.loadJoins pid ml))
  let t := t.seeEvents pid
    (ml.bytes.flatMap (t.recorder.loadSees pid) ++ t.recorder.lastFullMemoryConflict)
  t.record fun s => ml.bytes.foldl (readByte pid) s

def load (t : PsoExploration) (pid : ℕ) (ml : AccessRange) : Option PsoExploration :=
  let buffers := (t.recorder.threads pid).storeBuffers
  if t.recorder.hasPendingStore pid ml.1.addr then
    if (buffers.get ml.1.addr).getLast?.any fun pst => pst.ml = ml then
      some (t.record fun s => s.conflicting.markRowe pid ml.1.addr)
    else none
  else some ((t.record conflicting).memoryLoad pid ml)

def compareExchange (t : PsoExploration) (pid : ℕ) (ml : AccessRange) (success : Bool) :
    Option PsoExploration :=
  if success then t.atomicStore pid ml else t.load pid ml

def atomicRmw (t : PsoExploration) (pid : ℕ) (ml : AccessRange) : Option PsoExploration :=
  (t.load pid ml).bind fun t => t.atomicStore pid ml

def fullMemoryConflict (t : PsoExploration) (pid : ℕ) : PsoExploration :=
  ((t.record conflicting).seeEvents pid t.recorder.fullMemorySees).record fun s =>
    { s.wakeup pid .wAllMemory with
      accesses.lastFullMemoryConflict := some t.recorder.prefixIdx
      accesses.mem := [] }

/-! ### Fences, mutexes and condition variables -/

/-- The beginning of the operations that wake up threads. -/
def conflictingAccess (t : PsoExploration) (pid : ℕ) (access : PsoAccess) : PsoExploration :=
  t.record fun s => s.conflicting.wakeup pid access

/-- What `mutex_lock` sees, which depends on whether there is a last lock. -/
def seeLocks (t : PsoExploration) (pid : ℕ) (mutex : PsoMutex) : PsoExploration :=
  match mutex.lastLock with
  | none => t.seeEvents pid (t.recorder.mutexSees mutex)
  | some i => ((t.conflictWith i).record (·.seeEvents pid mutex.lastAccess.toList)).seeEvents pid
      t.recorder.lastFullMemoryConflict

def mutexLock (t : PsoExploration) (pid : ℕ) (m : SymAddr) : Option PsoExploration := do
  let t ← t.record? (·.fence pid)
  let t := t.conflictingAccess pid (.w m)
  let t := t.seeLocks pid ((t.recorder.mutex? m).getD .new)
  return t.record fun s => s.setMutex m ⟨some s.prefixIdx, some s.prefixIdx, true⟩

/-- `mutex_lock_fail`, with the assertions that the mutex exists and has been locked. -/
def mutexLockFail (t : PsoExploration) (m : SymAddr) : Option PsoExploration := do
  let mutex ← t.recorder.mutex? m
  let i ← mutex.lastLock
  return t.recorder.lastFullMemoryConflict.foldl conflictWith (t.conflictWith i)

def mutexUnlock (t : PsoExploration) (pid : ℕ) (m : SymAddr) : Option PsoExploration := do
  let t ← t.record? (·.fence pid)
  let mutex ← t.recorder.mutex? m
  let _ ← mutex.lastAccess
  let t := t.conflictingAccess pid (.w m)
  let t := t.seeEvents pid (t.recorder.mutexSees mutex)
  return t.record fun s =>
    s.setMutex m { mutex with lastAccess := some s.prefixIdx, locked := false }

def mutexTrylock (t : PsoExploration) (pid : ℕ) (m : SymAddr) : Option PsoExploration := do
  let t ← t.record? (·.fence pid)
  let mutex ← t.recorder.mutex? m
  let t := t.conflictingAccess pid (.w m)
  let t := t.seeEvents pid (t.recorder.mutexSees mutex)
  return t.record fun s => s.setMutex m
    { lastAccess := some s.prefixIdx
      lastLock := if mutex.locked then mutex.lastLock else some s.prefixIdx
      locked := true }

def mutexInit (t : PsoExploration) (pid : ℕ) (m : SymAddr) : Option PsoExploration := do
  let t ← t.record? (·.fence pid)
  let t := t.record conflicting
  let mutex := (t.recorder.mutex? m).getD .new
  let t := t.seeEvents pid (t.recorder.mutexSees mutex)
  return t.record fun s => s.setMutex m { mutex with lastAccess := some s.prefixIdx }

def mutexDestroy (t : PsoExploration) (pid : ℕ) (m : SymAddr) : Option PsoExploration := do
  let t ← t.record? (·.fence pid)
  let mutex ← t.recorder.mutex? m
  let t := t.conflictingAccess pid (.w m)
  let t := t.seeEvents pid (t.recorder.mutexSees mutex)
  return t.record fun s => { s with accesses.mutexes := AssocList.erase s.accesses.mutexes m }

def condInit (t : PsoExploration) (pid : ℕ) (c : SymAddr) : Option PsoExploration := do
  let t ← t.record? (·.fence pid)
  match t.recorder.condVar? c with
  | some _ => some t
  | none =>
      let t := t.record fun s => s.conflicting.setCondVar c ⟨some s.prefixIdx, []⟩
      some (t.seeEvents pid t.recorder.lastFullMemoryConflict)

def signalWaiter (t : PsoExploration) (pid : ℕ) (c : SymAddr) (condVar : PsoCondVar) (alt : ℕ) :
    Option PsoExploration :=
  match condVar.waiters[alt]? with
  | some i =>
      let t := t.record fun s =>
        (s.wakeWaiter i).setCondVar c ⟨some s.prefixIdx, condVar.waiters.eraseIdx alt⟩
      some (t.seeEvents pid (t.recorder.lastFullMemoryConflict ++ [i]))
  | none =>
      if condVar.waiters.isEmpty then
        let t := t.record fun s => s.setCondVar c ⟨some s.prefixIdx, []⟩
        some (t.seeEvents pid t.recorder.lastFullMemoryConflict)
      else none

/-- The event has conflicts already when its alternatives are registered. -/
def condSignal (t : PsoExploration) (pid : ℕ) (c : SymAddr) : Option PsoExploration := do
  let t ← t.record? (·.fence pid)
  let t := t.conflictingAccess pid (.w c)
  match t.recorder.condVar? c with
  | none => some t
  | some condVar =>
      let t := if 1 < condVar.waiters.length then t.insertAlternatives condVar.waiters.length else t
      t.signalWaiter pid c condVar t.recorder.curAlt

def condBroadcast (t : PsoExploration) (pid : ℕ) (c : SymAddr) : Option PsoExploration := do
  let t ← t.record? (·.fence pid)
  let t := t.conflictingAccess pid (.w c)
  match t.recorder.condVar? c with
  | none => some t
  | some condVar =>
      let t := t.record fun s =>
        (condVar.waiters.foldl wakeWaiter s).setCondVar c ⟨some s.prefixIdx, []⟩
      some (t.seeEvents pid (t.recorder.lastFullMemoryConflict ++ condVar.waiters))

def waitFor (t : PsoExploration) (pid : ℕ) (c : SymAddr) : Option PsoExploration := do
  let t ← t.record? (·.fence pid)
  let t := t.conflictingAccess pid (.r c)
  match t.recorder.condVar? c with
  | none => some t
  | some condVar =>
      let t := t.record fun s =>
        s.setCondVar c { condVar with waiters := condVar.waiters ++ [s.prefixIdx] }
      some (t.seeEvents pid (t.recorder.lastFullMemoryConflict ++ condVar.lastSignal.toList))

def condWait (t : PsoExploration) (pid : ℕ) (c m : SymAddr) : Option PsoExploration :=
  if t.recorder.condWaitAccepts pid m then (t.mutexUnlock pid m).bind fun t => t.waitFor pid c
  else some t

def condDestroy (t : PsoExploration) (pid : ℕ) (c : SymAddr) : Option PsoExploration := do
  let t ← t.record? (·.fence pid)
  let t := t.conflictingAccess pid (.w c)
  match t.recorder.condVar? c with
  | none => some t
  | some condVar =>
      let t := t.seeEvents pid
        (condVar.lastSignal.toList ++ t.recorder.lastFullMemoryConflict ++ condVar.waiters)
      some (t.record fun s =>
        { s with accesses.condVars := AssocList.erase s.accesses.condVars c })

/-! ### Calls -/

/-- A call by the current event of a thread. -/
def exec (t : PsoExploration) (pid : ℕ) : PsoCall → Option PsoExploration
  | .spawn => some (t.record (·.spawn pid))
  | .store ml => some (t.record (·.store pid ml))
  | .atomicStore ml => t.atomicStore pid ml
  | .compareExchange ml success => t.compareExchange pid ml success
  | .atomicRmw ml => t.atomicRmw pid ml
  | .load ml => t.load pid ml
  | .fullMemoryConflict => some (t.fullMemoryConflict pid)
  | .fence => t.record? (·.fence pid)
  | .join tgtProc => t.record? (·.join pid tgtProc)
  | .mutexLock m => t.mutexLock pid m
  | .mutexUnlock m => t.mutexUnlock pid m
  | .mutexTrylock m => t.mutexTrylock pid m
  | .mutexInit m => t.mutexInit pid m
  | .mutexDestroy m => t.mutexDestroy pid m
  | .condInit c => t.condInit pid c
  | .condSignal c => t.condSignal pid c
  | .condBroadcast c => t.condBroadcast pid c
  | .condWait c m => t.condWait pid c m
  | .condAwake _ m => t.mutexLock pid m
  | .condDestroy c => t.condDestroy pid c
  | .registerAlternatives altCount => some (t.registerAlternatives altCount)

/-- A call in the dry run of a thread. Alternatives are registered at the last event. -/
def dryCall (t : PsoExploration) (pid : ℕ) : PsoCall → Option PsoExploration
  | .registerAlternatives altCount => some (t.registerAlternatives altCount)
  | call => t.record? (·.dryCall pid call)

def performCall (t : PsoExploration) (call : PsoCall) : Option PsoExploration :=
  match t.recorder.running with
  | .nobody => none
  | .dryRun pid => if t.recorder.permitted pid call then t.dryCall pid call else none
  | .event => t.recorder.events.getLast?.bind fun e =>
      if t.recorder.permitted e.iid.pid call then t.exec e.iid.pid call else none

/-! ### Scheduling -/

/-- A new event. The event before it may have been merged with the one before that. -/
def newEvent (t : PsoExploration) (pid : ℕ) : Option PsoExploration :=
  if t.planned.isEmpty then
    (t.recorder.newEvent pid).map fun s =>
      { t with recorder := s, nodes := t.nodes.take (s.events.length - 1) ++ [⟨[], []⟩] }
  else none

/-- A new event that the interpreter refuses, perhaps because it does not get a lock. -/
def refusedEvent (t : PsoExploration) (pid : ℕ) (lock : Option SymAddr) :
    Option PsoExploration := do
  let t ← t.newEvent pid
  let t ← lock.elim (some t) t.mutexLockFail
  let s ← t.recorder.refuseSchedule
  return { t with recorder := s, nodes := t.nodes.take s.events.length }

/-- The next event of the replayed execution, after the dry runs before it. -/
def nextEvent (t : PsoExploration) : Option PsoExploration :=
  match t.planned with
  | [] => none
  | e :: planned =>
      if t.recorder.drySleepers = e.sleep then
        (t.recorder.nextEvent e.pid e.alt).map fun s => { t with
          recorder := if e.mayConflict then s.conflicting else s
          nodes := t.nodes ++ [e.node]
          planned := planned }
      else none

/-- The dry run of the next thread that is put to sleep before the next event. -/
def beginDryRun (t : PsoExploration) : Option PsoExploration := do
  let e ← t.planned.head?
  let pid ← e.sleep[t.recorder.drySleepers.length]?
  t.record? (·.beginDryRun pid)

/-- The events of the execution as they are planned if it is replayed. -/
def executed (t : PsoExploration) : List PsoPlanned :=
  List.zipWith (fun e n =>
    ⟨e.iid.pid, e.alt, e.mayConflict, e.sleep, ⟨n.branch, n.wakeup ++ e.wakeup⟩⟩)
    t.recorder.events t.nodes

/-- The event that takes the first branch instead of an event. -/
def branchOff (e : PsoPlanned) : Option PsoPlanned :=
  match e.node.branch with
  | [] => none
  | br :: branch => some
      { pid := br.pid
        alt := br.alt
        mayConflict := false
        sleep := if br.pid = e.pid then e.sleep
          else VecSet.insert (fun p q => decide (p < q)) e.sleep e.pid
        node := ⟨branch, []⟩ }

/-- The events of the next execution, which takes a branch at the last event that has any. -/
def nextExecution : List PsoPlanned → Option (List PsoPlanned)
  | [] => none
  | e :: events =>
      match nextExecution events with
      | some planned => some (e :: planned)
      | none => (branchOff e).map fun e => [e]

/-- `reset` -/
def reset (t : PsoExploration) : Option PsoExploration :=
  (nextExecution (t.executed ++ t.planned)).map fun planned =>
    ⟨⟨.initial true, []⟩, planned, t.calls⟩

inductive Turn where
  | next
  | continue
  | dryRun
  | cancelReplay
  | schedule (pid : ℕ)
  | refused (pid : ℕ) (lock : Option SymAddr)
  | call (call : PsoCall)
  /-- The current event does not get a lock. -/
  | lockFail (m : SymAddr)
  | reset

def step (t : PsoExploration) : Turn → Option PsoExploration
  | .next => t.nextEvent
  | .continue => t.record? continueEvent
  | .dryRun => t.beginDryRun
  | .cancelReplay => some { t with recorder.replay := false, planned := [] }
  | .schedule pid => t.newEvent pid
  | .refused pid lock => t.refusedEvent pid lock
  | .call call => t.performCall call
  | .lockFail m => if t.recorder.running = .event then t.mutexLockFail m else none
  | .reset => t.reset

end PsoExploration

end Nidhugg
