import Nidhugg.Model.SymEv
import Nidhugg.Model.VClock

/-! # The recorder of the RFSC trace builder

How `RFSCTraceBuilder` records an execution: scheduling, replay of a leaf, and the calls of
the interpreter. A result of `none` is an out-of-range access or a failed assertion; the
assertions that later code relies on are kept. Decision nodes and metadata are left out. -/

namespace Nidhugg

namespace RfscTraceBuilder

/-- A sequence of instructions of one thread of which only the first may conflict. -/
structure Event where
  size : ℕ
  pinned : Bool
  /-- The identifier of the first instruction. -/
  iid : IID
  clock : VClock
  aboveClock : VClock
  /-- Positions of events that happen before this one. -/
  happensAfter : List ℕ
  mayConflict : Bool
  /-- The event that is read from, which may be the initial one. -/
  readFrom : Option (Option ℕ)
  sym : SymEv

def Event.new (iid : IID) : Event :=
  ⟨1, false, iid, VClock.empty, VClock.empty, [], false, none, .none⟩

structure Thread where
  available : Bool
  spawnEvent : Option ℕ
  /-- The positions of the events of the thread, one for each instruction. -/
  eventIndices : List ℕ

structure Mutex where
  lastAccess : Option ℕ
  lastLock : Option ℕ
  locked : Bool

/-- One event of a leaf. -/
structure Branch where
  pid : ℕ
  size : ℕ
  pinned : Bool
  sym : SymEv
  size_pos : 0 < size

/-- The events to replay. The last one is a load whose source has been changed, or one of
an earlier decision. -/
structure Leaf where
  branches : List Branch
  last_visible : ∀ b ∈ branches.getLast?, b.sym.empty = false

end RfscTraceBuilder

open RfscTraceBuilder

structure RfscTraceBuilder where
  threads : List Thread
  /-- The fixed events and those executed so far. -/
  events : List Event
  /-- The last update of each byte. -/
  mem : SymAddr → Option ℕ
  mutexes : SymAddr → Option Mutex
  mutexDeadlocks : SymAddr → List ℕ
  /-- The number of events that have been scheduled. -/
  scheduled : ℕ
  /-- Whether the current event has had its symbolic event set. -/
  seenEffect : Bool
  replay : Bool
  cancelled : Bool

namespace RfscTraceBuilder

/-! ### Starting an execution -/

/-- The events of a leaf. The map holds the next index of each thread. -/
def leafEvents : List Branch → (ℕ → ℕ) → List Event
  | [], _ => []
  | b :: branches, iidMap =>
      { Event.new ⟨b.pid, iidMap b.pid⟩ with size := b.size, sym := b.sym, pinned := b.pinned } ::
        leafEvents branches (Function.update iidMap b.pid (iidMap b.pid + b.size))

/-- `reset` once it has a leaf. -/
def reset (leaf : Leaf) : RfscTraceBuilder where
  threads := [⟨true, none, []⟩]
  events := leafEvents leaf.branches fun _ => 1
  mem := fun _ => none
  mutexes := fun _ => none
  mutexDeadlocks := fun _ => []
  scheduled := 0
  seenEffect := false
  replay := true
  cancelled := false

/-! ### Scheduling -/

/-- The position of the current event. -/
def prefixIdx (s : RfscTraceBuilder) : ℕ := s.scheduled - 1

def curev (s : RfscTraceBuilder) : Option Event :=
  if s.scheduled = 0 then none else s.events[s.prefixIdx]?

def modifyCurev (s : RfscTraceBuilder) (f : Event → Event) : RfscTraceBuilder :=
  { s with events := s.events.modify s.prefixIdx f }

def modifyThread (s : RfscTraceBuilder) (p : ℕ) (f : Thread → Thread) : RfscTraceBuilder :=
  { s with threads := s.threads.modify p f }

/-- The positions of the events of a thread. -/
def eventIndices (s : RfscTraceBuilder) (p : ℕ) : List ℕ :=
  (s.threads[p]?.map Thread.eventIndices).getD []

def lastEventIndex (s : RfscTraceBuilder) (p : ℕ) : ℕ := (s.eventIndices p).length

def available (s : RfscTraceBuilder) (p : ℕ) : Bool := (s.threads[p]?.map Thread.available).getD false

def pushIndex (s : RfscTraceBuilder) (p : ℕ) : Option RfscTraceBuilder :=
  if p < s.threads.length then
    some (s.modifyThread p fun t => { t with eventIndices := t.eventIndices ++ [s.prefixIdx] })
  else none

/-- Whether instructions of the current event are left to replay. -/
def continues (s : RfscTraceBuilder) : Bool :=
  match s.curev with
  | none => false
  | some e => s.lastEventIndex e.iid.pid < e.iid.index + e.size - 1

/-- Merges the last two events if the last one has no conflicts. -/
def mergeLast (s : RfscTraceBuilder) : Option RfscTraceBuilder :=
  match s.events.reverse with
  | last :: previous :: rest =>
      if last.iid.pid = previous.iid.pid ∧ last.mayConflict = false then
        if last.sym.empty then
          some { s with
            events := rest.reverse ++ [{ previous with size := previous.size + 1 }]
            scheduled := s.scheduled - 1
            threads := s.threads.modify previous.iid.pid fun t =>
              { t with eventIndices := t.eventIndices.dropLast ++ [s.prefixIdx - 1] } }
        else none
      else some s
  | _ => some s

/-- The first available thread below the depth bound. -/
def findThread (maxSearchDepth : Option ℕ) (s : RfscTraceBuilder) : Option ℕ :=
  (List.range s.threads.length).find? fun p =>
    s.available p && maxSearchDepth.all (s.lastEventIndex p < ·)

/-- The part of `schedule` that creates an event. -/
def scheduleNew (maxSearchDepth : Option ℕ) (s : RfscTraceBuilder) :
    Option (Option ℕ × RfscTraceBuilder) := do
  let s ← s.mergeLast
  match s.findThread maxSearchDepth with
  | none => return (none, s)
  | some p =>
      let s ← { s with seenEffect := false, scheduled := s.scheduled + 1 }.pushIndex p
      return (some p, { s with events := s.events ++ [Event.new ⟨p, s.lastEventIndex p⟩] })

/-- The thread to run next. It is empty if `schedule` returns false. -/
def schedule (maxSearchDepth : Option ℕ) (s : RfscTraceBuilder) :
    Option (Option ℕ × RfscTraceBuilder) :=
  if s.cancelled then some (none, s)
  else if s.replay then
    if s.continues then do
      let e ← s.curev
      if s.available e.iid.pid then
        let s ← s.pushIndex e.iid.pid
        return (some e.iid.pid, s)
      else none
    else if s.scheduled = s.events.length then scheduleNew maxSearchDepth { s with replay := false }
    else do
      let s := { s with seenEffect := false, scheduled := s.scheduled + 1 }
      let e ← s.curev
      let s ← s.pushIndex e.iid.pid
      return (some e.iid.pid, s)
  else scheduleNew maxSearchDepth s

def mark (s : RfscTraceBuilder) (p : ℕ) (available : Bool) : RfscTraceBuilder :=
  s.modifyThread p fun t => { t with available := available }

/-- Takes back the current event, which has to be a new one. -/
def refuseSchedule (s : RfscTraceBuilder) : Option RfscTraceBuilder := do
  let e ← s.curev
  if s.scheduled = s.events.length ∧ e.size = 1 ∧ e.mayConflict = false ∧ s.replay = false then
    let s := s.modifyThread e.iid.pid fun t => { t with eventIndices := t.eventIndices.dropLast }
    return { s with events := s.events.dropLast, scheduled := s.scheduled - 1 }.mark e.iid.pid false
  else none

/-! ### Recording the effect of an instruction -/

def setMayConflict (s : RfscTraceBuilder) : RfscTraceBuilder :=
  s.modifyCurev fun e => { e with mayConflict := true }

/-- The flag is false for an event that has become another one when replayed. -/
def recordSymbolic (event : SymEv) (s : RfscTraceBuilder) : Option (Bool × RfscTraceBuilder) := do
  let last ← s.curev
  if s.seenEffect then none
  else if s.replay && !last.sym.isCompatibleWith event then return (false, s)
  else return (true, { s.modifyCurev fun e => { e with sym := event } with seenEffect := true })

/-- Records an event and, if that succeeds, its effect. -/
def recording (event : SymEv) (effect : RfscTraceBuilder → Option RfscTraceBuilder)
    (s : RfscTraceBuilder) : Option (Bool × RfscTraceBuilder) := do
  let (recorded, s) ← s.recordSymbolic event
  if recorded then return (true, ← effect s) else return (false, s)

def doLoad (ml : SymAddrSize) (s : RfscTraceBuilder) : RfscTraceBuilder :=
  s.modifyCurev fun e => { e with mayConflict := true, readFrom := some (s.mem ml.addr) }

def doAtomicStore (ml : SymAddrSize) (s : RfscTraceBuilder) : RfscTraceBuilder :=
  { s.setMayConflict with
    mem := fun b => if b ∈ ml.bytes then some s.prefixIdx else s.mem b }

/-- Adds an edge from an earlier event. Consecutive duplicates are dropped. -/
def addHappensAfter (second first : ℕ) (happensAfter : List ℕ) : Option (List ℕ) :=
  if first < second then
    some (if happensAfter.getLast? = some first then happensAfter else happensAfter ++ [first])
  else none

def addHappensAfterThread (thread : ℕ) (s : RfscTraceBuilder) : Option RfscTraceBuilder := do
  let t ← s.threads[thread]?
  match t.eventIndices.getLast? with
  | none => return s
  | some first =>
      let e ← s.curev
      let happensAfter ← addHappensAfter s.prefixIdx first e.happensAfter
      return s.modifyCurev fun e => { e with happensAfter := happensAfter }

def getMutex (s : RfscTraceBuilder) (a : SymAddr) : Mutex := (s.mutexes a).getD ⟨none, none, false⟩

/-- The current event reads the last access of the mutex and becomes the last one. -/
def accessMutex (a : SymAddr) (update : Mutex → Mutex) (s : RfscTraceBuilder) : RfscTraceBuilder :=
  let mutex := s.getMutex a
  { s.modifyCurev fun e => { e with readFrom := some mutex.lastAccess } with
    mutexes := Function.update s.mutexes a
      (some { update mutex with lastAccess := some s.prefixIdx }) }

def spawn (s : RfscTraceBuilder) : Option (Bool × RfscTraceBuilder) :=
  s.setMayConflict.recording (.spawn s.threads.length) fun s =>
    some { s with threads := s.threads ++ [⟨true, some s.prefixIdx, []⟩] }

def atomicStore (ml : SymAddrSize) (written : Block ml.size) (s : RfscTraceBuilder) :
    Option (Bool × RfscTraceBuilder) :=
  s.recording (.store ml written) fun s => some (s.doAtomicStore ml)

def atomicRmw (ml : SymAddrSize) (written : Block ml.size) (action : RmwAction ml.size)
    (s : RfscTraceBuilder) : Option (Bool × RfscTraceBuilder) :=
  s.recording (.rmw ml written action.kind (some action.operand) action.resultUsed) fun s =>
    some ((s.doLoad ml).doAtomicStore ml)

def load (ml : SymAddrSize) (s : RfscTraceBuilder) : Option (Bool × RfscTraceBuilder) :=
  s.recording (.load ml) fun s => some (s.doLoad ml)

def compareExchange (ml : SymAddrSize) (written expected : Block ml.size) (success : Bool)
    (s : RfscTraceBuilder) : Option (Bool × RfscTraceBuilder) :=
  if success then
    s.recording (.cmpXhg ml written expected) fun s => some ((s.doLoad ml).doAtomicStore ml)
  else s.recording (.cmpXhgFail ml written expected) fun s => some (s.doLoad ml)

def join (tgtProc : ℕ) (s : RfscTraceBuilder) : Option (Bool × RfscTraceBuilder) :=
  s.setMayConflict.recording (.join tgtProc) (addHappensAfterThread tgtProc)

def mutexLock (ml : SymAddrSize) (s : RfscTraceBuilder) : Option (Bool × RfscTraceBuilder) :=
  s.setMayConflict.recording (.mutex .lock ml) fun s =>
    some (s.accessMutex ml.addr fun m => { m with lastLock := some s.prefixIdx, locked := true })

/-- Remembers the current thread as blocked at the mutex. -/
def mutexLockFail (a : SymAddr) (s : RfscTraceBuilder) : Option RfscTraceBuilder := do
  let e ← s.curev
  return { s with
    mutexDeadlocks := Function.update s.mutexDeadlocks a (s.mutexDeadlocks a ++ [e.iid.pid]) }

def mutexTrylock (ml : SymAddrSize) (s : RfscTraceBuilder) : Option (Bool × RfscTraceBuilder) :=
  let op := if (s.getMutex ml.addr).locked then MutexOp.trylockFail else .trylock
  s.setMayConflict.recording (.mutex op ml) fun s =>
    some (s.accessMutex ml.addr fun m =>
      if m.locked then m else { m with lastLock := some s.prefixIdx, locked := true })

def mutexUnlock (ml : SymAddrSize) (s : RfscTraceBuilder) : Option (Bool × RfscTraceBuilder) :=
  s.setMayConflict.recording (.mutex .unlock ml) fun s =>
    some { s.accessMutex ml.addr fun m => { m with locked := false } with
      mutexDeadlocks := Function.update s.mutexDeadlocks ml.addr [] }

def mutexInit (ml : SymAddrSize) (s : RfscTraceBuilder) : Option (Bool × RfscTraceBuilder) :=
  s.setMayConflict.recording (.mutex .init ml) fun s =>
    some { s.modifyCurev fun e => { e with readFrom := some none } with
      mutexes := Function.update s.mutexes ml.addr (some ⟨some s.prefixIdx, none, false⟩) }

def mutexDestroy (ml : SymAddrSize) (s : RfscTraceBuilder) : Option (Bool × RfscTraceBuilder) :=
  s.setMayConflict.recording (.mutex .delete ml) fun s =>
    some (s.accessMutex ml.addr fun m => { m with locked := false })

/-! ### The loop of the interpreter -/

inductive Instruction where
  /-- The thread is blocked, possibly at a mutex. -/
  | refused (mutex : Option SymAddr)
  /-- An instruction without a visible effect, or a fence. -/
  | invisible
  | spawn
  | atomicStore (ml : SymAddrSize) (written : Block ml.size)
  | atomicRmw (ml : SymAddrSize) (written : Block ml.size) (action : RmwAction ml.size)
  | load (ml : SymAddrSize)
  | compareExchange (ml : SymAddrSize) (written expected : Block ml.size) (success : Bool)
  | join (tgtProc : ℕ)
  | mutexLock (ml : SymAddrSize)
  | mutexTrylock (ml : SymAddrSize)
  | mutexUnlock (ml : SymAddrSize)
  | mutexInit (ml : SymAddrSize)
  | mutexDestroy (ml : SymAddrSize)
  | fullMemoryConflict
  /-- Condition variables and nondeterminism. -/
  | unsupported

def perform (s : RfscTraceBuilder) : Instruction → Option (Bool × RfscTraceBuilder)
  | .refused none => s.refuseSchedule.map (true, ·)
  | .refused (some a) => (s.mutexLockFail a).bind fun s => s.refuseSchedule.map (true, ·)
  | .invisible => some (true, s)
  | .spawn => s.spawn
  | .atomicStore ml written => s.atomicStore ml written
  | .atomicRmw ml written action => s.atomicRmw ml written action
  | .load ml => s.load ml
  | .compareExchange ml written expected success => s.compareExchange ml written expected success
  | .join tgtProc => s.join tgtProc
  | .mutexLock ml => s.mutexLock ml
  | .mutexTrylock ml => s.mutexTrylock ml
  | .mutexUnlock ml => s.mutexUnlock ml
  | .mutexInit ml => s.mutexInit ml
  | .mutexDestroy ml => s.mutexDestroy ml
  | .fullMemoryConflict => some (false, s)
  | .unsupported => some (false, s.setMayConflict)

/-- `Interpreter::abort`: cancels the replay and makes every thread unavailable. -/
def abort (s : RfscTraceBuilder) : RfscTraceBuilder :=
  { s with
    cancelled := true
    replay := false
    threads := s.threads.map fun t => { t with available := false } }

/-- One turn of the loop: the instruction of the scheduled thread, the threads whose
availability it changes, and whether it ends in an error. -/
structure Round where
  instruction : Instruction
  marks : List (ℕ × Bool)
  error : Bool

/-- There is no turn when `schedule` returns false. -/
def step (maxSearchDepth : Option ℕ) (s : RfscTraceBuilder) (r : Round) :
    Option RfscTraceBuilder := do
  let (proc, s) ← s.schedule maxSearchDepth
  let _ ← proc
  let (ok, s) ← s.perform r.instruction
  let s := r.marks.foldl (fun s m => s.mark m.1 m.2) s
  return if ok && !r.error then s else s.abort

end RfscTraceBuilder

end Nidhugg
