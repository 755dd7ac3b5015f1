import Nidhugg.Model.PowerArmBranches

/-! # Runs of the POWER and ARM trace builder

How events are fetched, committed and prepared for the next run, and the count of those that have
yet to be committed and have no load requirement. What the relations between events allow is an
answer that the operations are given. Memory, clocks, fences and dependencies are left out, and so
are the assertions that a release build goes on without. -/

namespace Nidhugg

namespace PowerArmBranches

/-! ### The order of branches -/

/-- `operator<` of choices. The position in a coherence order comes before a source. -/
def Choice.lt : Choice → Choice → Bool
  | .coherence a, .coherence b => a < b
  | .coherence _, .source _ => true
  | .source _, .coherence _ => false
  | .source a, .source b => (a.getD ⟨0, 0⟩).lt (b.getD ⟨0, 0⟩)

def PEvent.lt (a b : PEvent) : Bool :=
  a.iid.lt b.iid || (a.iid = b.iid && a.choices.lex b.choices Choice.lt)

def ParamType.lt : ParamType → ParamType → Bool
  | .wr, .star => true
  | _, _ => false

/-- Shorter branches are less than longer ones. -/
def Branch.lt (A B : Branch) : Bool :=
  if A.paramType ≠ B.paramType then A.paramType.lt B.paramType
  else if A.branch.length ≠ B.branch.length then A.branch.length < B.branch.length
  else A.branch.lex B.branch PEvent.lt

/-- The union of two sorted sets. -/
def union : List Branch → List Branch → List Branch
  | [], Bs => Bs
  | As, [] => As
  | A :: As, B :: Bs =>
      if A.lt B then A :: union As (B :: Bs)
      else if A = B then A :: union As Bs
      else B :: union (A :: As) Bs
termination_by As Bs => As.length + Bs.length

/-- The first branch is left out. -/
def unionExceptOne (tgt branches : List Branch) : List Branch := union tgt branches.tail

end PowerArmBranches

namespace PowerArmRuns

open PowerArmBranches

/-! ### Events -/

/-- Which parts of an event are defined. -/
inductive FilledStatus where
  | empty
  | parameter
  | complete
deriving DecidableEq, Repr

/-- How the parameters are computed anew when an event of a branch is committed again. -/
inductive RecalcParams where
  | no
  | star
  | load
  | param
deriving DecidableEq, Repr

/-- The choices for the byte accesses, with the stores that the event then reads from. -/
structure Param where
  choices : List Choice
  rfBwd : List IID
deriving DecidableEq, Repr

/-- `ldreqfun_t`. -/
abbrev LoadReq := List UInt8 → Bool

structure Access where
  isStore : Bool
  loadReq : Option LoadReq

/-- The identifier of an event is its place in `fch`. -/
structure Event where
  committed : Bool
  filledStatus : FilledStatus
  accesses : List Access
  loadCount : ℕ
  unknownAddrCount : ℤ
  unknownDataCount : ℤ
  curParam : Param
  newParams : List Param
  recalcParams : RecalcParams
  recalcParamsLoadSrc : IID
  newBranches : List Branch
  /-- `branch_start` and `branch_end`. -/
  lockedBranch : Option (ℕ × ℕ)

def newAccesses (loadCount storeCount : ℕ) : List Access :=
  List.replicate loadCount ⟨false, none⟩ ++ List.replicate storeCount ⟨true, none⟩

def Event.new (loadCount storeCount : ℕ) : Event where
  committed := false
  filledStatus := .complete
  accesses := newAccesses loadCount storeCount
  loadCount := loadCount
  unknownAddrCount := loadCount + storeCount
  unknownDataCount := storeCount
  curParam := ⟨[], []⟩
  newParams := []
  recalcParams := .no
  recalcParamsLoadSrc := ⟨0, 0⟩
  newBranches := []
  lockedBranch := none

/-- Whether any access has a load requirement. -/
def Event.hasLoadReq (evt : Event) : Bool :=
  (evt.accesses.take evt.loadCount).any fun access => access.loadReq.isSome

/-- The event that `fetch` makes of what its place holds. -/
def Event.refill (evt : Event) (loadCount storeCount : ℕ) : Event :=
  match evt.filledStatus with
  | .empty => .new loadCount storeCount
  | .parameter =>
      { Event.new loadCount storeCount with
        curParam := evt.curParam
        newBranches := evt.newBranches
        lockedBranch := evt.lockedBranch
        recalcParams := evt.recalcParams
        recalcParamsLoadSrc := evt.recalcParamsLoadSrc }
  | .complete =>
      { evt with
        unknownAddrCount := loadCount + storeCount
        unknownDataCount := storeCount
        accesses := newAccesses loadCount storeCount }

/-! ### The trace builder -/

/-- Of a thread of the current run. -/
structure Thread where
  fchCount : ℕ
  committedPrefix : ℕ
  addrKnownPrefix : ℕ
deriving DecidableEq, Repr

def Thread.new : Thread := ⟨0, 0, 0⟩

structure TB where
  /-- `prefix`. -/
  pfx : List IID
  schedCount : ℕ
  fetchCount : ℕ
  uncommittedNonblockingCount : ℤ
  fch : List (List Event)
  threads : List Thread
  isAborted : Bool

/-- What the relations between the events allow. -/
structure Relations where
  /-- Whether the fences and the earlier accesses to the same bytes allow to commit an event. -/
  ready : IID → Bool
  /-- `populate_parameters`. -/
  populateParameters : IID → List Param
  /-- `detect_rw_conflicts` of an event, for the branches at another event. -/
  detectRwConflicts : IID → IID → List Branch → List Branch

namespace TB

def init : TB where
  pfx := []
  schedCount := 0
  fetchCount := 0
  uncommittedNonblockingCount := 0
  fch := [[]]
  threads := [.new]
  isAborted := false

variable (tb : TB)

def getEvt (iid : IID) : Option Event :=
  if iid.index = 0 then none else (tb.fch[iid.pid]?).bind fun events => events[iid.index - 1]?

/-- Changes all events. -/
def mapEvents (f : IID → Event → Event) : TB :=
  { tb with fch := tb.fch.mapIdx fun p events => events.mapIdx fun i evt => f ⟨p, i + 1⟩ evt }

def modifyEvt (iid : IID) (f : Event → Event) : TB :=
  tb.mapEvents fun other evt => if other = iid then f evt else evt

/-- Whether the event has been fetched in the current run. -/
def isFetched (iid : IID) : Bool :=
  match tb.threads[iid.pid]? with
  | some T => 0 < iid.index && iid.index ≤ T.fchCount
  | none => false

def sleepsetIsEmpty : Bool := tb.uncommittedNonblockingCount = 0

def spawn (proc : ℕ) : Option TB :=
  if proc < tb.threads.length then
    some { tb with fch := tb.fch ++ [[]], threads := tb.threads ++ [.new] }
  else none

def abort : TB := { tb with isAborted := true }

/-! ### Fetching events -/

/-- Advances a prefix of the events of a thread while they satisfy the condition. -/
def advance (proc fchCount : ℕ) (p : Event → Bool) : ℕ → ℕ → ℕ
  | 0, n => n
  | turns + 1, n =>
      if n < fchCount && (tb.getEvt ⟨proc, n + 1⟩).any p then advance proc fchCount p turns (n + 1)
      else n

def updateAddrKnownPrefix (proc : ℕ) : TB :=
  { tb with threads := tb.threads.modify proc fun T =>
      { T with addrKnownPrefix :=
          tb.advance proc T.fchCount (·.unknownAddrCount = 0) T.fchCount T.addrKnownPrefix } }

def updateCommittedPrefix (proc : ℕ) : TB :=
  { tb with threads := tb.threads.modify proc fun T =>
      { T with committedPrefix :=
          tb.advance proc T.fchCount (·.committed) T.fchCount T.committedPrefix } }

/-- Puts an event in its place, which is at the end if the event has never been fetched. -/
def place (i : ℕ) (evt : Event) (events : List Event) : List Event :=
  if i < events.length then events.set i evt else events ++ [evt]

def fetch (proc loadCount storeCount : ℕ) : Option TB := do
  let T ← tb.threads[proc]?
  let events ← tb.fch[proc]?
  let evt := match events[T.fchCount]? with
    | some old => old.refill loadCount storeCount
    | none => .new loadCount storeCount
  let tb' : TB := { tb with
    fch := tb.fch.set proc (place T.fchCount evt events)
    fetchCount := tb.fetchCount + 1
    uncommittedNonblockingCount := tb.uncommittedNonblockingCount + 1
    threads := tb.threads.set proc { T with fchCount := T.fchCount + 1 } }
  some (tb'.updateAddrKnownPrefix proc)

def registerAddr (iid : IID) : Option TB := do
  let _ ← tb.getEvt iid
  some ((tb.modifyEvt iid fun evt =>
    { evt with unknownAddrCount := evt.unknownAddrCount - 1 }).updateAddrKnownPrefix iid.pid)

def registerData (iid : IID) : Option TB := do
  let _ ← tb.getEvt iid
  some (tb.modifyEvt iid fun evt => { evt with unknownDataCount := evt.unknownDataCount - 1 })

/-- The interpreter calls it for events that it has fetched and that wait for an operand. -/
def registerLoadRequirement (iid : IID) (a : ℕ) (f : LoadReq) : Option TB := do
  let evt ← tb.getEvt iid
  if tb.isFetched iid && !evt.committed && a < evt.loadCount && a < evt.accesses.length then
    let tb' := tb.modifyEvt iid fun evt =>
      { evt with accesses := evt.accesses.modify a fun access => { access with loadReq := some f } }
    some (if evt.hasLoadReq then tb'
      else { tb' with uncommittedNonblockingCount := tb.uncommittedNonblockingCount - 1 })
  else none

/-! ### Committing events -/

/-- The events of each thread with known addresses are committed in any order, as far as the other
relations allow. -/
def committable (R : Relations) (iid : IID) (evt : Event) : Bool :=
  !evt.committed && evt.unknownAddrCount = 0 && evt.unknownDataCount = 0 &&
    (tb.threads[iid.pid]?).any (fun T => iid.index ≤ T.addrKnownPrefix) && R.ready iid

/-- The parameters that may be chosen, of those that have been computed. -/
def eligible (evt : Event) (params : List Param) : List Param :=
  match evt.recalcParams with
  | .no | .star => params
  | .load => params.filter fun P => evt.recalcParamsLoadSrc ∈ P.rfBwd
  | .param => (params.find? fun P => P.choices = evt.curParam.choices).toList

def detectRwConflicts (R : Relations) (iid : IID) : TB :=
  tb.mapEvents fun other evt =>
    { evt with newBranches := R.detectRwConflicts iid other evt.newBranches }

/-- The end of `commit`, for the parameter that has been chosen. -/
def commitParam (R : Relations) (iid : IID) (evt : Event) : TB :=
  let tb' := (tb.detectRwConflicts R iid).modifyEvt iid fun evt => { evt with committed := true }
  if evt.hasLoadReq then tb'
  else { tb' with uncommittedNonblockingCount := tb'.uncommittedNonblockingCount - 1 }

/-- Whether the event could be committed. -/
def commit (R : Relations) (iid : IID) (evt : Event) (replay : Bool) : Bool × TB :=
  if !replay || evt.recalcParams ≠ .no then
    let params := eligible evt (R.populateParameters iid)
    match params.getLast? with
    | none =>
        (false, (tb.modifyEvt iid fun evt => { evt with newParams := [] }).detectRwConflicts R iid)
    | some P =>
        (true, (tb.modifyEvt iid fun evt =>
          { evt with curParam := P, newParams := params.dropLast, recalcParams := .no }).commitParam
            R iid evt)
  else (true, tb.commitParam R iid evt)

/-- Commits the first of the events that can be committed. -/
def scheduleNew (R : Relations) (tb : TB) : List IID → TB
  | [] => tb
  | iid :: iids =>
      match tb.getEvt iid with
      | none => scheduleNew R tb iids
      | some evt =>
          if tb.committable R iid evt then
            match tb.commit R iid evt false with
            | (true, tb') =>
                let tb' := tb'.updateCommittedPrefix iid.pid
                { tb' with pfx := tb'.pfx ++ [iid], schedCount := tb'.schedCount + 1 }
            | (false, tb') => scheduleNew R tb' iids
          else scheduleNew R tb iids

/-- The fetched events behind the committed prefixes of the threads. -/
def candidates : List IID :=
  tb.threads.zipIdx.flatMap fun (T, p) =>
    (List.range' T.committedPrefix (T.fchCount - T.committedPrefix)).map fun i => ⟨p, i + 1⟩

def schedule (R : Relations) : Option TB :=
  if tb.isAborted then some tb
  else match tb.pfx[tb.schedCount]? with
    | none => some (scheduleNew R tb tb.candidates)
    | some iid => do
        let evt ← tb.getEvt iid
        if tb.committable R iid evt then
          match tb.commit R iid evt true with
          | (false, tb') => some tb'
          | (true, tb') =>
              some { tb'.updateCommittedPrefix iid.pid with schedCount := tb'.schedCount + 1 }
        else none

/-! ### The next run -/

/-- Clears the fetched events. Those that are kept are removed selectively. -/
def clearEvents (kept : IID → Event → Bool) : TB :=
  tb.mapEvents fun iid evt =>
    if tb.isFetched iid then
      if kept iid evt then { evt with committed := false, accesses := [] }
      else { evt with filledStatus := .empty }
    else evt

/-- The end of `replay` and `reset`. -/
def clearRun : TB :=
  { tb with schedCount := 0, fetchCount := 0, threads := [.new], isAborted := false }

/-- Repeats the run. -/
def replay : TB := (tb.clearEvents fun _ evt => evt.committed).clearRun

/-- The latest place of the prefix where something else may be explored. -/
def lastChoice : Option ℕ :=
  (List.range tb.pfx.length).reverse.find? fun i =>
    ((tb.pfx[i]?).bind tb.getEvt).any fun evt =>
      !evt.newParams.isEmpty || !evt.newBranches.isEmpty

/-- Takes up the next parameter of an event, and tells how much of the prefix is kept. -/
def nextParam (i : ℕ) (iid : IID) (evt : Event) : TB × ℕ :=
  let tb' := tb.modifyEvt iid fun evt =>
    { evt with
      curParam := evt.newParams.getLast?.getD evt.curParam
      newParams := evt.newParams.dropLast }
  match evt.lockedBranch with
  | none => (tb', i + 1)
  | some (_, branchEnd) =>
      -- the load at the end of the branch is chosen anew if this is the store before it
      match if i = branchEnd then none else tb.pfx[i + 1]? with
      | none => (tb', branchEnd + 1)
      | some load =>
          (tb'.modifyEvt load fun evt =>
            { evt with recalcParams := .load, filledStatus := .parameter }, branchEnd + 1)

/-- Prepares an event of a locked branch. -/
def lockEvent (i branchEnd : ℕ) (tb : TB) (pe : PEvent) : TB :=
  tb.modifyEvt pe.iid fun evt =>
    { evt with
      curParam := ⟨pe.choices, []⟩
      lockedBranch := some (i, branchEnd)
      newBranches := []
      newParams := []
      filledStatus := .parameter
      recalcParams := .param }

/-- The parameters that are chosen anew at the end of a locked branch. -/
def recalcTail (tb : TB) (B : Branch) : TB :=
  match B.paramType, B.branch.reverse with
  | .wr, r :: w :: _ =>
      (tb.modifyEvt w.iid fun evt => { evt with recalcParams := .star }).modifyEvt r.iid fun evt =>
        { evt with recalcParams := .load, recalcParamsLoadSrc := w.iid }
  | .star, l :: _ => tb.modifyEvt l.iid fun evt => { evt with recalcParams := .star }
  | _, _ => tb

/-- Locks the first of the branches at an event. -/
def nextBranch (i : ℕ) (iid : IID) (B : Branch) (branches : List Branch) : TB × ℕ :=
  let len := B.branch.length
  let tb' := tb.modifyEvt iid fun evt => { evt with newBranches := [] }
  let tb' := { tb' with pfx := tb.pfx.take i ++ B.branch.map (·.iid) ++ tb.pfx.drop (i + len) }
  let tb' := recalcTail (B.branch.foldl (lockEvent i (i + len - 1)) tb') B
  match tb'.pfx[i]? with
  | none => (tb', i + len)
  | some first =>
      (tb'.modifyEvt first fun evt =>
        { evt with newBranches := unionExceptOne evt.newBranches branches }, i + len)

/-- Prepares the next run, if there is anything left to explore. -/
def reset : TB :=
  match tb.lastChoice.bind fun i =>
      (tb.pfx[i]?).bind fun iid => (tb.getEvt iid).map (i, iid, ·) with
  | none => tb
  | some (i, iid, evt) =>
      let (tb', newPfxLen) := match evt.newParams, evt.newBranches with
        | [], B :: branches => tb.nextBranch i iid B (B :: branches)
        | _, _ => tb.nextParam i iid evt
      let keep := tb'.pfx.take newPfxLen
      { (tb'.clearEvents fun iid _ => iid ∈ keep).clearRun with
        pfx := keep
        uncommittedNonblockingCount := 0 }

/-! ### Runs -/

/-- What is asked of the trace builder. -/
inductive Call where
  | spawn (proc : ℕ)
  | fetch (proc loadCount storeCount : ℕ)
  | registerAddr (iid : IID)
  | registerData (iid : IID)
  | registerLoadRequirement (iid : IID) (a : ℕ) (f : LoadReq)
  | schedule (R : Relations)
  | abort
  | reset
  | replay

def step : Call → Option TB
  | .spawn proc => tb.spawn proc
  | .fetch proc loadCount storeCount => tb.fetch proc loadCount storeCount
  | .registerAddr iid => tb.registerAddr iid
  | .registerData iid => tb.registerData iid
  | .registerLoadRequirement iid a f => tb.registerLoadRequirement iid a f
  | .schedule R => tb.schedule R
  | .abort => some tb.abort
  | .reset => some tb.reset
  | .replay => some tb.replay

end TB

end PowerArmRuns

end Nidhugg
