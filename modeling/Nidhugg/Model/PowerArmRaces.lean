import Nidhugg.Model.PowerArmRuns
import Nidhugg.Model.VecSet

/-! # Races in the runs of the POWER and ARM trace builder

How the accesses of committed events enter the memory, and how `detect_rw_conflicts` makes branches
of the events that are to be committed before a store and an earlier load change places. What the
axioms of the memory model, the fences and the dependencies allow is an answer that the operations
are given. An assertion that is checked here ends the run when it fails. -/

namespace Nidhugg.PowerArmRaces

open PowerArmBranches PowerArmRuns

/-! ### Memory -/

/-- The committed accesses to one byte. The loads of the initial value come first, then those of
each store. -/
structure Mem where
  coherence : List IID
  loads : List (List IID)
deriving DecidableEq, Repr

namespace Mem

def new : Mem := ⟨[], [[]]⟩

variable (m : Mem)

/-- A turn of the loop that makes room for a store. -/
def shift (m : Mem) (i : ℕ) : Mem where
  coherence := m.coherence.set i (m.coherence.getD (i - 1) ⟨0, 0⟩)
  loads := m.loads.set (i + 1) (m.loads.getD i [])

/-- The last turns of the loop, which ends at a position. -/
def shiftDown (coPos : ℕ) : ℕ → Mem → Mem
  | 0, m => m
  | turns + 1, m => shiftDown coPos turns (m.shift (coPos + turns + 1))

def commitStore (iid : IID) (coPos : ℕ) : Option Mem :=
  if coPos ≤ m.coherence.length then
    let m' := shiftDown coPos (m.coherence.length - coPos)
      ⟨m.coherence ++ [iid], m.loads ++ [[]]⟩
    some ⟨m'.coherence.set coPos iid, m'.loads.set (coPos + 1) []⟩
  else none

def insertLoad (iid : IID) (l : ℕ) : Mem :=
  { m with loads := m.loads.modify l fun iids => VecSet.insert IID.lt iids iid }

/-- Searches for the position of the store that is the source. -/
def commitLoad (iid : IID) : Option IID → Option Mem
  | none => some (m.insertLoad iid 0)
  | some src => (m.coherence.idxOf? src).map fun i => m.insertLoad iid (i + 1)

/-- `Mem::commit`. It fails if the position or the source does not exist. -/
def commit (iid : IID) (A : ByteAccess) : Choice → Option Mem
  | .coherence coPos => if A.isStore then m.commitStore iid coPos else m.commitLoad iid none
  | .source src => if A.isStore then none else m.commitLoad iid src

end Mem

abbrev Memory := Addr → Mem

def Memory.new : Memory := fun _ => .new

def commitAccess (iid : IID) (mem : Memory) (x : ByteAccess × Choice) : Option Memory :=
  ((mem x.1.addr).commit iid x.1 x.2).map (Function.update mem x.1.addr)

/-- There is a choice for each access. -/
def commitAccesses (baccesses : List ByteAccess) (mem : Memory) (pe : PEvent) : Option Memory :=
  if baccesses.length = pe.choices.length then
    (baccesses.zip pe.choices).foldlM (commitAccess pe.iid) mem
  else none

/-! ### Programs -/

/-- What is known of the accesses of an event when it is committed. -/
structure Accesses where
  loadCount : ℕ
  storeCount : ℕ
  /-- Whether there is a requirement on the first load. -/
  loadReq : Bool
  baccesses : List ByteAccess
  /-- `register_addr` keeps one store for each byte. -/
  distinct : baccesses.Pairwise fun A B => A.isStore = true → B.isStore = true → A.addr ≠ B.addr
  stores : ∀ A ∈ baccesses, A.isStore = true → 0 < storeCount

def Accesses.none : Accesses := ⟨0, 0, false, [], .nil, by simp⟩

/-- The events that have been committed in a run, the latest first. -/
abbrev History := List PEvent

/-- The interpreter is deterministic. It registers the same accesses again when the same events are
committed with the same choices. -/
abbrev Program := History → IID → Accesses

/-! ### Events -/

structure Event where
  committed : Bool
  filledStatus : FilledStatus
  accesses : Accesses
  /-- The choices of the parameter. -/
  curParam : List Choice
  newParams : List (List Choice)
  recalcParams : RecalcParams
  recalcParamsLoadSrc : IID
  newBranches : List Branch
  /-- `branch_start` and `branch_end`. -/
  lockedBranch : Option (ℕ × ℕ)
  curBranch : Branch
  clockIndex : ℕ
  cbBwd : ℕ → Bool

/-- An event that has been fetched. -/
def Event.new (clockIndex : ℕ) : Event where
  committed := false
  filledStatus := .complete
  accesses := .none
  curParam := []
  newParams := []
  recalcParams := .no
  recalcParamsLoadSrc := ⟨0, 0⟩
  newBranches := []
  lockedBranch := none
  curBranch := ⟨[], .wr⟩
  clockIndex := clockIndex
  cbBwd := fun c => c = clockIndex

/-- A place where no event has been fetched. -/
def Event.empty : Event := { Event.new 0 with filledStatus := .empty }

/-- The event that `fetch` makes of what its place holds. -/
def Event.refill (evt : Event) (clockIndex : ℕ) : Event :=
  match evt.filledStatus with
  | .empty => .new clockIndex
  | .parameter =>
      { Event.new clockIndex with
        curParam := evt.curParam
        curBranch := evt.curBranch
        newBranches := evt.newBranches
        lockedBranch := evt.lockedBranch
        recalcParams := evt.recalcParams
        recalcParamsLoadSrc := evt.recalcParamsLoadSrc }
  | .complete =>
      { evt with
        accesses := .none
        clockIndex := clockIndex
        cbBwd := fun c => c = clockIndex }

def Event.isMutexLock (evt : Event) : Bool :=
  evt.accesses.loadCount + evt.accesses.storeCount = 2 && evt.accesses.loadCount = 1 &&
    evt.accesses.loadReq &&
    match evt.accesses.baccesses with
    | [A, B] => A.addr = B.addr
    | _ => false

/-- The sources among the choices. -/
def sources (choices : List Choice) : List IID :=
  choices.filterMap fun
    | .source src => src
    | .coherence _ => none

/-! ### The trace builder -/

structure TB where
  /-- `prefix`. -/
  pfx : List IID
  schedCount : ℕ
  evt : IID → Event
  /-- `fch_count` of each thread. -/
  fchCount : ℕ → ℕ
  nextClockIndex : ℕ
  mem : Memory
  isAborted : Bool

/-- What the relations between the events allow. -/
structure Relations where
  /-- Whether known addresses and data, fences and earlier accesses to the same bytes allow to
  commit an event. -/
  ready : IID → Bool
  /-- The events of the same thread that `compute_cb` takes up. -/
  cbPreds : IID → List IID
  /-- Whether the next choice, behind the earlier ones, is in the range of a byte access. -/
  allowed : IID → List Choice → Choice → Bool
  /-- Whether the choices are in line with the axioms and the load requirements. -/
  consistent : IID → List Choice → Bool

namespace TB

def init : TB where
  pfx := []
  schedCount := 0
  evt := fun _ => .empty
  fchCount := fun _ => 0
  nextClockIndex := 0
  mem := .new
  isAborted := false

variable (tb : TB)

def modifyEvt (iid : IID) (f : Event → Event) : TB :=
  { tb with evt := Function.update tb.evt iid (f (tb.evt iid)) }

/-- An event with its current parameter. -/
def pevent (iid : IID) : PEvent := ⟨iid, (tb.evt iid).curParam⟩

/-- The events in front of a position of the prefix, the latest first. -/
def planned (i : ℕ) : History := ((tb.pfx.take i).map tb.pevent).reverse

def history : History := tb.planned tb.schedCount

def abort : TB := { tb with isAborted := true }

/-- Whether the event has been fetched in the current run. -/
def isFetched (iid : IID) : Bool := 0 < iid.index && iid.index ≤ tb.fchCount iid.pid

def fetch (proc : ℕ) : TB :=
  { tb.modifyEvt ⟨proc, tb.fchCount proc + 1⟩ fun evt => evt.refill tb.nextClockIndex with
    fchCount := Function.update tb.fchCount proc (tb.fchCount proc + 1)
    nextClockIndex := tb.nextClockIndex + 1 }

/-- The events that an event depends on have been committed before it. -/
def committable (R : Relations) (iid : IID) : Bool :=
  tb.isFetched iid && !(tb.evt iid).committed && R.ready iid &&
    (R.cbPreds iid).all fun d => tb.isFetched d && (tb.evt d).committed

/-! ### Parameters -/

/-- The choices for a byte access. -/
def choicesFor (R : Relations) (iid : IID) (choices : List Choice) (A : ByteAccess) :
    List Choice :=
  let coherence := (tb.mem A.addr).coherence
  (if A.isStore then (List.range (coherence.length + 1)).map .coherence
    else coherence.reverse.map (fun src => .source (some src)) ++ [.source none]).filter
      (R.allowed iid choices)

def populateParameters (R : Relations) (iid : IID) : List (List Choice) :=
  ((tb.evt iid).accesses.baccesses.foldl (fun prm A => prm.flatMap fun choices =>
    (tb.choicesFor R iid choices A).map fun C => choices ++ [C]) [[]]).filter (R.consistent iid)

/-- The parameters that may be chosen, of those that have been computed. -/
def eligible (evt : Event) (params : List (List Choice)) : List (List Choice) :=
  match evt.recalcParams with
  | .no | .star => params
  | .load => params.filter fun P => evt.recalcParamsLoadSrc ∈ sources P
  | .param => (params.find? fun P => P = evt.curParam).toList

/-! ### Conflicts -/

/-- `compute_cb`, for the sources of the loads or without them. -/
def computeCb (R : Relations) (iid : IID) (srcs : List IID) (c : ℕ) : Bool :=
  c = (tb.evt iid).clockIndex || (R.cbPreds iid ++ srcs).any fun d => (tb.evt d).cbBwd c

def lockLockRace (w r : IID) : Bool := (tb.evt w).isMutexLock && (tb.evt r).isMutexLock

/-- The events that are committed before the store. For two locks, those that are so whatever the
source of the store. -/
def raceCb (R : Relations) (w r : IID) (c : ℕ) : Bool :=
  if tb.lockLockRace w r then tb.computeCb R w [] c else (tb.evt w).cbBwd c

def isConflict (R : Relations) (w r : IID) : Bool :=
  !(r.pid = w.pid && r.index ≤ w.index) && !tb.raceCb R w r (tb.evt r).clockIndex &&
    match (tb.evt r).lockedBranch with
    | none => true
    | some (_, branchEnd) => !tb.lockLockRace w r && tb.pfx[branchEnd]? = some r

/-- The loads that do not read from the store. -/
def conflicts (R : Relations) (w : IID) : List IID :=
  (((tb.evt w).accesses.baccesses.filter (·.isStore)).flatMap fun A =>
    (tb.mem A.addr).loads.flatten.filter (tb.isConflict R w)).foldl (VecSet.insert IID.lt) []

/-- `bnc_start`. -/
def branchStart (r : IID) : ℕ :=
  match (tb.evt r).lockedBranch with
  | none => tb.pfx.idxOf r
  | some (start, _) => start

/-- One removed store less. The position must be that of a store. -/
def decrement : Choice → Option Choice
  | .coherence (coPos + 1) => some (.coherence coPos)
  | _ => none

/-- Goes through the coherence order up to the event. -/
def decreaseFor (removed : List IID) (iid : IID) : List IID → Choice → Option Choice
  | [], _ => none
  | s :: coherence, C =>
      if s = iid then some C
      else if s ∈ removed then (decrement C).bind (decreaseFor removed iid coherence)
      else decreaseFor removed iid coherence C

/-- `decrease_co_pos`, of the current parameter. -/
def decreaseCoPos (removed : List IID) (iid : IID) : Option (List Choice) :=
  ((tb.evt iid).accesses.baccesses.zip (tb.evt iid).curParam).mapM fun (A, C) =>
    if A.isStore then decreaseFor removed iid (tb.mem A.addr).coherence C else some C

/-- The removed stores and the events of the branch. -/
def collectEvent (cb : ℕ → Bool) (st : List IID × List PEvent) (iid : IID) :
    Option (List IID × List PEvent) :=
  if cb (tb.evt iid).clockIndex then
    (tb.decreaseCoPos st.1 iid).map fun choices => (st.1, st.2 ++ [⟨iid, choices⟩])
  else if 0 < (tb.evt iid).accesses.storeCount then some (iid :: st.1, st.2)
  else some st

/-- The events of a branch before the store. -/
def collect (R : Relations) (w r : IID) : Option (List PEvent) :=
  (((tb.pfx.take tb.schedCount).drop (tb.branchStart r)).foldlM
    (tb.collectEvent (tb.raceCb R w r)) ([], [])).map (·.2)

/-- What `normalise_branch` reads of an event. -/
def getEvt (iid : IID) : PowerArmBranches.Event :=
  ⟨(tb.evt iid).accesses.baccesses, (tb.evt iid).clockIndex, (tb.evt iid).cbBwd⟩

/-- The branch of a conflict. The parameters at its end are computed anew. -/
def raceBranch (R : Relations) (w r : IID) : Option Branch :=
  (tb.collect R w r).map fun events =>
    normaliseBranch tb.getEvt
      (if tb.lockLockRace w r then ⟨events ++ [⟨w, []⟩], .star⟩
      else ⟨events ++ [⟨w, []⟩, ⟨r, []⟩], .wr⟩)

def insertBranch (evt : Event) (B : Branch) : Event :=
  if evt.lockedBranch.isNone || evt.curBranch.lt B then
    { evt with newBranches := VecSet.insert Branch.lt evt.newBranches B }
  else evt

/-- Inserts the branch of a conflict at the event where it starts. -/
def addBranch (tb' : TB) (r : IID) (B : Branch) : TB :=
  match tb.pfx[tb.branchStart r]? with
  | none => tb'
  | some first => tb'.modifyEvt first fun evt => insertBranch evt B

def detectRwConflicts (R : Relations) (w : IID) : Option TB :=
  (tb.conflicts R w).foldlM (fun tb' r => (tb.raceBranch R w r).map (tb.addBranch tb' r)) tb

/-! ### Committing events -/

/-- Takes up the accesses that have been registered. -/
def register (prog : Program) (iid : IID) : TB :=
  tb.modifyEvt iid fun evt => { evt with accesses := prog tb.history iid }

/-- Commits the current parameter. -/
def commitParam (R : Relations) (iid : IID) : Option TB :=
  (commitAccesses (tb.evt iid).accesses.baccesses tb.mem (tb.pevent iid)).map fun mem =>
    { tb.modifyEvt iid fun evt =>
        { evt with cbBwd := tb.computeCb R iid (sources evt.curParam) } with
      mem := mem }

/-- The part of `commit` before `detect_rw_conflicts`, and whether the event could be committed. -/
def prepare (R : Relations) (iid : IID) (replay : Bool) : Option (Bool × TB) :=
  let evt := tb.evt iid
  if !replay || evt.recalcParams ≠ .no then
    if evt.newParams.isEmpty then
      let params := eligible evt (tb.populateParameters R iid)
      match params.getLast? with
      | none => some (false, tb)
      | some P =>
          ((tb.modifyEvt iid fun evt =>
            { evt with curParam := P, newParams := params.dropLast, recalcParams := .no }).commitParam
              R iid).map (true, ·)
    else none
  else (tb.commitParam R iid).map (true, ·)

/-- The end of `commit`. -/
def commit (R : Relations) (iid : IID) (replay : Bool) : Option (Bool × TB) := do
  let (committed, tb') ← tb.prepare R iid replay
  let tb' ← tb'.detectRwConflicts R iid
  some (committed, if committed then
    tb'.modifyEvt iid fun evt => { evt with committed := true } else tb')

/-- Whether the event is the planned one. -/
def replays : Bool := tb.schedCount < tb.pfx.length

/-- `schedule` commits the planned event, or it tries the events that are committable one after the
other. This is one of its attempts. -/
def attempts (R : Relations) (iid : IID) : Bool :=
  !tb.isAborted && tb.committable R iid && (!tb.replays || tb.pfx[tb.schedCount]? = some iid)

def schedule (prog : Program) (R : Relations) (iid : IID) : Option TB :=
  if tb.attempts R iid then do
    let (committed, tb') ← (tb.register prog iid).commit R iid tb.replays
    some (if committed then
      { tb' with
        pfx := if tb.replays then tb.pfx else tb.pfx ++ [iid]
        schedCount := tb.schedCount + 1 }
      else tb')
  else none

/-! ### The next run -/

/-- Clears the fetched events. Those that are kept are removed selectively. -/
def clearEvents (kept : IID → Bool) : TB :=
  { tb with evt := fun iid =>
      if tb.isFetched iid then
        if kept iid then { tb.evt iid with committed := false, accesses := .none }
        else { tb.evt iid with filledStatus := .empty }
      else tb.evt iid }

/-- The end of `replay` and `reset`. -/
def clearRun : TB :=
  { tb with
    schedCount := 0
    fchCount := fun _ => 0
    nextClockIndex := 0
    mem := .new
    isAborted := false }

/-- Repeats the run. -/
def replay : TB := (tb.clearEvents fun iid => (tb.evt iid).committed).clearRun

/-- The latest place of the prefix where something else may be explored. -/
def lastChoice : Option ℕ :=
  (List.range tb.pfx.length).reverse.find? fun i => (tb.pfx[i]?).any fun iid =>
    !(tb.evt iid).newParams.isEmpty || !(tb.evt iid).newBranches.isEmpty

/-- Takes up the next parameter of an event, and tells how much of the prefix is kept. -/
def nextParam (i : ℕ) (iid : IID) : Option (TB × ℕ) :=
  let tb' := tb.modifyEvt iid fun evt =>
    { evt with
      curParam := evt.newParams.getLast?.getD []
      newParams := evt.newParams.dropLast }
  match (tb.evt iid).lockedBranch with
  | none => some (tb', i + 1)
  | some (_, branchEnd) =>
      if branchEnd = i then some (tb', i + 1)
      else if branchEnd = i + 1 then
        -- the load at the end of the branch is chosen anew
        (tb.pfx[i + 1]?).map fun load =>
          (tb'.modifyEvt load fun evt =>
            { evt with recalcParams := .load, filledStatus := .parameter }, i + 2)
      else none

/-- Prepares an event of a locked branch. -/
def lockEvent (i branchEnd : ℕ) (tb : TB) (pe : PEvent) : TB :=
  tb.modifyEvt pe.iid fun evt =>
    { evt with
      curParam := pe.choices
      lockedBranch := some (i, branchEnd)
      newBranches := []
      newParams := []
      filledStatus := .parameter
      recalcParams := .param }

/-- The parameters that are chosen anew at the end of a locked branch. -/
def recalcTail (tb : TB) (B : Branch) : TB :=
  match B.paramType, B.branch.reverse with
  | .wr, r :: w :: _ =>
      (tb.modifyEvt w.iid fun evt => { evt with recalcParams := .star }).modifyEvt r.iid fun evt =>
        { evt with recalcParams := .load, recalcParamsLoadSrc := w.iid }
  | .star, l :: _ => tb.modifyEvt l.iid fun evt => { evt with recalcParams := .star }
  | _, _ => tb

/-- Locks the first of the branches at an event. -/
def nextBranch (i : ℕ) (iid : IID) (B : Branch) (branches : List Branch) : TB × ℕ :=
  let len := B.branch.length
  let tb' := tb.modifyEvt iid fun evt => { evt with newBranches := [] }
  let tb' := { tb' with pfx := tb.pfx.take i ++ B.branch.map (·.iid) ++ tb.pfx.drop (i + len) }
  let tb' := recalcTail (B.branch.foldl (lockEvent i (i + len - 1)) tb') B
  match tb'.pfx[i]? with
  | none => (tb', i + len)
  | some first =>
      (tb'.modifyEvt first fun evt =>
        { evt with
          newBranches := unionExceptOne evt.newBranches (B :: branches)
          curBranch := B }, i + len)

/-- Clears what the run leaves behind. A part of the prefix is kept. -/
def keep (newPfxLen : ℕ) : TB :=
  { (tb.clearEvents fun iid => iid ∈ tb.pfx.take newPfxLen).clearRun with
    pfx := tb.pfx.take newPfxLen }

/-- Prepares the next run, if there is anything left to explore. -/
def reset : Option TB :=
  match tb.lastChoice.bind fun i => (tb.pfx[i]?).map (i, ·) with
  | none => some tb
  | some (i, iid) =>
      match (tb.evt iid).newParams, (tb.evt iid).newBranches with
      | [], B :: branches =>
          let (tb', newPfxLen) := tb.nextBranch i iid B branches
          some (tb'.keep newPfxLen)
      | _, _ => (tb.nextParam i iid).map fun (tb', newPfxLen) => tb'.keep newPfxLen

/-! ### Runs -/

/-- What is asked of the trace builder. -/
inductive Call where
  | fetch (proc : ℕ)
  | schedule (R : Relations) (iid : IID)
  | abort
  | reset
  | replay

def step (prog : Program) : Call → Option TB
  | .fetch proc => some (tb.fetch proc)
  | .schedule R iid => tb.schedule prog R iid
  | .abort => some tb.abort
  | .reset => tb.reset
  | .replay => some tb.replay

/-- A state that any sequence of calls leads to, over any number of runs. -/
inductive Reachable (prog : Program) : TB → Prop
  | init : Reachable prog init
  | step {tb tb' : TB} {call : Call} (h : Reachable prog tb) (hstep : tb.step prog call = some tb') :
      Reachable prog tb'

end TB

end Nidhugg.PowerArmRaces
