import Nidhugg.Model.VClock
import Nidhugg.Library.PostOrder
import Nidhugg.Library.SortedSearch

/-! # The saturated event graph

Events carry program order, reads-from and explicit edges. Saturation adds the
from-read and coherence edges that these force and keeps a vector clock on every event.

Vectors and maps indexed by event, process or address are total functions that read as
empty outside their domain; `size` and `numPids` are the lengths of `events` and
`events_by_pid`. Events are named by their position in `events`. -/

namespace Nidhugg

open SortedSearch

inductive EventKind where
  | none
  | store
  | load
  | rmw
deriving DecidableEq, Repr

def EventKind.isLoad : EventKind → Bool
  | .load | .rmw => true
  | .none | .store => false

def EventKind.isStore : EventKind → Bool
  | .store | .rmw => true
  | .none | .load => false

structure Event where
  iid : IID
  extId : IID
  isLoad : Bool
  isStore : Bool
  addr : SymAddr
  /-- Empty when the event reads the initial value. -/
  readFrom : Option ℕ
  readers : List ℕ
  poPredecessor : Option ℕ
deriving Inhabited

/-- The arguments of one `add_event` call. -/
structure EventSpec where
  pid : ℕ
  extId : IID
  kind : EventKind
  addr : SymAddr
  readFrom : Option IID
  happensAfter : List IID
deriving DecidableEq, Repr

/-- The assertions on process indices and on pending work that can break, a lookup of an
unknown identifier, and exhausted fuel. -/
inductive Fault where
  | zeroIndex
  | indexRange
  | unsaturated
  | unknownEvent
  | outOfFuel
deriving DecidableEq, Repr

structure SaturatedGraph where
  size : ℕ
  extidToId : IID → Option ℕ
  events : ℕ → Event
  ins : ℕ → List ℕ
  outs : ℕ → List ℕ
  /-- The first write of each process to an address. -/
  writesByAddress : SymAddr → List (ℕ × ℕ)
  readsFromInit : SymAddr → List ℕ
  numPids : ℕ
  eventsByPid : ℕ → List ℕ
  vclocks : ℕ → VClock
  writesByProcessAndAddress : ℕ → SymAddr → List ℕ
  saturatedUntil : ℕ
  wqQueue : List ℕ
  wqSet : ℕ → Bool

namespace SaturatedGraph

def empty : SaturatedGraph where
  size := 0
  extidToId := fun _ => none
  events := fun _ => default
  ins := fun _ => []
  outs := fun _ => []
  writesByAddress := fun _ => []
  readsFromInit := fun _ => []
  numPids := 0
  eventsByPid := fun _ => []
  vclocks := fun _ => VClock.empty
  writesByProcessAndAddress := fun _ _ => []
  saturatedUntil := 0
  wqQueue := []
  wqSet := fun _ => false

/-! ## The work queue -/

def wqAdd (g : SaturatedGraph) (id : ℕ) : SaturatedGraph :=
  if g.wqSet id then g
  else { g with wqSet := Function.update g.wqSet id true, wqQueue := g.wqQueue ++ [id] }

def wqAddFirst (g : SaturatedGraph) (id : ℕ) : SaturatedGraph :=
  if g.wqSet id then g
  else { g with wqSet := Function.update g.wqSet id true, wqQueue := id :: g.wqQueue }

def wqEmpty (g : SaturatedGraph) : Bool := g.wqQueue.isEmpty

/-- The popped event and the remaining graph, when the queue is not empty. -/
def wqPop (g : SaturatedGraph) : Option (ℕ × SaturatedGraph) :=
  match g.wqQueue with
  | [] => none
  | id :: rest =>
      some (id, { g with wqQueue := rest, wqSet := Function.update g.wqSet id false })

/-! ## Edges -/

def pushIn (g : SaturatedGraph) (dst src : ℕ) : SaturatedGraph :=
  { g with ins := Function.update g.ins dst (g.ins dst ++ [src]) }

def pushOut (g : SaturatedGraph) (src dst : ℕ) : SaturatedGraph :=
  { g with outs := Function.update g.outs src (g.outs src ++ [dst]) }

def addEdgeInternal (g : SaturatedGraph) (src dst : ℕ) : SaturatedGraph :=
  ((g.pushOut src dst).pushIn dst src).wqAdd dst

def addEdges (g : SaturatedGraph) (edges : List (ℕ × ℕ)) : SaturatedGraph :=
  edges.foldl (fun g e => g.addEdgeInternal e.1 e.2) g

/-- `add_edge`; an unknown event makes the lookup throw. -/
def addEdge (g : SaturatedGraph) (src dst : IID) : Option SaturatedGraph := do
  let f ← g.extidToId src
  let t ← g.extidToId dst
  return g.addEdgeInternal f t

/-! ## Adding events -/

def addReader (g : SaturatedGraph) (w r : ℕ) : SaturatedGraph :=
  { g with
    events := Function.update g.events w
      { g.events w with readers := (g.events w).readers ++ [r] } }

/-- A read of the initial value precedes the first write of every process. -/
def addInitRead (g : SaturatedGraph) (id : ℕ) (addr : SymAddr) : SaturatedGraph :=
  (g.writesByAddress addr).foldl
    (fun g p => ((g.pushOut id p.2).pushIn p.2 id).wqAdd p.2) g

/-- A process's first write to an address follows every read of the initial value. -/
def addFirstWrite (g : SaturatedGraph) (pid : ℕ) (id : ℕ) (addr : SymAddr) :
    SaturatedGraph :=
  if (g.writesByAddress addr).any (·.1 = pid) then g
  else
    let g' := (g.readsFromInit addr).foldl (fun g r => (g.pushIn id r).pushOut r id) g
    { g' with
      writesByAddress :=
        Function.update g'.writesByAddress addr (g'.writesByAddress addr ++ [(pid, id)]) }

def recordWrite (g : SaturatedGraph) (pid : ℕ) (id : ℕ) (addr : SymAddr) :
    SaturatedGraph :=
  { g with
    writesByProcessAndAddress := Function.update g.writesByProcessAndAddress pid
      (Function.update (g.writesByProcessAndAddress pid) addr
        (g.writesByProcessAndAddress pid addr ++ [id])) }

/-- Links a new event behind the last event of its process and allocates its edge
vectors. -/
def addProgramOrder (g : SaturatedGraph) (pid : ℕ) (id : ℕ) (origIn : List ℕ) :
    SaturatedGraph :=
  { g with
    numPids := max g.numPids (pid + 1)
    eventsByPid := Function.update g.eventsByPid pid (g.eventsByPid pid ++ [id])
    outs := match (g.eventsByPid pid).getLast? with
      | some p => Function.update g.outs p (g.outs p ++ [id])
      | none => g.outs
    ins := Function.update g.ins id origIn }

/-- The reads-from part of `add_event`. -/
def addSource (g : SaturatedGraph) (id : ℕ) (s : EventSpec) (readFrom : Option ℕ) :
    SaturatedGraph :=
  match readFrom with
  | some w => g.addReader w id
  | none => if s.kind.isLoad then g.addInitRead id s.addr else g

/-- The store part of `add_event`. -/
def addWrite (g : SaturatedGraph) (id : ℕ) (s : EventSpec) : SaturatedGraph :=
  if s.kind.isStore then (g.addFirstWrite s.pid id s.addr).recordWrite s.pid id s.addr else g

def addOuts (g : SaturatedGraph) (id : ℕ) : SaturatedGraph :=
  (g.ins id).foldl (fun g after => g.pushOut after id) g

/-- The event that `add_event` creates. -/
def newEvent (g : SaturatedGraph) (s : EventSpec) (readFrom : Option ℕ) : Event where
  iid := ⟨s.pid, match (g.eventsByPid s.pid).getLast? with
    | some p => (g.events p).iid.index + 1
    | none => 1⟩
  extId := s.extId
  isLoad := s.kind.isLoad
  isStore := s.kind.isStore
  addr := s.addr
  readFrom := readFrom
  readers := []
  poPredecessor := (g.eventsByPid s.pid).getLast?

/-- `add_event` with its external identifiers already looked up. -/
def addResolved (g : SaturatedGraph) (s : EventSpec) (readFrom : Option ℕ)
    (origIn : List ℕ) : SaturatedGraph :=
  let id := g.size
  let e := g.newEvent s readFrom
  let g := { g with extidToId := Function.update g.extidToId s.extId (some id) }
  let g := g.addProgramOrder s.pid id origIn
  let g := ((g.addSource id s readFrom).addWrite id s).addOuts id
  let g := { g with
    size := id + 1
    events := Function.update g.events id e
    readsFromInit :=
      if readFrom.isNone && s.kind.isLoad then
        Function.update g.readsFromInit s.addr (g.readsFromInit s.addr ++ [id])
      else g.readsFromInit
    vclocks := Function.update g.vclocks id VClock.empty }
  g.wqAdd id

/-- `add_event`. The new identifier is entered in the map before the sources are looked
up; an unknown source makes the lookup throw. -/
def addEvent (g : SaturatedGraph) (s : EventSpec) : Option SaturatedGraph := do
  let lookup := Function.update g.extidToId s.extId (some g.size)
  let readFrom ← match s.readFrom with
    | some r => (lookup r).map some
    | none => some none
  let origIn ← s.happensAfter.mapM lookup
  return g.addResolved s readFrom origIn

/-! ## Lookups -/

def getProcessEvent (g : SaturatedGraph) (pid : ℕ) (index : ℕ) : Except Fault ℕ :=
  if index = 0 then .error .zeroIndex
  else match (g.eventsByPid pid)[index - 1]? with
    | some id => .ok id
    | none => .error .indexRange

def maybeGetProcessEvent (g : SaturatedGraph) (pid : ℕ) (index : ℕ) :
    Except Fault (Option ℕ) :=
  if index = 0 then .error .zeroIndex else .ok (g.eventsByPid pid)[index - 1]?

def hasEvent (g : SaturatedGraph) (id : IID) : Bool := (g.extidToId id).isSome

/-- `extid_to_id.at`. -/
def idOf (g : SaturatedGraph) (x : IID) : Except Fault ℕ :=
  match g.extidToId x with
  | some id => .ok id
  | none => .error .unknownEvent

def eventIsStore (g : SaturatedGraph) (x : IID) : Except Fault Bool := do
  return (g.events (← g.idOf x)).isStore

def eventAddr (g : SaturatedGraph) (x : IID) : Except Fault SymAddr := do
  return (g.events (← g.idOf x)).addr

def eventVc (g : SaturatedGraph) (x : IID) : Except Fault VClock := do
  if g.wqEmpty then return g.vclocks (← g.idOf x) else throw .unsaturated

/-- The identifiers of the events with an edge into an event. -/
def eventIn (g : SaturatedGraph) (x : IID) : Except Fault (List IID) := do
  let id ← g.idOf x
  let e := g.events id
  return (g.ins id ++ e.poPredecessor.toList ++ e.readFrom.toList).map
    fun a => (g.events a).extId

/-! ## Consistency -/

/-- The assertions of `check_graph_consistency` on one event. -/
def checkEvent (g : SaturatedGraph) (id : ℕ) : Bool :=
  let e := g.events id
  (g.ins id).all (fun i => (g.outs i).any (· = id)) &&
  (match e.readFrom with
    | none => true
    | some w => (g.events w).isStore && decide ((g.events w).addr = e.addr) &&
        (g.events w).readers.any (· = id)) &&
  (match e.poPredecessor with
    | none => true
    | some p => (g.outs p).any (· = id)) &&
  (g.outs id).all (fun o => (g.ins o).any (· = id) || (g.events o).poPredecessor = some id) &&
  (!e.isStore || e.readers.all fun r =>
    (g.events r).isLoad && (g.events r).readFrom = some id)

def checkGraphConsistency (g : SaturatedGraph) : Bool := (List.range g.size).all g.checkEvent

/-! ## Forward saturation -/

def initialVc (e : Event) : VClock := VClock.empty.set e.iid.pid e.iid.index

/-- The events with an edge into an event: program order, reads-from and `ins`. -/
def preds (e : Event) (ins : List ℕ) : List ℕ :=
  e.poPredecessor.toList ++ e.readFrom.toList ++ ins

def recomputeVc (g : SaturatedGraph) (e : Event) (ins : List ℕ) : VClock :=
  (preds e ins).foldl (fun vc id => vc.addAssign (g.vclocks id)) (initialVc e)

def isInCycle (g : SaturatedGraph) (e : Event) (ins : List ℕ) (vc : VClock) : Bool :=
  (preds e ins).any fun other => (g.vclocks other).eq vc

/-- The last write of `pid` to the event's address that the new clock shows, other than
the event itself, when the old clock did not show it. -/
def newlyVisibleWrite (g : SaturatedGraph) (id : ℕ) (addr : SymAddr)
    (oldVc vc : VClock) (pid : ℕ) : Except Fault (Option ℕ) := do
  if oldVc.get pid = vc.get pid then return none
  let writes := g.writesByProcessAndAddress pid addr
  let lastVisible ← g.getProcessEvent pid (vc.get pid)
  let shown := writes.take (upperBound writes lastVisible)
  let shown := if shown.getLast? = some id then shown.dropLast else shown
  match shown.getLast? with
  | none => return none
  | some pe =>
      if (g.events pe).iid.index ≤ oldVc.get pid then return none else return some pe

/-- The locals of one iteration of the saturation loop. -/
structure Visit where
  graph : SaturatedGraph
  newIn : Bool
  newEdges : List (ℕ × ℕ)

def addFromReads (id : ℕ) (readers : List ℕ) (v : Visit) : Visit :=
  readers.foldl (fun v r =>
    if r = id then v
    else { v with graph := (v.graph.pushIn id r).pushOut r id, newIn := true }) v

/-- One process's turn in the saturation logic of event `id`. The flag is false when a
cycle has been found. -/
def visitProc (id : ℕ) (e : Event) (oldVc vc : VClock) (v : Visit) (pid : ℕ) :
    Except Fault (Bool × Visit) := do
  match ← v.graph.newlyVisibleWrite id e.addr oldVc vc pid with
  | none => return (true, v)
  | some pe =>
      let v := if e.isStore then addFromReads id (v.graph.events pe).readers v else v
      if e.isLoad then
        match e.readFrom with
        | none => return (false, v)
        | some rf =>
            if pe = rf then return (true, v)
            else return (true, { v with newEdges := v.newEdges ++ [(pe, rf)] })
      else return (true, v)

def visitProcs (id : ℕ) (e : Event) (oldVc vc : VClock) :
    List ℕ → Visit → Except Fault (Bool × Visit)
  | [], v => .ok (true, v)
  | pid :: pids, v => do
      let (acyclic, v) ← visitProc id e oldVc vc v pid
      if acyclic then visitProcs id e oldVc vc pids v else return (false, v)

def addSuccessorsToWq (g : SaturatedGraph) (id : ℕ) (e : Event) : SaturatedGraph :=
  ((if e.isStore then e.readers else []) ++ g.outs id).foldl wqAdd g

/-- The end of an iteration whose clock has changed. -/
def finishVisit (id : ℕ) (e : Event) (vc : VClock) (v : Visit) : SaturatedGraph :=
  let g := v.graph.addSuccessorsToWq id e
  let g := { g with vclocks := Function.update g.vclocks id vc }
  let g := if v.newIn then g.wqAddFirst id else g
  g.addEdges v.newEdges

/-- One iteration of the saturation loop, after `id` has been popped. The flag is false
when a cycle has been found. -/
def saturateOne (g : SaturatedGraph) (id : ℕ) : Except Fault (Bool × SaturatedGraph) := do
  let e := g.events id
  let vc := g.recomputeVc e (g.ins id)
  let oldVc := g.vclocks id
  if g.isInCycle e (g.ins id) vc then return (false, g)
  if vc.eq oldVc then return (true, g)
  let pids := if e.isLoad || e.isStore then List.range vc.sizeUb else []
  let (acyclic, v) ← visitProcs id e oldVc vc pids ⟨g, false, []⟩
  if acyclic then return (true, finishVisit id e vc v) else return (false, v.graph)

def saturateLoop : ℕ → SaturatedGraph → Except Fault (Bool × SaturatedGraph)
  | 0, _ => .error .outOfFuel
  | fuel + 1, g =>
      match g.wqPop with
      | none => .ok (true, { g with wqSet := fun _ => false })
      | some (id, g) => do
          let (acyclic, g) ← g.saturateOne id
          if acyclic then saturateLoop fuel g else return (false, g)

/-- Enough iterations for the loop: every iteration either raises one of the
`size * numPids` clock entries, none of which exceeds `size`, or shortens the queue. -/
def fuel (g : SaturatedGraph) : ℕ :=
  (g.size * g.numPids * g.size + 1) * (g.size + 1) + 1

/-! ## Reverse saturation -/

def poSuccessor (g : SaturatedGraph) (id : ℕ) (e : Event) : Option ℕ :=
  let events := g.eventsByPid e.iid.pid
  if events.getLast? = some id then none else events[upperBound events id]?

/-- The events that `foreach_succ` visits. -/
def succs (g : SaturatedGraph) (id : ℕ) : List ℕ :=
  (g.poSuccessor id (g.events id)).toList ++ (g.events id).readers ++ g.outs id

/-- The old writes that a new event reads from. -/
def careRoots (g : SaturatedGraph) : List ℕ :=
  (List.range g.size).filterMap fun id =>
    if g.saturatedUntil ≤ id && (g.events id).isLoad then
      match (g.events id).readFrom with
      | some w => if w < g.saturatedUntil then some w else none
      | none => none
    else none

def reverseCareSet (g : SaturatedGraph) : List ℕ :=
  (PostOrder.visitAll g.succs (g.size + 1) PostOrder.Walk.start g.careRoots).order

def top (g : SaturatedGraph) : VClock :=
  ⟨(List.range g.numPids).map fun pid => (g.eventsByPid pid).length + 1⟩

/-- Computes the below-clock of `id` in place from the below-clocks of its successors. -/
def computeBelow (g : SaturatedGraph) (top : VClock) (below : ℕ → ClockRef) (id : ℕ) :
    ℕ → ClockRef :=
  let e := g.events id
  let start := (ClockRef.assign g.numPids top).set e.iid.pid e.iid.index
  (g.succs id).foldl (fun below o => Function.update below id ((below id).subAssign (below o)))
    (Function.update below id start)

/-- The first write of `pid` to the event's address below the event itself. -/
def firstVisibleWrite (g : SaturatedGraph) (id : ℕ) (addr : SymAddr) (vc : ClockRef)
    (pid : ℕ) : Except Fault (Option ℕ) := do
  let writes := g.writesByProcessAndAddress pid addr
  match ← g.maybeGetProcessEvent pid (vc.getD pid 0) with
  | none => return none
  | some firstVisible =>
      let shown := writes.drop (lowerBound writes firstVisible)
      if shown.head? = some id then return shown.tail.head? else return shown.head?

def reverseProc (id : ℕ) (addr : SymAddr) (vc : ClockRef) (newOut : List ℕ)
    (g : SaturatedGraph) (pid : ℕ) : Except Fault SaturatedGraph := do
  match ← g.firstVisibleWrite id addr vc pid with
  | none => return g
  | some pe =>
      return newOut.foldl (fun g r => if r = pe then g else g.addEdgeInternal r pe) g

/-- The readers of a store that were added since the last saturation. -/
def newOut (g : SaturatedGraph) (id : ℕ) : List ℕ :=
  if (g.events id).isStore then (g.events id).readers.filter (g.saturatedUntil ≤ ·) else []

/-- Handles one event of the care set: computes its below-clock and, when it is a store
with new readers, adds the from-read edges that forward saturation missed. -/
def reverseOne (top : VClock) (s : SaturatedGraph × (ℕ → ClockRef)) (id : ℕ) :
    Except Fault (SaturatedGraph × (ℕ → ClockRef)) := do
  let (g, below) := s
  let e := g.events id
  let below := g.computeBelow top below id
  let out := g.newOut id
  if out.isEmpty then return (g, below)
  let g ← (List.range g.numPids).foldlM (reverseProc id e.addr (below id) out) g
  return (g, below)

def reverseSaturate (g : SaturatedGraph) : Except Fault SaturatedGraph := do
  let g' ←
    if g.saturatedUntil ≠ 0 ∧ g.saturatedUntil ≠ g.size then
      let zero : ℕ → ClockRef := fun _ => List.replicate g.numPids 0
      let s ← g.reverseCareSet.foldlM (reverseOne g.top) (g, zero)
      pure s.1
    else pure g
  return { g' with saturatedUntil := g'.size }

/-- `saturate`: the verdict and the graph it leaves behind. -/
def saturate (g : SaturatedGraph) : Except Fault (Bool × SaturatedGraph) := do
  let g ← g.reverseSaturate
  g.saturateLoop g.fuel

end SaturatedGraph

end Nidhugg
