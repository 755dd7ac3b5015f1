import Nidhugg.Library.PostOrder
import Nidhugg.Library.SortedSearch
import Nidhugg.Model.RfscTraceBuilder

/-! # Planning in the RFSC trace builder

The clocks that `compute_vclocks` assigns to the events of a finished execution, and the
stores that `compute_prefixes` hands to `try_read_from`. -/

namespace Nidhugg.RfscTraceBuilder

open SortedSearch

/-! ### Clocks -/

/-- The event of a thread that contains the given instruction. -/
def findProcessEvent (s : RfscTraceBuilder) (p index : ℕ) : Option ℕ :=
  if index = 0 then none else (s.eventIndices p)[index - 1]?

/-- `clock += prefix[j].clock` for each event in a list. -/
def addClocks (s : RfscTraceBuilder) (clock : VClock) (js : List ℕ) : Option VClock :=
  js.foldlM (fun clock j => (s.events[j]?).map fun e => clock.addAssign e.clock) clock

/-- The clock of an event without reversible edges. Also gives the event before it in its
thread. -/
def computeAboveClock (s : RfscTraceBuilder) (i : ℕ) : Option (Option ℕ × RfscTraceBuilder) := do
  let e ← s.events[i]?
  let (last, clock, happensAfter) ←
    if 1 < e.iid.index then do
      let last ← s.findProcessEvent e.iid.pid (e.iid.index - 1)
      let previous ← s.events[last]?
      pure (some last, previous.clock, e.happensAfter)
    else do
      let t ← s.threads[e.iid.pid]?
      match t.spawnEvent with
      | none => pure (none, VClock.empty, e.happensAfter)
      | some j => pure (none, VClock.empty, ← addHappensAfter i j e.happensAfter)
  -- first the edges that cannot be reversed
  let clock ← s.addClocks (clock.set e.iid.pid e.iid.index) happensAfter
  return (last, { s with
    events := s.events.set i
      { e with clock := clock, aboveClock := clock, happensAfter := happensAfter } })

/-- The edges that leave each event. -/
abbrev Successors := List (List ℕ)

def Successors.push (successors : Successors) (j i : ℕ) : Successors :=
  successors.modify j (· ++ [i])

/-- One turn of the forward loop of `compute_vclocks`. -/
def computeClock (s : RfscTraceBuilder) (successors : Successors) (i : ℕ) :
    Option (RfscTraceBuilder × Successors) := do
  let (last, s) ← s.computeAboveClock i
  let e ← s.events[i]?
  let successors := last.toList.foldl (fun successors j => successors.push j i) successors
  let successors := e.happensAfter.foldl (fun successors j => successors.push j i) successors
  match e.readFrom with
  | some (some w) =>
      let clock ← s.addClocks e.clock [w]
      return ({ s with events := s.events.set i { e with clock := clock } }, successors.push w i)
  | _ => return (s, successors)

/-- The top of the clock lattice. -/
def top (s : RfscTraceBuilder) : VClock :=
  (List.range s.threads.length).foldl (fun c p => c.set p (s.lastEventIndex p)) VClock.empty

/-- The backward loop of `compute_vclocks` over the first `n` events. -/
def computeBelowClocks (s : RfscTraceBuilder) (successors : Successors) :
    ℕ → List ClockRef → List ClockRef
  | 0, below => below
  | i + 1, below =>
      let clock : ClockRef := (below.getD i []).set
        ((s.events[i]?.map (·.iid.pid)).getD 0) ((s.events[i]?.map (·.iid.index)).getD 0)
      let clock := (successors.getD i []).foldl
        (fun clock j => ClockRef.subAssign clock (below.getD j [])) clock
      computeBelowClocks s successors i (below.set i clock)

def computeVclocks (s : RfscTraceBuilder) : Option (RfscTraceBuilder × List ClockRef) := do
  let (s, successors) ← (List.range s.events.length).foldlM
    (fun r i => r.1.computeClock r.2 i) (s, List.replicate s.events.length [])
  let below := List.replicate s.events.length (ClockRef.assign s.threads.length s.top)
  return (s, s.computeBelowClocks successors s.events.length below)

/-! ### Candidates -/

def symevIsLockType : SymEv → Bool
  | .mutex _ _ => true
  | _ => false

def isLoad (e : Event) : Bool :=
  match e.sym with
  | .load _ | .rmw .. | .cmpXhg .. | .cmpXhgFail .. => true
  | sym => symevIsLockType sym

def isStore (e : Event) : Bool :=
  match e.sym with
  | .store .. | .cmpXhg .. | .rmw .. => true
  | sym => symevIsLockType sym

def getAddr (e : Event) : Option SymAddrSize := e.sym.addr?

/-- `writes_by_process_and_address`. -/
def writes (s : RfscTraceBuilder) (p : ℕ) (a : SymAddr) : List ℕ :=
  (List.range s.events.length).filter fun j =>
    (s.events[j]?).any fun e => isStore e && e.iid.pid = p && (getAddr e).any (·.addr = a)

/-- The stores of a thread that the loads of an event may read from. -/
def candidateRange (s : RfscTraceBuilder) (below : ClockRef) (e : Event) (a : SymAddr) (p : ℕ) :
    Option (List ℕ) :=
  let writes := s.writes p a
  let indices := writes.map fun w => (s.events[w]?.map (·.iid.index)).getD 0
  let start := upperBound indices (e.aboveClock.get p) - 1
  let stop := lowerBound indices (below.getD p 0)
  -- an adjacent read-modify-write has to be considered for swapping
  let swap := isStore e && (writes[stop]?.bind (s.events[·]?)).any isLoad
  let stop := if swap then stop + 1 else stop
  if start ≤ stop then some ((writes.take stop).drop start) else none

/-- The events handed to `try_read_from` for an event, the initial one last. Pinned events
and operations on mutexes are not loads here. -/
def candidates (s : RfscTraceBuilder) (below : List ClockRef) (i : ℕ) :
    Option (List (Option ℕ)) := do
  let e ← s.events[i]?
  if e.pinned || symevIsLockType e.sym || !isLoad e then return []
  else
    let ml ← getAddr e
    let ranges ← (List.range s.threads.length).mapM
      (s.candidateRange (below.getD i []) e ml.addr)
    return ranges.flatten.map some ++ [none]

end Nidhugg.RfscTraceBuilder

/-! # The formula for the reads-from solver

Which events `try_sat` keeps and the constraints on their order that it gives to the solver. -/

namespace Nidhugg

/-- The calls of the solver. Variables are numbered from zero. -/
inductive SatConstraint where
  | edge (before after : ℕ)
  | edgeDisj (before after before' after' : ℕ)
deriving DecidableEq

/-- Whether an assignment to the variables satisfies the constraint. -/
def SatConstraint.holds (model : ℕ → ℕ) : SatConstraint → Prop
  | edge before after => model before < model after
  | edgeDisj before after before' after' =>
      model before < model after ∨ model before' < model after'

namespace RfscTraceBuilder

/-- The event before in the thread. Events are in range once they have clocks. -/
def poPredecessor (s : RfscTraceBuilder) (e : Event) : Option ℕ :=
  if e.iid.index = 1 then none else s.findProcessEvent e.iid.pid (e.iid.index - 1)

/-- The events that `causal_past_1` continues with: the source, the other edges and the event
before. -/
def pastOf (s : RfscTraceBuilder) (i : ℕ) : List ℕ :=
  match s.events[i]? with
  | none => []
  | some e => e.readFrom.join.toList ++ e.happensAfter ++ (s.poPredecessor e).toList

/-- The events with decisions up to a depth. Events without a decision have depth -1. -/
def decidedEvents (s : RfscTraceBuilder) (decisionDepth : ℕ → ℤ) (decision : ℤ) : List ℕ :=
  (List.range s.events.length).filter fun i =>
    decisionDepth i ≠ -1 && decisionDepth i ≤ decision

/-- `causal_past`. Its accumulator holds the vertices that the walk has entered. -/
def causalPast (s : RfscTraceBuilder) (decisionDepth : ℕ → ℤ) (decision : ℤ) : List Bool :=
  let past := PostOrder.visitAll s.pastOf (s.events.length + 1) PostOrder.Walk.start
    (s.decidedEvents decisionDepth decision)
  (List.range s.events.length).map fun i => i ∈ past.marked

/-- The lists that `compute_prefixes` starts with. -/
def writesByAddress (s : RfscTraceBuilder) (a : SymAddr) : List ℕ :=
  (List.range s.events.length).filter fun j =>
    s.events[j]?.any fun e => isStore e && (getAddr e).any (·.addr = a)

/-- The variable of an event. An event that is not kept has that of the next one. -/
def formulaVar (keep : List Bool) (i : ℕ) : ℕ := (keep.take i).count true

/-- The constraints for the source of a read. -/
def sourceConstraints (keep : List Bool) (writes : List ℕ) (r : ℕ) : Option ℕ → List SatConstraint
  | none => (writes.filter fun j => j ≠ r && keep.getD j false).map fun j =>
      .edge (formulaVar keep r) (formulaVar keep j)
  | some w => .edge (formulaVar keep w) (formulaVar keep r) ::
      (writes.filter fun j => j ≠ w && j ≠ r && keep.getD j false).map fun j =>
        .edgeDisj (formulaVar keep j) (formulaVar keep w) (formulaVar keep r) (formulaVar keep j)

def poConstraints (s : RfscTraceBuilder) (keep : List Bool) (i : ℕ) (e : Event) :
    List SatConstraint :=
  (s.poPredecessor e).toList.map fun k => .edge (formulaVar keep k) (formulaVar keep i)

/-- A read without an address ends the program. -/
def readConstraints (writesByAddress : SymAddr → List ℕ) (keep : List Bool) (i : ℕ) (e : Event) :
    Option (List SatConstraint) :=
  match e.readFrom with
  | none => some []
  | some source => (getAddr e).map fun ml =>
      sourceConstraints keep (writesByAddress ml.addr) i source

def afterConstraints (keep : List Bool) (i : ℕ) (e : Event) : List SatConstraint :=
  e.happensAfter.map fun j => .edge (formulaVar keep j) (formulaVar keep i)

/-- The kept events with their positions. -/
def keptEvents (s : RfscTraceBuilder) (keep : List Bool) : List (ℕ × Event) :=
  s.events.zipIdx.filterMap fun p => if keep.getD p.2 false then some (p.2, p.1) else none

def outputFormula (s : RfscTraceBuilder) (writesByAddress : SymAddr → List ℕ) (keep : List Bool) :
    Option (List SatConstraint) := do
  let kept := s.keptEvents keep
  let reads ← kept.mapM fun p => readConstraints writesByAddress keep p.1 p.2
  return kept.flatMap (fun p => s.poConstraints keep p.1 p.2) ++ reads.flatten ++
    kept.flatMap (fun p => afterConstraints keep p.1 p.2)

end RfscTraceBuilder

end Nidhugg
