import Nidhugg.Library.SwapRemove
import Nidhugg.Model.DecisionTree
import Nidhugg.Model.RfscPrefixes

/-! # Exploring the alternatives of an execution

How `compute_prefixes` tries other sources for the reads of an execution. An attempt changes the
recorded events, asks for an execution that agrees with them, and takes its changes back.
A result of `none` is an abort, an access out of range or to an empty source or decision;
assertions are not checked. -/

namespace Nidhugg

open SwapRemove

/-! ### Kinds of events -/

namespace RfscTraceBuilder

def isLock (e : Event) : Bool :=
  match e.sym with
  | .mutex .lock _ => true
  | _ => false

def doesLock (e : Event) : Bool :=
  match e.sym with
  | .mutex .lock _ | .mutex .trylock _ => true
  | _ => false

def isTrylockFail (e : Event) : Bool :=
  match e.sym with
  | .mutex .trylockFail _ => true
  | _ => false

def isUnlock (e : Event) : Bool :=
  match e.sym with
  | .mutex .unlock _ => true
  | _ => false

def isCmpxhgfail (e : Event) : Bool :=
  match e.sym with
  | .cmpXhgFail .. => true
  | _ => false

/-- Whether the event at a position is of a kind. -/
def isAt (s : RfscTraceBuilder) (kind : Event → Bool) (i : ℕ) : Bool := s.events[i]?.any kind

/-- `cmpxhgfail_by_address`. -/
def cmpxhgfailByAddress (s : RfscTraceBuilder) (a : SymAddr) : List ℕ :=
  (List.range s.events.length).filter fun j =>
    s.events[j]?.any fun e => isCmpxhgfail e && (getAddr e).any (·.addr = a)

/-- The bytes of a source. Memory is zero initially. -/
def getData (s : RfscTraceBuilder) (source : Option ℕ) (addr : SymAddrSize) : Option (List Byte) :=
  match source with
  | none => some (List.replicate addr.size 0)
  | some w => s.events[w]?.bind fun e => e.sym.data?

/-- The `memcmp` of an expected value with the bytes of a source. -/
def readsExpected (s : RfscTraceBuilder) (addr : SymAddrSize) (expected : Block addr.size)
    (source : Option ℕ) : Option Bool := do
  let expected ← expected
  let actual ← s.getData source addr
  if addr.size ≤ actual.length then return actual.take addr.size = expected.val else none

def isStoreWhenReadingFrom (s : RfscTraceBuilder) (e : Event) (source : Option ℕ) : Option Bool :=
  match e.sym with
  | .store .. | .rmw .. | .mutex .. => some true
  | .cmpXhg addr _ expected | .cmpXhgFail addr _ expected => s.readsExpected addr expected source
  | _ => some false

/-! ### Filters -/

def happensBefore (e : Event) (c : VClock) : Bool := c.includes e.iid

/-- The first test of `can_rf_by_vclocks`: the program is aborted for a write after the read. -/
def writeAfterRead (s : RfscTraceBuilder) (read : Event) : Option ℕ → Option Bool
  | none => some false
  | some w => s.events[w]?.map fun write => happensBefore read write.clock

/-- Whether the new source is before the original one. -/
def newBeforeOriginal (s : RfscTraceBuilder) (original : Event) : Option ℕ → Option Bool
  | none => some true
  | some w => s.events[w]?.map fun write => happensBefore write original.clock

def canRfByVclocks (s : RfscTraceBuilder) (r : ℕ) (ow w : Option ℕ) : Option Bool := do
  let read ← s.events[r]?
  let after ← s.writeAfterRead read w
  if after then none
  else match ow with
    | none => return true
    | some ow =>
        let original ← s.events[ow]?
        let hidden ← s.newBeforeOriginal original w
        return !(hidden && happensBefore original read.aboveClock)

def canSwapByVclocks (s : RfscTraceBuilder) (r w : ℕ) : Option Bool := do
  let read ← s.events[r]?
  let write ← s.events[w]?
  return !happensBefore read write.aboveClock

end RfscTraceBuilder

open RfscTraceBuilder

/-- The alternatives that are attempted. -/
inductive RfscAttempt where
  | swap (i j : ℕ)
  | swapLock (i unlock j : ℕ)
  | swapBlocked (i jp : ℕ)
  | readFromRmw (i j : ℕ)
  | readFrom (i : ℕ) (j : Option ℕ)

structure RfscPlan where
  builder : RfscTraceBuilder
  /-- The decision pointer of each event. -/
  decisions : List (Option DecisionNode)
  writesByAddress : SymAddr → List ℕ
  /-- The decisions that siblings were constructed for. -/
  siblings : List DecisionNode
  /-- What `writes_by_address` was after each attempt. -/
  history : List (SymAddr → List ℕ)

/-- The answers of the decision tree, which is shared with other explorations, and of the
solver. -/
structure RfscOracle where
  /-- Whether the unfolding node of the alternative is new. -/
  tryAllocUnf : RfscAttempt → Bool
  /-- Whether there is an execution with the changed events. -/
  trySat : RfscPlan → List ℕ → Bool

inductive CmpXhgUndoKind where
  | none
  | succeed
  | fail
  | mSucceed
  | mFail
deriving DecidableEq

structure CmpXhgUndoLog where
  kind : CmpXhgUndoKind
  idx : ℕ
  pos : ℕ

namespace RfscPlan

/-! ### Changes to the events -/

def modifyEvent (p : RfscPlan) (i : ℕ) (f : RfscTraceBuilder.Event → RfscTraceBuilder.Event) :
    RfscPlan :=
  { p with builder.events := p.builder.events.modify i f }

def setReadFrom (p : RfscPlan) (i : ℕ) (source : Option ℕ) : RfscPlan :=
  p.modifyEvent i fun e => { e with readFrom := some source }

def setSym (p : RfscPlan) (i : ℕ) (sym : SymEv) : RfscPlan :=
  p.modifyEvent i fun e => { e with sym := sym }

def setPinned (p : RfscPlan) (i : ℕ) (pinned : Bool) : RfscPlan :=
  p.modifyEvent i fun e => { e with pinned := pinned }

def setWrites (p : RfscPlan) (a : SymAddr) (writes : List ℕ) : RfscPlan :=
  { p with writesByAddress := Function.update p.writesByAddress a writes }

def decisionPtr (p : RfscPlan) (i : ℕ) : Option DecisionNode := p.decisions[i]?.join

def decisionSwap (p : RfscPlan) (i j : ℕ) : Option RfscPlan :=
  (swap p.decisions i j).map fun decisions => { p with decisions := decisions }

/-- Constructs a sibling if the solver finds an execution. -/
def constructSibling (o : RfscOracle) (decision : DecisionNode) (changed : List ℕ) (p : RfscPlan) :
    RfscPlan :=
  if o.trySat p changed then { p with siblings := p.siblings ++ [decision] } else p

/-! ### Compare-exchanges and locks that depend on their source -/

/-- Whether an event that can fail has succeeded. -/
def succeeded? : SymEv → Option Bool
  | .mutex .trylock _ | .cmpXhg .. => some true
  | .mutex .trylockFail _ | .cmpXhgFail .. => some false
  | _ => none

/-- Whether the event succeeds when it reads from a source. -/
def succeeds (s : RfscTraceBuilder) (sym : SymEv) (source : Option ℕ) : Option Bool :=
  match sym with
  | .mutex .. => match source with
    | none => some true
    | some w => s.events[w]?.map fun e => !doesLock e
  | .cmpXhg addr _ expected | .cmpXhgFail addr _ expected => s.readsExpected addr expected source
  | _ => none

def withSuccess (success : Bool) : SymEv → SymEv
  | .mutex _ addr => .mutex (if success then .trylock else .trylockFail) addr
  | .cmpXhg addr written expected | .cmpXhgFail addr written expected =>
      if success then .cmpXhg addr written expected else .cmpXhgFail addr written expected
  | sym => sym

def undoKind (sym : SymEv) (before : Bool) : CmpXhgUndoKind :=
  match sym with
  | .mutex .. => if before then .mSucceed else .mFail
  | _ => if before then .succeed else .fail

/-- The update of the list of stores for an event that does not succeed as before. -/
def updateWrites (idx : ℕ) (before : Bool) (writes : List ℕ) : Option (ℕ × List ℕ) :=
  if before then removeLast writes idx else some (writes.length, writes ++ [idx])

/-- The list of stores is that of an address. -/
def recomputeCmpxhgSuccess (idx : ℕ) (a : SymAddr) (p : RfscPlan) :
    Option (CmpXhgUndoLog × RfscPlan) := do
  let e ← p.builder.events[idx]?
  match succeeded? e.sym with
  | none => return (⟨.none, idx, 0⟩, p)
  | some before =>
      let source ← e.readFrom
      let after ← succeeds p.builder e.sym source
      if after = before then return (⟨.none, idx, 0⟩, p)
      else
        let (pos, writes) ← updateWrites idx before (p.writesByAddress a)
        return (⟨undoKind e.sym before, idx, pos⟩,
          (p.setSym idx (withSuccess after e.sym)).setWrites a writes)

/-- The event before the recomputation. -/
def undoSym (kind : CmpXhgUndoKind) (sym : SymEv) : Option SymEv :=
  match kind, sym with
  | .mSucceed, sym => sym.addr?.map (.mutex .trylock)
  | .mFail, sym => sym.addr?.map (.mutex .trylockFail)
  | .succeed, .cmpXhg addr written expected => some (.cmpXhg addr written expected)
  | .succeed, .cmpXhgFail addr written expected => some (.cmpXhg addr written expected)
  | .fail, .cmpXhg addr written expected => some (.cmpXhgFail addr written expected)
  | .fail, .cmpXhgFail addr written expected => some (.cmpXhgFail addr written expected)
  | _, _ => none

/-- The list of stores before the recomputation. -/
def undoWrites (log : CmpXhgUndoLog) (writes : List ℕ) : Option (List ℕ) :=
  match log.kind with
  | .succeed | .mSucceed => putBack writes log.pos log.idx
  | _ => some writes.dropLast

def undoCmpxhgRecomputation (log : CmpXhgUndoLog) (a : SymAddr) (p : RfscPlan) :
    Option RfscPlan := do
  if log.kind = .none then return p
  else
    let e ← p.builder.events[log.idx]?
    let sym ← undoSym log.kind e.sym
    let writes ← undoWrites log (p.writesByAddress a)
    return (p.setSym log.idx sym).setWrites a writes

/-! ### Attempts -/

/-- The common part of `try_swap` and `try_swap_lock`. They differ in the source that the second
event is given at the end. -/
def exchange (o : RfscOracle) (attempt : RfscAttempt) (i j reset : ℕ) (p : RfscPlan) :
    Option RfscPlan := do
  let e ← p.builder.events[i]?
  let source ← e.readFrom
  let decision ← p.decisionPtr i
  if o.tryAllocUnf attempt then
    let possible ← p.builder.canSwapByVclocks i j
    if possible then
      let p ← (p.setReadFrom j source).decisionSwap i j
      let p := p.constructSibling o decision [j]
      (p.setReadFrom j (some reset)).decisionSwap i j
    else return p
  else return p

def trySwap (o : RfscOracle) (i j : ℕ) (p : RfscPlan) : Option RfscPlan :=
  p.exchange o (.swap i j) i j i

def trySwapLock (o : RfscOracle) (i unlock j : ℕ) (p : RfscPlan) : Option RfscPlan :=
  p.exchange o (.swapLock i unlock j) i j unlock

/-- The event of a thread that is blocked, after the events of the execution. -/
def pushBlocked (jp : ℕ) (sym : SymEv) (p : RfscPlan) : Option RfscPlan := do
  let e := { RfscTraceBuilder.Event.new ⟨jp, p.builder.lastEventIndex jp + 1⟩ with sym := sym }
  let s ← { p.builder with
    events := p.builder.events ++ [e], scheduled := p.builder.scheduled + 1 }.pushIndex jp
  let (_, s) ← s.computeAboveClock p.builder.scheduled
  return { p with builder := s, decisions := p.decisions ++ [none] }

def popBlocked (jp : ℕ) (p : RfscPlan) : RfscPlan :=
  { p with
    builder := { p.builder with
      threads := p.builder.threads.modify jp fun t =>
        { t with eventIndices := t.eventIndices.dropLast }
      events := p.builder.events.dropLast
      scheduled := p.builder.scheduled - 1 }
    decisions := p.decisions.dropLast }

/-- The blocked event takes the place of a lock. -/
def replaceLock (o : RfscOracle) (decision : DecisionNode) (source : Option ℕ) (i j : ℕ)
    (p : RfscPlan) : Option RfscPlan := do
  let p ← (p.setReadFrom j source).decisionSwap i j
  let p := (p.setPinned i true).constructSibling o decision [j]
  let p ← p.decisionSwap i j
  return p.setPinned i false

def trySwapBlocked (o : RfscOracle) (i jp : ℕ) (sym : SymEv) (p : RfscPlan) :
    Option RfscPlan := do
  let e ← p.builder.events[i]?
  let source ← e.readFrom
  let decision ← p.decisionPtr i
  if o.tryAllocUnf (.swapBlocked i jp) then
    let j := p.builder.scheduled
    let p ← p.pushBlocked jp sym
    let possible ← p.builder.canSwapByVclocks i j
    let p ← if possible then p.replaceLock o decision source i j else some p
    return p.popBlocked jp
  else return p

/-- The source of the first event is left to be reset. Only adjacent events can be swapped. -/
def tryReadFromRmw (o : RfscOracle) (decision : DecisionNode) (a : SymAddr) (i : ℕ)
    (original : Option ℕ) (j : ℕ) (p : RfscPlan) : Option RfscPlan := do
  let e ← p.builder.events[j]?
  let source ← e.readFrom
  if source = some i ∧ o.tryAllocUnf (.readFromRmw i j) then
    let possible ← p.builder.canSwapByVclocks i j
    if possible then
      let p := (p.setReadFrom j original).setReadFrom i (some j)
      let (undoj, p) ← p.recomputeCmpxhgSuccess j a
      let (undoi, p) ← p.recomputeCmpxhgSuccess i a
      let p := p.constructSibling o decision [j, i]
      let p := p.setReadFrom j (some i)
      let p ← p.undoCmpxhgRecomputation undoi a
      p.undoCmpxhgRecomputation undoj a
    else return p
  else return p

/-- The second part of `try_read_from`, for events that are not a pair of read-modify-writes. -/
def tryReadFromPlain (o : RfscOracle) (decision : DecisionNode) (a : SymAddr) (i : ℕ)
    (original j : Option ℕ) (p : RfscPlan) : Option RfscPlan := do
  if o.tryAllocUnf (.readFrom i j) then
    let possible ← p.builder.canRfByVclocks i original j
    if possible then
      let (undoi, p) ← (p.setReadFrom i j).recomputeCmpxhgSuccess i a
      let p := p.constructSibling o decision [i]
      p.undoCmpxhgRecomputation undoi a
    else return p
  else return p

/-- `try_read_from_rmw` for an event that is a store when it reads from the original source. -/
def tryReadFromStore (o : RfscOracle) (decision : DecisionNode) (a : SymAddr) (i : ℕ)
    (original : Option ℕ) (j : ℕ) (p : RfscPlan) : Option RfscPlan := do
  let e ← p.builder.events[j]?
  let store ← p.builder.isStoreWhenReadingFrom e original
  if store then p.tryReadFromRmw o decision a i original j else return p

def tryReadFrom (o : RfscOracle) (decision : DecisionNode) (a : SymAddr) (i : ℕ)
    (original j : Option ℕ) (p : RfscPlan) : Option RfscPlan :=
  if j = original ∨ j = some i then some p
  else match j with
    | none => p.tryReadFromPlain o decision a i original none
    | some j =>
        if i < j && p.builder.isAt isStore i && p.builder.isAt isLoad j then
          p.tryReadFromStore o decision a i original j
        else p.tryReadFromPlain o decision a i original (some j)

/-! ### The loop over the events -/

/-- Performs an attempt and records the lists of stores after it. -/
def attempted (attempt : RfscPlan → Option RfscPlan) (p : RfscPlan) : Option RfscPlan :=
  (attempt p).map fun p => { p with history := p.history ++ [p.writesByAddress] }

/-- The attempt to give the mutex to a later lock, after the unlock that it reads from. -/
def exploreRelock (o : RfscOracle) (i : ℕ) (next : List ℕ) (p : RfscPlan) : Option RfscPlan :=
  if p.builder.isAt doesLock i then
    match next.dropWhile (p.builder.isAt isTrylockFail) with
    | unlock :: relock :: _ =>
        if p.builder.isAt isUnlock unlock && p.builder.isAt isLock relock then
          p.attempted (trySwapLock o i unlock relock)
        else some p
    | _ => some p
  else some p

def exploreLock (o : RfscOracle) (i : ℕ) (e : RfscTraceBuilder.Event) (p : RfscPlan) :
    Option RfscPlan := do
  let ml ← getAddr e
  let accesses := p.writesByAddress ml.addr
  match accesses.drop (SortedSearch.upperBound accesses i) with
  | [] =>
      if doesLock e then
        (p.builder.mutexDeadlocks ml.addr).foldlM
          (fun p other => p.attempted (trySwapBlocked o i other (.mutex .lock ml))) p
      else return p
  | j :: next =>
      if isUnlock e && p.builder.isAt isLock j then return p
      else
        let p ← p.attempted (trySwap o i j)
        p.exploreRelock o i (j :: next)

/-- The candidates of one thread. -/
def exploreThread (o : RfscOracle) (below : List ClockRef) (decision : DecisionNode) (a : SymAddr)
    (i : ℕ) (original : Option ℕ) (p : RfscPlan) (thread : ℕ) : Option RfscPlan := do
  let e ← p.builder.events[i]?
  let range ← p.builder.candidateRange (below.getD i []) e a thread
  range.foldlM (fun p j => p.attempted (tryReadFrom o decision a i original (some j))) p

/-- Failed compare-exchanges that would succeed before the event. -/
def exploreFailed (o : RfscOracle) (decision : DecisionNode) (a : SymAddr) (i : ℕ)
    (original : Option ℕ) (p : RfscPlan) : Option RfscPlan :=
  if p.builder.isAt isStore i then
    (p.builder.cmpxhgfailByAddress a).foldlM (fun p j =>
      if i < j then p.attempted (tryReadFromStore o decision a i original j) else some p) p
  else some p

def exploreLoad (o : RfscOracle) (below : List ClockRef) (i : ℕ) (e : RfscTraceBuilder.Event)
    (p : RfscPlan) : Option RfscPlan := do
  let ml ← getAddr e
  let original ← e.readFrom
  let decision ← p.decisionPtr i
  let p ← (List.range p.builder.threads.length).foldlM
    (exploreThread o below decision ml.addr i original) p
  let p ← p.attempted (tryReadFrom o decision ml.addr i original none)
  let p ← p.exploreFailed o decision ml.addr i original
  return p.setReadFrom i original

def exploreEvent (o : RfscOracle) (below : List ClockRef) (p : RfscPlan) (i : ℕ) :
    Option RfscPlan := do
  let e ← p.builder.events[i]?
  if e.pinned then return p
  else if symevIsLockType e.sym then p.exploreLock o i e
  else if isLoad e then p.exploreLoad o below i e
  else return p

def start (s : RfscTraceBuilder) (decisions : List (Option DecisionNode)) : RfscPlan where
  builder := s
  decisions := decisions
  writesByAddress := s.writesByAddress
  siblings := []
  history := []

/-- `compute_prefixes` after the clocks and the unfolding have been computed. -/
def computePrefixes (o : RfscOracle) (below : List ClockRef) (s : RfscTraceBuilder)
    (decisions : List (Option DecisionNode)) : Option RfscPlan :=
  (List.range s.events.length).foldlM (exploreEvent o below) (start s decisions)

end RfscPlan

end Nidhugg
