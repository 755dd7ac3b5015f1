import Nidhugg.Library.CycleSearch
import Nidhugg.Model.Basic

/-! # Cycles in the relations between POWER and ARM events

Whether an event can be committed with a parameter depends on two searches for cycles: `no_thin_air`
follows `hb` backwards from every event, and `propagation` follows `co` and `prop` forwards from the
events with new edges. -/

namespace Nidhugg.PowerArmCycles

open CycleSearch

structure Rel where
  fwd : List IID
  bwd : List IID
deriving DecidableEq, Repr

/-- The relations that are searched. -/
structure Relations where
  co : Rel
  hb : Rel
  prop : Rel
deriving DecidableEq, Repr

/-- The extra edges go from `I` to `afterI` and from `C` to `afterC`. -/
structure ExtraHB where
  I : List IID
  C : List IID
  afterI : List IID
  afterC : List IID
deriving DecidableEq, Repr

structure ExtraRel where
  EHB : ExtraHB
  prop : List (IID × List IID)
deriving DecidableEq, Repr

structure Event where
  committed : Bool
  rel : Relations
deriving DecidableEq, Repr

/-- The events that each thread has fetched in the current run. -/
abbrev Fetched := List (List Event)

def Event.none : Event := ⟨false, ⟨[], []⟩, ⟨[], []⟩, ⟨[], []⟩⟩

variable (fch : Fetched)

def getEvt (iid : IID) : Event :=
  if iid.index = 0 then .none
  else ((fch[iid.pid]?).bind fun events => events[iid.index - 1]?).getD .none

def iids : List IID :=
  fch.zipIdx.flatMap fun (events, p) => (List.range events.length).map fun i => ⟨p, i + 1⟩

variable (evt : IID) (rel : Relations)

/-- The events that the search for `hb` cycles enters. -/
def isNode (iid : IID) : Bool := (getEvt fch iid).committed || iid = evt

/-- The events that are entered from an event, in this order. -/
def predecessors (EHB : ExtraHB) (e : IID) : List IID :=
  ((if e = evt then rel.hb.bwd else (getEvt fch e).rel.hb.bwd) ++
    (if e ∈ EHB.afterI then EHB.I else []) ++
    (if e ∈ EHB.afterC then EHB.C else []) ++
    (if e ∈ rel.hb.fwd then [evt] else [])).filter (isNode fch evt)

/-- The search marks an event as visited after it has entered its predecessors. -/
def noThinAir (EHB : ExtraHB) (fuel : ℕ) : Option Bool :=
  (exploreAll false (predecessors fch evt rel EHB) fuel ((iids fch).filter (isNode fch evt))
    (.start [])).map Outcome.acyclic

def successors (ER : ExtraRel) (e : IID) : List IID :=
  (if e = evt then rel.co.fwd else (getEvt fch e).rel.co.fwd) ++
    (if e ∈ rel.co.bwd then [evt] else []) ++
    (if e = evt then rel.prop.fwd else (getEvt fch e).rel.prop.fwd) ++
    (ER.prop.lookup e).getD [] ++
    (if e ∈ rel.prop.bwd then [evt] else [])

/-- The event and the sources of the extra edges, the last one on top of the stack. -/
def inits (ER : ExtraRel) : List IID := (ER.prop.map Prod.fst).reverse ++ [evt]

/-- The search marks an event as visited before it enters its successors. -/
def propagation (ER : ExtraRel) (fuel : ℕ) : Option Bool :=
  (explore true (successors fch evt rel ER) fuel (.start (inits evt ER))).map Outcome.acyclic

end Nidhugg.PowerArmCycles
