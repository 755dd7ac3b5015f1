import Nidhugg.Model.TsoWakeupTree
import Nidhugg.Model.VecSet

/-! # Observed stores

How `TSOTraceBuilder` recomputes which stores of a wakeup sequence are observed, by a scan from its
end. -/

namespace Nidhugg

/-! ### The order of addresses -/

namespace SymMBlock

/-- `operator<=`. -/
def le (a b : SymMBlock) : Bool := a.pid < b.pid || (a.pid = b.pid && a.alloc ≤ b.alloc)

/-- `operator<`. -/
def lt (a b : SymMBlock) : Bool := a.le b && a ≠ b

end SymMBlock

namespace SymAddr

/-- `operator<=`. -/
def le (a b : SymAddr) : Bool := a.block.lt b.block || (a.block = b.block && a.offset ≤ b.offset)

/-- `operator<`. -/
def lt (a b : SymAddr) : Bool := a.le b && a ≠ b

end SymAddr

namespace TsoTraceBuilder

/-! ### The scan -/

/-- What the scan keeps of the events that it has passed. -/
structure LastReads where
  /-- The addresses that have been read or, with `readAll`, those that have not been read. -/
  lastReads : List SymAddr
  readAll : Bool

namespace LastReads

/-- A set of addresses is read. -/
def read (st : LastReads) (bytes : List SymAddr) : LastReads :=
  { st with lastReads :=
      if st.readAll then VecSet.eraseSet SymAddr.lt st.lastReads bytes
      else VecSet.insertSet SymAddr.lt st.lastReads bytes }

/-- A set of addresses is overwritten. -/
def overwrite (st : LastReads) (bytes : List SymAddr) : LastReads :=
  { st with lastReads :=
      if st.readAll then VecSet.insertSet SymAddr.lt st.lastReads bytes
      else VecSet.eraseSet SymAddr.lt st.lastReads bytes }

end LastReads

/-- One step of the scan. Observed stores have been cleared before. -/
def recomputeEvent (st : LastReads) (e : SymEv) : LastReads × SymEv :=
  match e with
  | .load addr | .rmw addr _ _ _ _ | .cmpXhg addr _ _ | .cmpXhgFail addr _ _ =>
      (st.read (VecSet.ofRange SymAddr.lt addr.bytes), e)
  | .unobsStore addr written =>
      let bytes := VecSet.ofRange SymAddr.lt addr.bytes
      (st.overwrite bytes,
        if st.readAll ^^ VecSet.intersects SymAddr.lt st.lastReads bytes then .store addr written
        else e)
  | .fullmem => (⟨[], true⟩, e)
  | _ => (st, e)

def recomputeSyms (st : LastReads) : List SymEv → LastReads × List SymEv
  | [] => (st, [])
  | e :: es =>
      let rest := recomputeSyms st es
      let this := recomputeEvent rest.1 e
      (this.1, this.2 :: rest.2)

def recomputeBranches : List Branch → LastReads × List Branch
  | [] => (⟨[], false⟩, [])
  | b :: v =>
      let rest := recomputeBranches v
      let this := recomputeSyms rest.1 b.sym
      (this.1, { b with sym := this.2 } :: rest.2)

def recomputeObserved (v : List Branch) : List Branch :=
  (recomputeBranches (v.map fun b => { b with sym := b.sym.map SymEv.clearObserved })).2

end TsoTraceBuilder

end Nidhugg
