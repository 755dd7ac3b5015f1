import Mathlib.Data.Finset.Basic
import Nidhugg.Model.AssumeAwait
import Nidhugg.Model.TsoWakeupTree

/-! # Recomputing the content of memory

How `TSOTraceBuilder` computes the content of a location after a changed sequence of events, to
decide about awaits and compare-exchanges. A result of `none` is a failed assertion: an access
outside of the location or to data that an event does not have. -/

namespace Nidhugg

namespace SymAddrSize

def includes (ml : SymAddrSize) (a : SymAddr) : Bool :=
  ml.addr.block = a.block && ml.addr.offset ≤ a.offset && a.offset < ml.addr.offset + ml.size

def subsetof (a b : SymAddrSize) : Bool :=
  a.addr.block = b.addr.block && b.addr.offset ≤ a.addr.offset &&
    a.addr.offset + a.size ≤ b.addr.offset + b.size

end SymAddrSize

namespace SymEv

/-- `symev_does_store` together with the address. -/
def storeAddr? : SymEv → Option SymAddrSize
  | .store addr _ | .unobsStore addr _ | .rmw addr _ _ _ _ | .xchgAwait addr _ _ _
  | .cmpXhg addr _ _ => some addr
  | _ => Option.none

/-- A byte of the data that an event has written. -/
def dataAt (p : SymEv) (addr : SymAddrSize) (a : SymAddr) : Option Byte :=
  if addr.includes a then p.data?.bind (·[a.offset - addr.addr.offset]?) else Option.none

end SymEv

namespace TsoTraceBuilder

abbrev Memory := SymAddr → Byte

/-- The bytes of a location. -/
def Memory.read (m : Memory) (ml : SymAddrSize) : List Byte := ml.bytes.map m

/-- Overwrites a location. -/
def Memory.write (m : Memory) (ml : SymAddrSize) (bytes : List Byte) : Memory := fun a =>
  if ml.includes a then bytes.getD (a.offset - ml.addr.offset) 0 else m a

/-- A location with a chunk of memory for its bytes. -/
structure SymData where
  ref : SymAddrSize
  block : Memory

/-- A location filled with zeros. -/
def SymData.zero (ml : SymAddrSize) : SymData := ⟨ml, fun _ => 0⟩

/-- The assignment of a byte. -/
def SymData.set (data : SymData) (a : SymAddr) (b : Byte) : Option SymData :=
  if data.ref.includes a then some { data with block := Function.update data.block a b } else none

/-- `AwaitCond` for a location of `n` bytes. -/
structure AwaitCond (n : ℕ) where
  op : AwaitOp
  operand : Bytes n

def AwaitCond.satisfiedBy {n : ℕ} (bigEndian : Bool) (cond : AwaitCond n) (data : List Byte) :
    Bool :=
  AssumeAwait.satisfiedByBytes bigEndian cond.op cond.operand.val data

/-! ### Data as it was recorded -/

/-- Takes one byte of an event if it is needed. -/
def takeByte (p : SymEv) (addr : SymAddrSize) (st : Finset SymAddr × SymData) (a : SymAddr) :
    Option (Finset SymAddr × SymData) :=
  if a ∈ st.1 then do
    let b ← p.dataAt addr a
    let data ← st.2.set a b
    return (st.1.erase a, data)
  else some st

/-- `rev_recompute_data` on events in reverse order. -/
def revRecomputeData : List SymEv → Finset SymAddr × SymData → Option (Finset SymAddr × SymData)
  | [], st => some st
  | p :: ps, st =>
      if st.1 = ∅ then some st
      else match p.storeAddr? with
        | none => revRecomputeData ps st
        | some addr =>
            if st.2.ref.overlaps addr then
              (addr.bytes.foldlM (takeByte p addr) st).bind (revRecomputeData ps)
            else revRecomputeData ps st

/-- The scan over the operations of several events, from the last one on. -/
def revRecomputeAll (events : List (List SymEv)) (st : Finset SymAddr × SymData) :
    Option (Finset SymAddr × SymData) :=
  events.reverse.foldlM (fun st sym => revRecomputeData sym.reverse st) st

/-! ### Data that is computed again -/

/-- `recompute_scan_rev` on events in reverse order. The first element of the stack is its top. -/
def recomputeScanRev (desired : SymAddrSize) :
    List SymEv → Finset SymAddr × List SymEv → Option (Finset SymAddr × List SymEv)
  | [], st => some st
  | p :: ps, st =>
      if st.1 = ∅ then some st
      else match p.storeAddr? with
        | none => recomputeScanRev desired ps st
        | some sas =>
            if desired.overlaps sas && sas.bytes.any (· ∈ st.1) then
              match p with
              | .rmw .. =>
                  -- The result depends on all bytes of the location.
                  if sas.subsetof desired then
                    recomputeScanRev desired ps (st.1 ∪ sas.bytes.toFinset, p :: st.2)
                  else none
              | _ => recomputeScanRev desired ps (st.1 \ sas.bytes.toFinset, p :: st.2)
            else recomputeScanRev desired ps st

def recomputeScanRevAll (desired : SymAddrSize) (events : List (List SymEv))
    (st : Finset SymAddr × List SymEv) : Option (Finset SymAddr × List SymEv) :=
  events.reverse.foldlM (fun st sym => recomputeScanRev desired sym.reverse st) st

/-- Applies one event of the stack. -/
def replay (bigEndian : Bool) (data : SymData) (p : SymEv) : Option SymData :=
  match p with
  | .rmw sas _ kind operand _ =>
      if sas.subsetof data.ref then
        operand.map fun operand =>
          { data with
            block := data.block.write sas
              (RmwAction.result bigEndian kind (data.block.read sas) operand.val) }
      else none
  | _ => do
      let sas ← p.storeAddr?
      if data.ref.overlaps sas then
        sas.bytes.foldlM (fun data a => (p.dataAt sas a).bind (data.set a)) data
      else none

def recomputeReplayFwd (bigEndian : Bool) (data : SymData) (stack : List SymEv) : Option SymData :=
  stack.foldlM (replay bigEndian) data

/-! ### Awaits -/

/-- The operations of the events at some positions of the prefix. -/
def symsAt (pre : List (List SymEv)) (seq : List ℕ) : Option (List (List SymEv)) :=
  seq.mapM (pre[·]?)

def awaitcondSatisfiedBefore (bigEndian : Bool) (pre : List (List SymEv)) (i : ℕ)
    (ml : SymAddrSize) (cond : AwaitCond ml.size) : Option Bool := do
  let st ← revRecomputeAll (pre.take i) (ml.bytes.toFinset, .zero ml)
  return cond.satisfiedBy bigEndian (st.2.block.read ml)

def awaitcondSatisfiedBy (bigEndian : Bool) (pre : List (List SymEv)) (i : ℕ) (seq : List ℕ)
    (ml : SymAddrSize) (cond : AwaitCond ml.size) : Option Bool := do
  let last ← symsAt pre seq
  let st ← recomputeScanRevAll ml last (ml.bytes.toFinset, [])
  let st ← recomputeScanRevAll ml (pre.take i) st
  let data ← recomputeReplayFwd bigEndian (.zero ml) st.2
  return cond.satisfiedBy bigEndian (data.block.read ml)

/-! ### Compare-exchanges -/

/-- Decides one compare-exchange after the operations `front` of its event. -/
def recomputeCmpxhg (pre : List (List SymEv)) (v : List Branch) (i : ℕ) (front : List SymEv)
    (addr : SymAddrSize) (written expected : Block addr.size) : Option SymEv := do
  let st ← revRecomputeData front.reverse (addr.bytes.toFinset, .zero addr)
  let st ← revRecomputeAll (v.map (·.sym)) st
  let st ← revRecomputeAll (pre.take i) st
  let expected ← expected
  let written ← written
  if expected.val = st.2.block.read addr then return .cmpXhg addr written expected
  else return .cmpXhgFail addr written expected

/-- The loop over the operations of an event, of which `front` have been passed. -/
def recomputeCmpxhgFrom (pre : List (List SymEv)) (v : List Branch) (i : ℕ) (front : List SymEv) :
    List SymEv → Option (List SymEv)
  | [] => some front
  | .cmpXhg addr written expected :: es | .cmpXhgFail addr written expected :: es =>
      (recomputeCmpxhg pre v i front addr written expected).bind fun e =>
        recomputeCmpxhgFrom pre v i (front ++ [e]) es
  | e :: es => recomputeCmpxhgFrom pre v i (front ++ [e]) es

def recomputeCmpxhgSuccess (pre : List (List SymEv)) (es : List SymEv) (v : List Branch) (i : ℕ) :
    Option (List SymEv) :=
  recomputeCmpxhgFrom pre v i [] es

end TsoTraceBuilder

end Nidhugg
