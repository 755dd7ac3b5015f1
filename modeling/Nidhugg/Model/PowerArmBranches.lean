import Nidhugg.Library.InsertionSort
import Nidhugg.Model.Basic

/-! # Branches of the POWER and ARM trace builder

A branch is the sequence of events that reverses a race, each with the choices for its byte
accesses. `normalise_branch` sorts the events and `Mem::commit` gives the stores their places in
the coherence orders. The loads of each store are left out, as they have no influence on
coherence. -/

namespace Nidhugg

/-- `operator<`. -/
def IID.lt (a b : IID) : Bool := a.pid < b.pid || (a.pid = b.pid && a.index < b.index)

namespace PowerArmBranches

/-- The address of a byte. -/
abbrev Addr := ℕ

structure ByteAccess where
  isStore : Bool
  addr : Addr
deriving DecidableEq, Repr

/-- The choice for a byte access. -/
inductive Choice where
  /-- How many stores precede the store in the coherence order. -/
  | coherence (coPos : ℕ)
  /-- The store that a load reads from, or none for the initial value. -/
  | source (src : Option IID)
deriving DecidableEq, Repr

structure Event where
  baccesses : List ByteAccess
  clockIndex : ℕ
  cbBwd : ℕ → Bool

/-- `PEvent`. Its parameter consists of the choices. -/
structure PEvent where
  iid : IID
  choices : List Choice
deriving DecidableEq, Repr

inductive ParamType where
  | wr
  | star
deriving DecidableEq, Repr

structure Branch where
  branch : List PEvent
  paramType : ParamType
deriving DecidableEq, Repr

section

variable (getEvt : IID → Event)

/-! ### Coherence -/

/-- The coherence order of each byte. -/
abbrev Coherence := Addr → List IID

/-- `Mem::commit` of one byte access. It fails if the position does not exist. -/
def commitAccess (iid : IID) (m : Coherence) : ByteAccess × Choice → Option Coherence
  | (A, .coherence coPos) =>
      if A.isStore then
        if coPos ≤ (m A.addr).length then
          some (Function.update m A.addr ((m A.addr).insertIdx coPos iid))
        else none
      else some m
  | (_, .source _) => some m

/-- The commit of the byte accesses of an event. -/
def commitEvent (m : Coherence) (pe : PEvent) : Option Coherence :=
  ((getEvt pe.iid).baccesses.zip pe.choices).foldlM (commitAccess pe.iid) m

def commitAll (m : Coherence) (branch : List PEvent) : Option Coherence :=
  branch.foldlM (commitEvent getEvt) m

/-! ### The order of events -/

/-- Whether the first event is committed before the second one. -/
def cb (a b : IID) : Bool := (getEvt b).cbBwd (getEvt a).clockIndex

/-- The comparison function. It is used only if the second event is not `cb`-before the first. -/
def lt (a b : IID) : Bool := if cb getEvt a b then true else a.lt b

/-! ### Swapping neighbours -/

/-- Nudges the coherence positions of two stores to the same byte. -/
def nudgeAt (st : List Choice × List Choice) (a b : ℕ) : List Choice × List Choice :=
  match st.1[a]?, st.2[b]? with
  | some (.coherence x), some (.coherence y) =>
      if x < y then (st.1, st.2.set b (.coherence (y - 1)))
      else (st.1.set a (.coherence (x + 1)), st.2)
  | _, _ => st

/-- Whether both accesses store to the same byte. -/
def sameByte (e0 e1 : Event) (a b : ℕ) : Bool :=
  match e0.baccesses[a]?, e1.baccesses[b]? with
  | some A, some B => A.isStore && B.isStore && A.addr = B.addr
  | _, _ => false

/-- The choices of two neighbours when they switch places. -/
def nudge (e0 e1 : Event) (st : List Choice × List Choice) : List Choice × List Choice :=
  (List.range e0.baccesses.length).foldl (fun st a =>
    (List.range e1.baccesses.length).foldl (fun st b =>
      if sameByte e0 e1 a b then nudgeAt st a b else st) st) st

/-- The two events in their new order. -/
def switch (p x : PEvent) : PEvent × PEvent :=
  let st := nudge (getEvt p.iid) (getEvt x.iid) (p.choices, x.choices)
  ({ x with choices := st.2 }, { p with choices := st.1 })

/-! ### The insertion sort -/

/-- Each event moves towards the front while it is not greater than its neighbour there. -/
def sortEvents (events : List PEvent) : List PEvent :=
  InsertionSort.sort (fun p x => lt getEvt p.iid x.iid) (switch getEvt) events

/-- The number of events in front of the fixed suffix. -/
def Branch.lastEvent (B : Branch) : ℕ :=
  match B.paramType with
  | .wr => B.branch.length - 2
  | .star => B.branch.length - 1

def normaliseBranch (B : Branch) : Branch :=
  { B with branch := sortEvents getEvt (B.branch.take B.lastEvent) ++ B.branch.drop B.lastEvent }

end

end PowerArmBranches

end Nidhugg
