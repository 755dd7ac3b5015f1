import Nidhugg.Model.SaturatedGraph

/-! # The prefix heuristic

Guesses a coherence order of the stores to each address, in the order of the current
execution, and linearises the graph once every guess has been saturated. -/

namespace Nidhugg

namespace PrefixHeuristic

open SaturatedGraph

/-- The in-neighbours that the sort descends to. Every event it visits is known. -/
def inNeighbours (g : SaturatedGraph) (x : IID) : List IID :=
  match g.eventIn x with
  | .ok ins => ins
  | .error _ => []

def toposort (g : SaturatedGraph) (ids : List IID) : List IID :=
  (PostOrder.visitAll (inNeighbours g) (g.size + 1) PostOrder.Walk.start ids).order

def withClock (g : SaturatedGraph) (i : IID) : Except Fault (IID × VClock) := do
  return (i, ← g.eventVc i)

/-- Scans a coherence list from its end for the place of a store with clock `wc`: the
second part holds the stores that are known to come after it. -/
def insertionPoint (g : SaturatedGraph) (wc : VClock) (co : List IID) :
    Except Fault (List IID × List IID) := do
  let clocks ← co.mapM (withClock g)
  let after : IID × VClock → Bool := fun ic => wc.leq ic.2
  return ((clocks.rdropWhile after).map Prod.fst, (clocks.rtakeWhile after).map Prod.fst)

/-- `add_edge` between two events if both are there. -/
def addEdgeBetween (g : SaturatedGraph) : Option IID → Option IID → Except Fault SaturatedGraph
  | some i, some j =>
      match g.addEdge i j with
      | some g' => .ok g'
      | none => .error .unknownEvent
  | _, _ => .ok g

/-- One store of the loop: its place in the coherence list and the guessed edges to its
neighbours there. -/
def guess (g : SaturatedGraph) (totalCo : SymAddr → List IID) (w : IID) :
    Except Fault (SaturatedGraph × (SymAddr → List IID)) := do
  let wc ← g.eventVc w
  let a ← g.eventAddr w
  let (front, back) ← insertionPoint g wc (totalCo a)
  let g ← addEdgeBetween g front.getLast? (some w)
  let g ← addEdgeBetween g (some w) back.head?
  return (g, Function.update totalCo a (front ++ w :: back))

/-- The loop over the events. The result is empty when a guess closes a cycle. -/
def guessAll : List IID → SaturatedGraph → (SymAddr → List IID) →
    Except Fault (Option SaturatedGraph)
  | [], g, _ => .ok (some g)
  | w :: ids, g, totalCo => do
      if ← g.eventIsStore w then
        let (g, totalCo) ← guess g totalCo w
        let (acyclic, g) ← g.saturate
        if acyclic then guessAll ids g totalCo else return none
      else guessAll ids g totalCo

def tryGeneratePrefix (noHeuristic : Bool) (g : SaturatedGraph) (currentExec : List IID) :
    Except Fault (Option (List IID)) := do
  if noHeuristic then return none
  let ids := currentExec.filter g.hasEvent
  match ← guessAll ids g fun _ => [] with
  | none => return none
  | some g => return some (toposort g ids)

end PrefixHeuristic

end Nidhugg
