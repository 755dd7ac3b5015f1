import Nidhugg.Model.RfscPrefixes
import Nidhugg.Library.HashConsing

/-! # The unfolding tree

Events of all executions are represented by nodes of a tree that is shared by them. A node is
found by its thread, its parent and the node that it reads from. -/

namespace Nidhugg

open HashConsing

/-- The names of threads: the numbers of the spawns that lead to a thread. -/
abbrev CPid := List ℕ

/-- Node pointers are the numbers of nodes. -/
structure UnfoldingNode where
  parent : Option ℕ
  readFrom : Option ℕ
deriving DecidableEq

structure RfscUnfoldingTree where
  /-- The nodes in the order of their creation. -/
  nodes : List UnfoldingNode
  /-- The weak pointers in `first_events` and in the nodes. -/
  children : Slot CPid → List ℕ
  /-- Whether a shared pointer to the node is left. -/
  alive : ℕ → Bool

namespace RfscUnfoldingTree

def empty : RfscUnfoldingTree := ⟨[], fun _ => [], fun _ => false⟩

def readFrom (tree : RfscUnfoldingTree) (n : ℕ) : Option ℕ := tree.nodes[n]?.bind UnfoldingNode.readFrom

/-- The loop of `get_or_create` over the entries that are left, after those in `front`. Gives the
node that was found, and the list without the null pointers met on the way. -/
def search (tree : RfscUnfoldingTree) (readFrom : Option ℕ) :
    ℕ → List ℕ → List ℕ → Option ℕ × List ℕ
  | left + 1, front, c :: rest =>
      if tree.alive c then
        if tree.readFrom c = readFrom then (some c, front ++ c :: rest)
        else search tree readFrom left (front ++ [c]) rest
      else
        -- the last entry takes the place of the null pointer
        match rest.getLast? with
        | none => (none, front)
        | some back => search tree readFrom left front (back :: rest.dropLast)
  | _, front, rest => (none, front ++ rest)

def getOrCreate (tree : RfscUnfoldingTree) (slot : Slot CPid) (parent readFrom : Option ℕ) :
    ℕ × RfscUnfoldingTree :=
  match tree.search readFrom (tree.children slot).length [] (tree.children slot) with
  | (some c, list) => (c, { tree with children := Function.update tree.children slot list })
  | (none, list) =>
      let c := tree.nodes.length
      (c, {
        nodes := tree.nodes ++ [⟨parent, readFrom⟩]
        children := Function.update tree.children slot (list ++ [c])
        alive := Function.update tree.alive c true })

def findUnfoldingNode (tree : RfscUnfoldingTree) (cpid : CPid) (parent readFrom : Option ℕ) :
    ℕ × RfscUnfoldingTree :=
  match parent with
  | some p => tree.getOrCreate (.node p) parent readFrom
  | none => tree.getOrCreate (.root cpid) parent readFrom

end RfscUnfoldingTree

namespace RfscTraceBuilder

/-- The names that `CPidSystem::spawn` has given to the threads, with their parents. -/
def spawned (s : RfscTraceBuilder) : List (Option ℕ × CPid) :=
  s.threads.foldl (fun names t => names ++ [
    match t.spawnEvent.bind (s.events[·]?) with
    | none => (none, [])
    | some e => (some e.iid.pid, ((names[e.iid.pid]?.map Prod.snd).getD []) ++
        [names.countP fun name => name.1 = some e.iid.pid])]) []

def cpid (s : RfscTraceBuilder) (p : ℕ) : CPid := (s.spawned[p]?.map Prod.snd).getD []

/-- The pointer that a node keeps to another event. A join has one to the last event of the
thread. The events before the current one have their nodes. -/
def unfoldingSource (s : RfscTraceBuilder) (nodes : List ℕ) (e : Event) : Option (Option ℕ) :=
  match e.sym with
  | .join thread => (s.eventIndices thread).getLast?.map fun last => nodes[last]?
  | _ => match e.readFrom with
    | some (some w) => some nodes[w]?
    | _ => some none

/-- The node of the event before in the thread. The first event has none. -/
def unfoldingParent (s : RfscTraceBuilder) (nodes : List ℕ) (e : Event) : Option (Option ℕ) :=
  if e.iid.index = 1 then some none
  else (s.findProcessEvent e.iid.pid (e.iid.index - 1)).map fun k => nodes[k]?

/-- One turn of the loop of `compute_unfolding`. Decision nodes are left out. -/
def unfoldEvent (s : RfscTraceBuilder) (tree : RfscUnfoldingTree) (nodes : List ℕ) (e : Event) :
    Option (RfscUnfoldingTree × List ℕ) := do
  let parent ← s.unfoldingParent nodes e
  match e.mayConflict, parent with
  | false, some p => return (tree, nodes ++ [p])
  | _, _ =>
      let readFrom ← s.unfoldingSource nodes e
      let found := tree.findUnfoldingNode (s.cpid e.iid.pid) parent readFrom
      return (found.2, nodes ++ [found.1])

/-- The nodes of the events of an execution. -/
def computeUnfolding (s : RfscTraceBuilder) (tree : RfscUnfoldingTree) :
    Option (RfscUnfoldingTree × List ℕ) :=
  s.events.foldlM (fun r e => s.unfoldEvent r.1 r.2 e) (tree, [])

end RfscTraceBuilder

/-- What happens to a tree: calls of `find_unfolding_node`, nodes that are not used any more, and
executions. -/
inductive UnfoldingAction where
  | find (cpid : CPid) (parent readFrom : Option ℕ)
  | expire (n : ℕ)
  | execution (s : RfscTraceBuilder)

/-- The tree and the executions that were processed, each with the nodes of its events. -/
structure UnfoldingHistory where
  tree : RfscUnfoldingTree
  executions : List (RfscTraceBuilder × List ℕ)

namespace UnfoldingHistory

def init : UnfoldingHistory := ⟨.empty, []⟩

/-- Pointers that are used must be null or keep their node alive. A node that another node points
to cannot expire. -/
def step (h : UnfoldingHistory) : UnfoldingAction → Option UnfoldingHistory
  | .find cpid parent readFrom =>
      if parent.all h.tree.alive && readFrom.all h.tree.alive then
        some { h with tree := (h.tree.findUnfoldingNode cpid parent readFrom).2 }
      else none
  | .expire n =>
      if (List.range h.tree.nodes.length).all fun m => !h.tree.alive m ||
          h.tree.nodes[m]?.all fun node => node.parent ≠ some n && node.readFrom ≠ some n then
        some { h with tree.alive := Function.update h.tree.alive n false }
      else none
  | .execution s => do
      let (s, _) ← s.computeVclocks
      let (tree, nodes) ← s.computeUnfolding h.tree
      return ⟨tree, h.executions ++ [(s, nodes)]⟩

end UnfoldingHistory

end Nidhugg
