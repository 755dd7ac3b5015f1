import Mathlib.Data.Int.Notation
import Mathlib.Data.Nat.Notation
import Mathlib.Logic.Function.Basic

/-! # The decision tree and its schedulers

Work items are nodes of a tree of reads-from decisions. A scheduler hands queued nodes to
the exploring threads; pruning a node dooms everything below it. -/

namespace Nidhugg

/-- A node with its chain of parents. Allocated nodes carry distinct identities. -/
inductive DecisionNode where
  | root
  | child (parent : DecisionNode) (id : ℕ)
deriving DecidableEq, Repr

namespace DecisionNode

/-- The root has depth -1. -/
def depth : DecisionNode → ℤ
  | root => -1
  | child parent _ => parent.depth + 1

/-- `find_ancestor`: the node itself or the ancestor at the wanted depth. -/
def findAncestor : DecisionNode → ℤ → Option DecisionNode
  | root, wanted => if wanted = -1 then some root else none
  | child parent id, wanted =>
      if (child parent id).depth = wanted then some (child parent id)
      else parent.findAncestor wanted

end DecisionNode

/-- The part of the tree that changes: the next identity and the `pruned_subtree` flags. -/
structure DecisionTree where
  nextId : ℕ
  prunedSubtree : ℕ → Bool

namespace DecisionTree

def init : DecisionTree := ⟨0, fun _ => false⟩

/-- The walk towards the root stops at depth -1, whose flag is never read. -/
def isPruned (tree : DecisionTree) : DecisionNode → Bool
  | .root => false
  | .child parent id => tree.prunedSubtree id || tree.isPruned parent

def pruneDecisions (tree : DecisionTree) : DecisionNode → DecisionTree
  | .root => tree
  | .child _ id => { tree with prunedSubtree := Function.update tree.prunedSubtree id true }

def newDecisionNode (tree : DecisionTree) (parent : DecisionNode) :
    DecisionNode × DecisionTree :=
  (.child parent tree.nextId, { tree with nextId := tree.nextId + 1 })

/-- `make_sibling`; the root has no siblings. -/
def makeSibling (tree : DecisionTree) : DecisionNode → Option (DecisionNode × DecisionTree)
  | .root => none
  | .child parent _ => some (tree.newDecisionNode parent)

end DecisionTree

/-- The operations of a scheduler on its queues. A `Pick` resolves what the code leaves to
the library or to chance. -/
structure Scheduler where
  State : Type
  Pick : Type
  init : State
  enqueue : (tid : ℕ) → DecisionNode → State → State
  /-- Empty when the thread has to wait. -/
  dequeue : (tid : ℕ) → Pick → State → Option (DecisionNode × State)

namespace Scheduler

/-- `PriorityQueueScheduler`: the top is one of the deepest nodes. -/
def priorityQueue : Scheduler where
  State := List DecisionNode
  Pick := DecisionNode
  init := []
  enqueue := fun _ node queue => node :: queue
  dequeue := fun _ top queue =>
    if top ∈ queue ∧ ∀ node ∈ queue, node.depth ≤ top.depth then some (top, queue.erase top)
    else none

end Scheduler

/-- The nonempty deque of one depth. -/
structure DepthQueue where
  depth : ℤ
  front : DecisionNode
  rest : List DecisionNode
deriving DecidableEq, Repr

def DepthQueue.nodes (queue : DepthQueue) : List DecisionNode := queue.front :: queue.rest

/-- The entry for a deque, which is erased when the deque is empty. -/
def DepthQueue.ofNodes (depth : ℤ) : List DecisionNode → List DepthQueue
  | [] => []
  | node :: nodes => [⟨depth, node, nodes⟩]

/-- The deques of one thread by increasing depth. -/
abbrev ThreadWorkQueue := List DepthQueue

namespace ThreadWorkQueue

def push (node : DecisionNode) : ThreadWorkQueue → ThreadWorkQueue
  | [] => [⟨node.depth, node, []⟩]
  | queue :: queues =>
      if queue.depth = node.depth then { queue with rest := queue.rest ++ [node] } :: queues
      else if node.depth < queue.depth then ⟨node.depth, node, []⟩ :: queue :: queues
      else queue :: push node queues

/-- Takes the front of the deepest deque. -/
def pop (queues : ThreadWorkQueue) : Option (DecisionNode × ThreadWorkQueue) :=
  match queues.getLast? with
  | none => none
  | some queue =>
      some (queue.front, queues.dropLast ++ DepthQueue.ofNodes queue.depth queue.rest)

/-- Splits the shallowest deque of another thread: the half that the empty thief takes from
its back, and what the other thread keeps. -/
def steal : ThreadWorkQueue → Option (ThreadWorkQueue × ThreadWorkQueue)
  | [] => none
  | queue :: queues =>
      let count := (queue.nodes.length + 1) / 2
      let keep := queue.nodes.length - count
      some (DepthQueue.ofNodes queue.depth (queue.nodes.drop keep),
        DepthQueue.ofNodes queue.depth (queue.nodes.take keep) ++ queues)

def nodes (queues : ThreadWorkQueue) : List DecisionNode := queues.flatMap DepthQueue.nodes

end ThreadWorkQueue

namespace Scheduler

/-- `WorkstealingPQScheduler`: the pick names the thread that an empty thread steals from. -/
def workstealing (numThreads : ℕ) : Scheduler where
  State := ℕ → ThreadWorkQueue
  Pick := ℕ
  init := fun _ => []
  enqueue := fun tid node queues =>
    Function.update queues tid (ThreadWorkQueue.push node (queues tid))
  dequeue := fun tid other queues =>
    match ThreadWorkQueue.pop (queues tid) with
    | some (node, mine) => some (node, Function.update queues tid mine)
    | none =>
        if other < numThreads ∧ other ≠ tid then do
          let (stolen, theirs) ← ThreadWorkQueue.steal (queues other)
          let (node, mine) ← ThreadWorkQueue.pop stolen
          return (node, Function.update (Function.update queues other theirs) tid mine)
        else none

end Scheduler

inductive ExplorationScheduler where
  | prioqueue
  | workstealing
deriving DecidableEq, Repr

def makeScheduler (scheduler : ExplorationScheduler) (numThreads : ℕ) : Scheduler :=
  match scheduler with
  | .prioqueue => Scheduler.priorityQueue
  | .workstealing => Scheduler.workstealing numThreads

end Nidhugg
