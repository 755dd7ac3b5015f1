import Nidhugg.Model.DecisionTree

/-! # The drivers of the reads-from exploration

What a driver, its trace builder and the scheduler do with work items. The program under
test is seen only through its effects on the decision tree: which decision a failure is
blamed on, how many new decisions an execution makes and which alternatives of them are
feasible. -/

namespace Nidhugg

/-- The decision tree, the queues and the job counter that all threads share. -/
structure Explorer (S : Scheduler) where
  queues : S.State
  tree : DecisionTree
  outstandingJobs : ℕ

/-- What a trace builder is doing: fetching a work item in `reset`, running the program on
it, or computing new work items below the deepest decision of the run. -/
inductive Phase where
  | resetting
  | executing (workItem : DecisionNode)
  | computing (deepest : DecisionNode)
deriving DecidableEq, Repr

/-- An effect of one execution. -/
inductive JobAction where
  /-- `cancel_replay`, with the decision depths of the events up to the failing one. -/
  | cancelReplay (depths : List ℤ)
  /-- `compute_unfolding`, with the number of loads behind the replayed prefix. -/
  | computeUnfolding (loads : ℕ)
  /-- `construct_sibling` of the decision at a depth. -/
  | constructSibling (depth : ℤ)
deriving DecidableEq, Repr

/-- The work items that an effect creates. -/
def JobAction.created : JobAction → ℕ
  | .constructSibling _ => 1
  | .cancelReplay _ | .computeUnfolding _ => 0

/-- One action of a driver's loop. -/
inductive DriverAction (S : Scheduler) where
  /-- One dequeue of `reset`. -/
  | reset (pick : S.Pick)
  | job (action : JobAction)
  /-- The end of the loop body. The flag is the verdict of `handle_trace`. -/
  | finish (stop : Bool)

namespace Explorer

variable {S : Scheduler}

def enqueue (x : Explorer S) (tid : ℕ) (node : DecisionNode) : Explorer S :=
  { x with queues := S.enqueue tid node x.queues, outstandingJobs := x.outstandingJobs + 1 }

/-- The constructor of the decision tree enqueues the root. -/
def init (S : Scheduler) : Explorer S :=
  enqueue ⟨S.init, DecisionTree.init, 0⟩ 0 .root

/-- Blames the deepest decision among the executed events, if there is one. Decisions of
replayed events are ancestors of the work item. -/
def cancelReplay (tree : DecisionTree) (workItem : DecisionNode) (depths : List ℤ) :
    Option DecisionTree :=
  let maxDepth := depths.foldl max (-1)
  if maxDepth = -1 then some tree
  else (workItem.findAncestor maxDepth).map tree.pruneDecisions

/-- Every new load is a decision below the previous ones. -/
def computeUnfolding (tree : DecisionTree) (workItem : DecisionNode) :
    ℕ → DecisionNode × DecisionTree
  | 0 => (workItem, tree)
  | loads + 1 =>
      let (deepest, tree) := computeUnfolding tree workItem loads
      tree.newDecisionNode deepest

def jobStep (x : Explorer S) (tid : ℕ) (phase : Phase) (action : JobAction) :
    Option (Explorer S × Phase) :=
  match action, phase with
  | .cancelReplay depths, .executing workItem => do
      let tree ← cancelReplay x.tree workItem depths
      return ({ x with tree := tree }, phase)
  | .computeUnfolding loads, .executing workItem =>
      let (deepest, tree) := computeUnfolding x.tree workItem loads
      some ({ x with tree := tree }, .computing deepest)
  | .constructSibling depth, .computing deepest => do
      let decision ← deepest.findAncestor depth
      let (node, tree) ← x.tree.makeSibling decision
      return ({ x with tree := tree }.enqueue tid node, phase)
  | _, _ => none

/-- One turn of the loop in `reset`: the next phase and the explorer, when there is an item
to dequeue. A pruned item is dropped. -/
def resetStep (x : Explorer S) (tid : ℕ) (pick : S.Pick) : Option (Explorer S × Phase) := do
  let (node, queues) ← S.dequeue tid pick x.queues
  return ({ x with queues := queues },
    if x.tree.isPruned node then .resetting else .executing node)

end Explorer

/-! ## The sequential driver -/

inductive SequentialPhase where
  | running (phase : Phase)
  /-- The loop ended with `tasks_left` zero. -/
  | exhausted
  /-- The loop was left because of an error. -/
  | aborted
deriving DecidableEq, Repr

structure SequentialDriver (S : Scheduler) where
  explorer : Explorer S
  phase : SequentialPhase
  tasksLeft : ℤ
  tasksCreated : ℤ

namespace SequentialDriver

variable {S : Scheduler}

def init (S : Scheduler) : SequentialDriver S :=
  ⟨Explorer.init S, .running .resetting, 1, 0⟩

def step (s : SequentialDriver S) (action : DriverAction S) : Option (SequentialDriver S) :=
  match action, s.phase with
  | .reset pick, .running .resetting => do
      let (explorer, phase) ← s.explorer.resetStep 0 pick
      return { s with
        explorer := explorer
        phase := .running phase
        tasksCreated := if phase = .resetting then s.tasksCreated - 1 else 0 }
  | .job action, .running phase => do
      let (explorer, phase) ← s.explorer.jobStep 0 phase action
      return { s with
        explorer := explorer
        phase := .running phase
        tasksCreated := s.tasksCreated + action.created }
  | .finish stop, .running (.computing _) =>
      let tasksLeft := s.tasksLeft - 1 + s.tasksCreated
      some { s with
        tasksLeft := tasksLeft
        phase :=
          if stop then .aborted
          else if tasksLeft = 0 then .exhausted
          else .running .resetting }
  | _, _ => none

end SequentialDriver

/-! ## The parallel driver -/

inductive WorkerPhase where
  | running (phase : Phase)
  | returned
deriving DecidableEq, Repr

/-- Why the scheduler is halting, if it is. -/
inductive Halting where
  | no
  | exhausted
  | aborted
deriving DecidableEq, Repr

structure ParallelDriver (S : Scheduler) where
  explorer : Explorer S
  halting : Halting
  workers : ℕ → WorkerPhase

namespace ParallelDriver

variable {S : Scheduler}

def init (S : Scheduler) : ParallelDriver S :=
  ⟨Explorer.init S, .no, fun _ => .running .resetting⟩

/-- One step of worker `tid`. `dequeue` returns nothing once the scheduler is halting. -/
def workerStep (s : ParallelDriver S) (tid : ℕ) (action : DriverAction S) :
    Option (ParallelDriver S) :=
  match action, s.workers tid with
  | .reset pick, .running .resetting =>
      if s.halting = .no then do
        let (explorer, phase) ← s.explorer.resetStep tid pick
        return { s with
          explorer := explorer
          workers := Function.update s.workers tid (.running phase) }
      else some { s with workers := Function.update s.workers tid .returned }
  | .job action, .running phase => do
      let (explorer, phase) ← s.explorer.jobStep tid phase action
      return { s with
        explorer := explorer
        workers := Function.update s.workers tid (.running phase) }
  | .finish stop, .running (.computing _) =>
      let remain := s.explorer.outstandingJobs - 1
      some { s with
        explorer := { s.explorer with outstandingJobs := remain }
        halting :=
          if stop || s.halting = .aborted then .aborted
          else if remain = 0 then .exhausted
          else s.halting
        workers := Function.update s.workers tid (.running .resetting) }
  | _, _ => none

/-- A step of one of `numThreads` workers. -/
def step (numThreads : ℕ) (s : ParallelDriver S) (action : ℕ × DriverAction S) :
    Option (ParallelDriver S) :=
  if action.1 < numThreads then s.workerStep action.1 action.2 else none

end ParallelDriver

end Nidhugg
