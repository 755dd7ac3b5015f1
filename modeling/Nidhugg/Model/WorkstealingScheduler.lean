import Nidhugg.Model.DecisionTree
import Mathlib.Data.List.Perm.Basic

/-! # The work-stealing scheduler step by step

`WorkstealingPQScheduler` with one step for each critical section. A thread that finds its own
queue empty takes the lock of the scheduler and visits the other threads in a random order; the
owners of the other queues may act between two visits. -/

namespace Nidhugg

/-- `std::map<int,std::deque<std::shared_ptr<DecisionNode>>>`, by increasing depth. -/
abbrev WorkQueue := List (ℤ × List DecisionNode)

namespace WorkQueue

/-- Changes the deque of a depth, which `operator[]` inserts if there is none. -/
def modify (depth : ℤ) (f : List DecisionNode → List DecisionNode) : WorkQueue → WorkQueue
  | [] => [(depth, f [])]
  | (d, deque) :: queue =>
      if d = depth then (d, f deque) :: queue
      else if depth < d then (depth, f []) :: (d, deque) :: queue
      else (d, deque) :: modify depth f queue

def push (queue : WorkQueue) (node : DecisionNode) : WorkQueue :=
  modify node.depth (fun deque => deque ++ [node]) queue

/-- The front of the last deque. Empty if one of the assertions fails. -/
def pop (queue : WorkQueue) : Option (DecisionNode × WorkQueue) :=
  match queue.getLast? with
  | none => none
  | some (_, []) => none
  | some (depth, node :: deque) =>
      some (node, if deque.isEmpty then queue.dropLast else queue.dropLast ++ [(depth, deque)])

/-- The loop of `steal`, which moves nodes from the back of a deque to the front of another. -/
def moveBack : ℕ → List DecisionNode → List DecisionNode → List DecisionNode × List DecisionNode
  | 0, mine, theirs => (mine, theirs)
  | count + 1, mine, theirs =>
      match theirs.getLast? with
      | none => (mine, theirs)
      | some node => moveBack count (node :: mine) theirs.dropLast

inductive StealResult where
  | assertionFails
  | nothing
  | stolen (mine theirs : WorkQueue)

/-- Half of the nodes of the least depth of another queue. -/
def steal (mine other : WorkQueue) : StealResult :=
  if mine ≠ [] then .assertionFails
  else match other with
    | [] => .nothing
    | (depth, deque) :: rest =>
        let count := (deque.length + 1) / 2
        if count = 0 then .assertionFails
        else
          let (stolen, left) := moveBack count [] deque
          .stolen (modify depth (fun _ => stolen) mine)
            (if left.isEmpty then rest else (depth, left) :: rest)

def nodes (queue : WorkQueue) : List DecisionNode := queue.flatMap Prod.snd

/-- The nodes of a depth. -/
def level (depth : ℤ) (queue : WorkQueue) : List DecisionNode :=
  queue.flatMap fun entry => if entry.1 = depth then entry.2 else []

end WorkQueue

/-- Where a thread is. -/
inductive WorkstealingPhase where
  /-- Outside of the scheduler. -/
  | idle
  /-- In `dequeue`, before it takes the lock of the scheduler. -/
  | acquiring
  /-- It holds the lock and has some threads left to steal from. -/
  | stealing (others : List ℕ)
  /-- In `cv.wait`. -/
  | waiting
deriving DecidableEq

structure WorkstealingState where
  workQueue : ℕ → WorkQueue
  phase : ℕ → WorkstealingPhase
  /-- The thread that holds `mutex` between two steps. -/
  holder : Option ℕ
  halting : Bool
  outstandingJobs : ℕ

inductive WorkstealingAction where
  | enqueue (tid : ℕ) (node : DecisionNode)
  /-- The first critical section of `dequeue`. -/
  | dequeue (tid : ℕ)
  /-- The head of the loop of `dequeue`, with the shuffled list of other threads. -/
  | search (tid : ℕ) (others : List ℕ)
  /-- One turn of the loop over the other threads. -/
  | visit (tid : ℕ)
  | wait (tid : ℕ)
  | wake (tid : ℕ)
  | halt

inductive WorkstealingResult where
  /-- The action is not possible in this state. -/
  | disabled
  | assertionFails
  /-- The next state and the node that a call to `dequeue` returns. -/
  | next (s : WorkstealingState) (node : Option DecisionNode)

namespace WorkstealingState

def init : WorkstealingState :=
  ⟨fun _ => [], fun _ => .idle, none, false, 0⟩

/-- The list of other threads before it is shuffled. -/
def others (numThreads tid : ℕ) : List ℕ :=
  let others := List.range (numThreads - 1)
  if tid ≠ others.length then others.set tid others.length else others

/-- Returns the next node of the thread's own queue. -/
def popOwn (s : WorkstealingState) (tid : ℕ) : WorkstealingResult :=
  match (s.workQueue tid).pop with
  | none => .assertionFails
  | some (node, queue) => .next { s with
      workQueue := Function.update s.workQueue tid queue
      phase := Function.update s.phase tid .idle
      holder := if s.holder = some tid then none else s.holder } (some node)

/-- Returns null. -/
def giveUp (s : WorkstealingState) (tid : ℕ) : WorkstealingResult :=
  .next { s with phase := Function.update s.phase tid .idle } none

def enterPhase (s : WorkstealingState) (tid : ℕ) (phase : WorkstealingPhase) : WorkstealingState :=
  { s with phase := Function.update s.phase tid phase }

/-- One step of a thread that is registered. -/
def threadStep (numThreads : ℕ) (s : WorkstealingState) : WorkstealingAction → WorkstealingResult
  | .enqueue tid node =>
      if s.phase tid = .idle then .next { s with
        workQueue := Function.update s.workQueue tid ((s.workQueue tid).push node)
        outstandingJobs := s.outstandingJobs + 1 } none
      else .disabled
  | .dequeue tid =>
      if s.phase tid = .idle then
        if s.halting then s.giveUp tid
        else if s.workQueue tid ≠ [] then s.popOwn tid
        else .next (s.enterPhase tid .acquiring) none
      else .disabled
  | .search tid shuffled =>
      if s.phase tid = .acquiring ∧ s.holder = none ∧ shuffled.Perm (others numThreads tid) then
        if s.halting then s.giveUp tid
        else if s.workQueue tid ≠ [] then s.popOwn tid
        else .next { s.enterPhase tid (.stealing shuffled) with holder := some tid } none
      else .disabled
  | .visit tid =>
      match s.phase tid with
      | .stealing (other :: rest) =>
          if other = tid then .assertionFails
          else match WorkQueue.steal (s.workQueue tid) (s.workQueue other) with
            | .assertionFails => .assertionFails
            | .nothing => .next (s.enterPhase tid (.stealing rest)) none
            | .stolen mine theirs =>
                let workQueue := Function.update (Function.update s.workQueue other theirs) tid mine
                { s with workQueue := workQueue }.popOwn tid
      | _ => .disabled
  | .wait tid =>
      if s.phase tid = .stealing [] then
        .next { s.enterPhase tid .waiting with holder := none } none
      else .disabled
  | .wake tid =>
      if s.phase tid = .waiting then .next (s.enterPhase tid .acquiring) none else .disabled
  | .halt => if s.holder = none then .next { s with halting := true } none else .disabled

end WorkstealingState

/-- The action is one of a registered thread. -/
def WorkstealingAction.registered (numThreads : ℕ) : WorkstealingAction → Bool
  | .enqueue tid _ | .dequeue tid | .search tid _ | .visit tid | .wait tid | .wake tid =>
      tid < numThreads
  | .halt => true

def WorkstealingState.step (numThreads : ℕ) (s : WorkstealingState) (action : WorkstealingAction) :
    WorkstealingResult :=
  if action.registered numThreads then s.threadStep numThreads action else .disabled

/-- The nodes that an action puts into a queue. -/
def WorkstealingAction.enqueued : WorkstealingAction → List DecisionNode
  | .enqueue _ node => [node]
  | _ => []

/-- A state with all nodes that were put in and given out, in this order. -/
structure WorkstealingHistory where
  state : WorkstealingState
  enqueued : List DecisionNode
  handedOut : List DecisionNode

namespace WorkstealingHistory

def init : WorkstealingHistory := ⟨.init, [], []⟩

def step (numThreads : ℕ) (x : WorkstealingHistory) (action : WorkstealingAction) :
    Option WorkstealingHistory :=
  match x.state.step numThreads action with
  | .disabled => none
  | .assertionFails => none
  | .next s node => some ⟨s, x.enqueued ++ action.enqueued, x.handedOut ++ node.toList⟩

end WorkstealingHistory

end Nidhugg
