import Nidhugg.Model.DecisionTree
import Mathlib.Algebra.BigOperators.Group.Finset.Basic
import Mathlib.Data.List.MinMax
import Mathlib.Tactic.Abel

/-! # The schedulers as bags of jobs

Both schedulers keep a bag of queued nodes: `enqueue` adds one node, `dequeue` removes the
node it returns, and only an empty bag makes a thread wait. -/

namespace Nidhugg

/-- Replacing one of `n` contributions to a sum. -/
theorem sum_update_exchange {β M : Type*} [AddCommMonoid M] (f : β → M) (w : ℕ → β) {n i : ℕ}
    (hi : i < n) (b : β) :
    (∑ t ∈ Finset.range n, f (Function.update w i b t)) + f (w i) =
      (∑ t ∈ Finset.range n, f (w t)) + f b := by
  have hmem : i ∈ Finset.range n := Finset.mem_range.mpr hi
  have hrest : ∑ t ∈ (Finset.range n).erase i, f (Function.update w i b t) =
      ∑ t ∈ (Finset.range n).erase i, f (w t) := by
    apply Finset.sum_congr rfl
    intro t ht
    rw [Function.update_of_ne (Finset.ne_of_mem_erase ht)]
  rw [← Finset.add_sum_erase _ _ hmem, ← Finset.add_sum_erase _ _ hmem, hrest,
    Function.update_self]
  abel

namespace Scheduler

/-- A scheduler for `numThreads` threads keeps the bag `jobs`. -/
structure Lawful (S : Scheduler) (numThreads : ℕ) (jobs : S.State → Multiset DecisionNode) :
    Prop where
  jobs_init : jobs S.init = 0
  jobs_enqueue : ∀ {tid}, tid < numThreads → ∀ node queues,
    jobs (S.enqueue tid node queues) = node ::ₘ jobs queues
  jobs_dequeue : ∀ {tid}, tid < numThreads → ∀ {pick queues node queues'},
    S.dequeue tid pick queues = some (node, queues') → jobs queues = node ::ₘ jobs queues'
  dequeue_of_jobs : ∀ {tid}, tid < numThreads → ∀ {queues}, jobs queues ≠ 0 →
    ∃ pick node queues', S.dequeue tid pick queues = some (node, queues')

/-! ### The priority queue -/

def priorityQueueJobs (queue : List DecisionNode) : Multiset DecisionNode := queue

theorem priorityQueue_lawful (numThreads : ℕ) :
    priorityQueue.Lawful numThreads priorityQueueJobs where
  jobs_init := rfl
  jobs_enqueue := fun _ _ _ => rfl
  jobs_dequeue := by
    intro tid _ pick queues node queues' h
    simp only [priorityQueue, Option.ite_none_right_eq_some] at h
    obtain ⟨⟨hmem, -⟩, heq⟩ := h
    cases heq
    exact Multiset.coe_eq_coe.mpr (List.perm_cons_erase hmem)
  dequeue_of_jobs := by
    intro tid _ (queues : List DecisionNode) h
    cases hmax : List.argmax DecisionNode.depth queues with
    | none =>
        rw [List.argmax_eq_none] at hmax
        exact absurd (by rw [hmax]; rfl) h
    | some top =>
        refine ⟨top, top, List.erase queues top, if_pos ⟨List.argmax_mem hmax, ?_⟩⟩
        intro node hnode
        exact List.le_of_mem_argmax hnode hmax

end Scheduler

/-! ### The work-stealing queues -/

namespace ThreadWorkQueue

theorem nodes_ofNodes (depth : ℤ) (ns : List DecisionNode) :
    nodes (DepthQueue.ofNodes depth ns) = ns := by
  cases ns with
  | nil => rfl
  | cons node ns => simp [nodes, DepthQueue.ofNodes, DepthQueue.nodes]

theorem nodes_append (xs ys : ThreadWorkQueue) : nodes (xs ++ ys) = nodes xs ++ nodes ys :=
  List.flatMap_append

theorem nodes_push (node : DecisionNode) (queues : ThreadWorkQueue) :
    (nodes (push node queues)).Perm (node :: nodes queues) := by
  induction queues with
  | nil => simp [push, nodes, DepthQueue.nodes]
  | cons queue queues ih =>
      have hcons : ∀ q qs, nodes (q :: qs) = q.nodes ++ nodes qs := fun _ _ => rfl
      simp only [push]
      split
      · simp only [hcons, DepthQueue.nodes, List.cons_append, List.append_assoc,
          List.nil_append]
        rw [← List.cons_append]
        exact List.perm_middle
      split
      · simp [nodes, DepthQueue.nodes]
      · rw [hcons, hcons]
        exact (ih.append_left queue.nodes).trans List.perm_middle

theorem nodes_pop {queues queues' : ThreadWorkQueue} {node : DecisionNode}
    (h : pop queues = some (node, queues')) :
    (nodes queues).Perm (node :: nodes queues') := by
  cases queues using List.reverseRecOn with
  | nil => simp [pop] at h
  | append_singleton queues queue =>
      simp only [pop, List.getLast?_append, List.getLast?_singleton, Option.some_or,
        List.dropLast_concat, Option.some.injEq, Prod.mk.injEq] at h
      obtain ⟨rfl, rfl⟩ := h
      rw [nodes_append, nodes_append, nodes_ofNodes]
      simp [nodes, DepthQueue.nodes]

theorem pop_eq_none_iff {queues : ThreadWorkQueue} : pop queues = none ↔ queues = [] := by
  unfold pop
  cases h : queues.getLast? with
  | none => simpa using h
  | some queue =>
      have hne : queues ≠ [] := by
        intro hnil
        simp [hnil] at h
      simpa using hne

theorem nodes_steal {theirs theirs' mine : ThreadWorkQueue}
    (h : steal theirs = some (mine, theirs')) :
    (nodes theirs).Perm (nodes mine ++ nodes theirs') ∧ mine ≠ [] := by
  cases theirs with
  | nil => simp [steal] at h
  | cons queue queues =>
      simp only [steal, Option.some.injEq, Prod.mk.injEq] at h
      obtain ⟨rfl, rfl⟩ := h
      set keep := queue.nodes.length - (queue.nodes.length + 1) / 2 with hkeep
      have hlen : 0 < queue.nodes.length := by simp [DepthQueue.nodes]
      constructor
      · rw [nodes_append, nodes_ofNodes, nodes_ofNodes, ← List.append_assoc]
        have hsplit : queue.nodes.Perm (queue.nodes.drop keep ++ queue.nodes.take keep) := by
          conv_lhs => rw [← List.take_append_drop keep queue.nodes]
          exact List.perm_append_comm
        exact hsplit.append_right (nodes queues)
      · intro hnil
        have hdrop : queue.nodes.drop keep = [] := by
          rw [← nodes_ofNodes queue.depth (queue.nodes.drop keep), hnil]
          rfl
        have := List.drop_eq_nil_iff.mp hdrop
        omega

theorem steal_eq_none_iff {queues : ThreadWorkQueue} : steal queues = none ↔ queues = [] := by
  cases queues <;> simp [steal]

end ThreadWorkQueue

namespace Scheduler

def workstealingJobs (numThreads : ℕ) (queues : ℕ → ThreadWorkQueue) : Multiset DecisionNode :=
  ∑ tid ∈ Finset.range numThreads, (ThreadWorkQueue.nodes (queues tid) : Multiset DecisionNode)

/-- Replacing the queue of one thread in the bag of all threads. -/
theorem workstealingJobs_update {numThreads tid : ℕ} (htid : tid < numThreads)
    (queues : ℕ → ThreadWorkQueue) (queue : ThreadWorkQueue) :
    workstealingJobs numThreads (Function.update queues tid queue) +
        (ThreadWorkQueue.nodes (queues tid) : Multiset DecisionNode) =
      workstealingJobs numThreads queues + (ThreadWorkQueue.nodes queue : Multiset DecisionNode) :=
  sum_update_exchange (fun queue => (ThreadWorkQueue.nodes queue : Multiset DecisionNode)) queues
    htid queue

/-- Stealing moves nodes between two threads and hands one of them out. -/
theorem workstealingJobs_steal {numThreads tid other : ℕ} (htid : tid < numThreads)
    (hother : other < numThreads) (hne : other ≠ tid) {queues : ℕ → ThreadWorkQueue}
    {stolen theirs mine : ThreadWorkQueue} {node : DecisionNode} (hempty : queues tid = [])
    (hsteal : ThreadWorkQueue.steal (queues other) = some (stolen, theirs))
    (hpop : ThreadWorkQueue.pop stolen = some (node, mine)) :
    workstealingJobs numThreads queues =
      node ::ₘ workstealingJobs numThreads
        (Function.update (Function.update queues other theirs) tid mine) := by
  have htheirs := workstealingJobs_update hother queues theirs
  have hmine := workstealingJobs_update htid (Function.update queues other theirs) mine
  rw [Function.update_of_ne hne.symm, hempty] at hmine
  have hsplit := Multiset.coe_eq_coe.mpr (ThreadWorkQueue.nodes_steal hsteal).1
  have hnode := Multiset.coe_eq_coe.mpr (ThreadWorkQueue.nodes_pop hpop)
  rw [← Multiset.coe_add, hnode, ← Multiset.cons_coe] at hsplit
  rw [hsplit, ← add_assoc] at htheirs
  have hcancel := add_right_cancel htheirs
  have hzero : (ThreadWorkQueue.nodes [] : Multiset DecisionNode) = 0 := rfl
  rw [hzero, add_zero] at hmine
  rw [hmine, ← hcancel, Multiset.add_cons]

theorem workstealing_lawful (numThreads : ℕ) :
    (workstealing numThreads).Lawful numThreads (workstealingJobs numThreads) where
  jobs_init := by
    apply Finset.sum_eq_zero
    intro tid _
    rfl
  jobs_enqueue := by
    intro tid htid node queues
    have h := workstealingJobs_update htid queues (ThreadWorkQueue.push node (queues tid))
    rw [Multiset.coe_eq_coe.mpr (ThreadWorkQueue.nodes_push node (queues tid)),
      ← Multiset.cons_coe, Multiset.add_cons, ← Multiset.cons_add] at h
    exact add_right_cancel h
  jobs_dequeue := by
    intro tid htid (other : ℕ) queues node queues' h
    simp only [workstealing] at h
    split at h
    case h_1 node' mine hpop =>
      cases h
      have h := workstealingJobs_update htid queues mine
      rw [Multiset.coe_eq_coe.mpr (ThreadWorkQueue.nodes_pop hpop), ← Multiset.cons_coe,
        Multiset.add_cons, ← Multiset.cons_add] at h
      exact (add_right_cancel h).symm
    case h_2 hpop =>
      rw [Option.ite_none_right_eq_some] at h
      obtain ⟨⟨hother, hne⟩, h⟩ := h
      obtain ⟨⟨stolen, theirs⟩, hsteal, h⟩ := Option.bind_eq_some_iff.mp h
      obtain ⟨⟨node', mine⟩, hmine, h⟩ := Option.bind_eq_some_iff.mp h
      cases h
      have hempty := ThreadWorkQueue.pop_eq_none_iff.mp hpop
      exact workstealingJobs_steal htid hother hne hempty hsteal hmine
  dequeue_of_jobs := by
    intro tid htid queues h
    by_cases hmine : queues tid = []
    · -- some other thread has a queued node to steal
      have hother : ∃ other < numThreads, queues other ≠ [] := by
        by_contra hnone
        push Not at hnone
        apply h
        apply Finset.sum_eq_zero
        intro other hmem
        rw [hnone other (Finset.mem_range.mp hmem)]
        rfl
      obtain ⟨other, hlt, hqueue⟩ := hother
      have hne : other ≠ tid := by
        intro heq
        exact hqueue (heq ▸ hmine)
      cases hsteal : ThreadWorkQueue.steal (queues other) with
      | none => exact absurd (ThreadWorkQueue.steal_eq_none_iff.mp hsteal) hqueue
      | some split =>
          obtain ⟨stolen, theirs⟩ := split
          obtain ⟨-, hstolen⟩ := ThreadWorkQueue.nodes_steal hsteal
          cases hpop : ThreadWorkQueue.pop stolen with
          | none => exact absurd (ThreadWorkQueue.pop_eq_none_iff.mp hpop) hstolen
          | some popped =>
              refine ⟨other, popped.1,
                Function.update (Function.update queues other theirs) tid popped.2, ?_⟩
              simp only [workstealing, ThreadWorkQueue.pop_eq_none_iff.mpr hmine]
              rw [if_pos ⟨hlt, hne⟩, hsteal]
              simp only [Option.bind_eq_bind, Option.bind_some, hpop]
              rfl
    · cases hpop : ThreadWorkQueue.pop (queues tid) with
      | none => exact absurd (ThreadWorkQueue.pop_eq_none_iff.mp hpop) hmine
      | some popped =>
          refine ⟨tid, popped.1, Function.update queues tid popped.2, ?_⟩
          simp only [workstealing, hpop]

end Scheduler

/-- The bag of the chosen scheduler. -/
def queuedJobs (scheduler : ExplorationScheduler) (numThreads : ℕ) :
    (makeScheduler scheduler numThreads).State → Multiset DecisionNode :=
  match scheduler with
  | .prioqueue => Scheduler.priorityQueueJobs
  | .workstealing => Scheduler.workstealingJobs numThreads

theorem makeScheduler_lawful (scheduler : ExplorationScheduler) (numThreads : ℕ) :
    (makeScheduler scheduler numThreads).Lawful numThreads (queuedJobs scheduler numThreads) := by
  cases scheduler with
  | prioqueue => exact Scheduler.priorityQueue_lawful numThreads
  | workstealing => exact Scheduler.workstealing_lawful numThreads

end Nidhugg
