import Nidhugg.Model.WorkstealingScheduler
import Nidhugg.Verification.DecisionTree.Schedulers

/-! # The queue of a thread

The operations on the map of deques are those on the queues without empty deques. -/

namespace Nidhugg

open WorkQueue

namespace ThreadWorkQueue

/-- The map of a queue without empty deques. -/
def toWorkQueue (queues : ThreadWorkQueue) : WorkQueue :=
  queues.map fun queue => (queue.depth, queue.nodes)

variable {queues queues' mine theirs : ThreadWorkQueue} {node : DecisionNode}

theorem toWorkQueue_eq_nil_iff : toWorkQueue queues = [] ↔ queues = [] := List.map_eq_nil_iff

theorem toWorkQueue_append (xs ys : ThreadWorkQueue) :
    toWorkQueue (xs ++ ys) = toWorkQueue xs ++ toWorkQueue ys := List.map_append

theorem toWorkQueue_ofNodes (depth : ℤ) (ns : List DecisionNode) :
    toWorkQueue (DepthQueue.ofNodes depth ns) = if ns.isEmpty then [] else [(depth, ns)] := by
  cases ns with
  | nil => rfl
  | cons n ns => rfl

theorem nodes_toWorkQueue (queues : ThreadWorkQueue) :
    (toWorkQueue queues).nodes = nodes queues := by
  rw [WorkQueue.nodes, toWorkQueue, List.flatMap_map]
  rfl

theorem push_toWorkQueue (queues : ThreadWorkQueue) (node : DecisionNode) :
    (toWorkQueue queues).push node = toWorkQueue (push node queues) := by
  induction queues with
  | nil => rfl
  | cons queue queues ih =>
      simp only [WorkQueue.push, toWorkQueue, List.map_cons, WorkQueue.modify] at ih ⊢
      rw [ThreadWorkQueue.push]
      split
      · simp [DepthQueue.nodes]
      split
      · rfl
      · rw [List.map_cons, ih]

theorem pop_toWorkQueue (queues : ThreadWorkQueue) :
    (toWorkQueue queues).pop = (pop queues).map fun popped => (popped.1, toWorkQueue popped.2) := by
  cases queues using List.reverseRecOn with
  | nil => rfl
  | append_singleton queues queue =>
      have hmap : toWorkQueue (queues ++ [queue]) =
          toWorkQueue queues ++ [(queue.depth, queue.front :: queue.rest)] := toWorkQueue_append _ _
      rw [WorkQueue.pop, ThreadWorkQueue.pop, hmap, List.getLast?_concat, List.getLast?_concat,
        List.dropLast_concat, List.dropLast_concat]
      dsimp only [Option.map_some]
      rw [toWorkQueue_append, toWorkQueue_ofNodes]
      cases queue.rest with
      | nil => simp
      | cons n ns => simp

theorem moveBack_eq {count : ℕ} {deque : List DecisionNode} (mine : List DecisionNode)
    (hcount : count ≤ deque.length) : moveBack count mine deque =
      (deque.drop (deque.length - count) ++ mine, deque.take (deque.length - count)) := by
  induction count generalizing mine deque with
  | zero => simp [moveBack]
  | succ count ih =>
      cases deque using List.reverseRecOn with
      | nil => simp at hcount
      | append_singleton deque node =>
          rw [List.length_append, List.length_singleton] at hcount ⊢
          have hle : deque.length + 1 - (count + 1) ≤ deque.length := by omega
          rw [moveBack, List.getLast?_concat]
          dsimp only
          rw [List.dropLast_concat, ih _ (by omega), List.take_append_of_le_length hle,
            List.drop_append_of_le_length hle, Nat.add_sub_add_right]
          simp

theorem steal_toWorkQueue (theirs : ThreadWorkQueue) :
    WorkQueue.steal [] (toWorkQueue theirs) = match steal theirs with
      | none => .nothing
      | some (mine, theirs') => .stolen (toWorkQueue mine) (toWorkQueue theirs') := by
  cases theirs with
  | nil => rfl
  | cons queue queues =>
      have hlength : 0 < queue.nodes.length := by simp [DepthQueue.nodes]
      have hmap : toWorkQueue (queue :: queues) =
          (queue.depth, queue.nodes) :: toWorkQueue queues := rfl
      rw [hmap, WorkQueue.steal.eq_def, if_neg (by simp), ThreadWorkQueue.steal]
      dsimp only
      rw [if_neg (by omega), moveBack_eq [] (by omega), toWorkQueue_append, toWorkQueue_ofNodes,
        toWorkQueue_ofNodes, List.append_nil]
      have hdrop : (queue.nodes.drop
          (queue.nodes.length - (queue.nodes.length + 1) / 2)).isEmpty = false := by
        rw [← Bool.not_eq_true, List.isEmpty_iff, List.drop_eq_nil_iff]
        omega
      rw [hdrop]
      congr 1
      split
      · rfl
      · rfl

/-! ### Depths and the order of nodes -/

/-- The deques of a queue are sorted by depth, and their nodes have been put in in this order. -/
structure Ordered (enqueued : List DecisionNode) (queues : ThreadWorkQueue) : Prop where
  sorted : queues.Pairwise fun a b => a.depth < b.depth
  depth : ∀ queue ∈ queues, ∀ node ∈ queue.nodes, node.depth = queue.depth
  sublist : ∀ queue ∈ queues, queue.nodes.Sublist enqueued

variable {enqueued : List DecisionNode}

theorem ordered_nil : Ordered enqueued [] :=
  ⟨List.Pairwise.nil, fun _ h => absurd h List.not_mem_nil, fun _ h => absurd h List.not_mem_nil⟩

theorem Ordered.concat (h : Ordered enqueued queues) (node : DecisionNode) :
    Ordered (enqueued ++ [node]) queues :=
  ⟨h.sorted, h.depth, fun queue hqueue =>
    (h.sublist queue hqueue).trans (List.sublist_append_left _ _)⟩

theorem ordered_ofNodes {depth : ℤ} {ns : List DecisionNode} (hdepth : ∀ n ∈ ns, n.depth = depth)
    (hsublist : ns.Sublist enqueued) : Ordered enqueued (DepthQueue.ofNodes depth ns) := by
  cases ns with
  | nil => exact ordered_nil
  | cons n ns =>
      refine ⟨List.pairwise_singleton _ _, ?_, ?_⟩
      · intro queue hqueue
        rw [List.mem_singleton.mp hqueue]
        exact hdepth
      · intro queue hqueue
        rw [List.mem_singleton.mp hqueue]
        exact hsublist

/-- The depths in the queue after a push. -/
theorem depth_of_mem_push {queue : DepthQueue} (h : queue ∈ push node queues) :
    queue.depth = node.depth ∨ ∃ q ∈ queues, q.depth = queue.depth := by
  induction queues with
  | nil =>
      rw [List.mem_singleton.mp h]
      exact .inl rfl
  | cons q queues ih =>
      rw [push] at h
      split at h
      · rcases List.mem_cons.mp h with rfl | h
        · exact .inr ⟨q, List.mem_cons_self, rfl⟩
        · exact .inr ⟨queue, List.mem_cons_of_mem _ h, rfl⟩
      split at h
      · rcases List.mem_cons.mp h with rfl | h
        · exact .inl rfl
        · exact .inr ⟨queue, h, rfl⟩
      · rcases List.mem_cons.mp h with rfl | h
        · exact .inr ⟨queue, List.mem_cons_self, rfl⟩
        · rcases ih h with heq | ⟨q', hq', heq⟩
          · exact .inl heq
          · exact .inr ⟨q', List.mem_cons_of_mem _ hq', heq⟩

theorem Ordered.of_cons {queue : DepthQueue} (h : Ordered enqueued (queue :: queues)) :
    Ordered enqueued queues :=
  ⟨(List.pairwise_cons.mp h.sorted).2, fun q hq => h.depth q (List.mem_cons_of_mem _ hq),
    fun q hq => h.sublist q (List.mem_cons_of_mem _ hq)⟩

theorem Ordered.cons {queue : DepthQueue} (h : Ordered enqueued queues)
    (hless : ∀ q ∈ queues, queue.depth < q.depth)
    (hdepth : ∀ n ∈ queue.nodes, n.depth = queue.depth) (hsublist : queue.nodes.Sublist enqueued) :
    Ordered enqueued (queue :: queues) := by
  refine ⟨List.pairwise_cons.mpr ⟨hless, h.sorted⟩, ?_, ?_⟩
  · intro q hq
    rcases List.mem_cons.mp hq with rfl | hq
    · exact hdepth
    · exact h.depth q hq
  · intro q hq
    rcases List.mem_cons.mp hq with rfl | hq
    · exact hsublist
    · exact h.sublist q hq

theorem Ordered.push (h : Ordered enqueued queues) (node : DecisionNode) :
    Ordered (enqueued ++ [node]) (push node queues) := by
  induction queues with
  | nil => exact ordered_ofNodes (by simp) (List.sublist_append_right _ _)
  | cons queue queues ih =>
      have hrest := h.of_cons
      have hless := (List.pairwise_cons.mp h.sorted).1
      have hdepth := h.depth queue List.mem_cons_self
      have hsublist := h.sublist queue List.mem_cons_self
      rw [ThreadWorkQueue.push]
      split
      · rename_i heq
        refine (hrest.concat node).cons hless ?_ ?_
        · intro n hn
          have hn' : n ∈ queue.nodes ++ [node] := hn
          rcases List.mem_append.mp hn' with hn | hn
          · exact hdepth n hn
          · rw [List.mem_singleton.mp hn]
            exact heq.symm
        · exact hsublist.append_right [node]
      split
      · rename_i hlt
        refine (h.concat node).cons ?_ (by simp [DepthQueue.nodes])
          (List.sublist_append_right _ _)
        intro q hq
        rcases List.mem_cons.mp hq with rfl | hq
        · exact hlt
        · exact hlt.trans (hless q hq)
      · rename_i hne hle
        refine (ih hrest).cons ?_ hdepth (hsublist.trans (List.sublist_append_left _ _))
        intro q hq
        rcases depth_of_mem_push hq with heq | ⟨q', hq', heq⟩
        · omega
        · rw [← heq]
          exact hless q' hq'

theorem Ordered.append (hmine : Ordered enqueued mine) (htheirs : Ordered enqueued theirs)
    (hless : ∀ a ∈ mine, ∀ b ∈ theirs, a.depth < b.depth) : Ordered enqueued (mine ++ theirs) := by
  refine ⟨List.pairwise_append.mpr ⟨hmine.sorted, htheirs.sorted, hless⟩, ?_, ?_⟩
  · intro q hq
    rcases List.mem_append.mp hq with hq | hq
    · exact hmine.depth q hq
    · exact htheirs.depth q hq
  · intro q hq
    rcases List.mem_append.mp hq with hq | hq
    · exact hmine.sublist q hq
    · exact htheirs.sublist q hq

theorem depth_of_mem_ofNodes {depth : ℤ} {ns : List DecisionNode} {queue : DepthQueue}
    (h : queue ∈ DepthQueue.ofNodes depth ns) : queue.depth = depth := by
  cases ns with
  | nil => cases h
  | cons n ns => rw [List.mem_singleton.mp h]

theorem Ordered.of_append_left (h : Ordered enqueued (mine ++ theirs)) : Ordered enqueued mine :=
  ⟨(List.pairwise_append.mp h.sorted).1, fun q hq => h.depth q (List.mem_append_left _ hq),
    fun q hq => h.sublist q (List.mem_append_left _ hq)⟩

/-! ### Levels -/

theorem level_append (d : ℤ) (xs ys : WorkQueue) :
    level d (xs ++ ys) = level d xs ++ level d ys := List.flatMap_append

theorem level_eq_nil {d : ℤ} (h : ∀ queue ∈ queues, queue.depth ≠ d) :
    level d (toWorkQueue queues) = [] := by
  rw [level, toWorkQueue, List.flatMap_map, List.flatMap_eq_nil_iff]
  intro queue hqueue
  exact if_neg (h queue hqueue)

theorem level_singleton (d : ℤ) (queue : DepthQueue) :
    level d (toWorkQueue [queue]) = if queue.depth = d then queue.nodes else [] := by
  simp [level, toWorkQueue]

theorem level_ofNodes (d depth : ℤ) (ns : List DecisionNode) :
    level d (toWorkQueue (DepthQueue.ofNodes depth ns)) = if depth = d then ns else [] := by
  cases ns with
  | nil => simp [level, toWorkQueue, DepthQueue.ofNodes]
  | cons n ns => exact level_singleton d ⟨depth, n, ns⟩

end ThreadWorkQueue

/-- A pop returns the first of the deepest nodes. -/
structure WorkQueue.Pops (queue queue' : WorkQueue) (node : DecisionNode) : Prop where
  deepest : ∀ n ∈ queue.nodes, n.depth ≤ node.depth
  first : level node.depth queue = node :: level node.depth queue'
  rest : ∀ d, d ≠ node.depth → level d queue' = level d queue

/-- A steal takes the later nodes of a depth. -/
structure WorkQueue.Steals (theirs theirs' mine : WorkQueue) : Prop where
  splits : ∀ d, level d theirs = level d theirs' ++ level d mine
  nonempty : mine ≠ []

namespace ThreadWorkQueue

variable {queues queues' mine theirs theirs' : ThreadWorkQueue} {node : DecisionNode}
  {enqueued : List DecisionNode}

theorem Ordered.pop (h : Ordered enqueued queues) (hpop : pop queues = some (node, queues')) :
    Ordered enqueued queues' ∧ Pops (toWorkQueue queues) (toWorkQueue queues') node := by
  cases queues using List.reverseRecOn with
  | nil => cases hpop
  | append_singleton queues queue =>
      rw [ThreadWorkQueue.pop, List.getLast?_concat, List.dropLast_concat] at hpop
      cases hpop
      have hqueue : queue ∈ queues ++ [queue] := List.mem_append_right _ List.mem_cons_self
      have hdepth := h.depth queue hqueue
      have hless := (List.pairwise_append.mp h.sorted).2.2
      have hfront : queue.front.depth = queue.depth := hdepth _ List.mem_cons_self
      constructor
      · refine h.of_append_left.append (ordered_ofNodes ?_ ?_) ?_
        · intro n hn
          exact hdepth n (List.mem_cons_of_mem _ hn)
        · exact (List.sublist_cons_self _ _).trans (h.sublist queue hqueue)
        · intro a ha b hb
          rw [depth_of_mem_ofNodes hb]
          exact hless a ha queue List.mem_cons_self
      · have hlevel : level queue.depth (toWorkQueue queues) = [] := by
          apply level_eq_nil
          intro q hq
          exact (hless q hq queue List.mem_cons_self).ne
        refine ⟨?_, ?_, ?_⟩
        · intro n hn
          rw [nodes_toWorkQueue, nodes, List.mem_flatMap] at hn
          obtain ⟨q, hq, hn⟩ := hn
          rw [h.depth q hq n hn, hfront]
          rcases List.mem_append.mp hq with hq | hq
          · exact (hless q hq queue List.mem_cons_self).le
          · rw [List.mem_singleton.mp hq]
        · rw [hfront, toWorkQueue_append, toWorkQueue_append, level_append, level_append, hlevel,
            level_singleton, level_ofNodes, if_pos rfl, if_pos rfl]
          rfl
        · intro d hd
          rw [hfront] at hd
          rw [toWorkQueue_append, toWorkQueue_append, level_append, level_append,
            level_singleton, level_ofNodes, if_neg hd.symm, if_neg hd.symm]

theorem Ordered.steal (h : Ordered enqueued theirs) (hsteal : steal theirs = some (mine, theirs')) :
    Ordered enqueued mine ∧ Ordered enqueued theirs' ∧
      Steals (toWorkQueue theirs) (toWorkQueue theirs') (toWorkQueue mine) := by
  have hmine := (nodes_steal hsteal).2
  cases theirs with
  | nil => cases hsteal
  | cons queue queues =>
      simp only [ThreadWorkQueue.steal, Option.some.injEq, Prod.mk.injEq] at hsteal
      obtain ⟨rfl, rfl⟩ := hsteal
      have hdepth := h.depth queue List.mem_cons_self
      have hsublist := h.sublist queue List.mem_cons_self
      have hless := (List.pairwise_cons.mp h.sorted).1
      refine ⟨ordered_ofNodes ?_ ?_, (ordered_ofNodes ?_ ?_).append h.of_cons ?_, ?_, ?_⟩
      · intro n hn
        exact hdepth n (List.mem_of_mem_drop hn)
      · exact (List.drop_sublist _ _).trans hsublist
      · intro n hn
        exact hdepth n (List.mem_of_mem_take hn)
      · exact (List.take_sublist _ _).trans hsublist
      · intro a ha b hb
        rw [depth_of_mem_ofNodes ha]
        exact hless b hb
      · intro d
        have hcons : toWorkQueue (queue :: queues) =
            toWorkQueue [queue] ++ toWorkQueue queues := rfl
        rw [hcons, toWorkQueue_append, level_append, level_append, level_singleton, level_ofNodes,
          level_ofNodes]
        by_cases hd : queue.depth = d
        · have hlevel : level d (toWorkQueue queues) = [] := by
            apply level_eq_nil
            intro q hq
            rw [← hd]
            exact (hless q hq).ne'
          rw [hlevel, if_pos hd, if_pos hd, if_pos hd, List.append_nil, List.append_nil,
            List.take_append_drop]
        · rw [if_neg hd, if_neg hd, if_neg hd, List.append_nil]
      · rw [Ne, toWorkQueue_eq_nil_iff]
        exact hmine

end ThreadWorkQueue

end Nidhugg
