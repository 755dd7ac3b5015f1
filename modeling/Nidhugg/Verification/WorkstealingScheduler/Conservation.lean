import Nidhugg.Library.LabelledRun
import Nidhugg.Verification.WorkstealingScheduler.Queues

/-! # No work is lost or done twice -/

namespace Nidhugg

open WorkQueue ThreadWorkQueue Scheduler

/-- No deque of a queue is empty. -/
def WorkQueue.Filled (queue : WorkQueue) : Prop := ∀ entry ∈ queue, entry.2 ≠ []

theorem ThreadWorkQueue.filled_toWorkQueue (queues : ThreadWorkQueue) :
    Filled (toWorkQueue queues) := by
  intro entry hentry
  obtain ⟨queue, -, rfl⟩ := List.mem_map.mp hentry
  exact List.cons_ne_nil _ _

/-! ### The list of other threads -/

/-- The candidates for a steal are the other threads, each of them once. -/
theorem WorkstealingState.others_perm {numThreads tid : ℕ} (htid : tid < numThreads) :
    (others numThreads tid).Perm ((List.range numThreads).erase tid) := by
  obtain ⟨n, rfl⟩ : ∃ n, numThreads = n + 1 := ⟨numThreads - 1, by omega⟩
  have hnodup : (List.range (n + 1)).Nodup := List.nodup_range
  simp only [others, Nat.add_sub_cancel, List.length_range]
  apply List.perm_of_nodup_nodup_toFinset_eq
  · split
    · rename_i hne
      rw [List.nodup_iff_injective_getElem]
      intro i j hij
      have hi := i.2
      have hj := j.2
      simp only [List.length_set, List.length_range] at hi hj
      simp only [List.getElem_set, List.getElem_range] at hij
      apply Fin.ext
      split at hij <;> split at hij <;> omega
    · exact List.nodup_range
  · exact hnodup.erase tid
  · ext t
    rw [List.mem_toFinset, List.mem_toFinset, hnodup.mem_erase_iff, List.mem_range]
    split
    · rename_i hne
      rw [List.mem_iff_getElem]
      simp only [List.length_set, List.length_range, List.getElem_set, List.getElem_range]
      constructor
      · rintro ⟨i, hi, hit⟩
        split at hit <;> omega
      · rintro ⟨hne', hlt⟩
        by_cases ht : t = n
        · exact ⟨tid, by omega, by rw [if_pos rfl, ht]⟩
        · exact ⟨t, by omega, if_neg (Ne.symm hne')⟩
    · rename_i heq
      rw [List.mem_range]
      omega

theorem WorkstealingState.mem_others {numThreads tid other : ℕ} (htid : tid < numThreads)
    (h : other ∈ others numThreads tid) : other < numThreads ∧ other ≠ tid := by
  have hmem := (others_perm htid).mem_iff.mp h
  rw [List.nodup_range.mem_erase_iff, List.mem_range] at hmem
  exact ⟨hmem.2, hmem.1⟩

namespace WorkstealingHistory

/-- The queues have no empty deques, and no node is lost or there twice. A thread only visits the
others while it holds the lock and has nothing itself. -/
structure Inv (numThreads : ℕ) (x : WorkstealingHistory) (queues : ℕ → ThreadWorkQueue) :
    Prop where
  workQueue : ∀ tid, x.state.workQueue tid = toWorkQueue (queues tid)
  ordered : ∀ tid, Ordered x.enqueued (queues tid)
  jobs : workstealingJobs numThreads queues + (x.handedOut : Multiset DecisionNode) =
    (x.enqueued : Multiset DecisionNode)
  stealing : ∀ tid others, x.state.phase tid = .stealing others →
    x.state.holder = some tid ∧ queues tid = [] ∧ ∀ other ∈ others, other < numThreads ∧ other ≠ tid

variable {numThreads : ℕ} {x x' : WorkstealingHistory} {queues : ℕ → ThreadWorkQueue}
  {action : WorkstealingAction} {tid : ℕ}

theorem inv_init : Inv numThreads .init fun _ => [] where
  workQueue := fun _ => rfl
  ordered := fun _ => ordered_nil
  jobs := by
    have hsum : workstealingJobs numThreads (fun _ => []) = 0 := Finset.sum_eq_zero fun _ _ => rfl
    rw [hsum]
    rfl
  stealing := by
    intro tid others h
    cases h

/-- What one step does. -/
structure Effect (numThreads : ℕ) (x : WorkstealingHistory) (action : WorkstealingAction)
    (result : WorkstealingResult) : Prop where
  noAssertion : result ≠ .assertionFails
  /-- The next state keeps the invariant. -/
  inv : ∀ s node, result = .next s node → ∀ x', x.step numThreads action = some x' →
    ∃ queues', Inv numThreads x' queues'
  /-- A thread gets the next node of its own queue, or of what it has just stolen. -/
  pops : ∀ s node, result = .next s (some node) → ∃ tid queue,
    Filled queue ∧ Pops queue (s.workQueue tid) node ∧
      (((action = .dequeue tid ∨ ∃ others, action = .search tid others) ∧
          queue = x.state.workQueue tid) ∨
        (action = .visit tid ∧ x.state.workQueue tid = [] ∧ ∃ other others,
          x.state.phase tid = .stealing (other :: others) ∧
          Steals (x.state.workQueue other) (s.workQueue other) queue))

theorem Inv.workQueue_eq_nil_iff (h : Inv numThreads x queues) (tid : ℕ) :
    x.state.workQueue tid = [] ↔ queues tid = [] := by
  rw [h.workQueue, toWorkQueue_eq_nil_iff]

/-- A step that hands out nothing and leaves the queues as they are. -/
theorem Inv.of_phases (h : Inv numThreads x queues) {s : WorkstealingState}
    (hqueue : s.workQueue = x.state.workQueue)
    (hstealing : ∀ tid others, s.phase tid = .stealing others →
      s.holder = some tid ∧ queues tid = [] ∧
        ∀ other ∈ others, other < numThreads ∧ other ≠ tid) :
    Inv numThreads ⟨s, x.enqueued, x.handedOut ++ (none : Option DecisionNode).toList⟩ queues where
  workQueue := by
    intro tid
    rw [hqueue]
    exact h.workQueue tid
  ordered := h.ordered
  jobs := by
    rw [Option.toList_none, List.append_nil]
    exact h.jobs
  stealing := hstealing

/-- Another phase of one thread, which does not hold the lock afterwards. -/
theorem Inv.leave (h : Inv numThreads x queues) {s : WorkstealingState}
    {phase : WorkstealingPhase} (hphase : s.phase = Function.update x.state.phase tid phase)
    (hidle : ∀ others, phase ≠ .stealing others)
    (hholder : s.holder = x.state.holder ∨ (x.state.holder = some tid ∧ s.holder = none)) :
    ∀ t others, s.phase t = .stealing others → s.holder = some t ∧ queues t = [] ∧
      ∀ other ∈ others, other < numThreads ∧ other ≠ t := by
  intro t others ht
  rw [hphase] at ht
  by_cases heq : t = tid
  · subst heq
    rw [Function.update_self] at ht
    exact absurd ht (hidle others)
  · rw [Function.update_of_ne heq] at ht
    have hold := h.stealing t others ht
    rcases hholder with hsame | ⟨hmine, -⟩
    · exact ⟨hsame.trans hold.1, hold.2⟩
    · rw [hmine, Option.some.injEq] at hold
      exact absurd hold.1.symm heq

/-- Popping a node from a queue that is not empty. -/
theorem popOwn_eq (s : WorkstealingState) (tid : ℕ) {queue : ThreadWorkQueue}
    (hqueue : s.workQueue tid = toWorkQueue queue) (hne : queue ≠ []) :
    ∃ node queue', ThreadWorkQueue.pop queue = some (node, queue') ∧
      s.popOwn tid = .next { s with
        workQueue := Function.update s.workQueue tid (toWorkQueue queue')
        phase := Function.update s.phase tid .idle
        holder := if s.holder = some tid then none else s.holder } (some node) := by
  cases hpop : ThreadWorkQueue.pop queue with
  | none => exact absurd (pop_eq_none_iff.mp hpop) hne
  | some popped =>
      refine ⟨popped.1, popped.2, rfl, ?_⟩
      rw [WorkstealingState.popOwn, hqueue, pop_toWorkQueue, hpop]
      rfl

/-- The bag of jobs after a pop from one queue. -/
theorem jobs_pop (htid : tid < numThreads) {node : DecisionNode} {queue' : ThreadWorkQueue}
    (hpop : ThreadWorkQueue.pop (queues tid) = some (node, queue')) :
    workstealingJobs numThreads queues =
      node ::ₘ workstealingJobs numThreads (Function.update queues tid queue') := by
  have hupdate := workstealingJobs_update htid queues queue'
  rw [Multiset.coe_eq_coe.mpr (nodes_pop hpop), ← Multiset.cons_coe, Multiset.add_cons,
    ← Multiset.cons_add] at hupdate
  exact (add_right_cancel hupdate).symm

theorem handedOut_concat {handedOut : List DecisionNode} {node : DecisionNode}
    {bag : Multiset DecisionNode} :
    bag + ((handedOut ++ [node] : List DecisionNode) : Multiset DecisionNode) =
      node ::ₘ bag + (handedOut : Multiset DecisionNode) := by
  rw [← Multiset.coe_add, ← add_assoc, Multiset.cons_add, Multiset.coe_singleton,
    ← Multiset.singleton_add, add_comm]

/-- The invariant after the thread has popped a node from its queue. -/
theorem Inv.of_pop (h : Inv numThreads x queues) {queues' : ℕ → ThreadWorkQueue}
    {s : WorkstealingState} {node : DecisionNode} {phase : WorkstealingPhase}
    (hworkQueue : ∀ t, s.workQueue t = toWorkQueue (queues' t))
    (hordered : ∀ t, Ordered x.enqueued (queues' t))
    (hjobs : workstealingJobs numThreads queues =
      node ::ₘ workstealingJobs numThreads queues')
    (hphase : s.phase = Function.update x.state.phase tid phase)
    (hidle : ∀ others, phase ≠ .stealing others)
    (hholder : s.holder = if x.state.holder = some tid then none else x.state.holder)
    (hempty : ∀ t others, t ≠ tid → x.state.phase t = .stealing others → queues' t = []) :
    Inv numThreads ⟨s, x.enqueued, x.handedOut ++ (some node).toList⟩ queues' where
  workQueue := hworkQueue
  ordered := hordered
  jobs := by
    rw [Option.toList_some, handedOut_concat, ← hjobs]
    exact h.jobs
  stealing := by
    intro t others ht
    dsimp only at ht ⊢
    rw [hphase] at ht
    by_cases heq : t = tid
    · subst heq
      rw [Function.update_self] at ht
      exact absurd ht (hidle others)
    · rw [Function.update_of_ne heq] at ht
      have hold := h.stealing t others ht
      refine ⟨?_, hempty t others heq ht, hold.2.2⟩
      rw [hholder, hold.1, if_neg]
      intro hsome
      exact heq (Option.some.inj hsome)

/-- A thread pops from its own queue. -/
theorem Inv.popOwn_effect (h : Inv numThreads x queues) (htid : tid < numThreads)
    (hstep : x.state.step numThreads action = x.state.popOwn tid)
    (haction : action = .dequeue tid ∨ ∃ others, action = .search tid others)
    (hne : x.state.workQueue tid ≠ []) :
    Effect numThreads x action (x.state.popOwn tid) := by
  have hne' : queues tid ≠ [] := by
    rwa [Ne, ← h.workQueue_eq_nil_iff]
  obtain ⟨node, queue', hpop, heq⟩ := popOwn_eq x.state tid (h.workQueue tid) hne'
  obtain ⟨hordered, hpops⟩ := (h.ordered tid).pop hpop
  rw [heq] at hstep ⊢
  refine ⟨by simp, ?_, ?_⟩
  · intro s out _ x' hx'
    rw [step, hstep] at hx'
    have henqueued : action.enqueued = [] := by
      rcases haction with rfl | ⟨others, rfl⟩
      · rfl
      · rfl
    dsimp only at hx'
    rw [henqueued, List.append_nil, Option.some.injEq] at hx'
    rw [← hx']
    refine ⟨Function.update queues tid queue', h.of_pop ?_ ?_ (jobs_pop htid hpop) rfl
      (fun others => by simp) rfl ?_⟩
    · intro t
      dsimp only
      by_cases ht : t = tid
      · subst ht
        rw [Function.update_self, Function.update_self]
      · rw [Function.update_of_ne ht, Function.update_of_ne ht, h.workQueue]
    · intro t
      by_cases ht : t = tid
      · subst ht
        rw [Function.update_self]
        exact hordered
      · rw [Function.update_of_ne ht]
        exact h.ordered t
    · intro t others ht hphase
      rw [Function.update_of_ne ht]
      exact (h.stealing t others hphase).2.1
  · intro s out hout
    rw [WorkstealingResult.next.injEq, Option.some.injEq] at hout
    obtain ⟨rfl, rfl⟩ := hout
    refine ⟨tid, x.state.workQueue tid, ?_, ?_, .inl ⟨haction, rfl⟩⟩
    · rw [h.workQueue]
      exact filled_toWorkQueue _
    · dsimp only
      rw [Function.update_self, h.workQueue]
      exact hpops

/-- A step that only changes phases and flags. -/
theorem Inv.quiet_effect (h : Inv numThreads x queues) {s : WorkstealingState}
    (hstep : x.state.step numThreads action = .next s none) (haction : action.enqueued = [])
    (hqueue : s.workQueue = x.state.workQueue)
    (hstealing : ∀ tid others, s.phase tid = .stealing others →
      s.holder = some tid ∧ queues tid = [] ∧
        ∀ other ∈ others, other < numThreads ∧ other ≠ tid) :
    Effect numThreads x action (.next s none) := by
  refine ⟨by simp, ?_, ?_⟩
  · intro s' out _ x' hx'
    rw [step, hstep] at hx'
    dsimp only at hx'
    rw [haction, List.append_nil, Option.some.injEq] at hx'
    rw [← hx']
    exact ⟨queues, h.of_phases hqueue hstealing⟩
  · intro s' node hnode
    cases hnode

theorem effect_disabled : Effect numThreads x action .disabled := by
  refine ⟨by simp, ?_, ?_⟩
  · intro s node hs
    cases hs
  · intro s node hs
    cases hs

theorem Inv.enqueue_effect (h : Inv numThreads x queues) (htid : tid < numThreads)
    {node : DecisionNode} {s : WorkstealingState}
    (hstep : x.state.step numThreads (.enqueue tid node) = .next s none)
    (hidle : x.state.phase tid = .idle) (hphase : s.phase = x.state.phase)
    (hholder : s.holder = x.state.holder)
    (hqueue : s.workQueue =
      Function.update x.state.workQueue tid ((x.state.workQueue tid).push node)) :
    Effect numThreads x (.enqueue tid node) (.next s none) := by
  refine ⟨by simp, ?_, ?_⟩
  · intro s' out _ x' hx'
    rw [step, hstep] at hx'
    cases hx'
    refine ⟨Function.update queues tid (ThreadWorkQueue.push node (queues tid)), ?_, ?_, ?_, ?_⟩
    · intro t
      dsimp only
      rw [hqueue]
      by_cases ht : t = tid
      · subst ht
        rw [Function.update_self, Function.update_self, h.workQueue, push_toWorkQueue]
      · rw [Function.update_of_ne ht, Function.update_of_ne ht, h.workQueue]
    · intro t
      dsimp only [WorkstealingAction.enqueued]
      by_cases ht : t = tid
      · subst ht
        rw [Function.update_self]
        exact (h.ordered t).push node
      · rw [Function.update_of_ne ht]
        exact (h.ordered t).concat node
    · have hpush := workstealingJobs_update htid queues (ThreadWorkQueue.push node (queues tid))
      rw [Multiset.coe_eq_coe.mpr (nodes_push node (queues tid)), ← Multiset.cons_coe,
        Multiset.add_cons, ← Multiset.cons_add] at hpush
      rw [add_right_cancel hpush, Multiset.cons_add]
      dsimp only [WorkstealingAction.enqueued]
      rw [Option.toList_none, List.append_nil, h.jobs, ← Multiset.coe_add, Multiset.coe_singleton,
        ← Multiset.singleton_add, add_comm]
    · intro t others ht
      dsimp only at ht ⊢
      rw [hphase] at ht
      have hne : t ≠ tid := by
        intro heq
        rw [heq, hidle] at ht
        cases ht
      rw [hholder, Function.update_of_ne hne]
      exact h.stealing t others ht
  · intro s' out hout
    cases hout

/-- A thread steals from the next one and pops a node. -/
theorem Inv.visit_effect (h : Inv numThreads x queues) (htid : tid < numThreads)
    {other : ℕ} {rest : List ℕ} (hphase : x.state.phase tid = .stealing (other :: rest)) :
    Effect numThreads x (.visit tid) (x.state.step numThreads (.visit tid)) := by
  obtain ⟨hholder, hempty, hothers⟩ := h.stealing tid _ hphase
  obtain ⟨hlt, hne⟩ := hothers other List.mem_cons_self
  have hmine : x.state.workQueue tid = [] := (h.workQueue_eq_nil_iff tid).mpr hempty
  have hstep : x.state.step numThreads (.visit tid) =
      x.state.threadStep numThreads (.visit tid) :=
    if_pos (by simpa [WorkstealingAction.registered] using htid)
  rw [hstep]
  rw [WorkstealingState.threadStep, hphase] at hstep ⊢
  dsimp only at hstep ⊢
  rw [if_neg hne, hmine, h.workQueue other, steal_toWorkQueue] at hstep ⊢
  cases hsteal : ThreadWorkQueue.steal (queues other) with
  | none =>
      rw [hsteal] at hstep
      refine h.quiet_effect hstep rfl rfl ?_
      intro t others ht
      by_cases heq : t = tid
      · subst heq
        have hrest : rest = others := by
          simpa [WorkstealingState.enterPhase, Function.update_self] using ht
        refine ⟨hholder, hempty, ?_⟩
        intro o ho
        exact hothers o (List.mem_cons_of_mem _ (hrest ▸ ho))
      · have ht' : x.state.phase t = .stealing others := by
          simpa [WorkstealingState.enterPhase, Function.update_of_ne heq] using ht
        exact h.stealing t others ht'
  | some split =>
      obtain ⟨mine, theirs⟩ := split
      rw [hsteal] at hstep
      dsimp only at hstep ⊢
      obtain ⟨homine, hotheirs, hsteals⟩ := (h.ordered other).steal hsteal
      have hnonempty := (nodes_steal hsteal).2
      -- the queue from which the thread pops
      have hqueue : (Function.update (Function.update x.state.workQueue other
          (toWorkQueue theirs)) tid (toWorkQueue mine)) tid = toWorkQueue mine :=
        Function.update_self ..
      obtain ⟨node, mine', hpop, heq⟩ := popOwn_eq { x.state with
        workQueue := Function.update (Function.update x.state.workQueue other
          (toWorkQueue theirs)) tid (toWorkQueue mine) } tid hqueue hnonempty
      obtain ⟨homine', hpops⟩ := homine.pop hpop
      rw [heq] at hstep ⊢
      refine ⟨by simp, ?_, ?_⟩
      · intro s out _ x' hx'
        rw [step, hstep] at hx'
        dsimp only [WorkstealingAction.enqueued] at hx'
        rw [List.append_nil, Option.some.injEq] at hx'
        rw [← hx']
        refine ⟨Function.update (Function.update queues other theirs) tid mine',
          h.of_pop ?_ ?_ (workstealingJobs_steal htid hlt hne hempty hsteal hpop) rfl
            (fun others => by simp) rfl ?_⟩
        · intro t
          dsimp only
          rw [Function.update_idem]
          by_cases ht : t = tid
          · subst ht
            rw [Function.update_self, Function.update_self]
          · rw [Function.update_of_ne ht, Function.update_of_ne ht]
            by_cases hother : t = other
            · subst hother
              rw [Function.update_self, Function.update_self]
            · rw [Function.update_of_ne hother, Function.update_of_ne hother, h.workQueue]
        · intro t
          by_cases ht : t = tid
          · subst ht
            rw [Function.update_self]
            exact homine'
          · rw [Function.update_of_ne ht]
            by_cases hother : t = other
            · subst hother
              rw [Function.update_self]
              exact hotheirs
            · rw [Function.update_of_ne hother]
              exact h.ordered t
        · -- no other thread holds the lock
          intro t others ht hstealing
          have hholder' := (h.stealing t others hstealing).1
          rw [hholder, Option.some.injEq] at hholder'
          exact absurd hholder'.symm ht
      · intro s out hout
        rw [WorkstealingResult.next.injEq, Option.some.injEq] at hout
        obtain ⟨rfl, rfl⟩ := hout
        refine ⟨tid, toWorkQueue mine, filled_toWorkQueue _, ?_, .inr ⟨rfl, hmine, other, rest,
          hphase, ?_⟩⟩
        · dsimp only
          rw [Function.update_self]
          exact hpops
        · dsimp only
          rw [Function.update_idem, Function.update_of_ne hne, Function.update_self,
            h.workQueue other]
          exact hsteals

theorem Inv.effect (h : Inv numThreads x queues) (action : WorkstealingAction) :
    Effect numThreads x action (x.state.step numThreads action) := by
  by_cases hregistered : action.registered numThreads = true
  · have hstep : x.state.step numThreads action = x.state.threadStep numThreads action :=
      if_pos hregistered
    cases action with
    | enqueue tid node =>
        have htid : tid < numThreads := by simpa [WorkstealingAction.registered] using hregistered
        rw [WorkstealingState.threadStep] at hstep
        by_cases hidle : x.state.phase tid = .idle
        · rw [if_pos hidle] at hstep
          rw [hstep]
          exact h.enqueue_effect htid hstep hidle rfl rfl rfl
        · rw [hstep, if_neg hidle]
          exact effect_disabled
    | dequeue tid =>
        have htid : tid < numThreads := by simpa [WorkstealingAction.registered] using hregistered
        rw [WorkstealingState.threadStep] at hstep
        split at hstep
        · split at hstep
          · rw [hstep]
            exact h.quiet_effect hstep rfl rfl (h.leave rfl (by simp) (.inl rfl))
          split at hstep
          · rename_i hne
            rw [hstep]
            exact h.popOwn_effect htid hstep (.inl rfl) hne
          · rw [hstep]
            exact h.quiet_effect hstep rfl rfl (h.leave rfl (by simp) (.inl rfl))
        · rw [hstep]
          exact effect_disabled
    | search tid shuffled =>
        have htid : tid < numThreads := by simpa [WorkstealingAction.registered] using hregistered
        rw [WorkstealingState.threadStep] at hstep
        split at hstep
        · rename_i henabled
          split at hstep
          · rw [hstep]
            exact h.quiet_effect hstep rfl rfl (h.leave rfl (by simp) (.inl rfl))
          split at hstep
          · rename_i hne
            rw [hstep]
            exact h.popOwn_effect htid hstep (.inr ⟨shuffled, rfl⟩) hne
          · rename_i hempty
            rw [hstep]
            refine h.quiet_effect hstep rfl rfl ?_
            intro t others ht
            by_cases heq : t = tid
            · subst heq
              have hshuffled : shuffled = others := by
                simpa [WorkstealingState.enterPhase, Function.update_self] using ht
              refine ⟨rfl, (h.workQueue_eq_nil_iff t).mp (not_not.mp hempty), ?_⟩
              intro o ho
              rw [← hshuffled] at ho
              exact WorkstealingState.mem_others htid (henabled.2.2.mem_iff.mp ho)
            · have ht' : x.state.phase t = .stealing others := by
                simpa [WorkstealingState.enterPhase, Function.update_of_ne heq] using ht
              have hholder := (h.stealing t others ht').1
              rw [henabled.2.1] at hholder
              cases hholder
        · rw [hstep]
          exact effect_disabled
    | visit tid =>
        have htid : tid < numThreads := by simpa [WorkstealingAction.registered] using hregistered
        by_cases hphase : ∃ other rest, x.state.phase tid = .stealing (other :: rest)
        · obtain ⟨other, rest, hphase⟩ := hphase
          exact h.visit_effect htid hphase
        · rw [WorkstealingState.threadStep] at hstep
          split at hstep
          · rename_i other rest hvisit
            exact absurd ⟨other, rest, hvisit⟩ hphase
          · rw [hstep]
            exact effect_disabled
    | wait tid =>
        rw [WorkstealingState.threadStep] at hstep
        split at hstep
        · rename_i hphase
          have hholder := (h.stealing tid [] hphase).1
          rw [hstep]
          exact h.quiet_effect hstep rfl rfl (h.leave rfl (by simp) (.inr ⟨hholder, rfl⟩))
        · rw [hstep]
          exact effect_disabled
    | wake tid =>
        rw [WorkstealingState.threadStep] at hstep
        split at hstep
        · rw [hstep]
          exact h.quiet_effect hstep rfl rfl (h.leave rfl (by simp) (.inl rfl))
        · rw [hstep]
          exact effect_disabled
    | halt =>
        rw [WorkstealingState.threadStep] at hstep
        split at hstep
        · rw [hstep]
          exact h.quiet_effect hstep rfl rfl h.stealing
        · rw [hstep]
          exact effect_disabled
  · rw [WorkstealingState.step, if_neg hregistered]
    exact effect_disabled

theorem exists_inv_of_run {actions : List WorkstealingAction}
    (hrun : LabelledRun.run (step numThreads) .init actions = some x) :
    ∃ queues, Inv numThreads x queues := by
  have hstep : ∀ x action x', (∃ queues, Inv numThreads x queues) →
      step numThreads x action = some x' → ∃ queues, Inv numThreads x' queues := by
    rintro x action x' ⟨queues, h⟩ hstep
    have heffect := h.effect action
    cases hresult : x.state.step numThreads action with
    | disabled =>
        rw [step, hresult] at hstep
        cases hstep
    | assertionFails =>
        rw [step, hresult] at hstep
        cases hstep
    | next s node => exact heffect.inv s node hresult x' hstep
  exact LabelledRun.run_invariant hstep ⟨_, inv_init⟩ hrun

/-- The queues and the nodes that were handed out hold what was put in. -/
structure Conserved (numThreads : ℕ) (x : WorkstealingHistory) : Prop where
  jobs : (∑ tid ∈ Finset.range numThreads, ((x.state.workQueue tid).nodes : Multiset DecisionNode)) +
    (x.handedOut : Multiset DecisionNode) = (x.enqueued : Multiset DecisionNode)
  filled : ∀ tid, Filled (x.state.workQueue tid)
  /-- The nodes of a depth are in the order in which they were put in. -/
  enqueueOrder : ∀ tid, ∀ entry ∈ x.state.workQueue tid,
    (∀ node ∈ entry.2, node.depth = entry.1) ∧ entry.2.Sublist x.enqueued

theorem Inv.conserved (h : Inv numThreads x queues) : Conserved numThreads x where
  jobs := by
    rw [← h.jobs, workstealingJobs]
    congr 1
    apply Finset.sum_congr rfl
    intro tid _
    rw [h.workQueue, nodes_toWorkQueue]
  filled := by
    intro tid
    rw [h.workQueue]
    exact filled_toWorkQueue _
  enqueueOrder := by
    intro tid entry hentry
    rw [h.workQueue] at hentry
    obtain ⟨queue, hqueue, rfl⟩ := List.mem_map.mp hentry
    exact ⟨(h.ordered tid).depth queue hqueue, (h.ordered tid).sublist queue hqueue⟩

/-- After every run of registered threads no node is lost or duplicated, and every further step
takes a deepest node, the first one put in. -/
theorem workstealing_conserved (numThreads : ℕ) (actions : List WorkstealingAction)
    (x : WorkstealingHistory)
    (hrun : LabelledRun.run (step numThreads) .init actions = some x) :
    Conserved numThreads x ∧
      (∀ tid < numThreads,
        (WorkstealingState.others numThreads tid).Perm ((List.range numThreads).erase tid)) ∧
      ∀ action, x.state.step numThreads action ≠ .assertionFails ∧
        ∀ s node, x.state.step numThreads action = .next s (some node) → ∃ tid queue,
          Filled queue ∧ Pops queue (s.workQueue tid) node ∧
            (((action = .dequeue tid ∨ ∃ others, action = .search tid others) ∧
                queue = x.state.workQueue tid) ∨
              (action = .visit tid ∧ x.state.workQueue tid = [] ∧ ∃ other others,
                x.state.phase tid = .stealing (other :: others) ∧
                Steals (x.state.workQueue other) (s.workQueue other) queue)) := by
  obtain ⟨queues, h⟩ := exists_inv_of_run hrun
  refine ⟨h.conserved, fun tid htid => WorkstealingState.others_perm htid, ?_⟩
  intro action
  have heffect := h.effect action
  exact ⟨heffect.noAssertion, heffect.pops⟩

/-- One thread puts in three nodes of a depth, of which another one steals two. -/
theorem workstealing_conserved_stolen :
    let node := fun id => DecisionNode.child .root id
    ∃ x, LabelledRun.run (step 2) .init [.enqueue 0 (node 0), .enqueue 0 (node 1),
        .enqueue 0 (node 2), .dequeue 1, .search 1 [0], .visit 1, .dequeue 0] = some x ∧
      x.handedOut = [node 1, node 0] ∧ Conserved 2 x := by
  intro node
  have hhandedOut : (LabelledRun.run (step 2) .init [.enqueue 0 (node 0), .enqueue 0 (node 1),
      .enqueue 0 (node 2), .dequeue 1, .search 1 [0], .visit 1, .dequeue 0]).map handedOut =
        some [node 1, node 0] := by
    decide
  obtain ⟨x, hrun, hx⟩ := Option.map_eq_some_iff.mp hhandedOut
  exact ⟨x, hrun, hx, (workstealing_conserved 2 _ x hrun).1⟩

end WorkstealingHistory

end Nidhugg
