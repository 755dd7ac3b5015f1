import Nidhugg.Library.LabelledRun
import Nidhugg.Model.RfscDriver
import Nidhugg.Verification.DecisionTree.Schedulers
import Mathlib.Algebra.Order.BigOperators.Group.Finset

/-! # Job accounting of the drivers

The counters of both drivers exceed the number of work items by the number of pruned items
that `reset` has dropped, so they are right exactly as long as it drops none. -/

namespace Nidhugg

open LabelledRun

variable {S : Scheduler} {numThreads : ℕ} {jobs : S.State → Multiset DecisionNode}

/-! ### The steps of a trace builder -/

namespace Explorer

/-- The number of queued items. -/
def queued (jobs : S.State → Multiset DecisionNode) (x : Explorer S) : ℕ := (jobs x.queues).card

/-- Whether `reset` drops the item that it dequeues. -/
def dropsPruned (x : Explorer S) (tid : ℕ) (pick : S.Pick) : Bool :=
  match S.dequeue tid pick x.queues with
  | some (node, _) => x.tree.isPruned node
  | none => false

theorem queued_enqueue (h : S.Lawful numThreads jobs) {tid : ℕ} (htid : tid < numThreads)
    (x : Explorer S) (node : DecisionNode) :
    queued jobs (x.enqueue tid node) = queued jobs x + 1 := by
  simp [queued, enqueue, h.jobs_enqueue htid]

theorem queued_init (h : S.Lawful numThreads jobs) (hpos : 0 < numThreads) :
    queued jobs (init S) = 1 := by
  rw [init, queued_enqueue h hpos]
  simp [queued, h.jobs_init]

theorem jobStep_cases {x y : Explorer S} {tid : ℕ} {phase phase' : Phase} {action : JobAction}
    (h : x.jobStep tid phase action = some (y, phase')) :
    (∃ workItem tree, phase = .executing workItem ∧ action.created = 0 ∧
        y = { x with tree := tree } ∧ phase' = .executing workItem) ∨
      (∃ workItem deepest tree, phase = .executing workItem ∧ action.created = 0 ∧
        y = { x with tree := tree } ∧ phase' = .computing deepest) ∨
      (∃ deepest node tree, phase = .computing deepest ∧ action.created = 1 ∧
        y = { x with tree := tree }.enqueue tid node ∧ phase' = .computing deepest) := by
  unfold jobStep at h
  split at h
  case h_1 depths workItem =>
    obtain ⟨tree, -, h⟩ := Option.bind_eq_some_iff.mp h
    cases h
    exact .inl ⟨workItem, tree, rfl, rfl, rfl, rfl⟩
  case h_2 loads workItem =>
    cases h
    exact .inr (.inl ⟨workItem, _, _, rfl, rfl, rfl, rfl⟩)
  case h_3 depth deepest =>
    obtain ⟨decision, -, h⟩ := Option.bind_eq_some_iff.mp h
    obtain ⟨⟨node, tree⟩, -, h⟩ := Option.bind_eq_some_iff.mp h
    cases h
    exact .inr (.inr ⟨deepest, node, tree, rfl, rfl, rfl, rfl⟩)
  case h_4 => simp at h

/-- An execution adds exactly the items that it creates. -/
theorem jobStep_counts (hlaw : S.Lawful numThreads jobs) {tid : ℕ} (htid : tid < numThreads)
    {x y : Explorer S} {phase phase' : Phase} {action : JobAction}
    (h : x.jobStep tid phase action = some (y, phase')) :
    phase ≠ .resetting ∧ phase' ≠ .resetting ∧
      queued jobs y = queued jobs x + action.created ∧
      y.outstandingJobs = x.outstandingJobs + action.created := by
  rcases jobStep_cases h with ⟨workItem, tree, rfl, hnew, rfl, rfl⟩ |
    ⟨workItem, deepest, tree, rfl, hnew, rfl, rfl⟩ |
    ⟨deepest, node, tree, rfl, hnew, rfl, rfl⟩
  · simp [hnew, queued]
  · simp [hnew, queued]
  · rw [queued_enqueue hlaw htid, hnew]
    simp [queued, enqueue]

/-- `reset` takes one item out of the queues and either drops it or starts it. -/
theorem resetStep_cases (hlaw : S.Lawful numThreads jobs) {tid : ℕ} (htid : tid < numThreads)
    {x y : Explorer S} {phase : Phase} {pick : S.Pick}
    (h : x.resetStep tid pick = some (y, phase)) :
    queued jobs x = queued jobs y + 1 ∧ y.outstandingJobs = x.outstandingJobs ∧
      ((x.dropsPruned tid pick = true ∧ phase = .resetting) ∨
        (x.dropsPruned tid pick = false ∧ ∃ node, phase = .executing node)) := by
  obtain ⟨⟨node, queues⟩, hdeq, h⟩ := Option.bind_eq_some_iff.mp h
  cases h
  refine ⟨by simp [queued, hlaw.jobs_dequeue htid hdeq], rfl, ?_⟩
  cases hpruned : x.tree.isPruned node with
  | true => simp [dropsPruned, hdeq, hpruned]
  | false => simp [dropsPruned, hdeq, hpruned]

theorem resetStep_isSome (hlaw : S.Lawful numThreads jobs) {tid : ℕ} (htid : tid < numThreads)
    {x : Explorer S} (h : 0 < queued jobs x) : ∃ pick, (x.resetStep tid pick).isSome = true := by
  have hne : jobs x.queues ≠ 0 := Multiset.card_pos.mp h
  obtain ⟨pick, node, queues, hdeq⟩ := hlaw.dequeue_of_jobs htid hne
  exact ⟨pick, by simp [resetStep, hdeq]⟩

end Explorer

/-! ### The sequential driver -/

namespace SequentialDriver

/-- Whether an action drops a pruned item. -/
def dropsPruned (s : SequentialDriver S) : DriverAction S → Bool
  | .reset pick => s.explorer.dropsPruned 0 pick
  | .job _ | .finish _ => false

/-- The counters agree with the number of queued and executing items, `reset` finds an item,
and the loop ends with none left. -/
def Accounted (jobs : S.State → Multiset DecisionNode) (s : SequentialDriver S) : Prop :=
  match s.phase with
  | .running .resetting =>
      s.tasksLeft = s.explorer.queued jobs ∧ ∃ pick, (s.explorer.resetStep 0 pick).isSome = true
  | .running (.executing _) => s.tasksLeft = s.explorer.queued jobs + 1
  | .running (.computing _) => s.tasksLeft + s.tasksCreated = s.explorer.queued jobs + 1
  | .exhausted => s.tasksLeft = s.explorer.queued jobs ∧ s.explorer.queued jobs = 0
  | .aborted => s.tasksLeft = s.explorer.queued jobs

/-- After `n` dropped items the counters are too large by `n`. -/
def ExceedsBy (jobs : S.State → Multiset DecisionNode) (n : ℕ) (s : SequentialDriver S) : Prop :=
  match s.phase with
  | .running .resetting => s.tasksLeft = s.explorer.queued jobs + n ∧ 0 < s.tasksLeft
  | .running (.executing _) =>
      s.tasksLeft = s.explorer.queued jobs + 1 + n ∧ s.tasksCreated = 0
  | .running (.computing _) => s.tasksLeft + s.tasksCreated = s.explorer.queued jobs + 1 + n
  | .exhausted => s.tasksLeft = s.explorer.queued jobs + n ∧ s.tasksLeft = 0
  | .aborted => s.tasksLeft = s.explorer.queued jobs + n

theorem exceedsBy_init (h : S.Lawful numThreads jobs) (hpos : 0 < numThreads) :
    ExceedsBy jobs 0 (init S) := by
  have hqueued := Explorer.queued_init h hpos
  simp [ExceedsBy, init, hqueued]

theorem accounted_iff (h : S.Lawful numThreads jobs) (hpos : 0 < numThreads) {n : ℕ}
    {s : SequentialDriver S} (hs : ExceedsBy jobs n s) : Accounted jobs s ↔ n = 0 := by
  unfold ExceedsBy at hs
  unfold Accounted
  split at hs
  · constructor
    · intro hacc
      omega
    · intro hn
      refine ⟨by omega, Explorer.resetStep_isSome h hpos ?_⟩
      omega
  all_goals omega

theorem exceedsBy_step (h : S.Lawful numThreads jobs) (hpos : 0 < numThreads) (n : ℕ)
    (s : SequentialDriver S) (action : DriverAction S) (t : SequentialDriver S)
    (hs : ExceedsBy jobs n s) (hstep : s.step action = some t) :
    ExceedsBy jobs (n + if s.dropsPruned action then 1 else 0) t := by
  unfold step at hstep
  split at hstep
  case h_1 pick hphase =>
    obtain ⟨⟨explorer, phase⟩, hreset, hstep⟩ := Option.bind_eq_some_iff.mp hstep
    cases hstep
    obtain ⟨hqueued, -, hcases⟩ := Explorer.resetStep_cases h hpos hreset
    simp only [ExceedsBy, hphase] at hs
    rcases hcases with ⟨hdrop, rfl⟩ | ⟨hdrop, node, rfl⟩
    · simp only [ExceedsBy, dropsPruned, hdrop, if_true]
      omega
    · simp only [ExceedsBy, dropsPruned, hdrop]
      simp
      omega
  case h_2 action phase hphase =>
    obtain ⟨⟨explorer, phase'⟩, hjob, hstep⟩ := Option.bind_eq_some_iff.mp hstep
    cases hstep
    simp only [ExceedsBy, hphase] at hs
    simp only [dropsPruned, Bool.false_eq_true, if_false, Nat.add_zero]
    rcases Explorer.jobStep_cases hjob with ⟨workItem, tree, rfl, hnew, rfl, rfl⟩ |
      ⟨workItem, deepest, tree, rfl, hnew, rfl, rfl⟩ |
      ⟨deepest, node, tree, rfl, hnew, rfl, rfl⟩
    · simp only [ExceedsBy, hnew]
      simpa [Explorer.queued] using hs
    · simp only [ExceedsBy, hnew]
      simp only [Explorer.queued] at hs ⊢
      omega
    · simp only [ExceedsBy, hnew, Explorer.queued_enqueue h hpos]
      simp only [Explorer.queued] at hs ⊢
      omega
  case h_3 stop deepest hphase =>
    cases hstep
    simp only [ExceedsBy, hphase] at hs
    simp only [dropsPruned, Bool.false_eq_true, if_false, Nat.add_zero]
    cases stop with
    | true =>
        simp only [ExceedsBy, if_true]
        omega
    | false =>
        by_cases hzero : s.tasksLeft - 1 + s.tasksCreated = 0
        · simp only [ExceedsBy, hzero, Bool.false_eq_true, if_false, if_true, and_true]
          omega
        · simp only [ExceedsBy, hzero, Bool.false_eq_true, if_false]
          omega
  case h_4 => simp at hstep

end SequentialDriver

/-! ### The parallel driver -/

namespace ParallelDriver

def isActive : WorkerPhase → Bool
  | .running phase => phase ≠ .resetting
  | .returned => false

/-- The number of items that are being executed. -/
def active (numThreads : ℕ) (s : ParallelDriver S) : ℕ :=
  ∑ tid ∈ Finset.range numThreads, (isActive (s.workers tid)).toNat

/-- Whether a worker's action drops a pruned item. -/
def dropsPruned (s : ParallelDriver S) : ℕ × DriverAction S → Bool
  | (tid, .reset pick) => s.halting = .no && s.explorer.dropsPruned tid pick
  | (_, .job _) | (_, .finish _) => false

/-- The job counter agrees with the number of queued and executing items, some item is left
as long as the scheduler is not halting, and none once it halts for lack of work. -/
def Accounted (numThreads : ℕ) (jobs : S.State → Multiset DecisionNode) (s : ParallelDriver S) :
    Prop :=
  s.explorer.outstandingJobs = s.explorer.queued jobs + s.active numThreads ∧
    (s.halting = .no → 0 < s.explorer.queued jobs + s.active numThreads) ∧
    (s.halting = .exhausted → s.explorer.queued jobs + s.active numThreads = 0)

/-- After `n` dropped items the job counter is too large by `n`. -/
structure ExceedsBy (numThreads : ℕ) (jobs : S.State → Multiset DecisionNode) (n : ℕ)
    (s : ParallelDriver S) : Prop where
  count : s.explorer.outstandingJobs = s.explorer.queued jobs + s.active numThreads + n
  working : s.halting = .no → 0 < s.explorer.outstandingJobs
  exhausted : s.halting = .exhausted → s.explorer.outstandingJobs = 0

theorem active_of_update {s t : ParallelDriver S} {tid : ℕ} {phase : WorkerPhase}
    (htid : tid < numThreads) (h : t.workers = Function.update s.workers tid phase) :
    t.active numThreads + (isActive (s.workers tid)).toNat =
      s.active numThreads + (isActive phase).toNat := by
  unfold active
  rw [h]
  exact sum_update_exchange (fun phase => (isActive phase).toNat) s.workers htid phase

theorem isActive_le_active {tid : ℕ} (htid : tid < numThreads) (s : ParallelDriver S) :
    (isActive (s.workers tid)).toNat ≤ s.active numThreads :=
  Finset.single_le_sum (f := fun tid => (isActive (s.workers tid)).toNat)
    (fun _ _ => Nat.zero_le _) (Finset.mem_range.mpr htid)

theorem exceedsBy_init (h : S.Lawful numThreads jobs) (hpos : 0 < numThreads) :
    ExceedsBy numThreads jobs 0 (init S) := by
  have hqueued := Explorer.queued_init h hpos
  have hactive : (init S).active numThreads = 0 := by
    simp [active, init, isActive]
  have hcount : (init S).explorer.outstandingJobs = 1 := rfl
  constructor
  · rw [hcount, hactive]
    simp [init, hqueued]
  · intro _
    rw [hcount]
    exact Nat.one_pos
  · intro hhalt
    simp [init] at hhalt

theorem accounted_iff {n : ℕ} {s : ParallelDriver S} (hs : ExceedsBy numThreads jobs n s) :
    Accounted numThreads jobs s ↔ n = 0 := by
  have hcount := hs.count
  constructor
  · intro hacc
    have := hacc.1
    omega
  · intro hn
    refine ⟨by omega, ?_, ?_⟩
    · intro hhalt
      have := hs.working hhalt
      omega
    · intro hhalt
      have := hs.exhausted hhalt
      omega

theorem exceedsBy_step (h : S.Lawful numThreads jobs) (n : ℕ) (s : ParallelDriver S)
    (action : ℕ × DriverAction S) (t : ParallelDriver S) (hs : ExceedsBy numThreads jobs n s)
    (hstep : s.step numThreads action = some t) :
    ExceedsBy numThreads jobs (n + if s.dropsPruned action then 1 else 0) t := by
  obtain ⟨tid, action⟩ := action
  simp only [step, Option.ite_none_right_eq_some] at hstep
  obtain ⟨htid, hstep⟩ := hstep
  have hcount := hs.count
  have hworking := hs.working
  have hexhausted := hs.exhausted
  unfold workerStep at hstep
  split at hstep
  case h_1 pick hphase =>
    split at hstep
    case isTrue hhalt =>
      obtain ⟨⟨explorer, phase⟩, hreset, hstep⟩ := Option.bind_eq_some_iff.mp hstep
      obtain ⟨hqueued, hjobs, hcases⟩ := Explorer.resetStep_cases h htid hreset
      have ht := (Option.some.inj hstep).symm
      have hexplorer : t.explorer = explorer := by rw [ht]
      have hactive := active_of_update (t := t) htid (by rw [ht])
      have hpos := hworking hhalt
      rw [← hexplorer] at hqueued hjobs
      rw [hphase] at hactive
      have hdropped : n + (if s.dropsPruned (tid, .reset pick) then 1 else 0) +
          t.active numThreads = n + s.active numThreads + 1 := by
        rcases hcases with ⟨hdrop, rfl⟩ | ⟨hdrop, node, rfl⟩
        · simp [isActive, dropsPruned, hhalt, hdrop] at hactive ⊢
          omega
        · simp [isActive, dropsPruned, hdrop] at hactive ⊢
          omega
      constructor
      · omega
      · intro _
        omega
      · intro hex
        rw [ht] at hex
        simp [hhalt] at hex
    case isFalse hhalt =>
      have ht := (Option.some.inj hstep).symm
      have hactive := active_of_update (t := t) htid (by rw [ht])
      have hexplorer : t.explorer = s.explorer := by rw [ht]
      have hhalting : t.halting = s.halting := by rw [ht]
      simp [hphase, isActive] at hactive
      simp only [dropsPruned, hhalt, decide_false, Bool.false_and, Bool.false_eq_true, if_false]
      constructor
      · rw [hexplorer, hactive, hcount, Nat.add_zero]
      · rw [hexplorer, hhalting]
        exact hworking
      · rw [hexplorer, hhalting]
        exact hexhausted
  case h_2 action phase hphase =>
    obtain ⟨⟨explorer, phase'⟩, hjob, hstep⟩ := Option.bind_eq_some_iff.mp hstep
    have ht := (Option.some.inj hstep).symm
    have hactive := active_of_update (t := t) htid (by rw [ht])
    have hexplorer : t.explorer = explorer := by rw [ht]
    have hhalting : t.halting = s.halting := by rw [ht]
    obtain ⟨hbefore, hafter, hqueued, hjobs⟩ := Explorer.jobStep_counts h htid hjob
    rw [← hexplorer] at hqueued hjobs
    simp [hphase, isActive, hbefore, hafter] at hactive
    simp only [dropsPruned, Bool.false_eq_true, if_false]
    constructor
    · omega
    · intro hno
      have := hworking (hhalting ▸ hno)
      omega
    · intro hex
      -- the counter is positive while an item is being executed
      have hzero := hexhausted (hhalting ▸ hex)
      have hone := isActive_le_active htid s
      simp [hphase, isActive, hbefore] at hone
      omega
  case h_3 stop deepest hphase =>
    have ht := (Option.some.inj hstep).symm
    have hactive := active_of_update (t := t) htid (by rw [ht])
    have hqueued : t.explorer.queued jobs = s.explorer.queued jobs := by rw [ht]; rfl
    have hjobs : t.explorer.outstandingJobs = s.explorer.outstandingJobs - 1 := by rw [ht]
    have hhalting : t.halting = if stop || s.halting = .aborted then .aborted
        else if s.explorer.outstandingJobs - 1 = 0 then .exhausted else s.halting := by rw [ht]
    simp [hphase, isActive] at hactive
    simp only [dropsPruned, Bool.false_eq_true, if_false]
    constructor
    · omega
    · intro hno
      rw [hhalting] at hno
      split at hno
      · simp at hno
      split at hno
      · simp at hno
      · omega
    · intro hex
      rw [hhalting] at hex
      split at hex
      · simp at hex
      split at hex
      · omega
      · have := hexhausted hex
        omega
  case h_4 => simp at hstep

end ParallelDriver

/-! ### Whole runs -/

/-- Along every run the counters of the sequential and of the parallel driver agree with the
work items exactly as long as no dequeued item is pruned. -/
theorem accounted_iff_no_pruned_dequeued (scheduler : ExplorationScheduler) {numThreads : ℕ}
    (hpos : 0 < numThreads) :
    (∀ (actions : List (DriverAction (makeScheduler scheduler numThreads))) (t),
      run SequentialDriver.step (SequentialDriver.init _) actions = some t →
      (AlwaysAlong SequentialDriver.step
          (SequentialDriver.Accounted (queuedJobs scheduler numThreads))
          (SequentialDriver.init _) actions ↔
        NeverAlong SequentialDriver.step SequentialDriver.dropsPruned
          (SequentialDriver.init _) actions)) ∧
    (∀ (actions : List (ℕ × DriverAction (makeScheduler scheduler numThreads))) (t),
      run (ParallelDriver.step numThreads) (ParallelDriver.init _) actions = some t →
      (AlwaysAlong (ParallelDriver.step numThreads)
          (ParallelDriver.Accounted numThreads (queuedJobs scheduler numThreads))
          (ParallelDriver.init _) actions ↔
        NeverAlong (ParallelDriver.step numThreads) ParallelDriver.dropsPruned
          (ParallelDriver.init _) actions)) := by
  have hlaw := makeScheduler_lawful scheduler numThreads
  constructor
  · intro actions t hrun
    exact good_iff_uncounted (SequentialDriver.exceedsBy_step hlaw hpos)
      (fun n s => SequentialDriver.accounted_iff hlaw hpos)
      (SequentialDriver.exceedsBy_init hlaw hpos) hrun
  · intro actions t hrun
    exact good_iff_uncounted (ParallelDriver.exceedsBy_step hlaw)
      (fun n s => ParallelDriver.accounted_iff)
      (ParallelDriver.exceedsBy_init hlaw hpos) hrun

/-- The first execution makes one decision and finds an alternative to it; the alternative
makes another decision, fails, and finds an alternative to the new decision. -/
def failingAlternative : List (DriverAction (makeScheduler .prioqueue 1)) :=
  let alternative : DecisionNode := .child .root 1
  [.reset DecisionNode.root, .job (.computeUnfolding 1), .job (.constructSibling 0),
    .finish false,
    .reset alternative, .job (.cancelReplay [0, -1]), .job (.computeUnfolding 1),
    .job (.constructSibling 1), .finish false,
    .reset (DecisionNode.child alternative 3)]

theorem accounted_firstExecution :
    ∃ t, run SequentialDriver.step (SequentialDriver.init (makeScheduler .prioqueue 1))
        (failingAlternative.take 4) = some t ∧
      (AlwaysAlong SequentialDriver.step (SequentialDriver.Accounted (queuedJobs .prioqueue 1))
          (SequentialDriver.init _) (failingAlternative.take 4) ↔
        NeverAlong SequentialDriver.step SequentialDriver.dropsPruned
          (SequentialDriver.init _) (failingAlternative.take 4)) :=
  ⟨_, rfl, (accounted_iff_no_pruned_dequeued .prioqueue Nat.one_pos).1 _ _ rfl⟩

/-- The alternative below the failed one is pruned, so `reset` drops it and then waits on an
empty queue with one task left. -/
theorem not_accounted_failingAlternative :
    ∃ t, run SequentialDriver.step (SequentialDriver.init (makeScheduler .prioqueue 1))
        failingAlternative = some t ∧
      t.phase = .running .resetting ∧ t.tasksLeft = 1 ∧
      t.explorer.queued (queuedJobs .prioqueue 1) = 0 ∧
      (∀ pick, t.explorer.resetStep 0 pick = none) ∧
      ¬ t.Accounted (queuedJobs .prioqueue 1) := by
  refine ⟨_, rfl, rfl, rfl, rfl, ?_, ?_⟩
  · intro pick
    rfl
  · rintro ⟨hcount, -⟩
    exact absurd hcount (by decide)

end Nidhugg
