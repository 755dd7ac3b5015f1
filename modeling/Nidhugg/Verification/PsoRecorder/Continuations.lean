import Nidhugg.Verification.PsoRecorder.EarlyLoads

/-! # Calls that leave the buffers alone

Only stores, loads that read early and updates change the buffers of a thread. -/

namespace Nidhugg.PsoRecorder

variable {s t u : PsoRecorder} {pid p i : ℕ} {a : PsoAccess} {c m : SymAddr} {ml : AccessRange}
  {lastRowe : Option ℕ}

/-- The buffers of all threads stay the same. -/
structure SameBuffers (s t : PsoRecorder) : Prop where
  get : ∀ p, (t.threads p).storeBuffers = (s.threads p).storeBuffers

namespace SameBuffers

theorem refl (s : PsoRecorder) : SameBuffers s s := ⟨fun _ => rfl⟩

theorem of_threads (h : t.threads = s.threads) : SameBuffers s t := by
  constructor
  intro p
  rw [h]

theorem trans (h : SameBuffers s u) (h' : SameBuffers u t) : SameBuffers s t :=
  ⟨fun p => (h'.get p).trans (h.get p)⟩

/-- A further change that is not to threads. -/
theorem then_threads (h : SameBuffers s u) (ht : t.threads = u.threads) : SameBuffers s t :=
  h.trans (of_threads ht)

theorem opening (s : PsoRecorder) (pid : ℕ) (a : PsoAccess) :
    SameBuffers s (s.conflicting.wakeup pid a) := ⟨fun _ => rfl⟩

theorem seeEvents (s : PsoRecorder) (pid : ℕ) (seen : List ℕ) :
    SameBuffers s (s.seeEvents pid seen) := of_threads (threads_seeEvents seen)

theorem foldl {α : Type} {f : PsoRecorder → α → PsoRecorder} (hf : ∀ u x, SameBuffers u (f u x))
    (xs : List α) : SameBuffers s (xs.foldl f s) := by
  induction xs generalizing s with
  | nil => exact refl s
  | cons x xs ih => exact (hf s x).trans ih

theorem fence (h : s.fence pid = some t) : SameBuffers s t := by
  rw [(fence_eq_some h).2.2]
  exact ⟨fun _ => rfl⟩

end SameBuffers

/-! ### Mutexes and condition variables -/

theorem mutexLock_buffers (h : s.mutexLock pid m = some t) : SameBuffers s t := by
  rw [mutexLock] at h
  obtain ⟨u, hu, h⟩ := Option.bind_eq_some_iff.mp h
  have hopened := (SameBuffers.fence hu).trans (.opening u pid (.w m))
  generalize u.conflicting.wakeup pid (.w m) = v at h hopened
  dsimp only at h
  split at h
  · cases h
    exact (hopened.trans (.seeEvents v pid _)).then_threads rfl
  · cases h
    have hsees := (SameBuffers.seeEvents v pid ((v.mutex? m).getD .new).lastAccess.toList).trans
      (.seeEvents _ pid v.lastFullMemoryConflict)
    exact (hopened.trans hsees).then_threads rfl

theorem mutexUnlock_buffers (h : s.mutexUnlock pid m = some t) : SameBuffers s t := by
  rw [mutexUnlock] at h
  obtain ⟨u, hu, h⟩ := Option.bind_eq_some_iff.mp h
  obtain ⟨mutex, -, h⟩ := Option.bind_eq_some_iff.mp h
  obtain ⟨i, -, h⟩ := Option.bind_eq_some_iff.mp h
  cases h
  have hopened := (SameBuffers.fence hu).trans (.opening u pid (.w m))
  exact (hopened.trans (.seeEvents _ pid _)).then_threads rfl

theorem mutexTrylock_buffers (h : s.mutexTrylock pid m = some t) : SameBuffers s t := by
  rw [mutexTrylock] at h
  obtain ⟨u, hu, h⟩ := Option.bind_eq_some_iff.mp h
  obtain ⟨mutex, -, h⟩ := Option.bind_eq_some_iff.mp h
  cases h
  have hopened := (SameBuffers.fence hu).trans (.opening u pid (.w m))
  exact (hopened.trans (.seeEvents _ pid _)).then_threads rfl

theorem mutexInit_buffers (h : s.mutexInit pid m = some t) : SameBuffers s t := by
  rw [mutexInit] at h
  obtain ⟨u, hu, h⟩ := Option.bind_eq_some_iff.mp h
  cases h
  have hopened : SameBuffers s u.conflicting := (SameBuffers.fence hu).then_threads rfl
  exact (hopened.trans (.seeEvents _ pid _)).then_threads rfl

theorem mutexDestroy_buffers (h : s.mutexDestroy pid m = some t) : SameBuffers s t := by
  rw [mutexDestroy] at h
  obtain ⟨u, hu, h⟩ := Option.bind_eq_some_iff.mp h
  obtain ⟨mutex, -, h⟩ := Option.bind_eq_some_iff.mp h
  cases h
  have hopened := (SameBuffers.fence hu).trans (.opening u pid (.w m))
  exact (hopened.trans (.seeEvents _ pid _)).then_threads rfl

theorem condInit_buffers (h : s.condInit pid c = some t) : SameBuffers s t := by
  rw [condInit] at h
  obtain ⟨u, hu, h⟩ := Option.bind_eq_some_iff.mp h
  have hfence := SameBuffers.fence hu
  split at h
  · cases h
    exact hfence
  · cases h
    refine SameBuffers.trans ?_ (.seeEvents _ pid _)
    exact hfence.then_threads rfl

theorem condSignal_buffers (h : s.condSignal pid c = some t) : SameBuffers s t := by
  rw [condSignal] at h
  obtain ⟨u, hu, h⟩ := Option.bind_eq_some_iff.mp h
  have hopened := (SameBuffers.fence hu).trans (.opening u pid (.w c))
  generalize u.conflicting.wakeup pid (.w c) = v at h hopened
  dsimp only at h
  split at h
  · cases h
    exact hopened
  · rw [signalWaiter] at h
    split at h
    · rename_i i _
      cases h
      refine SameBuffers.trans ?_ (.seeEvents _ pid _)
      exact hopened.then_threads rfl
    · rw [Option.ite_none_right_eq_some] at h
      cases h.2
      refine SameBuffers.trans ?_ (.seeEvents _ pid _)
      exact hopened.then_threads rfl

theorem condBroadcast_buffers (h : s.condBroadcast pid c = some t) : SameBuffers s t := by
  rw [condBroadcast] at h
  obtain ⟨u, hu, h⟩ := Option.bind_eq_some_iff.mp h
  have hopened := (SameBuffers.fence hu).trans (.opening u pid (.w c))
  generalize u.conflicting.wakeup pid (.w c) = v at h hopened
  dsimp only at h
  split at h
  · cases h
    exact hopened
  · rename_i condVar _
    cases h
    have hwaiters : SameBuffers v (condVar.waiters.foldl wakeWaiter v) := by
      apply SameBuffers.foldl
      exact fun _ _ => ⟨fun _ => rfl⟩
    refine SameBuffers.trans ?_ (.seeEvents _ pid _)
    exact (hopened.trans hwaiters).then_threads rfl

theorem waitFor_buffers (h : s.waitFor pid c = some t) : SameBuffers s t := by
  rw [waitFor] at h
  obtain ⟨u, hu, h⟩ := Option.bind_eq_some_iff.mp h
  have hopened := (SameBuffers.fence hu).trans (.opening u pid (.r c))
  generalize u.conflicting.wakeup pid (.r c) = v at h hopened
  dsimp only at h
  split at h
  · cases h
    exact hopened
  · cases h
    refine SameBuffers.trans ?_ (.seeEvents _ pid _)
    exact hopened.then_threads rfl

theorem condDestroy_buffers (h : s.condDestroy pid c = some t) : SameBuffers s t := by
  rw [condDestroy] at h
  obtain ⟨u, hu, h⟩ := Option.bind_eq_some_iff.mp h
  have hopened := (SameBuffers.fence hu).trans (.opening u pid (.w c))
  generalize u.conflicting.wakeup pid (.w c) = v at h hopened
  dsimp only at h
  split at h
  · cases h
    exact hopened
  · cases h
    exact (hopened.trans (.seeEvents v pid _)).then_threads rfl

theorem join_buffers {tgtProc : ℕ} (h : s.join pid tgtProc = some t) : SameBuffers s t := by
  rw [join] at h
  obtain ⟨tgt, -, h⟩ := Option.bind_eq_some_iff.mp h
  cases h
  exact ⟨fun _ => rfl⟩

/-! ### Accesses to memory -/

theorem performStore_buffers (s : PsoRecorder) (pid : ℕ) (ml : AccessRange)
    (lastRowe : Option ℕ) : SameBuffers s (s.performStore pid ml lastRowe) :=
  ⟨fun p => (storeBuffers_performStore p).1⟩

theorem realStore_buffers (h : s.realStore pid ml = some t) : SameBuffers s t := by
  rw [realStore, Option.ite_none_right_eq_some] at h
  cases h.2
  have hclocks : SameBuffers s ((s.threads pid).auxs.foldl
      (fun s aux => s.addClock pid (s.threadClock aux.2)) s.conflicting) := by
    have hfold := SameBuffers.foldl (s := s.conflicting) (f := fun u (aux : SymAddr × ℕ) =>
      u.addClock pid (u.threadClock aux.2)) (fun _ _ => ⟨fun _ => rfl⟩) (s.threads pid).auxs
    exact ⟨hfold.get⟩
  exact hclocks.trans (performStore_buffers ..)

theorem memoryLoad_buffers (s : PsoRecorder) (pid : ℕ) (ml : AccessRange) :
    SameBuffers s (s.memoryLoad pid ml) := by
  rw [memoryLoad]
  have hread : ∀ u b, SameBuffers u (readByte pid u b) := fun _ _ => ⟨fun _ => rfl⟩
  refine SameBuffers.trans ?_ (.foldl hread _)
  refine SameBuffers.trans ?_ (.seeEvents _ pid _)
  exact .seeEvents s pid _

theorem fullMemoryConflict_buffers (s : PsoRecorder) (pid : ℕ) :
    SameBuffers s (s.fullMemoryConflict pid) :=
  ⟨(SameBuffers.seeEvents s.conflicting pid s.fullMemorySees).get⟩

/-- An update takes the store out of the buffers of its real thread. -/
theorem update_buffers {tid : ℕ} (h : s.update pid tid ml = some t) (p : ℕ) :
    (t.threads p).storeBuffers = if p = tid then (s.threads p).storeBuffers.popRange ml
      else (s.threads p).storeBuffers := by
  rw [update] at h
  obtain ⟨pst, -, h⟩ := Option.bind_eq_some_iff.mp h
  cases h
  have hperform := performStore_buffers (s.conflicting.addClock pid pst.clock) pid ml pst.lastRowe
  by_cases hp : p = tid
  · subst hp
    rw [if_pos rfl]
    dsimp only
    rw [threads_modifyThread_self]
    exact congrArg (·.popRange ml) (hperform.get p)
  · rw [if_neg hp]
    dsimp only
    rw [threads_modifyThread_of_ne hp]
    exact hperform.get p

end Nidhugg.PsoRecorder

/-! # Turns without accesses

Scheduling adds events and drops events without conflicts. What has been recorded about a run stays
true. -/

namespace Nidhugg.PsoHistory

open PsoRecorder

variable {s t u : PsoRecorder} {log : List PsoLogged} {pid tid alt i j k : ℕ} {x y : PsoLogged}
  {pending : List StoreRows}

/-- A state with the same records and threads, in which the events with conflicts are the same. -/
structure Continues (s t : PsoRecorder) : Prop where
  accesses : t.accesses = s.accesses
  threadCount : s.threadCount = t.threadCount
  owner : ∀ p, (t.threads p).owner = (s.threads p).owner
  proc : ∀ p, (t.threads p).proc = (s.threads p).proc
  buffers : SameBuffers s t
  conflicts : ∀ i, s.Conflicts i → t.Conflicts i
  pid : ∀ i, s.Conflicts i → t.pidOf i = s.pidOf i
  clock : ∀ i, s.Conflicts i → t.clockOf i = s.clockOf i

theorem Continues.trans (h : Continues s u) (h' : Continues u t) : Continues s t where
  accesses := h'.accesses.trans h.accesses
  threadCount := h.threadCount.trans h'.threadCount
  owner := fun p => (h'.owner p).trans (h.owner p)
  proc := fun p => (h'.proc p).trans (h.proc p)
  buffers := h.buffers.trans h'.buffers
  conflicts := fun i hi => h'.conflicts i (h.conflicts i hi)
  pid := fun i hi => (h'.pid i (h.conflicts i hi)).trans (h.pid i hi)
  clock := fun i hi => (h'.clock i (h.conflicts i hi)).trans (h.clock i hi)

theorem Continues.before (h : Continues s t) (hi : s.Conflicts i) (hj : s.Conflicts j)
    (hbefore : s.Before i j) : t.Before i j := by
  rw [Before] at hbefore ⊢
  rw [h.clock i hi, h.clock j hj]
  exact hbefore

theorem Continues.keeps (h : Continues s t) (hk : s.Conflicts k) (hkeeps : Keeps s log x k) :
    Keeps t log x k := by
  have hfull : t.lastFullMemoryConflict = s.lastFullMemoryConflict :=
    lastFullMemoryConflict_congr (congrArg PsoAccesses.lastFullMemoryConflict h.accesses)
  have hbytes : ∀ b, t.byteInfo b = s.byteInfo b := by
    intro b
    rw [byteInfo, byteInfo, h.accesses]
  cases haccess : x.access with
  | write b =>
      rw [keeps_write haccess] at hkeeps ⊢
      rwa [hbytes, hfull]
  | read b own =>
      rw [keeps_read haccess] at hkeeps ⊢
      rwa [h.pid k hk, h.proc, hbytes, hfull]
  | mutex m destroys =>
      rw [keeps_mutex haccess] at hkeeps ⊢
      rwa [PsoRecorder.lastAccess, mutex?, h.accesses]
  | fullMemory =>
      rw [keeps_full haccess] at hkeeps ⊢
      rwa [hfull]

/-- What is recorded about a run stays true. -/
theorem Tracked.continues (h : Tracked s log) (hc : Continues s t) (hsound : Sound t)
    (hprogram : t.ProgramOrder) : Tracked t log where
  sound := hsound
  program := hprogram
  conflicts := fun x hx => hc.conflicts _ (h.conflicts x hx)
  counts := fun x hx => ⟨(h.counts x hx).1, hc.conflicts _ (h.counts x hx).2⟩
  thread := by
    intro x hx
    rw [realThread, hc.owner, hc.pid _ (h.conflicts x hx)]
    exact h.thread x hx
  reader := by
    intro x hx b own haccess
    rw [hc.pid _ (h.conflicts x hx), hc.owner]
    exact h.reader x hx b own haccess
  kept := by
    intro x hx
    obtain ⟨k, hkeeps, hbefore⟩ := h.kept x hx
    have hk := h.conflicts_of_keeps hkeeps
    exact ⟨k, hc.keeps hk hkeeps, hc.before (h.conflicts x hx) hk hbefore⟩
  ranges := by
    intro b u
    rw [byteInfo, hc.accesses]
    exact h.ranges b u
  ordered := by
    intro x hx y hy hdestroyed hforwarded
    rw [OrderedPair, hc.clock _ (h.conflicts x hx), hc.clock _ (h.conflicts y hy)]
    exact h.ordered x hx y hy hdestroyed hforwarded

theorem Pending.continues (h : Pending s log tid pending) (hc : Continues s t) :
    Pending t log tid pending where
  queues := by
    intro b
    rw [hc.buffers.get]
    exact h.queues b
  rows := by
    intro e he
    have hrows := h.rows e he
    refine ⟨fun i hi => hc.conflicts i (hrows.conflicts i hi), ?_, hrows.after, hrows.last⟩
    intro i hi
    rw [hc.pid i (hrows.conflicts i hi)]
    exact hrows.pid i hi
  ordered := h.ordered

/-! ### Program order -/

theorem clockOf_of_append {rest : List PsoEvent} (hevents : s.events = t.events ++ rest)
    (hi : i < t.events.length) : t.clockOf i = s.clockOf i := by
  rw [clockOf, clockOf, hevents, List.getElem?_append_left hi]

theorem pidOf_of_append {rest : List PsoEvent} (hevents : s.events = t.events ++ rest)
    (hi : i < t.events.length) : t.pidOf i = s.pidOf i := by
  rw [pidOf, pidOf, hevents, List.getElem?_append_left hi]

/-- No events are dropped and none are added. -/
theorem events_eq_nil_append (h : t.events = s.events) : s.events = t.events ++ [] := by
  rw [h, List.append_nil]

/-- Dropping events and letting the clocks of threads grow keeps the program order. -/
theorem programOrder_of_append (h : s.ProgramOrder) {rest : List PsoEvent}
    (hevents : s.events = t.events ++ rest)
    (hclocks : ∀ p, (s.threadClock p).leq (t.threadClock p) = true) : t.ProgramOrder := by
  have hlength : t.events.length ≤ s.events.length := by
    rw [hevents, List.length_append]
    omega
  constructor
  · intro i hi
    rw [clockOf_of_append hevents hi, pidOf_of_append hevents hi]
    exact VClock.leq_trans (h.thread i (Nat.lt_of_lt_of_le hi hlength)) (hclocks _)
  · intro i j hij hj hsame
    have hi := Nat.lt_trans hij hj
    rw [pidOf_of_append hevents hi, pidOf_of_append hevents hj] at hsame
    rw [clockOf_of_append hevents hi, clockOf_of_append hevents hj]
    exact h.events i j hij (Nat.lt_of_lt_of_le hj hlength) hsame

theorem leq_set {c : VClock} {value : ℕ} (h : c.get pid ≤ value) :
    c.leq (c.set pid value) = true := by
  rw [VClock.leq_iff]
  intro d
  rw [VClock.get_set]
  split
  · rename_i hd
    rwa [hd]
  · exact Nat.le_refl _

theorem leq_setThreadClock {value : ℕ} (h : (s.threadClock pid).get pid ≤ value) (p : ℕ) :
    (s.threadClock p).leq ((s.setThreadClock pid value).threadClock p) = true := by
  rw [setThreadClock]
  dsimp only
  by_cases hp : p = pid
  · subst hp
    rw [Function.update_self]
    exact leq_set h
  · rw [Function.update_of_ne hp]
    exact VClock.leq_refl _

theorem programOrder_beginEvent (h : s.ProgramOrder) (pid alt : ℕ) :
    (s.beginEvent pid alt).ProgramOrder := by
  let index := (s.threadClock pid).get pid + 1
  let e : PsoEvent :=
    ⟨⟨pid, index⟩, alt, (s.setThreadClock pid index).threadClock pid, false, s.drySleepers, []⟩
  have hevents : (s.beginEvent pid alt).events = s.events ++ [e] := rfl
  have hlt : ∀ i < s.events.length, (s.beginEvent pid alt).clockOf i = s.clockOf i ∧
      (s.beginEvent pid alt).pidOf i = s.pidOf i :=
    fun i hi => ⟨(clockOf_of_append hevents hi).symm, (pidOf_of_append hevents hi).symm⟩
  have hnew : (s.beginEvent pid alt).clockOf s.events.length = e.clock ∧
      (s.beginEvent pid alt).pidOf s.events.length = pid := by
    rw [clockOf, pidOf, hevents, List.getElem?_concat_length]
    exact ⟨rfl, rfl⟩
  have hthread : ∀ i < s.events.length, (s.clockOf i).leq
      ((s.beginEvent pid alt).threadClock (s.pidOf i)) = true :=
    fun i hi => VClock.leq_trans (h.thread i hi) (leq_setThreadClock (Nat.le_succ _) _)
  have hlength : (s.beginEvent pid alt).events.length = s.events.length + 1 := by
    rw [hevents, List.length_append, List.length_singleton]
  constructor
  · intro i hi
    rw [hlength] at hi
    cases Nat.lt_succ_iff_lt_or_eq.mp hi with
    | inl hi =>
        rw [(hlt i hi).1, (hlt i hi).2]
        exact hthread i hi
    | inr heq =>
        rw [heq, hnew.1, hnew.2]
        exact VClock.leq_refl _
  · intro i j hij hj hsame
    rw [hlength] at hj
    have hi : i < s.events.length := Nat.lt_of_lt_of_le hij (Nat.lt_succ_iff.mp hj)
    cases Nat.lt_succ_iff_lt_or_eq.mp hj with
    | inl hj =>
        rw [(hlt i hi).2, (hlt j hj).2] at hsame
        rw [(hlt i hi).1, (hlt j hj).1]
        exact h.events i j hij hj hsame
    | inr heq =>
        rw [heq, (hlt i hi).2, hnew.2] at hsame
        rw [heq, (hlt i hi).1, hnew.1]
        have hclock := hthread i hi
        rwa [hsame] at hclock

/-! ### Turns -/

theorem sound_of_invariant {dryRuns : ℕ → List PsoCall}
    (h : PsoSleepers.Invariant ⟨s, dryRuns⟩) : Sound s where
  numbered := h.numbered
  noted := h.noted
  pids := by
    intro i hi
    refine h.pids _ ?_
    rw [← length_pids] at hi
    change s.pidOf i ∈ s.pids
    rw [pidOf_eq, List.getElem?_eq_getElem hi]
    exact List.getElem_mem hi

/-- Threads and records stay the same, and events are only added. -/
theorem continues_of_append {rest : List PsoEvent} (hevents : t.events = s.events ++ rest)
    (haccesses : t.accesses = s.accesses) (hcount : s.threadCount = t.threadCount)
    (hthreads : t.threads = s.threads) : Continues s t where
  accesses := haccesses
  threadCount := hcount
  owner := fun p => by rw [hthreads]
  proc := fun p => by rw [hthreads]
  buffers := .of_threads hthreads
  conflicts := by
    intro i hi
    obtain ⟨e, he, hconflict⟩ := hi
    refine ⟨e, ?_, hconflict⟩
    rw [hevents, List.getElem?_append_left (List.getElem?_eq_some_iff.mp he).1]
    exact he
  pid := fun i hi => (pidOf_of_append hevents hi.lt).symm
  clock := fun i hi => (clockOf_of_append hevents hi.lt).symm

/-- Threads and records stay the same, and an event without conflicts is dropped. -/
theorem continues_of_drop {e : PsoEvent} (hevents : s.events = t.events ++ [e])
    (he : e.mayConflict = false) (haccesses : t.accesses = s.accesses)
    (hcount : s.threadCount = t.threadCount) (hthreads : t.threads = s.threads) :
    Continues s t where
  accesses := haccesses
  threadCount := hcount
  owner := fun p => by rw [hthreads]
  proc := fun p => by rw [hthreads]
  buffers := .of_threads hthreads
  conflicts := fun i hi => PsoSleepers.Conflicts.dropLast hi hevents he
  pid := by
    intro i hi
    obtain ⟨d, hd, -⟩ := PsoSleepers.Conflicts.dropLast hi hevents he
    exact pidOf_of_append hevents (List.getElem?_eq_some_iff.mp hd).1
  clock := by
    intro i hi
    obtain ⟨d, hd, -⟩ := PsoSleepers.Conflicts.dropLast hi hevents he
    exact clockOf_of_append hevents (List.getElem?_eq_some_iff.mp hd).1

/-- Only the sleep of a thread is different. -/
theorem continues_of_sleeps {sleep : PsoSleep} (h : PsoSleepers.Sleeps s t pid sleep) :
    Continues s t where
  accesses := h.accesses
  threadCount := h.threadCount.symm
  owner := fun p => (h.fields p).1
  proc := fun p => (h.fields p).2.1
  buffers := ⟨fun p => (h.fields p).2.2⟩
  conflicts := by
    intro i hi
    rw [Conflicts, h.events]
    exact hi
  pid := fun i _ => by rw [pidOf, h.events, pidOf]
  clock := fun i _ => by rw [clockOf, h.events, clockOf]

/-- Merging the last event, before a new event. -/
theorem continues_mergeLast (h : s.ProgramOrder) :
    Continues s { s.mergeLast with replay := false, running := .nobody } ∧
      ({ s.mergeLast with replay := false, running := .nobody } : PsoRecorder).ProgramOrder := by
  cases PsoSleepers.mergeLast_cases s with
  | inl heq =>
      rw [heq]
      exact ⟨continues_of_append (events_eq_nil_append rfl) rfl rfl rfl,
        programOrder_of_append h (events_eq_nil_append rfl) fun _ => VClock.leq_refl _⟩
  | inr hmerge =>
      obtain ⟨events, e, hevents, he, heq⟩ := hmerge
      rw [heq]
      exact ⟨continues_of_drop hevents he rfl rfl rfl,
        programOrder_of_append h hevents fun _ => VClock.leq_refl _⟩

theorem continues_newEvent (h : s.ProgramOrder) (hstep : s.newEvent pid = some t) :
    Continues s t ∧ t.ProgramOrder := by
  obtain ⟨-, rfl⟩ := PsoSleepers.newEvent_eq_some hstep
  obtain ⟨hmerge, hprogram⟩ := continues_mergeLast h
  exact ⟨hmerge.trans (continues_of_append rfl rfl rfl rfl), programOrder_beginEvent hprogram _ _⟩

/-- What remains of an event that is refused. -/
theorem refuseSchedule_beginEvent (h : (s.beginEvent pid alt).refuseSchedule = some t) :
    t.events = s.events ∧ t.accesses = s.accesses ∧ t.threadCount = s.threadCount ∧
      t.threads = s.threads ∧ ∀ p, (s.threadClock p).leq (t.threadClock p) = true := by
  rw [refuseSchedule] at h
  obtain ⟨e, he, h⟩ := Option.bind_eq_some_iff.mp h
  dsimp only at h
  rw [Option.ite_none_left_eq_some] at h
  have hpid : e.iid.pid = pid := by
    rw [beginEvent] at he
    dsimp only at he
    rw [List.getLast?_concat] at he
    rw [← Option.some.inj he]
  obtain ⟨-, heq⟩ := h
  cases heq
  refine ⟨List.dropLast_concat, rfl, rfl, rfl, ?_⟩
  have hclock : (s.beginEvent pid alt).threadClock = Function.update s.threadClock pid
      ((s.threadClock pid).set pid ((s.threadClock pid).get pid + 1)) := rfl
  intro p
  rw [hpid, setThreadClock, hclock]
  dsimp only
  rw [Function.update_self, VClock.get_set, if_pos rfl, Nat.add_sub_cancel]
  by_cases hp : p = pid
  · subst hp
    rw [Function.update_self, VClock.leq_iff]
    intro d
    rw [VClock.get_set, VClock.get_set]
    split
    · rename_i hd
      rw [hd]
    · exact Nat.le_refl _
  · rw [Function.update_of_ne hp, Function.update_of_ne hp]
    exact VClock.leq_refl _

/-- A new event that is refused leaves everything as it was. -/
theorem continues_refused (h : s.ProgramOrder) (hstep : s.newEvent pid = some u)
    (hrefuse : u.refuseSchedule = some t) : Continues s t ∧ t.ProgramOrder := by
  obtain ⟨-, rfl⟩ := PsoSleepers.newEvent_eq_some hstep
  obtain ⟨hmerge, hprogram⟩ := continues_mergeLast h
  obtain ⟨hevents, haccesses, hcount, hthreads, hclocks⟩ := refuseSchedule_beginEvent hrefuse
  refine ⟨hmerge.trans (continues_of_append (events_eq_nil_append hevents.symm) haccesses
      hcount.symm hthreads),
    programOrder_of_append hprogram (events_eq_nil_append hevents) hclocks⟩

end Nidhugg.PsoHistory
