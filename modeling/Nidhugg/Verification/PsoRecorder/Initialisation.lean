import Nidhugg.Verification.PsoRecorder.Wakeups

/-! # Events that wake up nobody

`mutex_init` and `cond_init` are the only operations that wake up no thread. A thread that sleeps
with a call that depends on one of them sleeps on. -/

namespace Nidhugg.PsoSleepers

open PsoRecorder LabelledRun

variable {h k : PsoSleepers} {s t : PsoRecorder} {pid p : ℕ} {call : PsoCall} {turn : Turn}
  {c m : SymAddr}

/-! ### What an initialisation records -/

/-- The threads and the events of a state are those of an earlier one. -/
structure SameThreads (s t : PsoRecorder) : Prop where
  threadCount : t.threadCount = s.threadCount
  threads : t.threads = s.threads
  pids : t.pids = s.pids

theorem SameThreads.seeEvents (hsame : SameThreads s t) (seen : List ℕ) :
    SameThreads s (t.seeEvents pid seen) :=
  ⟨(threadCount_seeEvents seen).trans hsame.threadCount,
    (threads_seeEvents seen).trans hsame.threads, (pids_seeEvents seen).trans hsame.pids⟩

/-- The beginning of an initialisation. -/
theorem SameThreads.opening (s : PsoRecorder) (pid : ℕ) (clock : VClock) :
    SameThreads s (s.addClock pid clock).conflicting :=
  ⟨rfl, rfl, pids_conflicting.trans pids_addClock⟩

theorem mutexInit_eq_some (hinit : s.mutexInit pid m = some t) :
    SameThreads s t ∧ t.prefixIdx = s.prefixIdx ∧ t.accesses.mutexes =
      AssocList.insert s.accesses.mutexes m
        { (s.mutex? m).getD .new with lastAccess := some t.prefixIdx } := by
  rw [mutexInit] at hinit
  obtain ⟨u, hu, hinit⟩ := Option.bind_eq_some_iff.mp hinit
  obtain ⟨-, -, rfl⟩ := fence_eq_some hu
  generalize hv : (s.addClock pid (s.auxClockSum pid)).conflicting = v at hinit
  cases hinit
  have hbegin : SameThreads s v := hv ▸ SameThreads.opening s pid _
  have haccesses : v.accesses = s.accesses := hv ▸ rfl
  have hmutex : v.mutex? m = s.mutex? m := by rw [mutex?, mutex?, haccesses]
  have hsees : SameThreads s (v.seeEvents pid (v.mutexSees ((v.mutex? m).getD .new))) :=
    hbegin.seeEvents _
  refine ⟨⟨hsees.threadCount, hsees.threads, hsees.pids⟩, prefixIdx_congr hsees.pids, ?_⟩
  rw [setMutex, accesses_seeEvents, haccesses, hmutex]
  rfl

theorem condInit_eq_some (hinit : s.condInit pid c = some t) (hnew : (s.condVar? c).isNone = true) :
    SameThreads s t ∧ t.accesses.mutexes = s.accesses.mutexes ∧
      t.condVar? c = some ⟨some t.prefixIdx, []⟩ := by
  rw [condInit] at hinit
  obtain ⟨u, hu, hinit⟩ := Option.bind_eq_some_iff.mp hinit
  obtain ⟨-, -, rfl⟩ := fence_eq_some hu
  have hnone : (s.addClock pid (s.auxClockSum pid)).condVar? c = none :=
    Option.isNone_iff_eq_none.mp hnew
  have hidx : (s.addClock pid (s.auxClockSum pid)).prefixIdx = s.prefixIdx :=
    prefixIdx_congr pids_addClock
  dsimp only at hinit
  rw [hnone, hidx] at hinit
  generalize hv : (s.addClock pid (s.auxClockSum pid)).conflicting = v at hinit
  cases hinit
  have hbegin : SameThreads s v := hv ▸ SameThreads.opening s pid _
  let w := v.setCondVar c ⟨some s.prefixIdx, []⟩
  have hw : SameThreads s w := ⟨hbegin.threadCount, hbegin.threads, hbegin.pids⟩
  have hsees : SameThreads s (w.seeEvents pid w.lastFullMemoryConflict) := hw.seeEvents _
  refine ⟨hsees, ?_, ?_⟩
  · rw [accesses_seeEvents]
    exact hv ▸ rfl
  · rw [prefixIdx_congr hsees.pids, condVar?, accesses_seeEvents]
    exact (AssocList.lookup_insert ..).trans (if_pos rfl)

theorem SameThreads.condWaitAccepts {m : SymAddr} (hsame : SameThreads s t)
    (hlock : ((t.mutex? m).bind PsoMutex.lastLock) = (s.mutex? m).bind PsoMutex.lastLock) :
    t.condWaitAccepts p m = s.condWaitAccepts p m := by
  have haccepts : ∀ u : PsoRecorder, u.condWaitAccepts p m =
      ((u.mutex? m).bind PsoMutex.lastLock).any fun i => u.pidOf i = p := by
    intro u
    rw [PsoRecorder.condWaitAccepts]
    cases u.mutex? m <;> rfl
  rw [haccepts, haccepts, hlock]
  congr 1
  funext i
  rw [pidOf_congr hsame.pids]

/-! ### What depends on it -/

/-- Whatever uses a mutex sees the last access to it. -/
theorem mem_sees_of_usesMutex {mutex : PsoMutex} {i : ℕ} (huses : usesMutex s p m call = true)
    (haccepts : ∀ m', t.condWaitAccepts p m' = s.condWaitAccepts p m')
    (hmutex : t.mutex? m = some mutex) (haccess : mutex.lastAccess = some i) :
    i ∈ t.sees p call := by
  have hsees : i ∈ t.mutexSees ((t.mutex? m).getD .new) := by
    rw [hmutex, Option.getD_some, mutexSees, haccess]
    exact List.mem_cons_self
  cases call with
  | mutexLock m' | condAwake c m' =>
      cases of_decide_eq_true huses
      exact List.mem_append_right _ hsees
  | mutexUnlock m' | mutexTrylock m' | mutexInit m' | mutexDestroy m' =>
      cases of_decide_eq_true huses
      exact hsees
  | condWait c m' =>
      rw [usesMutex, Bool.and_eq_true, decide_eq_true_eq] at huses
      cases huses.1
      rw [sees, haccepts, if_pos huses.2]
      exact List.mem_append_left _ hsees
  | fullMemoryConflict =>
      refine List.mem_append_left _ (List.mem_append_right _ ?_)
      exact List.mem_flatMap.mpr
        ⟨(m, mutex), AssocList.mem_of_lookup hmutex, Option.mem_toList.mpr haccess⟩
  | _ => cases huses

/-- Whatever depends on the initialisation of a condition variable sees the last signal. -/
theorem mem_sees_of_usesCondVar {condVar : PsoCondVar} {i : ℕ}
    (huses : usesCondVar s p c call = true)
    (haccepts : ∀ m', t.condWaitAccepts p m' = s.condWaitAccepts p m')
    (hcondVar : t.condVar? c = some condVar) (hsignal : condVar.lastSignal = some i) :
    i ∈ t.sees p call := by
  have hmem : i ∈ condVar.lastSignal.toList := Option.mem_toList.mpr hsignal
  cases call with
  | condWait c' m =>
      rw [usesCondVar, Bool.and_eq_true, decide_eq_true_eq] at huses
      cases huses.1
      rw [sees, haccepts, if_pos huses.2, condSees, hcondVar]
      exact List.mem_append_right _ (List.mem_append_left _ hmem)
  | condDestroy c' =>
      cases of_decide_eq_true huses
      rw [sees, condSees, hcondVar]
      exact List.mem_append_left _ (List.mem_append_left _ hmem)
  | _ => cases huses

/-- An initialisation that a sleeping thread depends on is seen by its next call. -/
theorem mem_sees_of_misses {e : PsoCall} (hexec : s.exec pid e = some t)
    (hmisses : misses s p e call = true) : SameThreads s t ∧ t.prefixIdx ∈ t.sees p call := by
  cases e with
  | mutexInit m =>
      have hinit : s.mutexInit pid m = some t := hexec
      obtain ⟨hsame, -, hmutexes⟩ := mutexInit_eq_some hinit
      have hmutex : t.mutex? m =
          some { (s.mutex? m).getD .new with lastAccess := some t.prefixIdx } := by
        rw [mutex?, hmutexes, AssocList.lookup_insert, if_pos rfl]
      refine ⟨hsame, mem_sees_of_usesMutex hmisses ?_ hmutex rfl⟩
      intro m'
      apply hsame.condWaitAccepts
      by_cases heq : m' = m
      · subst heq
        rw [hmutex]
        cases s.mutex? m' <;> rfl
      · rw [mutex?, hmutexes, AssocList.lookup_insert, if_neg heq, mutex?]
  | condInit c =>
      have hinit : s.condInit pid c = some t := hexec
      rw [misses, Bool.and_eq_true] at hmisses
      obtain ⟨hsame, hmutexes, hcondVar⟩ := condInit_eq_some hinit hmisses.1
      refine ⟨hsame, mem_sees_of_usesCondVar hmisses.2 ?_ hcondVar rfl⟩
      intro m'
      apply hsame.condWaitAccepts
      rw [mutex?, mutex?, hmutexes]
  | _ => cases hmisses

theorem not_wokenUp (hinv : Invariant h) (hturn : h.step turn = some k)
    (hinit : initialises h turn = true) : ¬ WokenUp k := by
  obtain ⟨t, hstep, rfl⟩ := step_eq_some hturn
  cases turn with
  | call e =>
      rw [initialises, Bool.and_eq_true, decide_eq_true_eq] at hinit
      obtain ⟨hrunning, hany⟩ := hinit
      obtain ⟨p, -, hp⟩ := List.any_eq_true.mp hany
      simp only [Bool.and_eq_true, decide_eq_true_eq] at hp
      obtain ⟨⟨hasleep, hother⟩, hp⟩ := hp
      obtain ⟨call, hcall, hmisses⟩ := List.any_eq_true.mp hp
      have hexec := (performCall_event hinv hrunning hstep).2
      have hpart := part_of_performCall hinv hrunning hstep
      obtain ⟨hsame, hsees⟩ := mem_sees_of_misses hexec hmisses
      have hreal : ∀ q, t.realThread q = h.recorder.realThread q := by
        intro q
        rw [realThread, realThread, hsame.threads]
      have hcurrent : t.pidOf t.prefixIdx = h.current := by
        rw [prefixIdx_congr hsame.pids, pidOf_congr hsame.pids, current]
      have hcalls : h.noteTurn (.call e) = h.dryRuns := by rw [noteTurn, hrunning]
      rw [hcalls]
      intro hwoken
      refine hwoken (hpart.running.trans hrunning) p ?_ ?_ call hcall hsees
      · change t.asleep p = true
        rw [asleep, hsame.threads]
        exact hasleep
      · change t.realThread p ≠ t.realThread (t.pidOf t.prefixIdx)
        rw [hreal, hreal, hcurrent]
        exact hother
  | _ => cases hinit

/-! ### Runs -/

/-- In a run, executed events wake up all threads that depend on them exactly as long as no event
initialises a mutex or a condition variable that a sleeping thread depends on. -/
theorem wokenUp_iff {replay : Bool} {turns : List Turn}
    (hrun : run step (initial replay) turns = some h) :
    AlwaysAlong step WokenUp (initial replay) turns ↔
      NeverAlong step initialises (initial replay) turns := by
  have hunseen : Unseen (initial replay) := fun hrunning => by cases hrunning
  exact good_iff_never_of_strong (fun _ _ _ hinv hturn => Invariant.step hinv hturn)
    (fun _ _ _ hinv hs hturn hinit => Unseen.step hinv hs hturn hinit)
    (fun _ hs => hs.wokenUp) (fun _ _ _ hinv hturn hinit => not_wokenUp hinv hturn hinit)
    (initial_invariant replay) hunseen hrun

/-- A thread sleeps with `pthread_mutex_lock` as its next call while the main thread executes
`pthread_mutex_init`. -/
def initWhileLocking (m m' : SymAddr) : List Turn :=
  [.next 0 0, .call .spawn, .dryRun 1, .call (.mutexLock m), .next 0 0, .call (.mutexInit m')]

/-- The initialisation of another mutex does not concern the thread. -/
theorem wokenUp_initWhileLocking_other :
    AlwaysAlong step WokenUp (initial true) (initWhileLocking ⟨.global 0, 0⟩ ⟨.global 1, 0⟩) := by
  have hrun : (run step (initial true) (initWhileLocking ⟨.global 0, 0⟩ ⟨.global 1, 0⟩)).isSome =
      true := by
    decide +kernel
  apply (wokenUp_iff (Option.some_get hrun).symm).mpr
  exact neverAlong_of_avoids (by decide +kernel)

theorem not_wokenUp_initWhileLocking :
    ∃ h, run step (initial true) (initWhileLocking ⟨.global 0, 0⟩ ⟨.global 0, 0⟩) = some h ∧
      ¬ WokenUp h := by
  have hrun : (run step (initial true) (initWhileLocking ⟨.global 0, 0⟩ ⟨.global 0, 0⟩)).isSome =
      true := by
    decide +kernel
  have hasleep : ((run step (initial true) (initWhileLocking ⟨.global 0, 0⟩ ⟨.global 0, 0⟩)).all
      fun h => h.recorder.running = .event && h.recorder.asleep 1 &&
        h.recorder.realThread 1 ≠ h.recorder.realThread h.current &&
        (.mutexLock ⟨.global 0, 0⟩ ∈ h.dryRuns 1) &&
        (h.recorder.prefixIdx ∈ h.recorder.sees 1 (.mutexLock ⟨.global 0, 0⟩))) = true := by
    decide +kernel
  rw [(Option.some_get hrun).symm, Option.all_some] at hasleep
  simp only [Bool.and_eq_true, decide_eq_true_eq] at hasleep
  obtain ⟨⟨⟨⟨hevent, hasleep⟩, hother⟩, hcall⟩, hsees⟩ := hasleep
  exact ⟨_, (Option.some_get hrun).symm, fun hwoken =>
    hwoken hevent 1 hasleep hother _ hcall hsees⟩

end Nidhugg.PsoSleepers
