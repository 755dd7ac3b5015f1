import Nidhugg.Verification.PsoRecorder.Pending

/-! # Calls by events

Every call by an event is put together from parts. The accesses for which it wakes up threads and
the places that it writes are functions of the state before it. -/

namespace Nidhugg.PsoRecorder

variable {s t u : PsoRecorder} {pid i : ℕ} {a : PsoAccess} {b c m : SymAddr} {ml : AccessRange}

/-- The accesses for which a call wakes up threads. -/
def callWakeups (s : PsoRecorder) (pid : ℕ) : PsoCall → List PsoAccess
  | .atomicStore ml | .compareExchange ml true => ml.bytes.map .w
  | .load ml | .compareExchange ml false =>
      if s.hasPendingStore pid ml.1.addr then [] else ml.bytes.map .r
  | .atomicRmw ml => ml.bytes.map .r ++ ml.bytes.map .w
  | .fullMemoryConflict => [.wAllMemory]
  | .mutexLock m | .mutexUnlock m | .mutexTrylock m | .mutexDestroy m | .condAwake _ m => [.w m]
  | .condSignal c | .condBroadcast c | .condDestroy c => [.w c]
  | .condWait c m => if s.condWaitAccepts pid m then [.w m, .r c] else []
  | _ => []

/-- The places that a call writes. -/
def callWrites (s : PsoRecorder) (pid : ℕ) : PsoCall → List PsoLocation
  | .atomicStore ml | .compareExchange ml true => ml.bytes.flatMap fun b => [.update b, .read b]
  | .load ml | .compareExchange ml false =>
      if s.hasPendingStore pid ml.1.addr then [] else ml.bytes.map .read
  | .atomicRmw ml => ml.bytes.map .read ++ ml.bytes.flatMap fun b => [.update b, .read b]
  | .fullMemoryConflict => [.full]
  | .mutexLock m | .mutexUnlock m | .mutexTrylock m | .mutexInit m | .condAwake _ m => [.mutex m]
  | .condInit c => if (s.condVar? c).isSome then [] else [.signal c]
  | .condSignal c | .condBroadcast c => [.signal c]
  | .condWait c m => if s.condWaitAccepts pid m then [.mutex m, .waiters c] else []
  | _ => []

theorem Part.current {wakeups : List PsoAccess} {written : List PsoLocation}
    (h : Part s t pid wakeups written) (hs : s.Conflicts s.prefixIdx) : t.Conflicts t.prefixIdx := by
  rw [prefixIdx_congr h.pids]
  exact h.conflicts _ hs

/-- What a fence does, and that the thread is real and has no pending stores. -/
theorem fence_eq_some (h : s.fence pid = some t) :
    (s.threads pid).owner = none ∧ (s.threads pid).storeBuffers.keys = [] ∧
      t = s.addClock pid (s.auxClockSum pid) := by
  rw [fence, Option.ite_none_right_eq_some, Bool.and_eq_true, Option.isNone_iff_eq_none,
    allBuffersEmpty, List.isEmpty_iff, Option.some.injEq] at h
  exact ⟨h.1.1, h.1.2, h.2.symm⟩

theorem fence_part (h : s.fence pid = some t) : Part s t pid [] [] := by
  rw [(fence_eq_some h).2.2]
  exact .addClock s pid _

/-! ### Mutexes -/

section Mutexes

variable (hpid : pid < s.threadCount) (hevents : s.events ≠ [])

include hpid hevents

/-- The beginning of the operations that wake up threads. -/
theorem opening (a : PsoAccess) : Part s (s.conflicting.wakeup pid a) pid [a] [] ∧
    (s.conflicting.wakeup pid a).Conflicts (s.conflicting.wakeup pid a).prefixIdx := by
  have hwakeup := (Part.wakeup s.conflicting pid a)
  refine ⟨(Part.conflicting s).trans hpid hwakeup, hwakeup.current ?_⟩
  have hconflicts := conflicts_conflicting hevents
  rwa [← prefixIdx_congr (t := s.conflicting) pids_conflicting] at hconflicts

theorem mutexLock_part (h : s.mutexLock pid m = some t) : Part s t pid [.w m] [.mutex m] := by
  rw [mutexLock] at h
  obtain ⟨u, hu, h⟩ := Option.bind_eq_some_iff.mp h
  cases h
  have hfence := fence_part hu
  have hpidu := Nat.lt_of_lt_of_le hpid hfence.threadCount
  have hopen := opening hpidu (events_ne_nil hfence.pids hevents) (.w m)
  let v := u.conflicting.wakeup pid (.w m)
  have hpidv : pid < v.threadCount := Nat.lt_of_lt_of_le hpidu hopen.1.threadCount
  refine hfence.trans hpid (hopen.1.trans hpidu ?_)
  let mutex := (v.mutex? m).getD .new
  have hsees : ∀ w, Part v w pid [] [] → Part v (w.setMutex m ⟨some w.prefixIdx, some w.prefixIdx,
      true⟩) pid [] [.mutex m] := by
    intro w hw
    refine hw.trans hpidv (.setMutex (hw.current hopen.2) rfl ?_)
    intro i hi
    exact .inl (Option.some.inj hi).symm
  cases hlock : mutex.lastLock with
  | none =>
      have hpart := hsees _ (Part.seeEvents hpidv (v.mutexSees mutex))
      simpa only [v, mutex, hlock] using hpart
  | some j =>
      have hfirst := Part.seeEvents hpidv mutex.lastAccess.toList
      have hpart := hsees _ (hfirst.trans hpidv (Part.seeEvents
        (Nat.lt_of_lt_of_le hpidv hfirst.threadCount) v.lastFullMemoryConflict))
      simpa only [v, mutex, hlock] using hpart

/-- The operations that keep the last lock, or take it. -/
theorem mutexAccess_part {mutex mutex' : PsoMutex} (hmutex : s.mutex? m = some mutex)
    (hlock : ∀ i, mutex'.lastLock = some i → i = s.prefixIdx ∨ mutex.lastLock = some i)
    (haccess : mutex'.lastAccess = some s.prefixIdx) :
    Part s (((s.conflicting.wakeup pid (.w m)).seeEvents pid
      ((s.conflicting.wakeup pid (.w m)).mutexSees mutex)).setMutex m mutex') pid [.w m] [.mutex m] := by
  have hopen := opening hpid hevents (.w m)
  have hpidv := Nat.lt_of_lt_of_le hpid hopen.1.threadCount
  have hsees := Part.seeEvents hpidv ((s.conflicting.wakeup pid (.w m)).mutexSees mutex)
  have hidx := (prefixIdx_congr hsees.pids).trans (prefixIdx_congr hopen.1.pids)
  refine hopen.1.trans hpid (hsees.trans hpidv (.setMutex (hsees.current hopen.2) ?_ ?_))
  · rw [hidx]
    exact haccess
  · intro i hi
    rw [hidx]
    refine (hlock i hi).imp_right fun hi => ⟨mutex, ?_, hi⟩
    rw [mutex?, accesses_seeEvents, accesses_wakeup, accesses_conflicting]
    exact hmutex

theorem mutexUnlock_part (h : s.mutexUnlock pid m = some t) : Part s t pid [.w m] [.mutex m] := by
  rw [mutexUnlock] at h
  obtain ⟨u, hu, h⟩ := Option.bind_eq_some_iff.mp h
  obtain ⟨mutex, hmutex, h⟩ := Option.bind_eq_some_iff.mp h
  obtain ⟨-, -, h⟩ := Option.bind_eq_some_iff.mp h
  cases h
  have hfence := fence_part hu
  refine hfence.trans hpid (mutexAccess_part (Nat.lt_of_lt_of_le hpid hfence.threadCount)
    (events_ne_nil hfence.pids hevents) hmutex (fun i hi => .inr hi) ?_)
  simp [prefixIdx_eq]

theorem mutexTrylock_part (h : s.mutexTrylock pid m = some t) :
    Part s t pid [.w m] [.mutex m] := by
  rw [mutexTrylock] at h
  obtain ⟨u, hu, h⟩ := Option.bind_eq_some_iff.mp h
  obtain ⟨mutex, hmutex, h⟩ := Option.bind_eq_some_iff.mp h
  cases h
  have hfence := fence_part hu
  refine hfence.trans hpid (mutexAccess_part (Nat.lt_of_lt_of_le hpid hfence.threadCount)
    (events_ne_nil hfence.pids hevents) hmutex ?_ ?_)
  · intro i hi
    dsimp only at hi
    split at hi
    · exact .inr hi
    · rw [Option.some.injEq] at hi
      exact .inl (by rw [← hi]; simp [prefixIdx_eq])
  · simp [prefixIdx_eq]

theorem mutexInit_part (h : s.mutexInit pid m = some t) : Part s t pid [] [.mutex m] := by
  rw [mutexInit] at h
  obtain ⟨u, hu, h⟩ := Option.bind_eq_some_iff.mp h
  cases h
  have hfence := fence_part hu
  have hpidu := Nat.lt_of_lt_of_le hpid hfence.threadCount
  have hconflicts : u.conflicting.Conflicts u.conflicting.prefixIdx := by
    rw [prefixIdx_congr (t := u.conflicting) pids_conflicting]
    exact conflicts_conflicting (events_ne_nil hfence.pids hevents)
  let mutex := (u.conflicting.mutex? m).getD .new
  have hpidc : pid < u.conflicting.threadCount := hpidu
  have hsees := Part.seeEvents hpidc (u.conflicting.mutexSees mutex)
  let v := u.conflicting.seeEvents pid (u.conflicting.mutexSees mutex)
  have hset : Part v (v.setMutex m { mutex with lastAccess := some v.prefixIdx }) pid []
      [.mutex m] := .setMutex (hsees.current hconflicts) rfl ?_
  · exact hfence.trans hpid ((Part.conflicting u).trans hpidu (hsees.trans hpidc hset))
  intro i hi
  have haccesses : v.mutex? m = u.conflicting.mutex? m := by
    rw [mutex?, mutex?, accesses_seeEvents]
  rw [haccesses]
  have hi' : ((u.conflicting.mutex? m).getD .new).lastLock = some i := hi
  cases hlookup : u.conflicting.mutex? m with
  | none =>
      rw [hlookup] at hi'
      cases hi'
  | some old =>
      rw [hlookup] at hi'
      exact .inr ⟨old, rfl, hi'⟩

theorem mutexDestroy_part (h : s.mutexDestroy pid m = some t) : Part s t pid [.w m] [] := by
  rw [mutexDestroy] at h
  obtain ⟨u, hu, h⟩ := Option.bind_eq_some_iff.mp h
  obtain ⟨mutex, -, h⟩ := Option.bind_eq_some_iff.mp h
  cases h
  have hfence := fence_part hu
  have hpidu := Nat.lt_of_lt_of_le hpid hfence.threadCount
  have hopen := opening hpidu (events_ne_nil hfence.pids hevents) (.w m)
  have hpidv := Nat.lt_of_lt_of_le hpidu hopen.1.threadCount
  exact hfence.trans hpid (hopen.1.trans hpidu
    ((Part.seeEvents hpidv _).trans hpidv (.eraseMutex _ m)))

end Mutexes

/-! ### Condition variables -/

theorem recordedAt_signal {condVar : PsoCondVar} (h : s.condVar? c = some condVar)
    (hi : condVar.lastSignal = some i) : s.RecordedAt i (.signal c) :=
  ⟨condVar, AssocList.mem_of_lookup h, hi⟩

theorem recordedAt_waiters {condVar : PsoCondVar} (h : s.condVar? c = some condVar)
    (hi : i ∈ condVar.waiters) : s.RecordedAt i (.waiters c) :=
  ⟨condVar, AssocList.mem_of_lookup h, hi⟩

theorem wakeWaiter_part (s : PsoRecorder) (i : ℕ) : Part s (s.wakeWaiter i) pid [] [] :=
  .addThreadClock s _ _

theorem condVar?_foldl_wakeWaiter (waiters : List ℕ) :
    (waiters.foldl wakeWaiter s).condVar? c = s.condVar? c := by
  induction waiters generalizing s with
  | nil => rfl
  | cons j waiters ih => exact ih

/-- The last part of a signal: the waiters that remain were waiters before. -/
theorem signal_part {condVar : PsoCondVar} {waiters seen : List ℕ} {k : ℕ}
    (hpid : pid < s.threadCount) (hk : k = s.prefixIdx) (hconflicts : s.Conflicts s.prefixIdx) (hcond : s.condVar? c = some condVar)
    (hwaiters : ∀ j ∈ waiters, j ∈ condVar.waiters) :
    Part s ((s.setCondVar c ⟨some k, waiters⟩).seeEvents pid seen) pid [] [.signal c] := by
  subst hk
  have hset : Part s (s.setCondVar c ⟨some s.prefixIdx, waiters⟩) pid [] [.signal c] := by
    refine .setCondVar ?_ ?_
    · intro j hj
      exact .inr ⟨List.mem_singleton_self _, (Option.some.inj hj).symm,
        Option.some.inj hj ▸ hconflicts⟩
    · exact fun j hj => .inl (recordedAt_waiters hcond (hwaiters j hj))
  exact hset.trans hpid (.seeEvents (Nat.lt_of_lt_of_le hpid hset.threadCount) seen)

section CondVars

variable (hpid : pid < s.threadCount) (hevents : s.events ≠ [])

include hpid hevents

theorem condInit_part (h : s.condInit pid c = some t) :
    Part s t pid [] (if (s.condVar? c).isSome then [] else [.signal c]) := by
  rw [condInit] at h
  obtain ⟨u, hu, h⟩ := Option.bind_eq_some_iff.mp h
  have hfence := fence_part hu
  have hpidu := Nat.lt_of_lt_of_le hpid hfence.threadCount
  have hcond : u.condVar? c = s.condVar? c := by rw [(fence_eq_some hu).2.2]; rfl
  rw [← hcond]
  cases hlookup : u.condVar? c with
  | some condVar =>
      rw [hlookup] at h
      cases h
      exact hfence
  | none =>
      rw [hlookup] at h
      cases h
      have hset : Part u.conflicting (u.conflicting.setCondVar c ⟨some u.prefixIdx, []⟩) pid []
          [.signal c] := by
        refine .setCondVar ?_ fun j hj => absurd hj List.not_mem_nil
        intro j hj
        have hidx : u.conflicting.prefixIdx = u.prefixIdx := prefixIdx_congr pids_conflicting
        refine .inr ⟨List.mem_singleton_self _, ?_⟩
        rw [hidx, ← Option.some.inj hj]
        exact ⟨rfl, conflicts_conflicting (events_ne_nil hfence.pids hevents)⟩
      have hbegin := (Part.conflicting u).trans hpidu hset
      exact hfence.trans hpid (hbegin.trans hpidu
        (.seeEvents (Nat.lt_of_lt_of_le hpidu hbegin.threadCount) _))

theorem condSignal_part (h : s.condSignal pid c = some t) : Part s t pid [.w c] [.signal c] := by
  rw [condSignal] at h
  obtain ⟨u, hu, h⟩ := Option.bind_eq_some_iff.mp h
  have hfence := fence_part hu
  have hpidu := Nat.lt_of_lt_of_le hpid hfence.threadCount
  have hopen := opening hpidu (events_ne_nil hfence.pids hevents) (.w c)
  have hpidv := Nat.lt_of_lt_of_le hpidu hopen.1.threadCount
  refine hfence.trans hpid (hopen.1.trans hpidu ?_)
  dsimp only at h
  cases hcond : (u.conflicting.wakeup pid (.w c)).condVar? c with
  | none =>
      rw [hcond] at h
      cases h
      exact (Part.refl _).mono fun loc hloc => absurd hloc List.not_mem_nil
  | some condVar =>
      rw [hcond] at h
      dsimp only at h
      rw [signalWaiter] at h
      cases hwaiter : condVar.waiters[(u.conflicting.wakeup pid (.w c)).curAlt]? with
      | some j =>
          rw [hwaiter] at h
          cases h
          have hwake : Part (u.conflicting.wakeup pid (.w c)) _ pid [] [] := wakeWaiter_part _ j
          exact hwake.trans hpidv (signal_part hpidv rfl (hwake.current hopen.2) hcond
            fun k hk => List.mem_of_mem_eraseIdx hk)
      | none =>
          rw [hwaiter, Option.ite_none_right_eq_some] at h
          cases h.2
          exact signal_part hpidv rfl hopen.2 hcond fun j hj => absurd hj List.not_mem_nil

theorem condBroadcast_part (h : s.condBroadcast pid c = some t) :
    Part s t pid [.w c] [.signal c] := by
  rw [condBroadcast] at h
  obtain ⟨u, hu, h⟩ := Option.bind_eq_some_iff.mp h
  have hfence := fence_part hu
  have hpidu := Nat.lt_of_lt_of_le hpid hfence.threadCount
  have hopen := opening hpidu (events_ne_nil hfence.pids hevents) (.w c)
  have hpidv := Nat.lt_of_lt_of_le hpidu hopen.1.threadCount
  refine hfence.trans hpid (hopen.1.trans hpidu ?_)
  dsimp only at h
  cases hcond : (u.conflicting.wakeup pid (.w c)).condVar? c with
  | none =>
      rw [hcond] at h
      cases h
      exact (Part.refl _).mono fun loc hloc => absurd hloc List.not_mem_nil
  | some condVar =>
      rw [hcond] at h
      cases h
      have hwake := Part.foldl hpidv (fun w j => wakeWaiter_part w j) condVar.waiters
      exact hwake.trans hpidv (signal_part (Nat.lt_of_lt_of_le hpidv hwake.threadCount)
        (prefixIdx_congr hwake.pids).symm (hwake.current hopen.2) ((condVar?_foldl_wakeWaiter _).trans hcond)
        fun j hj => absurd hj List.not_mem_nil)

theorem waitFor_part (h : s.waitFor pid c = some t) : Part s t pid [.r c] [.waiters c] := by
  rw [waitFor] at h
  obtain ⟨u, hu, h⟩ := Option.bind_eq_some_iff.mp h
  have hfence := fence_part hu
  have hpidu := Nat.lt_of_lt_of_le hpid hfence.threadCount
  have hopen := opening hpidu (events_ne_nil hfence.pids hevents) (.r c)
  have hpidv := Nat.lt_of_lt_of_le hpidu hopen.1.threadCount
  refine hfence.trans hpid (hopen.1.trans hpidu ?_)
  dsimp only at h
  cases hcond : (u.conflicting.wakeup pid (.r c)).condVar? c with
  | none =>
      rw [hcond] at h
      cases h
      exact (Part.refl _).mono fun loc hloc => absurd hloc List.not_mem_nil
  | some condVar =>
      rw [hcond] at h
      cases h
      let v := u.conflicting.wakeup pid (.r c)
      have hset : Part v (v.setCondVar c
          { condVar with waiters := condVar.waiters ++ [v.prefixIdx] }) pid [] [.waiters c] := by
        refine .setCondVar ?_ ?_
        · exact fun j hj => .inl (recordedAt_signal hcond hj)
        · intro j hj
          cases List.mem_append.mp hj with
          | inl hj => exact .inl (recordedAt_waiters hcond hj)
          | inr hj =>
              rw [List.mem_singleton.mp hj]
              exact .inr ⟨List.mem_singleton_self _, rfl, hopen.2⟩
      exact hset.trans hpidv (.seeEvents (Nat.lt_of_lt_of_le hpidv hset.threadCount) _)

theorem condWait_part (h : s.condWait pid c m = some t) :
    Part s t pid (callWakeups s pid (.condWait c m)) (callWrites s pid (.condWait c m)) := by
  rw [condWait] at h
  rw [callWakeups, callWrites]
  split at h
  · rename_i haccepts
    rw [if_pos haccepts, if_pos haccepts]
    obtain ⟨u, hu, h⟩ := Option.bind_eq_some_iff.mp h
    have hunlock := mutexUnlock_part hpid hevents hu
    exact hunlock.trans hpid (waitFor_part (Nat.lt_of_lt_of_le hpid hunlock.threadCount)
      (events_ne_nil hunlock.pids hevents) h)
  · rename_i haccepts
    rw [if_neg haccepts, if_neg haccepts]
    cases h
    exact .refl s

theorem condDestroy_part (h : s.condDestroy pid c = some t) : Part s t pid [.w c] [] := by
  rw [condDestroy] at h
  obtain ⟨u, hu, h⟩ := Option.bind_eq_some_iff.mp h
  have hfence := fence_part hu
  have hpidu := Nat.lt_of_lt_of_le hpid hfence.threadCount
  have hopen := opening hpidu (events_ne_nil hfence.pids hevents) (.w c)
  have hpidv := Nat.lt_of_lt_of_le hpidu hopen.1.threadCount
  refine hfence.trans hpid (hopen.1.trans hpidu ?_)
  dsimp only at h
  cases hcond : (u.conflicting.wakeup pid (.w c)).condVar? c with
  | none =>
      rw [hcond] at h
      cases h
      exact .refl _
  | some condVar =>
      rw [hcond] at h
      cases h
      exact (Part.seeEvents hpidv _).trans hpidv (.eraseCondVar _ c)

end CondVars

/-! ### Threads and buffered stores -/

theorem le_foldl_max {l : List ℕ} {x k : ℕ} (h : x ≤ k ∨ x ∈ l) : x ≤ l.foldl max k := by
  induction l generalizing k with
  | nil => exact h.elim id fun h => absurd h List.not_mem_nil
  | cons y l ih =>
      apply ih
      cases h with
      | inl h => exact .inl (Nat.le_trans h (Nat.le_max_left k y))
      | inr h =>
          cases h with
          | head => exact .inl (Nat.le_max_right k x)
          | tail _ h => exact .inr h

theorem spawn_part (hpid : pid < s.threadCount) (p : ℕ) : Part s (s.spawn p) pid [] [] := by
  let proc := ((List.range s.threadCount).map fun p => (s.threads p).proc + 1).foldl max 0
  have hthread : Part s (s.addThread (.new proc none) (s.threadClock p)) pid [] [] := by
    refine .addThread hpid rfl (fun q hq => by cases hq) ?_
    intro _ q hq heq
    have hle : (s.threads q).proc + 1 ≤ proc :=
      le_foldl_max (.inr (List.mem_map_of_mem (List.mem_range.mpr hq)))
    have heq' : (s.threads q).proc = proc := heq
    omega
  exact { hthread with
    noted := hthread.noted, conflicts := hthread.conflicts, accepts := hthread.accepts,
    numbered := fun hs => ⟨(hthread.numbered hs).owner, (hthread.numbered hs).proc,
      (hthread.numbered hs).asleep⟩,
    grows := ⟨hthread.grows.older, hthread.grows.current, hthread.grows.threads,
      hthread.grows.below⟩ }

theorem createAux_part (hpid : pid < s.threadCount) (howner : (s.threads pid).owner = none)
    (b : SymAddr) : Part s (s.createAux pid b) pid [] [] := by
  have hreal : s.realThread pid = pid := by rw [realThread, howner, Option.getD_none]
  rw [createAux]
  cases (s.threads pid).auxs.lookup b with
  | some aux => exact .refl s
  | none =>
      have hmodify : Part s (s.modifyThread (s.realThread pid) fun t => { t with
          auxs := (s.threads pid).auxs ++ [(b, s.threadCount)]
          storeBuffers := (s.threads pid).storeBuffers }) pid [] [] := by
        refine .modifyBuffers ?_ ?_ ?_ ?_
        · exact fun c pst hpst i hi => .inl ⟨pid, c, pst, hpst, hi⟩
        · rw [hreal]
          exact fun pending h => ⟨pending, h⟩
        · rw [hreal]
          exact fun _ _ _ _ h => h
        · rw [hreal]
          exact fun _ => howner
      rw [hreal] at hmodify
      refine hmodify.trans hpid (.addThread hpid rfl ?_ fun hnone => by cases hnone)
      intro q hq
      cases hq
      refine ⟨hpid, ?_, ?_⟩
      · rw [threads_modifyThread_self]
        exact howner
      · rw [threads_modifyThread_self]
        rfl

theorem store_part (hpid : pid < s.threadCount) (howner : (s.threads pid).owner = none) :
    Part s (s.store pid ml) pid [] [] := by
  have hreal : s.realThread pid = pid := by rw [realThread, howner, Option.getD_none]
  have hmodify : Part s (s.modifyThread (s.realThread pid) fun t => { t with
      auxs := (s.threads pid).auxs
      storeBuffers := (s.threads pid).storeBuffers.pushRange ml
        fun _ => ⟨ml, s.threadClock pid, none⟩ }) pid [] [] := by
    refine .modifyBuffers ?_ ?_ ?_ ?_
    · intro c pst hpst i hi
      rw [ByteBuffers.get_pushRange] at hpst
      split at hpst
      · cases List.mem_append.mp hpst with
        | inl hpst => exact .inl ⟨pid, c, pst, hpst, hi⟩
        | inr hpst =>
            rw [List.mem_singleton.mp hpst] at hi
            cases hi
      · exact .inl ⟨pid, c, pst, hpst, hi⟩
    · rw [hreal]
      exact fun pending h => ⟨pending ++ [ml], h.push ⟨ml, s.threadClock pid, none⟩⟩
    · rw [hreal]
      exact fun hne => absurd rfl hne
    · rw [hreal]
      exact fun _ => howner
  rw [hreal] at hmodify
  let u := s.modifyThread pid fun t => { t with
    storeBuffers := t.storeBuffers.pushRange ml fun _ => ⟨ml, s.threadClock pid, none⟩ }
  have haux : Part u (u.createAux pid ml.1.addr) pid [] [] := by
    have hpidu : pid < u.threadCount := hpid
    refine createAux_part hpidu ?_ _
    rw [threads_modifyThread_self]
    exact howner
  exact hmodify.trans hpid haux

/-! ### Atomic stores -/

theorem registerStore_part {lastRowe : Option ℕ} (hpid : pid < s.threadCount)
    (hconflicts : s.Conflicts s.prefixIdx) (hrowe : ∀ i, lastRowe = some i → s.RoweOf i) :
    Part s (s.registerStore pid ml lastRowe) pid (ml.bytes.map .w)
      (ml.bytes.flatMap fun b => [.update b, .read b]) := by
  rw [registerStore]
  generalize (s.threads (s.realThread pid)).proc = proc
  induction ml.bytes generalizing s with
  | nil => exact .refl s
  | cons b bytes ih =>
      have hwrite : Part s (s.writeByte b (storedInfo s.prefixIdx proc ml lastRowe)) pid []
          [.update b, .read b] := by
        refine .writeByte ?_ ?_
        · intro i hi
          have hi' := (Option.some.inj hi).symm
          exact .inr ⟨List.mem_cons_self, hi', hi' ▸ hconflicts⟩
        · intro i hi
          cases lastRowe with
          | none => exact .inl hi
          | some j =>
              obtain ⟨e, he, rfl⟩ := List.mem_map.mp hi
              cases AssocList.mem_insert.mp he with
              | inl he =>
                  rw [he]
                  exact .inr ⟨by simp, .inl (hrowe j rfl)⟩
              | inr he => exact .inl (List.mem_map_of_mem he.1)
      have hfirst : Part s (registerByte pid proc ml lastRowe s b) pid [.w b]
          [.update b, .read b] := hwrite.trans hpid (.wakeup _ pid (.w b))
      exact hfirst.trans hpid (ih (Nat.lt_of_lt_of_le hpid hfirst.threadCount)
        (hfirst.current hconflicts) hrowe)

theorem performStore_part {lastRowe : Option ℕ} (hpid : pid < s.threadCount)
    (hconflicts : s.Conflicts s.prefixIdx) (hrowe : ∀ i, lastRowe = some i → s.RoweOf i) :
    Part s (s.performStore pid ml lastRowe) pid (ml.bytes.map .w)
      (ml.bytes.flatMap fun b => [.update b, .read b]) := by
  have hown := Part.seeEvents hpid (ml.bytes.flatMap (s.ownUpdate (s.realThread pid)))
  have hpidu := Nat.lt_of_lt_of_le hpid hown.threadCount
  let u := s.seeEvents pid (ml.bytes.flatMap (s.ownUpdate (s.realThread pid)))
  have hsees := Part.seeEvents hpidu
    (ml.bytes.flatMap (u.storeSees (s.realThread pid)) ++ u.lastFullMemoryConflict)
  have hboth := hown.trans hpid hsees
  refine hboth.trans hpid (registerStore_part (Nat.lt_of_lt_of_le hpid hboth.threadCount)
    (hboth.current hconflicts) ?_)
  intro i hi
  have h := hrowe i hi
  rwa [RoweOf, threads_seeEvents, threads_seeEvents]

theorem storeBuffers_performStore {lastRowe : Option ℕ} (p : ℕ) :
    ((s.performStore pid ml lastRowe).threads p).storeBuffers = (s.threads p).storeBuffers ∧
      ((s.performStore pid ml lastRowe).threads p).owner = (s.threads p).owner ∧
      ((s.performStore pid ml lastRowe).threads p).auxs = (s.threads p).auxs := by
  have hregister : ∀ u : PsoRecorder,
      ((u.registerStore pid ml lastRowe).threads p).storeBuffers = (u.threads p).storeBuffers ∧
        ((u.registerStore pid ml lastRowe).threads p).owner = (u.threads p).owner ∧
        ((u.registerStore pid ml lastRowe).threads p).auxs = (u.threads p).auxs := by
    intro u
    rw [registerStore]
    generalize (u.threads (u.realThread pid)).proc = proc
    induction ml.bytes generalizing u with
    | nil => exact ⟨rfl, rfl, rfl⟩
    | cons b bytes ih => exact ih _
  let u := s.seeEvents pid (ml.bytes.flatMap (s.ownUpdate (s.realThread pid)))
  have h := hregister (u.seeEvents pid
    (ml.bytes.flatMap (u.storeSees (s.realThread pid)) ++ u.lastFullMemoryConflict))
  rw [threads_seeEvents, threads_seeEvents] at h
  exact h

/-- `conflicting` makes the current event one that may have conflicts. -/
theorem current_conflicting (hevents : s.events ≠ []) :
    s.conflicting.Conflicts s.conflicting.prefixIdx := by
  rw [prefixIdx_congr (t := s.conflicting) pids_conflicting]
  exact conflicts_conflicting hevents

theorem update_part {tipid : ℕ} (hpid : pid < s.threadCount) (hevents : s.events ≠ [])
    (hnumbered : s.Numbered) (howner : (s.threads pid).owner = some tipid)
    (hfronts : ∀ b ∈ ml.bytes, ∃ pst, ((s.threads tipid).storeBuffers.get b).head? = some pst ∧
      pst.ml = ml) (h : s.update pid tipid ml = some t) :
    Part s t pid (ml.bytes.map .w) (ml.bytes.flatMap fun b => [.update b, .read b]) := by
  rw [update] at h
  obtain ⟨pst, hpst, h⟩ := Option.bind_eq_some_iff.mp h
  cases h
  have hreal : s.realThread pid = tipid := by rw [realThread, howner, Option.getD_some]
  let u := s.conflicting.addClock pid pst.clock
  have hpidu : pid < u.threadCount := hpid
  have hclock : Part s.conflicting u pid [] [] := .addClock _ _ _
  have hconflicts : u.Conflicts u.prefixIdx := hclock.current (current_conflicting hevents)
  have hrowe : ∀ i, pst.lastRowe = some i → u.RoweOf i := by
    intro i hi
    obtain ⟨hhead, -⟩ := Option.filter_eq_some_iff.mp hpst
    exact ⟨tipid, ml.1.addr, pst, List.mem_of_head? hhead, hi⟩
  let v := u.performStore pid ml pst.lastRowe
  have hperform : Part u v pid _ _ := performStore_part hpidu hconflicts hrowe
  have hpidv := Nat.lt_of_lt_of_le hpidu hperform.threadCount
  have hrealv : v.realThread pid = tipid := (hperform.realThread hpidu).trans hreal
  have hthread : (v.threads tipid).storeBuffers = (u.threads tipid).storeBuffers ∧
      (v.threads tipid).owner = (u.threads tipid).owner ∧
      (v.threads tipid).auxs = (u.threads tipid).auxs := storeBuffers_performStore tipid
  have hpop : Part v (v.modifyThread tipid fun t => { t with
      storeBuffers := t.storeBuffers.popRange ml }) pid [] [] := by
    have hmodify : Part v (v.modifyThread (v.realThread pid) fun t => { t with
        auxs := (v.threads tipid).auxs
        storeBuffers := (v.threads tipid).storeBuffers.popRange ml }) pid [] [] := by
      refine .modifyBuffers ?_ ?_ ?_ ?_
      · intro b pst' hmem i hi
        refine .inl ⟨tipid, b, pst', ?_, hi⟩
        rw [ByteBuffers.get_popRange] at hmem
        split at hmem
        · exact List.mem_of_mem_tail hmem
        · exact hmem
      · rw [hrealv]
        intro pending hpending
        rw [hthread.1] at hpending ⊢
        obtain ⟨front, back, rfl, hfront⟩ := hpending.exists_front hfronts
        exact ⟨_, hpending.pop hfront⟩
      · rw [hrealv]
        intro _ pending hpending call hcall
        rw [hthread.1] at hpending hcall ⊢
        obtain ⟨front, back, rfl, hfront⟩ := hpending.exists_front hfronts
        exact hpending.ready_pop hfront hcall
      · intro _
        rw [hrealv, hthread.2.1]
        exact (hnumbered.owner pid tipid howner).2.1
    rw [hrealv] at hmodify
    exact hmodify
  have hsum : Part (v.modifyThread tipid fun t => { t with
      storeBuffers := t.storeBuffers.popRange ml }) { v.modifyThread tipid fun t => { t with
        storeBuffers := t.storeBuffers.popRange ml } with
      auxClockSum := Function.update v.auxClockSum tipid
        ((v.auxClockSum tipid).addAssign (v.clockOf v.prefixIdx)) } pid [] [] :=
    .of_eq rfl rfl rfl rfl rfl (fun _ hi => hi) (.of_clocks (fun _ => rfl) fun _ => rfl)
  have hend : Part v _ pid [] [] := hpop.trans hpidv hsum
  have hlast := hperform.trans hpidu hend
  rw [List.append_nil, List.append_nil] at hlast
  have hbegin : Part s u pid [] [] := (Part.conflicting s).trans hpid hclock
  exact hbegin.trans hpid hlast

theorem realStore_part (hpid : pid < s.threadCount) (hevents : s.events ≠ [])
    (h : s.realStore pid ml = some t) :
    Part s t pid (ml.bytes.map .w) (ml.bytes.flatMap fun b => [.update b, .read b]) := by
  rw [realStore, Option.ite_none_right_eq_some] at h
  cases h.2
  have hbegin : Part s s.conflicting pid [] [] := .conflicting s
  have hpidu : pid < s.conflicting.threadCount := hpid
  have hclocks : Part s.conflicting ((s.threads pid).auxs.foldl
      (fun u aux => u.addClock pid (u.threadClock aux.2)) s.conflicting) pid [] [] :=
    .foldl hpidu (fun u aux => .addClock u pid _) _
  have hboth := hbegin.trans hpid hclocks
  exact hboth.trans hpid (performStore_part (Nat.lt_of_lt_of_le hpid hboth.threadCount)
    (hclocks.current (current_conflicting hevents)) fun i hi => by cases hi)

theorem atomicStore_part (hpid : pid < s.threadCount) (hevents : s.events ≠ [])
    (hnumbered : s.Numbered) (hpermitted : s.permitted pid (.atomicStore ml) = true)
    (h : s.atomicStore pid ml = some t) :
    Part s t pid (ml.bytes.map .w) (ml.bytes.flatMap fun b => [.update b, .read b]) := by
  rw [atomicStore] at h
  cases howner : (s.threads pid).owner with
  | none =>
      rw [howner] at h
      exact realStore_part hpid hevents h
  | some tipid =>
      rw [howner] at h
      refine update_part hpid hevents hnumbered howner ?_ h
      rw [permitted, howner, Option.all_some, List.all_eq_true] at hpermitted
      intro b hb
      obtain ⟨pst, hpst, heq⟩ := (Option.any_eq_true _ _).mp (hpermitted b hb)
      exact ⟨pst, hpst, of_decide_eq_true heq⟩

/-! ### Loads -/

theorem memoryLoad_part (hpid : pid < s.threadCount) (hconflicts : s.Conflicts s.prefixIdx) :
    Part s (s.memoryLoad pid ml) pid (ml.bytes.map .r) (ml.bytes.map .read) := by
  have hfold : ∀ u : PsoRecorder, pid < u.threadCount → u.Conflicts u.prefixIdx →
      Part u (ml.bytes.foldl (readByte pid) u) pid (ml.bytes.map .r) (ml.bytes.map .read) := by
    intro u hpidu hconflictsu
    induction ml.bytes generalizing u with
    | nil => exact .refl u
    | cons b bytes ih =>
        have hwrite : Part u (u.writeByte b fun bi => { bi with
            lastRead := AssocList.insert bi.lastRead (u.threads pid).proc u.prefixIdx }) pid []
            [.read b] := by
          refine .writeByte (fun i hi => .inl hi) ?_
          intro i hi
          obtain ⟨e, he, rfl⟩ := List.mem_map.mp hi
          cases AssocList.mem_insert.mp he with
          | inl he =>
              rw [he]
              exact .inr ⟨List.mem_singleton_self _, .inr ⟨rfl, hconflictsu⟩⟩
          | inr he => exact .inl (List.mem_map_of_mem he.1)
        have hfirst : Part u (readByte pid u b) pid [.r b] [.read b] :=
          hwrite.trans hpidu (.wakeup _ pid (.r b))
        exact hfirst.trans hpidu (ih _ (Nat.lt_of_lt_of_le hpidu hfirst.threadCount)
          (hfirst.current hconflictsu))
  have hjoins := Part.seeEvents hpid (ml.bytes.flatMap (s.loadJoins pid ml))
  have hpidu := Nat.lt_of_lt_of_le hpid hjoins.threadCount
  let u := s.seeEvents pid (ml.bytes.flatMap (s.loadJoins pid ml))
  have hsees := Part.seeEvents hpidu
    (ml.bytes.flatMap (u.loadSees pid) ++ u.lastFullMemoryConflict)
  have hboth := hjoins.trans hpid hsees
  exact hboth.trans hpid (hfold _ (Nat.lt_of_lt_of_le hpid hboth.threadCount)
    (hboth.current hconflicts))

theorem mem_of_mem_modify {α : Type} {l : List α} {j : ℕ} {f : α → α} {x : α}
    (h : x ∈ l.modify j f) : x ∈ l ∨ ∃ y ∈ l, x = f y := by
  obtain ⟨k, hk⟩ := List.mem_iff_getElem?.mp h
  rw [List.getElem?_modify, Option.map_eq_map, Option.map_eq_some_iff] at hk
  obtain ⟨y, hy, rfl⟩ := hk
  have hmem := List.mem_of_getElem? hy
  split
  · exact .inr ⟨y, hmem, rfl⟩
  · exact .inl hmem

theorem markRowe_part (howner : (s.threads pid).owner = none)
    (hconflicts : s.Conflicts s.prefixIdx) : Part s (s.markRowe pid b) pid [] [] := by
  have hreal : s.realThread pid = pid := by rw [realThread, howner, Option.getD_none]
  let buffers := (s.threads pid).storeBuffers
  have hmodify : Part s (s.modifyThread (s.realThread pid) fun t => { t with
      auxs := (s.threads pid).auxs
      storeBuffers := { buffers with
        get := Function.update buffers.get b ((buffers.get b).modify ((buffers.get b).length - 1)
          fun pst => { pst with lastRowe := some s.prefixIdx }) } }) pid [] [] := by
    refine .modifyBuffers ?_ ?_ ?_ ?_
    · intro c pst hpst i hi
      by_cases hc : c = b
      · subst hc
        dsimp only at hpst
        rw [Function.update_self] at hpst
        cases mem_of_mem_modify hpst with
        | inl hpst => exact .inl ⟨pid, c, pst, hpst, hi⟩
        | inr hpst =>
            obtain ⟨old, -, rfl⟩ := hpst
            have hi' := (Option.some.inj hi).symm
            exact .inr ⟨hi', hi' ▸ hconflicts⟩
      · dsimp only at hpst
        rw [Function.update_of_ne hc] at hpst
        exact .inl ⟨pid, c, pst, hpst, hi⟩
    · rw [hreal]
      intro pending hpending
      exact ⟨pending, hpending.modify fun _ => rfl⟩
    · rw [hreal]
      exact fun hne => absurd rfl hne
    · rw [hreal]
      exact fun _ => howner
  rw [hreal] at hmodify
  exact hmodify

theorem load_part (hpid : pid < s.threadCount) (hevents : s.events ≠ [])
    (howner : (s.threads pid).owner = none) (h : s.load pid ml = some t) :
    Part s t pid (callWakeups s pid (.load ml)) (callWrites s pid (.load ml)) := by
  have hpidu : pid < s.conflicting.threadCount := hpid
  have hconflicts := current_conflicting hevents
  rw [load] at h
  rw [callWakeups, callWrites]
  split at h
  · rename_i hpending
    rw [if_pos hpending, if_pos hpending]
    rw [Option.ite_none_right_eq_some] at h
    cases h.2
    exact (Part.conflicting s).trans hpid (markRowe_part (s := s.conflicting) howner hconflicts)
  · rename_i hpending
    rw [if_neg hpending, if_neg hpending]
    cases h
    exact (Part.conflicting s).trans hpid (memoryLoad_part hpidu hconflicts)

theorem not_hasPendingStore (h : (s.threads pid).storeBuffers.keys = []) :
    s.hasPendingStore pid b = false := by
  simp [hasPendingStore, h]

theorem atomicRmw_part (hpid : pid < s.threadCount) (hevents : s.events ≠ [])
    (howner : (s.threads pid).owner = none) (hkeys : (s.threads pid).storeBuffers.keys = [])
    (h : s.atomicRmw pid ml = some t) :
    Part s t pid (callWakeups s pid (.atomicRmw ml)) (callWrites s pid (.atomicRmw ml)) := by
  rw [atomicRmw] at h
  obtain ⟨u, hu, h⟩ := Option.bind_eq_some_iff.mp h
  have hload := load_part hpid hevents howner hu
  rw [callWakeups, callWrites, not_hasPendingStore hkeys] at hload
  rw [atomicStore, hload.owner pid hpid, howner] at h
  exact hload.trans hpid (realStore_part (Nat.lt_of_lt_of_le hpid hload.threadCount)
    (events_ne_nil hload.pids hevents) h)

theorem fullMemoryConflict_part (hpid : pid < s.threadCount) (hevents : s.events ≠ []) :
    Part s (s.fullMemoryConflict pid) pid [.wAllMemory] [.full] := by
  have hpidu : pid < s.conflicting.threadCount := hpid
  have hsees := Part.seeEvents hpidu s.fullMemorySees
  have hbegin := (Part.conflicting s).trans hpid hsees
  have hpidv := Nat.lt_of_lt_of_le hpid hbegin.threadCount
  have hwake := hbegin.trans hpid (.wakeup _ pid .wAllMemory)
  let v := (s.conflicting.seeEvents pid s.fullMemorySees).wakeup pid .wAllMemory
  have hconflicts : v.Conflicts v.prefixIdx :=
    (Part.wakeup _ pid .wAllMemory).current (hsees.current (current_conflicting hevents))
  have hidx : v.prefixIdx = s.prefixIdx := prefixIdx_congr hwake.pids
  refine hwake.trans hpid (Part.of_accesses (s := v)
    { v.accesses with lastFullMemoryConflict := some s.prefixIdx, mem := [] } ?_ ?_)
  · intro i loc hi
    cases loc with
    | update | read =>
        obtain ⟨info, hmem, -⟩ := hi
        exact absurd hmem List.not_mem_nil
    | full =>
        have hi' := (Option.some.inj hi).symm
        rw [← hidx] at hi'
        exact .inr ⟨List.mem_singleton_self _, .inr ⟨hi', hi' ▸ hconflicts⟩⟩
    | mutex | signal | waiters => exact .inl hi
  · exact fun p m _ hm => hm

theorem join_part {tgtProc : ℕ} (h : s.join pid tgtProc = some t) : Part s t pid [] [] := by
  rw [join] at h
  obtain ⟨tgt, -, h⟩ := Option.bind_eq_some_iff.mp h
  cases h
  refine .of_eq (pids_modifyCurnode (s := s) fun _ => rfl) rfl rfl rfl rfl
    (fun _ hi => hi.modifyCurnode fun _ h => h) ?_
  refine .modifyCurnode_addThreadClock (fun _ => rfl) (fun d => VClock.leq_trans
    (VClock.leq_addAssign_left d (s.threadClock tgt)) (VClock.leq_addAssign_left ..)) ?_
  intro hevents _
  rw [prefixIdx_modifyCurnode, clockOf_modifyCurnode (g := fun d => (d.addAssign (s.threadClock tgt)).addAssign
      (s.auxClockSum tgt)) (fun _ => rfl) hevents]
  exact VClock.leq_addAssign_right ..

/-- What a call by an event does. -/
theorem exec_part {call : PsoCall} (hpid : pid < s.threadCount) (hevents : s.events ≠ [])
    (hnumbered : s.Numbered) (hpermitted : s.permitted pid call = true)
    (h : s.exec pid call = some t) :
    Part s t pid (callWakeups s pid call) (callWrites s pid call) := by
  cases call with
  | spawn =>
      cases h
      exact spawn_part hpid pid
  | store ml =>
      cases h
      exact store_part hpid (Option.isNone_iff_eq_none.mp hpermitted)
  | atomicStore ml => exact atomicStore_part hpid hevents hnumbered hpermitted h
  | compareExchange ml success =>
      rw [permitted, Bool.and_eq_true, Option.isNone_iff_eq_none] at hpermitted
      rw [exec, compareExchange] at h
      cases success with
      | true =>
          rw [if_pos rfl, atomicStore, hpermitted.1] at h
          exact realStore_part hpid hevents h
      | false => exact load_part hpid hevents hpermitted.1 h
  | atomicRmw ml =>
      rw [permitted, Bool.and_eq_true, Option.isNone_iff_eq_none, allBuffersEmpty,
        List.isEmpty_iff] at hpermitted
      exact atomicRmw_part hpid hevents hpermitted.1 hpermitted.2 h
  | load ml =>
      rw [permitted, Bool.and_eq_true, Option.isNone_iff_eq_none] at hpermitted
      exact load_part hpid hevents hpermitted.1 h
  | fullMemoryConflict =>
      cases h
      exact fullMemoryConflict_part hpid hevents
  | fence => exact fence_part h
  | join tgtProc => exact join_part h
  | mutexLock m => exact mutexLock_part hpid hevents h
  | mutexUnlock m => exact mutexUnlock_part hpid hevents h
  | mutexTrylock m => exact mutexTrylock_part hpid hevents h
  | mutexInit m => exact mutexInit_part hpid hevents h
  | mutexDestroy m => exact mutexDestroy_part hpid hevents h
  | condInit c => exact condInit_part hpid hevents h
  | condSignal c => exact condSignal_part hpid hevents h
  | condBroadcast c => exact condBroadcast_part hpid hevents h
  | condWait c m => exact condWait_part hpid hevents h
  | condAwake c m => exact mutexLock_part hpid hevents h
  | condDestroy c => exact condDestroy_part hpid hevents h
  | registerAlternatives altCount =>
      cases h
      exact .conflicting s

end Nidhugg.PsoRecorder
