import Nidhugg.Verification.PsoExploration.Races

/-! # Calls with branches

The recorder notices of every call what it would notice without branches. -/

namespace Nidhugg.PsoExploration

open PsoRecorder PsoPrefix PsoHistory

variable {s : PsoRecorder} {t u : PsoExploration} {pid tipid i : ℕ} {seen : List ℕ}
  {ml : AccessRange} {c m : SymAddr}

/-! ### Mutexes -/

/-- The recorder notices what it would notice without branches. -/
structure Simulates (s : PsoRecorder) (u : PsoExploration) (result : Option PsoRecorder) :
    Prop where
  branching : Branching u
  headers : u.recorder.headers = s.headers
  recorder : result = some u.recorder

/-- A call that ends with seeing events. -/
theorem Calling.seesLast (h : Calling s pid t)
    (hseen : ∀ i ∈ seen, i < t.recorder.events.length) :
    Simulates s (t.seeEvents pid seen) (some (t.recorder.seeEvents pid seen)) where
  branching := (h.seeEvents hseen).toBranching
  headers := (h.seeEvents hseen).headers
  recorder := congrArg some recorder_seeEvents.symm

theorem Calling.fence (h : Calling s pid t) (hfence : t.record? (·.fence pid) = some u) :
    Calling s pid u ∧ t.recorder.fence pid = some u.recorder := by
  obtain ⟨v, hv, rfl⟩ := Option.map_eq_some_iff.mp hfence
  exact ⟨h.record (f := fun _ => v) (fence_part hv) (headers_fence hv), hv⟩

theorem Calling.conflictingAccess (h : Calling s pid t) (a : PsoAccess) :
    Calling s pid (t.conflictingAccess pid a) :=
  h.record (opening h.current_lt h.events a).1 headers_opening

/-- The events that an operation on a mutex sees. -/
theorem Calling.lt_of_mutexSees (h : Calling s pid t)
    (hi : i ∈ t.recorder.mutexSees ((t.recorder.mutex? m).getD .new)) :
    i < t.recorder.events.length := by
  obtain ⟨loc, hrecorded, -⟩ := mem_mutexSees hi
  exact (h.sound.noted i (.inl ⟨loc, hrecorded⟩)).lt

theorem Calling.lt_of_full (h : Calling s pid t) (hi : i ∈ t.recorder.lastFullMemoryConflict) :
    i < t.recorder.events.length :=
  (h.sound.noted i (.inl ⟨.full, recordedAt_full hi⟩)).lt

/-- The middle of the operations on a mutex that exists. -/
theorem Calling.mutexAccess (h : Calling s pid t) {mutex : PsoMutex}
    (hmutex : t.recorder.mutex? m = some mutex) (a : PsoAccess) :
    Calling s pid ((t.conflictingAccess pid a).seeEvents pid
      ((t.conflictingAccess pid a).recorder.mutexSees mutex)) := by
  have hopen := h.conflictingAccess a
  refine hopen.seeEvents ?_
  intro i hi
  refine hopen.lt_of_mutexSees (m := m) ?_
  have hsame : (t.conflictingAccess pid a).recorder.mutex? m = some mutex := hmutex
  rwa [hsame, Option.getD_some]

theorem mutexUnlock_simulates (h : Calling s pid t) (hunlock : t.mutexUnlock pid m = some u) :
    Simulates s u (t.recorder.mutexUnlock pid m) := by
  rw [PsoExploration.mutexUnlock] at hunlock
  obtain ⟨v, hv, hunlock⟩ := Option.bind_eq_some_iff.mp hunlock
  obtain ⟨mutex, hmutex, hunlock⟩ := Option.bind_eq_some_iff.mp hunlock
  obtain ⟨i, hi, hunlock⟩ := Option.bind_eq_some_iff.mp hunlock
  cases hunlock
  obtain ⟨hcalling, hfence⟩ := h.fence hv
  have hend := (hcalling.mutexAccess hmutex (.w m)).finish
    (f := fun s => s.setMutex m { mutex with lastAccess := some s.prefixIdx, locked := false }) rfl
  refine ⟨hend.1, hend.2, ?_⟩
  rw [PsoRecorder.mutexUnlock, hfence]
  simp only [Option.bind_eq_bind, Option.bind_some, hmutex, hi, PsoExploration.record,
    recorder_seeEvents]
  rfl

theorem mutexTrylock_simulates (h : Calling s pid t) (htrylock : t.mutexTrylock pid m = some u) :
    Simulates s u (t.recorder.mutexTrylock pid m) := by
  rw [PsoExploration.mutexTrylock] at htrylock
  obtain ⟨v, hv, htrylock⟩ := Option.bind_eq_some_iff.mp htrylock
  obtain ⟨mutex, hmutex, htrylock⟩ := Option.bind_eq_some_iff.mp htrylock
  cases htrylock
  obtain ⟨hcalling, hfence⟩ := h.fence hv
  have hend := (hcalling.mutexAccess hmutex (.w m)).finish (f := fun s => s.setMutex m
    { lastAccess := some s.prefixIdx
      lastLock := if mutex.locked then mutex.lastLock else some s.prefixIdx
      locked := true }) rfl
  refine ⟨hend.1, hend.2, ?_⟩
  rw [PsoRecorder.mutexTrylock, hfence]
  simp only [Option.bind_eq_bind, Option.bind_some, hmutex, PsoExploration.record,
    recorder_seeEvents]
  rfl

theorem mutexDestroy_simulates (h : Calling s pid t) (hdestroy : t.mutexDestroy pid m = some u) :
    Simulates s u (t.recorder.mutexDestroy pid m) := by
  rw [PsoExploration.mutexDestroy] at hdestroy
  obtain ⟨v, hv, hdestroy⟩ := Option.bind_eq_some_iff.mp hdestroy
  obtain ⟨mutex, hmutex, hdestroy⟩ := Option.bind_eq_some_iff.mp hdestroy
  cases hdestroy
  obtain ⟨hcalling, hfence⟩ := h.fence hv
  have hend := (hcalling.mutexAccess hmutex (.w m)).finish
    (f := fun s => { s with accesses.mutexes := AssocList.erase s.accesses.mutexes m }) rfl
  refine ⟨hend.1, hend.2, ?_⟩
  rw [PsoRecorder.mutexDestroy, hfence]
  simp only [Option.bind_eq_bind, Option.bind_some, hmutex, PsoExploration.record,
    recorder_seeEvents]
  rfl

theorem mutexInit_simulates (h : Calling s pid t) (hinit : t.mutexInit pid m = some u) :
    Simulates s u (t.recorder.mutexInit pid m) := by
  rw [PsoExploration.mutexInit] at hinit
  obtain ⟨v, hv, hinit⟩ := Option.bind_eq_some_iff.mp hinit
  cases hinit
  obtain ⟨hcalling, hfence⟩ := h.fence hv
  have hopen : Calling s pid (v.record conflicting) :=
    hcalling.record (.conflicting v.recorder) headers_conflicting
  let mutex := ((v.record conflicting).recorder.mutex? m).getD .new
  have hend := (hopen.seeEvents fun i hi => hopen.lt_of_mutexSees (m := m) hi).finish
    (f := fun s => s.setMutex m { mutex with lastAccess := some s.prefixIdx }) rfl
  refine ⟨hend.1, hend.2, ?_⟩
  rw [PsoRecorder.mutexInit, hfence]
  simp only [Option.bind_eq_bind, Option.bind_some, PsoExploration.record, recorder_seeEvents]
  rfl

theorem Calling.lt_of_lastLock (h : Calling s pid t)
    (hi : ((t.recorder.mutex? m).getD .new).lastLock = some i) : i < t.recorder.events.length :=
  (h.sound.noted i (.inl ⟨.mutex m, recordedAt_mutex (.inr hi)⟩)).lt

theorem Calling.seeLocks (h : Calling s pid t) :
    Calling s pid (t.seeLocks pid ((t.recorder.mutex? m).getD .new)) := by
  rw [PsoExploration.seeLocks]
  cases hlast : ((t.recorder.mutex? m).getD .new).lastLock with
  | none => exact h.seeEvents fun i hi => h.lt_of_mutexSees (m := m) hi
  | some i =>
      have hconflict := h.conflictWith (h.lt_of_lastLock hlast)
      have hsees := hconflict.record
        (f := (·.seeEvents pid ((t.recorder.mutex? m).getD .new).lastAccess.toList))
        (.seeEvents hconflict.current_lt _) (headers_seeEvents _)
      refine hsees.seeEvents ?_
      intro k hk
      rw [← length_headers, hsees.headers, ← h.headers, length_headers]
      exact h.lt_of_full hk

theorem recorder_seeLocks (mutex : PsoMutex) : (t.seeLocks pid mutex).recorder =
    match mutex.lastLock with
    | none => t.recorder.seeEvents pid (t.recorder.mutexSees mutex)
    | some _ => (t.recorder.seeEvents pid mutex.lastAccess.toList).seeEvents pid
        t.recorder.lastFullMemoryConflict := by
  rw [PsoExploration.seeLocks]
  cases mutex.lastLock with
  | none => exact recorder_seeEvents
  | some i =>
      dsimp only
      rw [recorder_seeEvents, PsoExploration.record, recorder_conflictWith]

theorem mutexLock_simulates (h : Calling s pid t) (hlock : t.mutexLock pid m = some u) :
    Simulates s u (t.recorder.mutexLock pid m) := by
  rw [PsoExploration.mutexLock] at hlock
  obtain ⟨v, hv, hlock⟩ := Option.bind_eq_some_iff.mp hlock
  cases hlock
  obtain ⟨hcalling, hfence⟩ := h.fence hv
  have hend := ((hcalling.conflictingAccess (.w m)).seeLocks (m := m)).finish
    (f := fun s => s.setMutex m ⟨some s.prefixIdx, some s.prefixIdx, true⟩) rfl
  refine ⟨hend.1, hend.2, ?_⟩
  rw [PsoRecorder.mutexLock, hfence]
  simp only [Option.bind_eq_bind, Option.bind_some, PsoExploration.record, recorder_seeLocks]
  rfl

/-- A thread that does not get a lock leaves the recorder alone. -/
theorem Calling.mutexLockFail (h : Calling s pid t) (hfail : t.mutexLockFail m = some u) :
    Calling s pid u ∧ u.recorder = t.recorder := by
  rw [PsoExploration.mutexLockFail] at hfail
  obtain ⟨mutex, hmutex, hfail⟩ := Option.bind_eq_some_iff.mp hfail
  obtain ⟨i, hi, hfail⟩ := Option.bind_eq_some_iff.mp hfail
  cases hfail
  have hlt : i < t.recorder.events.length := by
    refine h.lt_of_lastLock (m := m) ?_
    rwa [hmutex, Option.getD_some]
  refine ⟨(h.conflictWith hlt).foldl_conflictWith ?_, ?_⟩
  · intro k hk
    rw [recorder_conflictWith]
    exact h.lt_of_full hk
  · rw [recorder_foldl_conflictWith, recorder_conflictWith]

/-! ### Condition variables -/

theorem Calling.lt_of_waiters (h : Calling s pid t) {condVar : PsoCondVar}
    (hcond : t.recorder.condVar? c = some condVar) (hi : i ∈ condVar.waiters) :
    i < t.recorder.events.length :=
  (h.sound.noted i (.inl ⟨.waiters c, recordedAt_waiters hcond hi⟩)).lt

theorem Calling.lt_of_signal (h : Calling s pid t) {condVar : PsoCondVar}
    (hcond : t.recorder.condVar? c = some condVar) (hi : i ∈ condVar.lastSignal.toList) :
    i < t.recorder.events.length :=
  (h.sound.noted i (.inl ⟨.signal c, recordedAt_signal hcond (Option.mem_toList.mp hi)⟩)).lt

theorem condInit_simulates (h : Calling s pid t) (hinit : t.condInit pid c = some u) :
    Simulates s u (t.recorder.condInit pid c) := by
  rw [PsoExploration.condInit] at hinit
  obtain ⟨v, hv, hinit⟩ := Option.bind_eq_some_iff.mp hinit
  obtain ⟨hcalling, hfence⟩ := h.fence hv
  rw [PsoRecorder.condInit, hfence]
  simp only [Option.bind_eq_bind, Option.bind_some]
  cases hcond : v.recorder.condVar? c with
  | some condVar =>
      rw [hcond] at hinit
      cases hinit
      exact ⟨hcalling.toBranching, hcalling.headers, rfl⟩
  | none =>
      rw [hcond] at hinit
      cases hinit
      have hpart : Part v.recorder.conflicting
          (v.recorder.conflicting.setCondVar c ⟨some v.recorder.prefixIdx, []⟩) pid []
            [.signal c] := by
        refine .setCondVar ?_ fun j hj => absurd hj List.not_mem_nil
        intro j hj
        have hidx : v.recorder.conflicting.prefixIdx = v.recorder.prefixIdx :=
          prefixIdx_congr pids_conflicting
        refine .inr ⟨List.mem_singleton_self _, ?_⟩
        rw [hidx, ← Option.some.inj hj]
        exact ⟨rfl, conflicts_conflicting hcalling.events⟩
      have hset := hcalling.record (f := fun s => s.conflicting.setCondVar c ⟨some s.prefixIdx, []⟩)
        ((Part.conflicting v.recorder).trans hcalling.current_lt hpart) headers_conflicting
      exact hset.seesLast fun i hi => hset.lt_of_full hi

/-- A signal leaves only waiters that were there before. -/
theorem Calling.signal {f : PsoRecorder → PsoRecorder} {condVar : PsoCondVar}
    (h : Calling s pid t) (waiters : List ℕ) (hpart : Part t.recorder (f t.recorder) pid [] [])
    (hheaders : (f t.recorder).headers = t.recorder.headers)
    (hconflicts : t.recorder.Conflicts t.recorder.prefixIdx)
    (hcond : (f t.recorder).condVar? c = some condVar)
    (hwaiters : ∀ j ∈ waiters, j ∈ condVar.waiters) : Calling s pid
      (t.record fun s => (f s).setCondVar c ⟨some s.prefixIdx, waiters⟩) := by
  have hset : Part (f t.recorder)
      (((f t.recorder).setCondVar c ⟨some t.recorder.prefixIdx, waiters⟩).seeEvents pid []) pid []
        [.signal c] :=
    signal_part (Nat.lt_of_lt_of_le h.current_lt hpart.threadCount)
      (prefixIdx_congr hpart.pids).symm (hpart.current hconflicts) hcond hwaiters
  exact h.record (f := fun s => (f s).setCondVar c ⟨some s.prefixIdx, waiters⟩)
    (hpart.trans h.current_lt hset) hheaders

theorem signalWaiter_simulates {condVar : PsoCondVar} {alt : ℕ} (h : Calling s pid t)
    (hconflicts : t.recorder.Conflicts t.recorder.prefixIdx)
    (hcond : t.recorder.condVar? c = some condVar)
    (hsignal : t.signalWaiter pid c condVar alt = some u) :
    Simulates s u (t.recorder.signalWaiter pid c condVar alt) := by
  rw [PsoExploration.signalWaiter] at hsignal
  rw [PsoRecorder.signalWaiter]
  cases hwaiter : condVar.waiters[alt]? with
  | some i =>
      rw [hwaiter] at hsignal
      cases hsignal
      have hset := h.signal (f := fun s => s.wakeWaiter i) (condVar.waiters.eraseIdx alt)
        (wakeWaiter_part _ i) rfl hconflicts hcond fun k hk => List.mem_of_mem_eraseIdx hk
      refine hset.seesLast ?_
      intro k hk
      cases List.mem_append.mp hk with
      | inl hk => exact hset.lt_of_full hk
      | inr hk =>
          rw [List.mem_singleton.mp hk]
          exact h.lt_of_waiters hcond (List.mem_of_getElem? hwaiter)
  | none =>
      rw [hwaiter, Option.ite_none_right_eq_some] at hsignal
      obtain ⟨hempty, hsignal⟩ := hsignal
      cases hsignal
      have hset := h.signal (f := id) [] (.refl _) rfl hconflicts hcond
        fun k hk => absurd hk List.not_mem_nil
      dsimp only
      rw [if_pos hempty]
      exact hset.seesLast fun k hk => hset.lt_of_full hk

theorem Calling.insertAlternatives (h : Calling s pid t) (altCount : ℕ) :
    Calling s pid (t.insertAlternatives altCount) := by
  have hsame : (t.insertAlternatives altCount).recorder = t.recorder :=
    recorder_insertAlternatives altCount
  refine ⟨h.toBranching.insertAlternatives altCount, ?_, ?_, ?_, ?_, ?_, ?_⟩ <;> rw [hsame]
  · exact h.sound
  · exact h.program
  · exact h.indexed
  · exact h.current
  · exact h.events
  · exact h.headers

theorem Calling.conflicts (h : Calling s pid t) (a : PsoAccess) :
    (t.conflictingAccess pid a).recorder.Conflicts (t.conflictingAccess pid a).recorder.prefixIdx :=
  (opening h.current_lt h.events a).2

/-- What remains of a signal once the current event has conflicts. -/
theorem signal_simulates (h : Calling s pid t)
    (hconflicts : t.recorder.Conflicts t.recorder.prefixIdx)
    (hsignal : (match t.recorder.condVar? c with
      | none => some t
      | some condVar =>
          let t := if 1 < condVar.waiters.length then t.insertAlternatives condVar.waiters.length
            else t
          t.signalWaiter pid c condVar t.recorder.curAlt) = some u) :
    Simulates s u (match t.recorder.condVar? c with
      | none => some t.recorder
      | some condVar => t.recorder.signalWaiter pid c condVar t.recorder.curAlt) := by
  cases hcond : t.recorder.condVar? c with
  | none =>
      rw [hcond] at hsignal
      cases hsignal
      exact ⟨h.toBranching, h.headers, rfl⟩
  | some condVar =>
      rw [hcond] at hsignal
      dsimp only at hsignal ⊢
      split at hsignal
      · have hsame : (t.insertAlternatives condVar.waiters.length).recorder = t.recorder :=
          recorder_insertAlternatives _
        have hsim := signalWaiter_simulates (h.insertAlternatives condVar.waiters.length)
          (by rwa [hsame]) (by rwa [hsame]) hsignal
        rwa [hsame] at hsim
      · exact signalWaiter_simulates h hconflicts hcond hsignal

theorem condSignal_simulates (h : Calling s pid t) (hsignal : t.condSignal pid c = some u) :
    Simulates s u (t.recorder.condSignal pid c) := by
  rw [PsoExploration.condSignal] at hsignal
  obtain ⟨v, hv, hsignal⟩ := Option.bind_eq_some_iff.mp hsignal
  obtain ⟨hcalling, hfence⟩ := h.fence hv
  rw [PsoRecorder.condSignal, hfence]
  exact signal_simulates (hcalling.conflictingAccess (.w c)) (hcalling.conflicts (.w c)) hsignal

theorem broadcast_simulates (h : Calling s pid t)
    (hconflicts : t.recorder.Conflicts t.recorder.prefixIdx)
    (hbroadcast : (match t.recorder.condVar? c with
      | none => some t
      | some condVar =>
          let t := t.record fun s =>
            (condVar.waiters.foldl wakeWaiter s).setCondVar c ⟨some s.prefixIdx, []⟩
          some (t.seeEvents pid (t.recorder.lastFullMemoryConflict ++ condVar.waiters))) = some u) :
    Simulates s u (match t.recorder.condVar? c with
      | none => some t.recorder
      | some condVar =>
          let s := (condVar.waiters.foldl wakeWaiter t.recorder).setCondVar c
            ⟨some t.recorder.prefixIdx, []⟩
          some (s.seeEvents pid (s.lastFullMemoryConflict ++ condVar.waiters))) := by
  cases hcond : t.recorder.condVar? c with
  | none =>
      rw [hcond] at hbroadcast
      cases hbroadcast
      exact ⟨h.toBranching, h.headers, rfl⟩
  | some condVar =>
      rw [hcond] at hbroadcast
      cases hbroadcast
      have hset := h.signal (f := fun s => condVar.waiters.foldl wakeWaiter s) []
        (Part.foldl h.current_lt (fun u i => wakeWaiter_part u i) condVar.waiters)
        (headers_foldl (f := wakeWaiter) (fun _ _ => rfl) condVar.waiters) hconflicts
        ((condVar?_foldl_wakeWaiter _).trans hcond) fun k hk => absurd hk List.not_mem_nil
      refine hset.seesLast ?_
      intro k hk
      cases List.mem_append.mp hk with
      | inl hk => exact hset.lt_of_full hk
      | inr hk =>
          rw [← length_headers, hset.headers, ← h.headers, length_headers]
          exact h.lt_of_waiters hcond hk

theorem condBroadcast_simulates (h : Calling s pid t)
    (hbroadcast : t.condBroadcast pid c = some u) :
    Simulates s u (t.recorder.condBroadcast pid c) := by
  rw [PsoExploration.condBroadcast] at hbroadcast
  obtain ⟨v, hv, hbroadcast⟩ := Option.bind_eq_some_iff.mp hbroadcast
  obtain ⟨hcalling, hfence⟩ := h.fence hv
  rw [PsoRecorder.condBroadcast, hfence]
  exact broadcast_simulates (hcalling.conflictingAccess (.w c)) (hcalling.conflicts (.w c))
    hbroadcast

theorem waits_simulates (h : Calling s pid t)
    (hconflicts : t.recorder.Conflicts t.recorder.prefixIdx)
    (hwaits : (match t.recorder.condVar? c with
      | none => some t
      | some condVar =>
          let t := t.record fun s =>
            s.setCondVar c { condVar with waiters := condVar.waiters ++ [s.prefixIdx] }
          some (t.seeEvents pid (t.recorder.lastFullMemoryConflict ++
            condVar.lastSignal.toList))) = some u) :
    Simulates s u (match t.recorder.condVar? c with
      | none => some t.recorder
      | some condVar =>
          let s := t.recorder.setCondVar c
            { condVar with waiters := condVar.waiters ++ [t.recorder.prefixIdx] }
          some (s.seeEvents pid (s.lastFullMemoryConflict ++ condVar.lastSignal.toList))) := by
  cases hcond : t.recorder.condVar? c with
  | none =>
      rw [hcond] at hwaits
      cases hwaits
      exact ⟨h.toBranching, h.headers, rfl⟩
  | some condVar =>
      rw [hcond] at hwaits
      cases hwaits
      have hpart : Part t.recorder (t.recorder.setCondVar c
          { condVar with waiters := condVar.waiters ++ [t.recorder.prefixIdx] }) pid []
            [.waiters c] := by
        refine .setCondVar (fun j hj => .inl (recordedAt_signal hcond hj)) ?_
        intro j hj
        cases List.mem_append.mp hj with
        | inl hj => exact .inl (recordedAt_waiters hcond hj)
        | inr hj =>
            rw [List.mem_singleton.mp hj]
            exact .inr ⟨List.mem_singleton_self _, rfl, hconflicts⟩
      have hset := h.record (f := fun s => s.setCondVar c
        { condVar with waiters := condVar.waiters ++ [s.prefixIdx] }) hpart rfl
      refine hset.seesLast ?_
      intro k hk
      cases List.mem_append.mp hk with
      | inl hk => exact hset.lt_of_full hk
      | inr hk => exact h.lt_of_signal hcond hk

theorem waitFor_simulates (h : Calling s pid t) (hwait : t.waitFor pid c = some u) :
    Simulates s u (t.recorder.waitFor pid c) := by
  rw [PsoExploration.waitFor] at hwait
  obtain ⟨v, hv, hwait⟩ := Option.bind_eq_some_iff.mp hwait
  obtain ⟨hcalling, hfence⟩ := h.fence hv
  rw [PsoRecorder.waitFor, hfence]
  exact waits_simulates (hcalling.conflictingAccess (.r c)) (hcalling.conflicts (.r c)) hwait

theorem condWait_simulates (h : Calling s pid t) (hwait : t.condWait pid c m = some u) :
    Simulates s u (t.recorder.condWait pid c m) := by
  rw [PsoExploration.condWait] at hwait
  rw [PsoRecorder.condWait]
  split at hwait
  · rename_i haccepts
    rw [if_pos haccepts]
    obtain ⟨v, hunlock, hwait⟩ := Option.bind_eq_some_iff.mp hwait
    have hsim := mutexUnlock_simulates h hunlock
    have hpart := mutexUnlock_part h.current_lt h.events hsim.recorder
    have hcalling := h.of_part hsim.branching hpart (hsim.headers.trans h.headers.symm)
    rw [hsim.recorder, Option.bind_some]
    exact waitFor_simulates hcalling hwait
  · rename_i haccepts
    rw [if_neg haccepts]
    cases hwait
    exact ⟨h.toBranching, h.headers, rfl⟩

theorem destroy_simulates (h : Calling s pid t)
    (hdestroy : (match t.recorder.condVar? c with
      | none => some t
      | some condVar =>
          let t := t.seeEvents pid
            (condVar.lastSignal.toList ++ t.recorder.lastFullMemoryConflict ++ condVar.waiters)
          some (t.record fun s =>
            { s with accesses.condVars := AssocList.erase s.accesses.condVars c })) = some u) :
    Simulates s u (match t.recorder.condVar? c with
      | none => some t.recorder
      | some condVar =>
          let s := t.recorder.seeEvents pid
            (condVar.lastSignal.toList ++ t.recorder.lastFullMemoryConflict ++ condVar.waiters)
          some { s with accesses.condVars := AssocList.erase s.accesses.condVars c }) := by
  cases hcond : t.recorder.condVar? c with
  | none =>
      rw [hcond] at hdestroy
      cases hdestroy
      exact ⟨h.toBranching, h.headers, rfl⟩
  | some condVar =>
      rw [hcond] at hdestroy
      cases hdestroy
      have hlt : ∀ k ∈ condVar.lastSignal.toList ++ t.recorder.lastFullMemoryConflict ++
          condVar.waiters, k < t.recorder.events.length := by
        intro k hk
        rw [List.mem_append, List.mem_append] at hk
        rcases hk with (hk | hk) | hk
        · exact h.lt_of_signal hcond hk
        · exact h.lt_of_full hk
        · exact h.lt_of_waiters hcond hk
      have hend := (h.seeEvents hlt).finish (f := fun s =>
        { s with accesses.condVars := AssocList.erase s.accesses.condVars c }) rfl
      refine ⟨hend.1, hend.2, ?_⟩
      rw [PsoExploration.record, recorder_seeEvents]

theorem condDestroy_simulates (h : Calling s pid t) (hdestroy : t.condDestroy pid c = some u) :
    Simulates s u (t.recorder.condDestroy pid c) := by
  rw [PsoExploration.condDestroy] at hdestroy
  obtain ⟨v, hv, hdestroy⟩ := Option.bind_eq_some_iff.mp hdestroy
  obtain ⟨hcalling, hfence⟩ := h.fence hv
  rw [PsoRecorder.condDestroy, hfence]
  exact destroy_simulates (hcalling.conflictingAccess (.w c)) hdestroy

/-! ### Stores and loads -/

theorem Calling.simulates (h : Calling s pid t) : Simulates s t (some t.recorder) :=
  ⟨h.toBranching, h.headers, rfl⟩

/-- Something more that only the recorder notices. -/
theorem Simulates.record {f : PsoRecorder → PsoRecorder} {result : Option PsoRecorder}
    (h : Simulates s t result) (hheaders : (f t.recorder).headers = t.recorder.headers) :
    Simulates s (t.record f) (some (f t.recorder)) :=
  ⟨h.branching.of_headers rfl rfl rfl hheaders, hheaders.trans h.headers, rfl⟩

theorem realThread_seeEvents {s : PsoRecorder} :
    (s.seeEvents pid seen).realThread tipid = s.realThread tipid := by
  rw [realThread, threads_seeEvents, realThread]

theorem performStore_simulates (h : Calling s pid t) (ml : AccessRange) (lastRowe : Option ℕ) :
    Simulates s (t.performStore pid ml lastRowe)
      (some (t.recorder.performStore pid ml lastRowe)) := by
  let u := t.record fun s => s.seeEvents pid
    (ml.bytes.flatMap (s.ownUpdate (t.recorder.realThread pid)))
  have hown : Calling s pid u := h.record (.seeEvents h.current_lt _) (headers_seeEvents _)
  have hlt : ∀ i ∈ ml.bytes.flatMap (u.recorder.storeSees (t.recorder.realThread pid)) ++
      u.recorder.lastFullMemoryConflict, i < u.recorder.events.length := by
    intro i hi
    have hreal : u.recorder.realThread pid = t.recorder.realThread pid := realThread_seeEvents
    rw [← hreal] at hi
    obtain ⟨loc, hrecorded, -⟩ := mem_rangeStoreSees hi
    exact (hown.sound.noted i (.inl ⟨loc, hrecorded⟩)).lt
  have hend := (hown.seesLast hlt).record (f := (·.registerStore pid ml lastRowe))
    headers_registerStore
  rwa [recorder_seeEvents] at hend

theorem update_simulates (h : Calling s pid t) (hupdate : t.update pid tipid ml = some u) :
    Simulates s u (t.recorder.update pid tipid ml) := by
  rw [PsoExploration.update] at hupdate
  obtain ⟨pst, hpst, hupdate⟩ := Option.bind_eq_some_iff.mp hupdate
  cases hupdate
  rw [PsoRecorder.update, hpst]
  have hclock := h.record (f := fun s => s.conflicting.addClock pid pst.clock)
    ((Part.conflicting t.recorder).trans h.current_lt (.addClock _ pid pst.clock))
    (headers_addClock.trans headers_conflicting)
  have hperform := performStore_simulates hclock ml pst.lastRowe
  have hsame := Option.some.inj hperform.recorder
  have hend := hperform.record (f := fun s =>
    let s := s.modifyThread tipid fun t => { t with storeBuffers := t.storeBuffers.popRange ml }
    let sum := (s.auxClockSum tipid).addAssign (s.clockOf s.prefixIdx)
    { s with auxClockSum := Function.update s.auxClockSum tipid sum }) rfl
  rw [← hsame] at hend
  exact hend

/-- The clocks of all auxiliary threads are added. -/
theorem Calling.addAuxClocks (h : Calling s pid t) : Calling s pid (t.record fun s =>
    (s.threads pid).auxs.foldl (fun s aux => s.addClock pid (s.threadClock aux.2))
      s.conflicting) := by
  have hbegin : Part t.recorder t.recorder.conflicting pid [] [] := .conflicting t.recorder
  have hlt : pid < t.recorder.conflicting.threadCount := h.current_lt
  have hclocks : Part t.recorder.conflicting ((t.recorder.threads pid).auxs.foldl
      (fun u aux => u.addClock pid (u.threadClock aux.2)) t.recorder.conflicting) pid [] [] :=
    .foldl hlt (fun u aux => .addClock u pid _) _
  have hpart := hbegin.trans h.current_lt hclocks
  have hheaders : ((t.recorder.threads pid).auxs.foldl
      (fun u aux => u.addClock pid (u.threadClock aux.2)) t.recorder.conflicting).headers =
        t.recorder.headers :=
    (headers_foldl (fun _ _ => headers_addClock) _).trans headers_conflicting
  exact h.record hpart hheaders

theorem realStore_simulates (h : Calling s pid t) (hstore : t.realStore pid ml = some u) :
    Simulates s u (t.recorder.realStore pid ml) := by
  rw [PsoExploration.realStore, Option.ite_none_right_eq_some] at hstore
  obtain ⟨hempty, hstore⟩ := hstore
  cases hstore
  rw [PsoRecorder.realStore, if_pos hempty]
  exact performStore_simulates h.addAuxClocks ml none

theorem atomicStore_simulates (h : Calling s pid t) (hstore : t.atomicStore pid ml = some u) :
    Simulates s u (t.recorder.atomicStore pid ml) := by
  rw [PsoExploration.atomicStore] at hstore
  rw [PsoRecorder.atomicStore]
  cases howner : (t.recorder.threads pid).owner with
  | none =>
      rw [howner] at hstore
      exact realStore_simulates h hstore
  | some tipid =>
      rw [howner] at hstore
      exact update_simulates h hstore

theorem memoryLoad_simulates (h : Calling s pid t) :
    Simulates s (t.memoryLoad pid ml) (some (t.recorder.memoryLoad pid ml)) := by
  let u := t.record fun s => s.seeEvents pid (ml.bytes.flatMap (s.loadJoins pid ml))
  have hjoins : Calling s pid u := h.record (.seeEvents h.current_lt _) (headers_seeEvents _)
  have hlt : ∀ i ∈ ml.bytes.flatMap (u.recorder.loadSees pid) ++ u.recorder.lastFullMemoryConflict,
      i < u.recorder.events.length := by
    intro i hi
    cases List.mem_append.mp hi with
    | inr hi => exact hjoins.lt_of_full hi
    | inl hi =>
        obtain ⟨b, -, hi⟩ := List.mem_flatMap.mp hi
        have hupdate := Option.mem_toList.mp (List.mem_filter.mp hi).1
        exact (hjoins.sound.noted i (.inl ⟨.update b, recordedAt_update hupdate⟩)).lt
  have hend := (hjoins.seesLast hlt).record (f := fun s => ml.bytes.foldl (readByte pid) s)
    (headers_foldl (fun _ b => headers_readByte b) _)
  rwa [recorder_seeEvents] at hend

theorem load_simulates (h : Calling s pid t) (hload : t.load pid ml = some u) :
    Simulates s u (t.recorder.load pid ml) := by
  rw [PsoExploration.load] at hload
  rw [PsoRecorder.load]
  split at hload
  · rename_i hpending
    rw [Option.ite_none_right_eq_some] at hload
    obtain ⟨hrange, hload⟩ := hload
    cases hload
    rw [if_pos hpending, if_pos hrange]
    exact h.simulates.record (f := fun s => s.conflicting.markRowe pid ml.1.addr)
      headers_conflicting
  · rename_i hpending
    cases hload
    rw [if_neg hpending]
    exact memoryLoad_simulates (h.record (.conflicting t.recorder) headers_conflicting)

theorem atomicRmw_simulates (h : Calling s pid t)
    (howner : (t.recorder.threads pid).owner = none) (hrmw : t.atomicRmw pid ml = some u) :
    Simulates s u (t.recorder.atomicRmw pid ml) := by
  rw [PsoExploration.atomicRmw] at hrmw
  obtain ⟨v, hload, hrmw⟩ := Option.bind_eq_some_iff.mp hrmw
  have hsim := load_simulates h hload
  have hpart := load_part h.current_lt h.events howner hsim.recorder
  have hcalling := h.of_part hsim.branching hpart (hsim.headers.trans h.headers.symm)
  rw [PsoRecorder.atomicRmw, hsim.recorder, Option.bind_some]
  exact atomicStore_simulates hcalling hrmw

theorem fullMemoryConflict_simulates (h : Calling s pid t) :
    Simulates s (t.fullMemoryConflict pid) (some (t.recorder.fullMemoryConflict pid)) := by
  have hopen := h.record (.conflicting t.recorder) headers_conflicting
  have hlt : ∀ i ∈ t.recorder.fullMemorySees,
      i < (t.record conflicting).recorder.events.length := by
    intro i hi
    obtain ⟨loc, hrecorded, -⟩ := mem_fullMemorySees hi
    rw [← length_headers, hopen.headers, ← h.headers, length_headers]
    exact (h.sound.noted i (.inl ⟨loc, hrecorded⟩)).lt
  have hend := (hopen.seesLast hlt).record (f := fun s => { s.wakeup pid .wAllMemory with
    accesses.lastFullMemoryConflict := some t.recorder.prefixIdx
    accesses.mem := [] }) headers_wakeup
  rw [recorder_seeEvents] at hend
  exact hend

/-! ### All calls -/

theorem headers_store {s : PsoRecorder} : (s.store pid ml).headers = s.headers := by
  rw [PsoRecorder.store, createAux]
  dsimp only
  split
  · rfl
  · rfl

theorem registerAlternatives_simulates (h : Branching t) (altCount : ℕ) :
    Branching (t.registerAlternatives altCount) ∧
      (t.registerAlternatives altCount).recorder = t.recorder.conflicting := by
  have hopen : Branching (t.record conflicting) := h.of_headers rfl rfl rfl headers_conflicting
  exact ⟨hopen.insertAlternatives altCount, recorder_insertAlternatives altCount⟩

theorem exec_simulates {call : PsoCall} (h : Calling s pid t)
    (hpermitted : t.recorder.permitted pid call = true) (hexec : t.exec pid call = some u) :
    Simulates s u (t.recorder.exec pid call) := by
  cases call with
  | spawn =>
      cases hexec
      exact h.simulates.record (f := (·.spawn pid)) rfl
  | store ml =>
      cases hexec
      exact h.simulates.record (f := (·.store pid ml)) headers_store
  | atomicStore ml => exact atomicStore_simulates h hexec
  | compareExchange ml success =>
      cases success with
      | true => exact atomicStore_simulates h hexec
      | false => exact load_simulates h hexec
  | atomicRmw ml =>
      rw [permitted, Bool.and_eq_true, Option.isNone_iff_eq_none] at hpermitted
      exact atomicRmw_simulates h hpermitted.1 hexec
  | load ml => exact load_simulates h hexec
  | fullMemoryConflict =>
      cases hexec
      exact fullMemoryConflict_simulates h
  | fence =>
      obtain ⟨hcalling, hfence⟩ := h.fence hexec
      exact ⟨hcalling.toBranching, hcalling.headers, hfence⟩
  | join tgtProc =>
      obtain ⟨v, hv, rfl⟩ := Option.map_eq_some_iff.mp hexec
      have hheaders : v.headers = t.recorder.headers := by
        change t.recorder.join pid tgtProc = some v at hv
        rw [PsoRecorder.join] at hv
        obtain ⟨tgt, -, hv⟩ := Option.bind_eq_some_iff.mp hv
        cases hv
        exact headers_modifyCurnode (s := t.recorder) fun _ => ⟨rfl, rfl⟩
      have hend := h.simulates.record (f := fun _ => v) hheaders
      exact ⟨hend.branching, hend.headers, hv⟩
  | mutexLock m | condAwake c m => exact mutexLock_simulates h hexec
  | mutexUnlock m => exact mutexUnlock_simulates h hexec
  | mutexTrylock m => exact mutexTrylock_simulates h hexec
  | mutexInit m => exact mutexInit_simulates h hexec
  | mutexDestroy m => exact mutexDestroy_simulates h hexec
  | condInit c => exact condInit_simulates h hexec
  | condSignal c => exact condSignal_simulates h hexec
  | condBroadcast c => exact condBroadcast_simulates h hexec
  | condWait c m => exact condWait_simulates h hexec
  | condDestroy c => exact condDestroy_simulates h hexec
  | registerAlternatives altCount =>
      cases hexec
      obtain ⟨hbranching, hsame⟩ := registerAlternatives_simulates h.toBranching altCount
      refine ⟨hbranching, ?_, congrArg some hsame.symm⟩
      rw [hsame]
      exact headers_conflicting.trans h.headers

end Nidhugg.PsoExploration
