import Nidhugg.Verification.PsoRecorder.Sleepers

/-! # Wakeups under PSO

Whenever an event executes, the sleeping threads whose next calls would see it are woken up, except
for events that initialise a mutex or a condition variable. -/

namespace Nidhugg.PsoSleepers

open PsoRecorder LabelledRun

variable {h k : PsoSleepers} {s t : PsoRecorder} {pid p i : ℕ} {e call : PsoCall} {turn : Turn}
  {c m : SymAddr} {loc : PsoLocation}

/-- Whether a call of a thread depends on earlier operations on a mutex. -/
def usesMutex (s : PsoRecorder) (p : ℕ) (m : SymAddr) : PsoCall → Bool
  | .mutexLock m' | .mutexUnlock m' | .mutexTrylock m' | .mutexInit m' | .mutexDestroy m'
  | .condAwake _ m' => m' = m
  | .condWait _ m' => m' = m && s.condWaitAccepts p m
  | .fullMemoryConflict => true
  | _ => false

/-- Whether a call of a thread depends on the initialisation of a condition variable. -/
def usesCondVar (s : PsoRecorder) (p : ℕ) (c : SymAddr) : PsoCall → Bool
  | .condWait c' m => c' = c && s.condWaitAccepts p m
  | .condDestroy c' => c' = c
  | _ => false

/-- Whether a call depends on an initialisation that is about to happen. -/
def misses (s : PsoRecorder) (p : ℕ) : PsoCall → PsoCall → Bool
  | .mutexInit m, call => usesMutex s p m call
  | .condInit c, call => (s.condVar? c).isNone && usesCondVar s p c call
  | _, _ => false

/-- A sleeping thread of another real thread depends on an initialisation by the current event. -/
def initialises (h : PsoSleepers) : Turn → Bool
  | .call e => h.recorder.running = .event &&
      (List.range h.recorder.threadCount).any fun p => h.recorder.asleep p &&
        h.recorder.realThread p ≠ h.recorder.realThread h.current &&
          (h.dryRuns p).any (misses h.recorder p e)
  | _ => false

theorem usesMutex_of_looksAt (hlooks : s.LooksAt p (.mutex m) call) :
    usesMutex s p m call = true := by
  cases call with
  | mutexLock m' | mutexUnlock m' | mutexTrylock m' | mutexInit m' | mutexDestroy m'
  | condAwake _ m' =>
      cases hlooks with
      | inl heq =>
          cases heq
          exact decide_eq_true rfl
      | inr heq => cases heq
  | condWait c m' =>
      rcases hlooks.2 with heq | heq | heq
      · cases heq
        simp [usesMutex, hlooks.1]
      · cases heq
      · cases heq
  | fullMemoryConflict => rfl
  | atomicStore ml | atomicRmw ml =>
      rcases hlooks with ⟨b, -, heq | heq⟩ | heq <;> cases heq
  | compareExchange ml success =>
      cases success with
      | true => rcases hlooks with ⟨b, -, heq | heq⟩ | heq <;> cases heq
      | false => rcases hlooks.2 with ⟨b, -, heq⟩ | heq <;> cases heq
  | load ml => rcases hlooks.2 with ⟨b, -, heq⟩ | heq <;> cases heq
  | condInit c => cases hlooks
  | condSignal c | condBroadcast c => rcases hlooks with heq | heq <;> cases heq
  | condDestroy c => rcases hlooks with heq | heq | heq <;> cases heq
  | spawn | store | fence | join | registerAlternatives => exact hlooks.elim

theorem usesCondVar_of_looksAt (hlooks : s.LooksAt p (.signal c) call) :
    usesCondVar s p c call = true := by
  cases call with
  | condWait c' m =>
      rcases hlooks.2 with heq | heq | heq
      · cases heq
      · cases heq
        simp [usesCondVar, hlooks.1]
      · cases heq
  | condDestroy c' =>
      rcases hlooks with heq | heq | heq
      · cases heq
        exact decide_eq_true rfl
      · cases heq
      · cases heq
  | fullMemoryConflict => exact absurd rfl (hlooks c).1
  | mutexLock m | mutexUnlock m | mutexTrylock m | mutexInit m | mutexDestroy m | condAwake _ m
  | condSignal m | condBroadcast m => rcases hlooks with heq | heq <;> cases heq
  | atomicStore ml | atomicRmw ml =>
      rcases hlooks with ⟨b, -, heq | heq⟩ | heq <;> cases heq
  | compareExchange ml success =>
      cases success with
      | true => rcases hlooks with ⟨b, -, heq | heq⟩ | heq <;> cases heq
      | false => rcases hlooks.2 with ⟨b, -, heq⟩ | heq <;> cases heq
  | load ml => rcases hlooks.2 with ⟨b, -, heq⟩ | heq <;> cases heq
  | condInit c => cases hlooks
  | spawn | store | fence | join | registerAlternatives => exact hlooks.elim

/-- A call wakes up those who look at the places that it writes, unless it is an initialisation. -/
theorem covers_of_written (hlooks : s.LooksAt p loc call) (hwritten : loc ∈ callWrites s pid e)
    (hmisses : misses s p e call = false) :
    ∃ a ∈ callWakeups s pid e, Covers a loc := by
  have hstored : ∀ ml : AccessRange, loc ∈ ml.bytes.flatMap (fun b => [.update b, .read b]) →
      ∃ a ∈ ml.bytes.map PsoAccess.w, Covers a loc := by
    intro ml hmem
    obtain ⟨b, hb, hloc⟩ := List.mem_flatMap.mp hmem
    refine ⟨.w b, List.mem_map_of_mem hb, ?_⟩
    rcases List.mem_pair.mp hloc with rfl | rfl <;> rfl
  have hloaded : ∀ ml : AccessRange, loc ∈ ml.bytes.map PsoLocation.read →
      ∃ a ∈ ml.bytes.map PsoAccess.r, Covers a loc := by
    intro ml hmem
    obtain ⟨b, hb, rfl⟩ := List.mem_map.mp hmem
    exact ⟨.r b, List.mem_map_of_mem hb, rfl⟩
  have hread : ∀ ml : AccessRange, loc ∈ callWrites s pid (.load ml) →
      ∃ a ∈ callWakeups s pid (.load ml), Covers a loc := by
    intro ml hmem
    rw [callWrites] at hmem
    rw [callWakeups]
    split at hmem
    · exact absurd hmem List.not_mem_nil
    · rename_i hpending
      rw [if_neg hpending]
      exact hloaded ml hmem
  cases e with
  | atomicStore ml => exact hstored ml hwritten
  | compareExchange ml success =>
      cases success with
      | true => exact hstored ml hwritten
      | false => exact hread ml hwritten
  | atomicRmw ml =>
      cases List.mem_append.mp hwritten with
      | inl hwritten =>
          obtain ⟨a, ha, hcovers⟩ := hloaded ml hwritten
          exact ⟨a, List.mem_append_left _ ha, hcovers⟩
      | inr hwritten =>
          obtain ⟨a, ha, hcovers⟩ := hstored ml hwritten
          exact ⟨a, List.mem_append_right _ ha, hcovers⟩
  | load ml => exact hread ml hwritten
  | fullMemoryConflict =>
      rw [List.mem_singleton.mp hwritten]
      exact ⟨.wAllMemory, List.mem_singleton_self _, trivial⟩
  | mutexLock m | mutexUnlock m | mutexTrylock m | condAwake _ m =>
      rw [List.mem_singleton.mp hwritten]
      exact ⟨.w m, List.mem_singleton_self _, rfl⟩
  | condSignal c | condBroadcast c =>
      rw [List.mem_singleton.mp hwritten]
      exact ⟨.w c, List.mem_singleton_self _, rfl⟩
  | condWait c m =>
      rw [callWrites] at hwritten
      rw [callWakeups]
      split at hwritten
      · rename_i haccepts
        rw [if_pos haccepts]
        rcases List.mem_pair.mp hwritten with rfl | rfl
        · exact ⟨.w m, by simp, rfl⟩
        · exact ⟨.r c, by simp, rfl⟩
      · exact absurd hwritten List.not_mem_nil
  | mutexInit m =>
      -- whoever looks at the mutex misses its initialisation
      rw [List.mem_singleton.mp hwritten] at hlooks
      rw [misses, usesMutex_of_looksAt hlooks] at hmisses
      cases hmisses
  | condInit c =>
      rw [callWrites] at hwritten
      split at hwritten
      · exact absurd hwritten List.not_mem_nil
      · rename_i hnone
        rw [Bool.not_eq_true, Option.isSome_eq_false_iff, Option.isNone_iff_eq_none] at hnone
        rw [List.mem_singleton.mp hwritten] at hlooks
        rw [misses, hnone, usesCondVar_of_looksAt hlooks] at hmisses
        cases hmisses
  | spawn | store | fence | join | mutexDestroy | condDestroy | registerAlternatives =>
      exact absurd hwritten List.not_mem_nil

/-! ### Calls by events -/

/-- Different real threads have different process numbers. -/
theorem proc_ne (hnumbered : s.Numbered) (hp : p < s.threadCount) (hpid : pid < s.threadCount)
    (hother : s.realThread p ≠ s.realThread pid) :
    (s.threads p).proc ≠ (s.threads pid).proc := by
  have hreal : ∀ q < s.threadCount, s.realThread q < s.threadCount ∧
      (s.threads (s.realThread q)).owner = none ∧
      (s.threads q).proc = (s.threads (s.realThread q)).proc := by
    intro q hq
    rw [realThread]
    cases howner : (s.threads q).owner with
    | none => exact ⟨hq, howner, rfl⟩
    | some r => exact hnumbered.owner q r howner
  intro heq
  have hp' := hreal p hp
  have hpid' := hreal pid hpid
  exact hother (hnumbered.proc _ _ hp'.1 hpid'.1 hp'.2.1 hpid'.2.1
    (by rw [← hp'.2.2, heq, hpid'.2.2]))

/-- A thread that is not asleep with a call noted is not the current one. -/
theorem Invariant.ne_current (hinv : Invariant h) (hrunning : h.recorder.running = .event)
    (hcall : call ∈ h.dryRuns p) : p ≠ h.current := by
  intro heq
  rw [heq, (hinv.event hrunning).2] at hcall
  exact List.not_mem_nil hcall

theorem Invariant.lt_of_mem (hinv : Invariant h) (hcall : call ∈ h.dryRuns p) :
    p < h.recorder.threadCount := by
  by_contra hlt
  rw [hinv.fresh p (Nat.le_of_not_lt hlt)] at hcall
  exact List.not_mem_nil hcall

theorem current_lt (hinv : Invariant h) (hrunning : h.recorder.running = .event) :
    h.current < h.recorder.threadCount := by
  have hne := (hinv.event hrunning).1
  obtain ⟨e, he, hpid⟩ := getLast?_pids hne
  rw [current, ← hpid]
  exact hinv.pids _ (List.mem_map_of_mem (List.mem_of_getLast? he))

theorem Part.realThread_of_lt {wakeups : List PsoAccess} {written : List PsoLocation}
    (hpart : Part s t pid wakeups written) (hp : p < s.threadCount) :
    t.realThread p = s.realThread p := by
  rw [PsoRecorder.realThread, PsoRecorder.realThread, hpart.owner p hp]

/-- What a sleeping thread has noted stays so if it sleeps on. -/
theorem NotedCall.part {wakeups : List PsoAccess} {written : List PsoLocation}
    (hnoted : NotedCall s p call) (hpart : Part s t pid wakeups written)
    (hprojected : s.Projected) (hp : p < s.threadCount) (hne : p ≠ pid)
    (hasleep : t.asleep p = true) : NotedCall t p call := by
  have hsleep := hpart.sleep p hp hasleep
  refine ⟨?_, ?_, ?_, ?_, ?_⟩
  · rw [hsleep]
    exact hnoted.reads
  · rw [hsleep]
    exact hnoted.writes
  · rw [hsleep]
    exact hnoted.full
  · rw [hpart.owner p hp]
    exact hnoted.real
  · by_cases hreal : p = s.realThread pid
    · subst hreal
      exact hpart.ready (Ne.symm hne) hprojected call hnoted.ready
    · rw [(hpart.other p hp hasleep hreal).1]
      exact hnoted.ready

/-- Where a sleeping thread looks after a part of a call, it has looked before. -/
theorem LooksAt.of_part {wakeups : List PsoAccess} {written : List PsoLocation}
    (hlooks : t.LooksAt p loc call) (hpart : Part s t pid wakeups written)
    (hp : p < s.threadCount) (hasleep : t.asleep p = true) (hreal : p ≠ s.realThread pid)
    (hne : p ≠ s.pidOf s.prefixIdx) : s.LooksAt p loc call := by
  have hpending : ∀ b, t.hasPendingStore p b = s.hasPendingStore p b := by
    intro b
    rw [hasPendingStore, hasPendingStore, (hpart.other p hp hasleep hreal).1]
  cases call with
  | load ml =>
      rw [LooksAt, hpending] at hlooks
      exact hlooks
  | compareExchange ml success =>
      cases success with
      | true => exact hlooks
      | false =>
          rw [LooksAt, hpending] at hlooks
          exact hlooks
  | condWait c m => exact ⟨hpart.accepts p m hne hlooks.1, hlooks.2⟩
  | _ => exact hlooks

/-- The invariant after a call by the current event. -/
theorem Invariant.exec (hinv : Invariant h) (hrunning : h.recorder.running = .event)
    {wakeups : List PsoAccess} {written : List PsoLocation}
    (hpart : Part h.recorder t h.current wakeups written) : Invariant ⟨t, h.dryRuns⟩ where
  numbered := hpart.numbered hinv.numbered
  projected := hpart.projected hinv.projected
  noted := by
    intro i hi
    cases hpart.noted i hi with
    | inl hi => exact hpart.conflicts i (hinv.noted i hi)
    | inr hi => exact hi.2
  pids := by
    intro pid hpid
    change pid ∈ t.pids at hpid
    rw [hpart.pids] at hpid
    exact Nat.lt_of_lt_of_le (hinv.pids pid hpid) hpart.threadCount
  calls := by
    intro p hasleep call hcall
    have hp := hinv.lt_of_mem hcall
    have hasleep' : h.recorder.asleep p = true := by
      have hsleep := hpart.sleep p hp hasleep
      have hasleep : (t.threads p).sleep.sleeping = true := hasleep
      rw [hsleep] at hasleep
      exact hasleep
    exact NotedCall.part (hinv.calls p hasleep' call hcall) hpart hinv.projected hp
      (hinv.ne_current hrunning hcall) hasleep
  fresh := fun p hp => hinv.fresh p (Nat.le_trans hpart.threadCount hp)
  event := by
    intro _
    refine ⟨events_ne_nil hpart.pids (hinv.event hrunning).1, ?_⟩
    dsimp only [current]
    rw [pidOf_congr hpart.pids, prefixIdx_congr hpart.pids]
    exact (hinv.event hrunning).2
  dryRun := by
    intro p hp
    change t.running = _ at hp
    rw [hpart.running, hrunning] at hp
    cases hp

/-- Threads that sleep on do not look at the event, if no initialisation is missed. -/
theorem Unseen.exec (hinv : Invariant h) (hunseen : Unseen h)
    (hrunning : h.recorder.running = .event)
    (hpart : Part h.recorder t h.current (callWakeups h.recorder h.current e)
      (callWrites h.recorder h.current e))
    (hinit : initialises h (.call e) = false) : Unseen ⟨t, h.dryRuns⟩ := by
  intro _ p hasleep hother call hcall loc hlooks hrecorded
  have hp := hinv.lt_of_mem hcall
  have hcurrent := current_lt hinv hrunning
  have hne := hinv.ne_current hrunning hcall
  have hidx : t.prefixIdx = h.recorder.prefixIdx := prefixIdx_congr hpart.pids
  change t.realThread p ≠ t.realThread (t.pidOf t.prefixIdx) at hother
  rw [hidx, pidOf_congr hpart.pids, Part.realThread_of_lt hpart hp] at hother
  change _ ≠ t.realThread h.current at hother
  rw [Part.realThread_of_lt hpart hcurrent] at hother
  have hreal : p ≠ h.recorder.realThread h.current := by
    intro heq
    apply hother
    have howner : (h.recorder.threads p).owner = none := by
      rw [heq, realThread]
      cases howner : (h.recorder.threads h.current).owner with
      | none => exact howner
      | some q => exact (hinv.numbered.owner _ q howner).2.1
    rw [realThread, howner, Option.getD_none, heq]
  have hasleep' : h.recorder.asleep p = true := by
    have hsleep := hpart.sleep p hp hasleep
    have hasleep : (t.threads p).sleep.sleeping = true := hasleep
    rw [hsleep] at hasleep
    exact hasleep
  have hlooks' := LooksAt.of_part hlooks hpart hp hasleep hreal hne
  change t.RecordedAt t.prefixIdx loc at hrecorded
  rw [hidx] at hrecorded
  cases hpart.recorded _ loc hrecorded with
  | inl hold => exact hunseen hrunning p hasleep' hother call hcall loc hlooks' hold
  | inr hwritten =>
      -- the thread would have been woken up
      have hmisses : misses h.recorder p e call = false := by
        rw [initialises, hrunning, Bool.and_eq_false_iff] at hinit
        cases hinit with
        | inl hfalse => simp at hfalse
        | inr hnone =>
            rw [List.any_eq_false] at hnone
            have hp' := hnone p (List.mem_range.mpr hp)
            rw [Bool.not_eq_true, Bool.and_eq_false_iff, Bool.and_eq_false_iff] at hp'
            rcases hp' with (hp' | hp') | hp'
            · rw [hasleep'] at hp'
              cases hp'
            · exact absurd (of_decide_eq_false hp') (not_not_intro hother)
            · rw [List.any_eq_false] at hp'
              simpa using hp' call hcall
      obtain ⟨a, ha, hcovers⟩ := covers_of_written hlooks' hwritten hmisses
      have hwakes := (hinv.calls p hasleep' call hcall).wakes hinv.projected
        (proc_ne hinv.numbered hp hcurrent hother) hlooks' hcovers
      rw [(hpart.other p hp hasleep hreal).2 a ha] at hwakes
      cases hwakes

/-! ### Dry runs -/

theorem NotedCall.congr (hnoted : NotedCall s p call) (hthread : t.threads p = s.threads p) :
    NotedCall t p call := by
  refine ⟨?_, ?_, ?_, ?_, ?_⟩
  · rw [hthread]
    exact hnoted.reads
  · rw [hthread]
    exact hnoted.writes
  · rw [hthread]
    exact hnoted.full
  · rw [hthread]
    exact hnoted.real
  · rw [hthread]
    exact hnoted.ready

/-- What a dry run notes of a call. -/
def noteCall (call : PsoCall) (sleep : PsoSleep) : PsoSleep :=
  { sleep with
    sleepAccessesR := sleep.sleepAccessesR ++ dryReads call
    sleepAccessesW := sleep.sleepAccessesW ++ dryWrites call
    sleepFullMemoryConflict := sleep.sleepFullMemoryConflict || call = .fullMemoryConflict }

/-- A state in which only the sleep of one thread is different. -/
structure Sleeps (s t : PsoRecorder) (pid : ℕ) (sleep : PsoSleep) : Prop where
  self : t.threads pid = { s.threads pid with sleep := sleep }
  other : ∀ p, p ≠ pid → t.threads p = s.threads p
  threadCount : t.threadCount = s.threadCount
  accesses : t.accesses = s.accesses
  events : t.events = s.events

theorem Sleeps.fields {sleep : PsoSleep} (hsleeps : Sleeps s t pid sleep) (p : ℕ) :
    (t.threads p).owner = (s.threads p).owner ∧ (t.threads p).proc = (s.threads p).proc ∧
      (t.threads p).storeBuffers = (s.threads p).storeBuffers := by
  by_cases hp : p = pid
  · rw [hp, hsleeps.self]
    exact ⟨rfl, rfl, rfl⟩
  · rw [hsleeps.other p hp]
    exact ⟨rfl, rfl, rfl⟩

theorem Sleeps.noted {sleep : PsoSleep} (hsleeps : Sleeps s t pid sleep) (hi : t.Noted i) :
    s.Noted i := by
  cases hi with
  | inl hi =>
      obtain ⟨loc, hi⟩ := hi
      exact .inl ⟨loc, by cases loc <;> simpa only [RecordedAt, hsleeps.accesses] using hi⟩
  | inr hi =>
      obtain ⟨p, b, pst, hmem, hi⟩ := hi
      rw [(hsleeps.fields p).2.2] at hmem
      exact .inr ⟨p, b, pst, hmem, hi⟩

/-- The invariant when a thread goes to sleep, or notes a call. -/
theorem Invariant.sleeps {sleep : PsoSleep} (hinv : Invariant h)
    (hsleeps : Sleeps h.recorder t pid sleep) (hpid : pid < h.recorder.threadCount)
    (hrunning : t.running = .dryRun pid) {dryRuns : ℕ → List PsoCall}
    (hdryRuns : ∀ p, p ≠ pid → dryRuns p = h.dryRuns p)
    (hcalls : sleep.sleeping = true → ∀ call ∈ dryRuns pid, NotedCall t pid call) :
    Invariant ⟨t, dryRuns⟩ where
  numbered := by
    refine ⟨?_, ?_, ?_⟩
    · intro p q hq
      change (t.threads p).owner = some q at hq
      change q < t.threadCount ∧ (t.threads q).owner = none ∧ (t.threads p).proc = (t.threads q).proc
      rw [(hsleeps.fields p).1] at hq
      rw [(hsleeps.fields p).2.1, (hsleeps.fields q).1, (hsleeps.fields q).2.1,
        hsleeps.threadCount]
      exact hinv.numbered.owner p q hq
    · intro p q
      change p < t.threadCount → q < t.threadCount → (t.threads p).owner = none →
        (t.threads q).owner = none → (t.threads p).proc = (t.threads q).proc → p = q
      rw [(hsleeps.fields p).1, (hsleeps.fields p).2.1, (hsleeps.fields q).1,
        (hsleeps.fields q).2.1, hsleeps.threadCount]
      exact hinv.numbered.proc p q
    · intro p hp
      change p < t.threadCount
      rw [hsleeps.threadCount]
      by_cases heq : p = pid
      · rw [heq]
        exact hpid
      · change (t.threads p).sleep.sleeping = true at hp
        rw [hsleeps.other p heq] at hp
        exact hinv.numbered.asleep p hp
  projected := by
    intro p hp
    change (t.threads p).owner = none at hp
    change ∃ pending, PsoBuffered (t.threads p).storeBuffers pending
    rw [(hsleeps.fields p).1] at hp
    rw [(hsleeps.fields p).2.2]
    exact hinv.projected p hp
  noted := by
    intro i hi
    obtain ⟨e, he, hconflict⟩ := hinv.noted i (hsleeps.noted hi)
    refine ⟨e, ?_, hconflict⟩
    change t.events[i]? = some e
    rw [hsleeps.events]
    exact he
  pids := by
    intro q hq
    change q ∈ t.pids at hq
    change q < t.threadCount
    rw [PsoRecorder.pids, hsleeps.events] at hq
    rw [hsleeps.threadCount]
    exact hinv.pids q hq
  calls := by
    intro p hasleep call hcall
    by_cases heq : p = pid
    · subst heq
      refine hcalls ?_ call hcall
      change (t.threads p).sleep.sleeping = true at hasleep
      rwa [hsleeps.self] at hasleep
    · change (t.threads p).sleep.sleeping = true at hasleep
      change call ∈ dryRuns p at hcall
      rw [hsleeps.other p heq] at hasleep
      rw [hdryRuns p heq] at hcall
      exact NotedCall.congr (hinv.calls p hasleep call hcall) (hsleeps.other p heq)
  fresh := by
    intro p hp
    change t.threadCount ≤ p at hp
    rw [hsleeps.threadCount] at hp
    have hne : p ≠ pid := by omega
    exact (hdryRuns p hne).trans (hinv.fresh p hp)
  event := by
    intro hevent
    change t.running = _ at hevent
    rw [hrunning] at hevent
    cases hevent
  dryRun := by
    intro p hp
    change t.running = _ at hp
    change p < t.threadCount
    rw [hrunning] at hp
    rw [hsleeps.threadCount]
    cases hp
    exact hpid

theorem dryReads_real (hpermitted : s.permitted p call = true) (hne : dryReads call ≠ []) :
    (s.threads p).owner = none := by
  cases call with
  | load | compareExchange | atomicRmw | condWait =>
      rw [permitted, Bool.and_eq_true, Option.isNone_iff_eq_none] at hpermitted
      exact hpermitted.1
  | _ => exact absurd rfl hne

theorem Invariant.notes (hinv : Invariant h) (hrunning : h.recorder.running = .dryRun pid)
    (hpermitted : h.recorder.permitted pid call = true) :
    Invariant ⟨h.recorder.modifyThread pid fun t => { t with sleep := noteCall call t.sleep },
      Function.update h.dryRuns pid (h.dryRuns pid ++ [call])⟩ := by
  let t := h.recorder.modifyThread pid fun t => { t with sleep := noteCall call t.sleep }
  have hself : t.threads pid = { h.recorder.threads pid with
      sleep := noteCall call (h.recorder.threads pid).sleep } := threads_modifyThread_self
  have hsleeps : Sleeps h.recorder t pid (noteCall call (h.recorder.threads pid).sleep) :=
    ⟨hself, fun p hp => threads_modifyThread_of_ne hp, rfl, rfl, rfl⟩
  refine hinv.sleeps hsleeps (hinv.dryRun pid hrunning) hrunning
    (fun p hp => Function.update_of_ne hp ..) ?_
  intro hasleep call' hcall'
  rw [Function.update_self] at hcall'
  cases List.mem_append.mp hcall' with
  | inl hold =>
      have hnoted := hinv.calls pid hasleep call' hold
      refine ⟨?_, ?_, ?_, ?_, ?_⟩
      · rw [hself]
        exact fun b hb => List.mem_append_left _ (hnoted.reads b hb)
      · rw [hself]
        exact fun b hb => List.mem_append_left _ (hnoted.writes b hb)
      · rw [hself]
        intro heq
        simp [noteCall, hnoted.full heq]
      · rw [hself]
        exact hnoted.real
      · rw [hself]
        exact hnoted.ready
  | inr hnew =>
      rw [List.mem_singleton.mp hnew]
      refine ⟨?_, ?_, ?_, ?_, ?_⟩
      · rw [hself]
        exact fun b hb => List.mem_append_right _ hb
      · rw [hself]
        exact fun b hb => List.mem_append_right _ hb
      · rw [hself]
        intro heq
        simp [noteCall, heq]
      · rw [hself]
        exact dryReads_real hpermitted
      · rw [hself]
        exact ready_of_permitted hpermitted

/-- The calls that do not ask whether they are run dry access nothing. -/
theorem notedCall_of_nothing (hreads : dryReads call = []) (hwrites : dryWrites call = [])
    (hfull : call ≠ .fullMemoryConflict) : NotedCall s p call := by
  refine ⟨?_, ?_, fun h => absurd h hfull, fun h => absurd hreads h, ?_⟩
  · rw [hreads]
    exact fun b hb => absurd hb List.not_mem_nil
  · rw [hwrites]
    exact fun b hb => absurd hb List.not_mem_nil
  · cases call with
    | load ml => exact absurd hreads ml.bytes_ne_nil
    | atomicRmw ml => exact absurd hreads ml.bytes_ne_nil
    | compareExchange ml success =>
        cases success with
        | true => exact absurd hwrites ml.bytes_ne_nil
        | false => exact absurd hreads ml.bytes_ne_nil
    | condWait c m => cases hreads
    | _ => trivial

/-- Noting a call that accesses nothing, in a state whose older threads are the same. -/
theorem Invariant.notesNothing (hinv : Invariant h) (hrunning : h.recorder.running = .dryRun pid)
    (hpart : Part h.recorder t p [] [])
    (hthreads : ∀ q < h.recorder.threadCount, t.threads q = h.recorder.threads q)
    (hreads : dryReads call = []) (hwrites : dryWrites call = [])
    (hfull : call ≠ .fullMemoryConflict) :
    Invariant ⟨t, Function.update h.dryRuns pid (h.dryRuns pid ++ [call])⟩ where
  numbered := hpart.numbered hinv.numbered
  projected := hpart.projected hinv.projected
  noted := by
    intro i hi
    cases hpart.noted i hi with
    | inl hi => exact hpart.conflicts i (hinv.noted i hi)
    | inr hi => exact hi.2
  pids := by
    intro q hq
    change q ∈ t.pids at hq
    rw [hpart.pids] at hq
    exact Nat.lt_of_lt_of_le (hinv.pids q hq) hpart.threadCount
  calls := by
    intro q hasleep call' hcall'
    change call' ∈ Function.update h.dryRuns pid (h.dryRuns pid ++ [call]) q at hcall'
    have hold : call' ∈ h.dryRuns q → NotedCall t q call' := by
      intro hmem
      have hq := hthreads q (hinv.lt_of_mem hmem)
      have hasleep : (t.threads q).sleep.sleeping = true := hasleep
      rw [hq] at hasleep
      exact NotedCall.congr (hinv.calls q hasleep call' hmem) hq
    by_cases heq : q = pid
    · subst heq
      rw [Function.update_self] at hcall'
      cases List.mem_append.mp hcall' with
      | inl hmem => exact hold hmem
      | inr hnew =>
          rw [List.mem_singleton.mp hnew]
          exact notedCall_of_nothing hreads hwrites hfull
    · rw [Function.update_of_ne heq] at hcall'
      exact hold hcall'
  fresh := by
    intro q hq
    change t.threadCount ≤ q at hq
    have hlt := hinv.dryRun pid hrunning
    have hle := hpart.threadCount
    have hne : q ≠ pid := by omega
    exact (Function.update_of_ne hne ..).trans (hinv.fresh q (Nat.le_trans hle hq))
  event := by
    intro hevent
    change t.running = _ at hevent
    rw [hpart.running, hrunning] at hevent
    cases hevent
  dryRun := by
    intro q hq
    change t.running = _ at hq
    rw [hpart.running, hrunning] at hq
    cases hq
    exact Nat.lt_of_lt_of_le (hinv.dryRun _ hrunning) hpart.threadCount

theorem Invariant.dryCall (hinv : Invariant h) (hrunning : h.recorder.running = .dryRun pid)
    (hpermitted : h.recorder.permitted pid call = true)
    (hcall : h.recorder.dryCall pid call = some t) :
    Invariant ⟨t, Function.update h.dryRuns pid (h.dryRuns pid ++ [call])⟩ := by
  cases call with
  | spawn =>
      obtain ⟨e, -, rfl⟩ := Option.map_eq_some_iff.mp hcall
      refine hinv.notesNothing hrunning (spawn_part (hinv.dryRun pid hrunning) e.iid.pid) ?_ rfl rfl (by simp)
      exact fun q hq => Function.update_of_ne (Nat.ne_of_lt hq) ..
  | registerAlternatives altCount =>
      cases hcall
      exact hinv.notesNothing hrunning (Part.conflicting h.recorder : Part _ _ 0 _ _) (fun _ _ => rfl)
        rfl rfl (by simp)
  | _ =>
      cases hcall
      exact hinv.notes hrunning hpermitted

/-- The invariant when a dry run begins. -/
theorem Invariant.beginDryRun (hinv : Invariant h) (hstep : h.recorder.beginDryRun pid = some t) :
    Invariant ⟨t, h.noteTurn (.dryRun pid)⟩ := by
  rw [PsoRecorder.beginDryRun, Option.ite_none_right_eq_some, Bool.and_eq_true,
    decide_eq_true_eq] at hstep
  obtain ⟨⟨-, hpid⟩, heq⟩ := hstep
  cases heq
  let u := h.recorder.modifyThread pid fun t => { t with sleep.sleeping := true }
  let t : PsoRecorder :=
    { u with running := .dryRun pid, drySleepers := h.recorder.drySleepers ++ [pid] }
  have hself : t.threads pid = { h.recorder.threads pid with
      sleep := { (h.recorder.threads pid).sleep with sleeping := true } } := by
    change u.threads pid = _
    exact threads_modifyThread_self
  have hothers : ∀ p ≠ pid, t.threads p = h.recorder.threads p := by
    intro p hp
    change u.threads p = _
    exact threads_modifyThread_of_ne hp
  have hsleeps : Sleeps h.recorder t pid
      { (h.recorder.threads pid).sleep with sleeping := true } :=
    ⟨hself, hothers, rfl, rfl, rfl⟩
  refine hinv.sleeps hsleeps hpid rfl ?_ ?_
  · intro p hp
    rw [noteTurn]
    split
    · rfl
    · exact Function.update_of_ne hp ..
  · intro _ call hcall
    rw [noteTurn] at hcall
    split at hcall
    · rename_i hasleep
      have hnoted := hinv.calls pid hasleep call hcall
      refine ⟨?_, ?_, ?_, ?_, ?_⟩
      · rw [hself]
        exact hnoted.reads
      · rw [hself]
        exact hnoted.writes
      · rw [hself]
        exact hnoted.full
      · rw [hself]
        exact hnoted.real
      · rw [hself]
        exact hnoted.ready
    · rw [Function.update_self] at hcall
      exact absurd hcall List.not_mem_nil

theorem running_dryCall (hcall : s.dryCall pid call = some t) : t.running = s.running := by
  cases call with
  | spawn =>
      obtain ⟨e, -, rfl⟩ := Option.map_eq_some_iff.mp hcall
      rfl
  | _ =>
      cases hcall
      rfl

/-! ### All turns -/

/-- What a refusal does. -/
theorem refuseSchedule_eq_some (hrefuse : s.refuseSchedule = some t) :
    ∃ events e, s.events = events ++ [e] ∧ e.mayConflict = false ∧
      SameRecords s t ∧ t.events = events ∧ t.running = .nobody := by
  rw [refuseSchedule] at hrefuse
  obtain ⟨e, he, hrefuse⟩ := Option.bind_eq_some_iff.mp hrefuse
  dsimp only at hrefuse
  rw [Option.ite_none_left_eq_some, Bool.not_eq_true] at hrefuse
  obtain ⟨hconflict, heq⟩ := hrefuse
  cases heq
  obtain ⟨events, hevents⟩ := List.getLast?_eq_some_iff.mp he
  refine ⟨events, e, hevents, hconflict, ⟨rfl, rfl, rfl⟩, ?_, rfl⟩
  change s.events.dropLast = events
  rw [hevents, List.dropLast_concat]

theorem running_refuseSchedule (hrefuse : s.refuseSchedule = some t) : t.running = .nobody := by
  obtain ⟨events, e, -, -, -, -, hrunning⟩ := refuseSchedule_eq_some hrefuse
  exact hrunning

/-- The invariant after an event that is refused. -/
theorem Invariant.refused (hinv : Invariant h) (hstep : h.recorder.newEvent pid = some s)
    (hrefuse : s.refuseSchedule = some t) : Invariant ⟨t, h.dryRuns⟩ := by
  obtain ⟨-, heq⟩ := newEvent_eq_some hstep
  obtain ⟨events, e, hevents, hconflict, hsame, htevents, hrunning⟩ := refuseSchedule_eq_some hrefuse
  let merged : PsoRecorder := { h.recorder.mergeLast with replay := false, running := .nobody }
  have hmerged : merged.events = events := by
    obtain ⟨e', hsevents⟩ : ∃ e', s.events = merged.events ++ [e'] := ⟨_, by rw [heq]; rfl⟩
    rw [hevents] at hsevents
    exact (List.append_inj_left' hsevents rfl).symm
  have hinv' := hinv.mergeLast false
  have hsame' : SameRecords merged t := by
    refine ⟨?_, ?_, ?_⟩
    · rw [hsame.threadCount, heq]
      rfl
    · rw [hsame.threads, heq]
      rfl
    · rw [hsame.accesses, heq]
      rfl
  refine hinv'.of_sameRecords hsame' ?_ ?_ (fun _ => .inl rfl) ?_ ?_
  · intro i hi
    obtain ⟨d, hd, hdc⟩ := hi
    refine ⟨d, ?_, hdc⟩
    rw [htevents, ← hmerged]
    exact hd
  · intro q hq
    rw [PsoRecorder.pids, htevents, ← hmerged] at hq
    rw [hsame'.threadCount]
    exact hinv'.pids q hq
  · intro hevent
    rw [hrunning] at hevent
    cases hevent
  · intro p hp
    rw [hrunning] at hp
    cases hp

/-- The calls that are made by the current event. -/
theorem performCall_event (hinv : Invariant h) (hrunning : h.recorder.running = .event)
    (hstep : h.recorder.performCall e = some t) :
    h.recorder.permitted h.current e = true ∧ h.recorder.exec h.current e = some t := by
  rw [performCall, hrunning] at hstep
  obtain ⟨ev, hev, hpid⟩ := getLast?_pids (hinv.event hrunning).1
  dsimp only at hstep
  rw [hev, Option.bind_some, hpid, Option.ite_none_right_eq_some] at hstep
  exact hstep

theorem part_of_performCall (hinv : Invariant h) (hrunning : h.recorder.running = .event)
    (hstep : h.recorder.performCall e = some t) :
    Part h.recorder t h.current (callWakeups h.recorder h.current e)
      (callWrites h.recorder h.current e) := by
  obtain ⟨hpermitted, hexec⟩ := performCall_event hinv hrunning hstep
  exact exec_part (current_lt hinv hrunning) (hinv.event hrunning).1 hinv.numbered hpermitted hexec

theorem step_eq_some (hstep : h.step turn = some k) :
    ∃ t, h.recorder.step turn = some t ∧ k = ⟨t, h.noteTurn turn⟩ := by
  rw [PsoSleepers.step] at hstep
  obtain ⟨t, hrecorder, heq⟩ := Option.map_eq_some_iff.mp hstep
  exact ⟨t, hrecorder, heq.symm⟩

theorem Invariant.step (hinv : Invariant h) (hturn : h.step turn = some k) : Invariant k := by
  obtain ⟨t, hstep, rfl⟩ := step_eq_some hturn
  cases turn with
  | next pid alt =>
      rw [PsoRecorder.step, nextEvent, Option.ite_none_right_eq_some, Bool.and_eq_true,
        decide_eq_true_eq] at hstep
      obtain ⟨⟨-, hpid⟩, heq⟩ := hstep
      cases heq
      exact (hinv.beginEvent hpid alt).1
  | «continue» =>
      rw [PsoRecorder.step, continueEvent, Option.ite_none_right_eq_some] at hstep
      obtain ⟨e, -, heq⟩ := Option.map_eq_some_iff.mp hstep.2
      have hsame : SameRecords h.recorder t := by
        rw [← heq]
        exact ⟨rfl, rfl, rfl⟩
      subst heq
      exact hinv.of_sameRecords hsame (fun _ hi => hi) hinv.pids (fun _ => .inl rfl) hinv.event
        hinv.dryRun
  | dryRun pid => exact hinv.beginDryRun hstep
  | cancelReplay =>
      cases hstep
      exact hinv.of_sameRecords (t := { h.recorder with replay := false }) ⟨rfl, rfl, rfl⟩
        (fun _ hi => hi) hinv.pids (fun _ => .inl rfl) hinv.event hinv.dryRun
  | schedule pid => exact (hinv.newEvent hstep).1
  | refused pid =>
      obtain ⟨u, hu, hrefuse⟩ := Option.bind_eq_some_iff.mp hstep
      exact (hinv.refused hu hrefuse)
  | call e =>
      have hperform : h.recorder.performCall e = some t := hstep
      cases hrunning : h.recorder.running with
      | nobody =>
          rw [performCall, hrunning] at hperform
          cases hperform
      | event =>
          have hcalls : h.noteTurn (.call e) = h.dryRuns := by rw [noteTurn, hrunning]
          rw [hcalls]
          exact hinv.exec hrunning (part_of_performCall hinv hrunning hperform)
      | dryRun pid =>
          have hcalls : h.noteTurn (.call e) =
              Function.update h.dryRuns pid (h.dryRuns pid ++ [e]) := by rw [noteTurn, hrunning]
          rw [hcalls]
          rw [performCall, hrunning] at hperform
          dsimp only at hperform
          rw [Option.ite_none_right_eq_some] at hperform
          exact hinv.dryCall hrunning hperform.1 hperform.2

theorem Unseen.step (hinv : Invariant h) (hunseen : Unseen h) (hturn : h.step turn = some k)
    (hinit : initialises h turn = false) : Unseen k := by
  obtain ⟨t, hstep, rfl⟩ := step_eq_some hturn
  cases turn with
  | next pid alt =>
      rw [PsoRecorder.step, nextEvent, Option.ite_none_right_eq_some, Bool.and_eq_true,
        decide_eq_true_eq] at hstep
      obtain ⟨⟨-, hpid⟩, heq⟩ := hstep
      cases heq
      exact (hinv.beginEvent hpid alt).2
  | «continue» =>
      rw [PsoRecorder.step, continueEvent, Option.ite_none_right_eq_some] at hstep
      obtain ⟨e, -, rfl⟩ := Option.map_eq_some_iff.mp hstep.2
      exact hunseen
  | dryRun pid =>
      rw [PsoRecorder.step, PsoRecorder.beginDryRun, Option.ite_none_right_eq_some] at hstep
      cases hstep.2
      intro hrunning
      cases hrunning
  | cancelReplay =>
      cases hstep
      exact hunseen
  | schedule pid => exact (hinv.newEvent hstep).2
  | refused pid =>
      obtain ⟨u, -, hrefuse⟩ := Option.bind_eq_some_iff.mp hstep
      intro hrunning
      change t.running = _ at hrunning
      rw [running_refuseSchedule hrefuse] at hrunning
      cases hrunning
  | call e =>
      have hperform : h.recorder.performCall e = some t := hstep
      cases hrunning : h.recorder.running with
      | nobody =>
          rw [performCall, hrunning] at hperform
          cases hperform
      | event =>
          have hcalls : h.noteTurn (.call e) = h.dryRuns := by rw [noteTurn, hrunning]
          rw [hcalls]
          exact hunseen.exec hinv hrunning (part_of_performCall hinv hrunning hperform) hinit
      | dryRun pid =>
          rw [performCall, hrunning] at hperform
          dsimp only at hperform
          rw [Option.ite_none_right_eq_some] at hperform
          intro hevent
          change t.running = _ at hevent
          rw [running_dryCall hperform.2, hrunning] at hevent
          cases hevent

end Nidhugg.PsoSleepers
