import Nidhugg.Verification.PsoRecorder.Ordering

/-! # Clocks order conflicting accesses in all runs -/

namespace Nidhugg.PsoHistory

open PsoRecorder LabelledRun

variable {h k : PsoHistory} {t : PsoRecorder} {pid alt : ℕ} {call : PsoCall} {turn : Turn}

/-! ### Turns without accesses -/

/-- What has been recorded stays true in turns that change no records. -/
theorem Invariant.continues (hinv : Invariant h)
    (hsleepers : ∃ dryRuns, PsoSleepers.Invariant ⟨t, dryRuns⟩) (hc : Continues h.recorder t)
    (hprogram : t.ProgramOrder) : Invariant ⟨t, h.pending, h.log⟩ where
  sleepers := hsleepers
  tracked := by
    obtain ⟨dryRuns, hsleepers⟩ := hsleepers
    exact hinv.tracked.continues hc (sound_of_invariant hsleepers) hprogram
  pending := fun tid => (hinv.pending tid).continues hc
  fresh := by
    intro tid htid
    apply hinv.fresh
    rw [hc.threadCount]
    exact htid

/-- Only the sleep of a thread is different. -/
theorem Invariant.sleeps (hinv : Invariant h)
    (hsleepers : ∃ dryRuns, PsoSleepers.Invariant ⟨t, dryRuns⟩) {sleep : PsoSleep}
    (hsleeps : PsoSleepers.Sleeps h.recorder t pid sleep)
    (hclock : t.threadClock = h.recorder.threadClock) : Invariant ⟨t, h.pending, h.log⟩ := by
  apply hinv.continues hsleepers (continues_of_sleeps hsleeps)
  apply programOrder_of_append hinv.tracked.program (events_eq_nil_append hsleeps.events)
  intro p
  rw [hclock]
  exact VClock.leq_refl _

theorem Invariant.dryCall (hinv : Invariant h)
    (hsleepers : ∃ dryRuns, PsoSleepers.Invariant ⟨t, dryRuns⟩)
    (hcall : h.recorder.dryCall pid call = some t) : Invariant ⟨t, h.pending, h.log⟩ := by
  cases call with
  | spawn =>
      obtain ⟨e, he, rfl⟩ := Option.map_eq_some_iff.mp hcall
      refine hinv.spawn ?_ hsleepers
      intro hnil
      rw [hnil] at he
      cases he
  | registerAlternatives altCount =>
      cases hcall
      exact hinv.neutral hsleepers (.conflicting _) (SameView.conflicting _).tables ⟨fun _ => rfl⟩
  | _ =>
      cases hcall
      exact hinv.sleeps hsleepers ⟨threads_modifyThread_self,
        fun p hp => threads_modifyThread_of_ne hp, rfl, rfl, rfl⟩ rfl

/-- A turn in which the current event makes no call leaves the accesses as they are. -/
theorem step_eq_some (hturn : h.step turn = some k) : ∃ t, h.recorder.step turn = some t ∧
    ((∃ call, turn = .call call ∧ h.recorder.running = .event ∧
        k = ⟨t, h.notePending call, h.log ++ h.accesses call⟩) ∨
      ((∀ call, turn = .call call → h.recorder.running ≠ .event) ∧
        k = ⟨t, h.pending, h.log⟩)) := by
  rw [step] at hturn
  obtain ⟨t, hstep, heq⟩ := Option.map_eq_some_iff.mp hturn
  refine ⟨t, hstep, ?_⟩
  split at heq
  · rename_i call hrunning
    exact .inl ⟨call, rfl, hrunning, heq.symm⟩
  · rename_i hnot
    refine .inr ⟨?_, heq.symm⟩
    intro call hcall hrunning
    exact hnot call hcall hrunning

/-! ### All turns -/

/-- The threads that sleep after a turn. -/
theorem Invariant.sleepers_step (hinv : Invariant h) (hstep : h.recorder.step turn = some t) :
    ∃ dryRuns, PsoSleepers.Invariant ⟨t, dryRuns⟩ := by
  obtain ⟨dryRuns, hsleepers⟩ := hinv.sleepers
  have hturn : PsoSleepers.step ⟨h.recorder, dryRuns⟩ turn =
      some ⟨t, PsoSleepers.noteTurn ⟨h.recorder, dryRuns⟩ turn⟩ := by
    rw [PsoSleepers.step, hstep]
    rfl
  exact ⟨_, hsleepers.step hturn⟩

theorem Invariant.step_other (hinv : Invariant h) (hstep : h.recorder.step turn = some t)
    (hother : ∀ call, turn = .call call → h.recorder.running ≠ .event) :
    Invariant ⟨t, h.pending, h.log⟩ := by
  have hsleepers := hinv.sleepers_step hstep
  have hprogram := hinv.tracked.program
  cases turn with
  | next pid alt =>
      rw [PsoRecorder.step, nextEvent, Option.ite_none_right_eq_some] at hstep
      cases hstep.2
      exact hinv.continues hsleepers (continues_of_append rfl rfl rfl rfl)
        (programOrder_beginEvent hprogram pid alt)
  | «continue» =>
      rw [PsoRecorder.step, continueEvent, Option.ite_none_right_eq_some] at hstep
      obtain ⟨e, -, rfl⟩ := Option.map_eq_some_iff.mp hstep.2
      exact hinv.continues hsleepers (continues_of_append (events_eq_nil_append rfl) rfl rfl rfl)
        (programOrder_of_append hprogram (events_eq_nil_append rfl)
          (leq_setThreadClock (Nat.le_succ _)))
  | dryRun pid =>
      rw [PsoRecorder.step, PsoRecorder.beginDryRun, Option.ite_none_right_eq_some] at hstep
      cases hstep.2
      exact hinv.sleeps hsleepers ⟨Function.update_self ..,
        fun p hp => Function.update_of_ne hp .., rfl, rfl, rfl⟩ rfl
  | cancelReplay =>
      cases hstep
      exact hinv.continues hsleepers (continues_of_append (events_eq_nil_append rfl) rfl rfl rfl)
        (programOrder_of_append hprogram (events_eq_nil_append rfl) fun _ => VClock.leq_refl _)
  | schedule pid =>
      have hcontinues := continues_newEvent hprogram hstep
      exact hinv.continues hsleepers hcontinues.1 hcontinues.2
  | refused pid =>
      obtain ⟨u, hu, hrefuse⟩ := Option.bind_eq_some_iff.mp hstep
      have hcontinues := continues_refused hprogram hu hrefuse
      exact hinv.continues hsleepers hcontinues.1 hcontinues.2
  | call e =>
      have hperform : h.recorder.performCall e = some t := hstep
      rw [performCall] at hperform
      split at hperform
      · cases hperform
      · rw [Option.ite_none_right_eq_some] at hperform
        exact hinv.dryCall hsleepers hperform.2
      · rename_i hrunning
        exact absurd hrunning (hother e rfl)

theorem Invariant.step (hinv : Invariant h) (hturn : h.step turn = some k) : Invariant k := by
  obtain ⟨t, hstep, hk⟩ := step_eq_some hturn
  cases hk with
  | inl hcall =>
      obtain ⟨call, rfl, hrunning, rfl⟩ := hcall
      have hrun : Running h := ⟨hinv, hrunning⟩
      obtain ⟨dryRuns, hsleepers⟩ := hinv.sleepers
      obtain ⟨hpermitted, hexec⟩ := PsoSleepers.performCall_event hsleepers hrunning hstep
      exact hrun.exec hpermitted hexec
  | inr hother =>
      rw [hother.2]
      exact hinv.step_other hstep hother.1

/-- Nothing has been accessed before an execution. -/
theorem initial_invariant (replay : Bool) : Invariant (initial replay) where
  sleepers := ⟨_, PsoSleepers.initial_invariant replay⟩
  tracked := by
    refine ⟨sound_of_invariant (PsoSleepers.initial_invariant replay), ⟨nofun, nofun⟩, nofun, nofun,
      nofun, nofun, nofun, nofun, nofun⟩
  pending := fun tid => ⟨fun b => .nil, nofun, .nil⟩
  fresh := fun _ _ => rfl

/-- In every run the clocks order the conflicting accesses of different threads, but for loads that
read an own update, and for mutexes that have been destroyed. -/
theorem ordered_of_run {replay : Bool} {turns : List Turn}
    (hrun : run step (initial replay) turns = some h) : Ordered h.recorder h.log :=
  (run_invariant (fun _ _ _ hinv hturn => Invariant.step hinv hturn) (initial_invariant replay)
    hrun).tracked.ordered

/-- A thread writes a byte, the main thread writes it by an update, and a thread reads it. -/
def readUpdate (b : SymAddr) (reader : ℕ) : List Turn :=
  let ml : AccessRange := ⟨⟨b, 1⟩, Nat.one_pos⟩
  [.schedule 0, .call .spawn, .schedule 1, .call (.compareExchange ml true),
    .schedule 0, .call (.store ml), .schedule 2, .call (.atomicStore ml),
    .schedule reader, .call (.load ml)]

theorem ordered_readUpdate : ∃ h, run step (initial false) (readUpdate ⟨.global 0, 0⟩ 1) = some h ∧
    Ordered h.recorder h.log := by
  have hrun : (run step (initial false) (readUpdate ⟨.global 0, 0⟩ 1)).isSome = true := by
    decide +kernel
  exact ⟨_, (Option.some_get hrun).symm, ordered_of_run (Option.some_get hrun).symm⟩

/-- The clock of a load that reads an own update is not ordered after the writes of other threads
before that update. -/
theorem not_orderedPair_readUpdate :
    ∃ h, run step (initial false) (readUpdate ⟨.global 0, 0⟩ 0) = some h ∧
      ¬ ∀ x ∈ h.log, ∀ y ∈ h.log, OrderedPair h.recorder x y := by
  have hrun : (run step (initial false) (readUpdate ⟨.global 0, 0⟩ 0)).isSome = true := by
    decide +kernel
  have hlog : ((run step (initial false) (readUpdate ⟨.global 0, 0⟩ 0)).all fun h =>
      (⟨1, 1, 1, .write ⟨.global 0, 0⟩⟩ ∈ h.log) &&
      (⟨4, 4, 0, .read ⟨.global 0, 0⟩ true⟩ ∈ h.log) &&
      !(h.recorder.clockOf 1).leq (h.recorder.clockOf 4)) = true := by
    decide +kernel
  rw [(Option.some_get hrun).symm, Option.all_some] at hlog
  simp only [Bool.and_eq_true, decide_eq_true_eq, Bool.not_eq_true'] at hlog
  obtain ⟨⟨hwrite, hread⟩, hclock⟩ := hlog
  refine ⟨_, (Option.some_get hrun).symm, ?_⟩
  intro hordered
  have hpair := hordered _ hwrite _ hread (by decide) (by decide) rfl (by decide)
  rw [hclock] at hpair
  cases hpair

/-- The main thread destroys a mutex before another thread initialises it again. -/
def initAgain (m : SymAddr) : List Turn :=
  [.schedule 0, .call .spawn, .call (.mutexInit m), .schedule 0, .call (.mutexDestroy m),
    .schedule 1, .call (.mutexInit m)]

/-- A destroyed mutex is forgotten, so that the clocks do not order its operations before those on
a mutex at the same address later. -/
theorem not_orderedPair_initAgain :
    ∃ h, run step (initial false) (initAgain ⟨.global 0, 0⟩) = some h ∧
      ¬ ∀ x ∈ h.log, ∀ y ∈ h.log, ¬ Forwarded x y → OrderedPair h.recorder x y := by
  have hrun : (run step (initial false) (initAgain ⟨.global 0, 0⟩)).isSome = true := by
    decide +kernel
  have hlog : ((run step (initial false) (initAgain ⟨.global 0, 0⟩)).all fun h =>
      (⟨1, 1, 0, .mutex ⟨.global 0, 0⟩ true⟩ ∈ h.log) &&
      (⟨2, 2, 1, .mutex ⟨.global 0, 0⟩ false⟩ ∈ h.log) &&
      !(h.recorder.clockOf 1).leq (h.recorder.clockOf 2)) = true := by
    decide +kernel
  rw [(Option.some_get hrun).symm, Option.all_some] at hlog
  simp only [Bool.and_eq_true, decide_eq_true_eq, Bool.not_eq_true'] at hlog
  obtain ⟨⟨hdestroy, hinit⟩, hclock⟩ := hlog
  refine ⟨_, (Option.some_get hrun).symm, ?_⟩
  intro hordered
  have hforwarded : ¬ Forwarded ⟨1, 1, 0, .mutex ⟨.global 0, 0⟩ true⟩
      ⟨2, 2, 1, .mutex ⟨.global 0, 0⟩ false⟩ := by
    intro hforwarded
    obtain ⟨b, hwrite, -⟩ := hforwarded
    cases hwrite
  have hpair := hordered _ hdestroy _ hinit hforwarded (by decide) (by decide) rfl (by decide)
  rw [hclock] at hpair
  cases hpair

end Nidhugg.PsoHistory
