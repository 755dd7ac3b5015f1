import Nidhugg.Verification.PsoExploration.Calls
import Nidhugg.Verification.PsoRecorder.OrderedRuns

/-! # Source sets in all runs

Every call of `add_branch` is for a race, in the first execution and in all that follow. -/

namespace Nidhugg.PsoExploration

open PsoRecorder PsoPrefix LabelledRun

variable {s s' : PsoRecorder} {t u : PsoExploration} {pid alt i : ℕ} {m : SymAddr} {call : PsoCall}
  {planned : List PsoPlanned}

/-! ### The recorder -/

/-- What has been proved of all runs of the recorder. -/
structure Observed (s : PsoRecorder) : Prop where
  history : ∃ h : PsoHistory, h.recorder = s ∧ h.Invariant
  indexed : Indexed s

theorem Observed.sound (h : Observed s) : PsoHistory.Sound s := by
  obtain ⟨h, rfl, hinv⟩ := h.history
  exact hinv.tracked.sound

theorem Observed.program (h : Observed s) : s.ProgramOrder := by
  obtain ⟨h, rfl, hinv⟩ := h.history
  exact hinv.tracked.program

theorem Observed.events (h : Observed s) (hrunning : s.running = .event) : s.events ≠ [] := by
  obtain ⟨h, rfl, hinv⟩ := h.history
  exact PsoHistory.Running.events ⟨hinv, hrunning⟩

/-- Dropping events. -/
theorem indexed_of_append {rest : List PsoEvent} (h : Indexed s)
    (hevents : s.events = s'.events ++ rest) : Indexed s' := by
  intro i hi
  have hlt : i < s.events.length := by
    rw [hevents, List.length_append]
    omega
  have hindex : s'.indexOf i = s.indexOf i := by
    rw [indexOf, indexOf, hevents, List.getElem?_append_left hi]
  rw [hindex, PsoHistory.clockOf_of_append hevents hi, PsoHistory.pidOf_of_append hevents hi]
  exact h i hlt

theorem indexed_beginEvent (h : Indexed s) (pid alt : ℕ) : Indexed (s.beginEvent pid alt) := by
  intro i hi
  rw [beginEvent, List.length_append, List.length_singleton] at hi
  cases Nat.lt_succ_iff_lt_or_eq.mp hi with
  | inl hlt =>
      have hsame : (s.beginEvent pid alt).events[i]? = s.events[i]? := by
        rw [beginEvent]
        exact List.getElem?_append_left hlt
      rw [indexOf, clockOf, pidOf, hsame]
      exact h i hlt
  | inr heq =>
      subst heq
      rw [indexOf, clockOf, pidOf, beginEvent]
      dsimp only
      rw [List.getElem?_concat_length]
      simp only [Option.map_some, Option.getD_some, setThreadClock, Function.update_self,
        VClock.get_set, if_true, Nat.le_refl]

theorem Observed.step {turn : PsoRecorder.Turn} (h : Observed s) (hstep : s.step turn = some s')
    (hindexed : Indexed s') : Observed s' := by
  obtain ⟨history, rfl, hinv⟩ := h.history
  refine ⟨?_, hindexed⟩
  have hturn : ∃ k, history.step turn = some k ∧ k.recorder = s' := by
    rw [PsoHistory.step, hstep, Option.map_some]
    refine ⟨_, rfl, ?_⟩
    split
    · rfl
    · rfl
  obtain ⟨k, hk, hrecorder⟩ := hturn
  exact ⟨k, hrecorder, hinv.step hk⟩

/-- A turn that leaves the events alone. -/
theorem Observed.same {turn : PsoRecorder.Turn} (h : Observed s) (hstep : s.step turn = some s')
    (hevents : s'.events = s.events) : Observed s' :=
  h.step hstep (indexed_of_append h.indexed (PsoHistory.events_eq_nil_append hevents))

theorem observed_initial (replay : Bool) : Observed (PsoRecorder.initial replay) where
  history := ⟨_, rfl, PsoHistory.initial_invariant replay⟩
  indexed := nofun

/-! ### Branches -/

/-- What holds in all reachable states. -/
structure Invariant (t : PsoExploration) : Prop extends Branching t where
  observed : Observed t.recorder

theorem Invariant.calling (h : Invariant t) (hrunning : t.recorder.running = .event) :
    Calling t.recorder (t.recorder.pidOf t.recorder.prefixIdx) t where
  toBranching := h.toBranching
  sound := h.observed.sound
  program := h.observed.program
  indexed := h.observed.indexed
  current := rfl
  events := h.observed.events hrunning
  headers := rfl

/-- Only the first events remain. -/
theorem Branching.take (h : Branching t) {rest : List PsoEvent}
    (hevents : t.recorder.events = s.events ++ rest) :
    Branching { t with recorder := s, nodes := t.nodes.take s.events.length } where
  nodes := by
    rw [List.length_take, h.nodes, hevents, List.length_append]
    exact Nat.min_eq_left (Nat.le_add_right ..)
  alternatives := by
    intro i b hb halt
    rw [branchAt, List.getElem?_take] at hb
    split at hb
    · rename_i hi
      have hold := h.alternatives i b hb halt
      rw [sleepAt, hevents, List.getElem?_append_left hi] at hold
      rw [PsoHistory.pidOf_of_append hevents hi]
      exact hold
    · exact absurd hb List.not_mem_nil
  planned := h.planned
  calls := h.calls

/-- One more event. -/
theorem Branching.append (h : Branching t) {e : PsoEvent} {n : PsoNode}
    (hevents : s.events = t.recorder.events ++ [e])
    (halternatives : Alternatives e.iid.pid e.sleep n.branch)
    (hplanned : ∀ e ∈ planned, Alternatives e.pid e.sleep e.node.branch) :
    Branching { t with recorder := s, nodes := t.nodes ++ [n], planned := planned } where
  nodes := by
    rw [List.length_append, h.nodes, hevents, List.length_append, List.length_singleton,
      List.length_singleton]
  alternatives := by
    intro i b hb halt
    rw [branchAt] at hb
    rw [pidOf, sleepAt]
    dsimp only at hb ⊢
    rw [hevents]
    by_cases hi : i < t.recorder.events.length
    · rw [List.getElem?_append_left (by rwa [h.nodes])] at hb
      rw [List.getElem?_append_left hi]
      exact h.alternatives i b hb halt
    · by_cases heq : i = t.recorder.events.length
      · subst heq
        rw [← h.nodes, List.getElem?_concat_length] at hb
        rw [List.getElem?_concat_length]
        exact halternatives b hb halt
      · have hlength : (t.nodes ++ [n]).length ≤ i := by
          rw [List.length_append, List.length_singleton, h.nodes]
          omega
        rw [List.getElem?_eq_none hlength] at hb
        exact absurd hb List.not_mem_nil
  planned := hplanned
  calls := h.calls

/-! ### Turns -/

theorem Invariant.same {f : PsoRecorder → Option PsoRecorder} (h : Invariant t)
    (turn : PsoRecorder.Turn) (hstep : t.record? f = some u)
    (hturn : f t.recorder = t.recorder.step turn)
    (hevents : ∀ s, f t.recorder = some s → s.events = t.recorder.events) : Invariant u := by
  obtain ⟨s, hs, rfl⟩ := Option.map_eq_some_iff.mp hstep
  have hsame := hevents s hs
  refine ⟨h.toBranching.of_headers rfl rfl rfl ?_, h.observed.same (hturn.symm.trans hs) hsame⟩
  rw [PsoRecorder.headers, hsame, PsoRecorder.headers]

theorem Invariant.newEvent (h : Invariant t) (hstep : t.newEvent pid = some u) :
    Invariant u ∧ t.recorder.newEvent pid = some u.recorder ∧ u.recorder.running = .event := by
  rw [PsoExploration.newEvent, Option.ite_none_right_eq_some] at hstep
  obtain ⟨s, hs, rfl⟩ := Option.map_eq_some_iff.mp hstep.2
  obtain ⟨-, heq⟩ := PsoSleepers.newEvent_eq_some hs
  let merged : PsoRecorder := { t.recorder.mergeLast with replay := false, running := .nobody }
  have hmerged : ∃ rest, t.recorder.events = merged.events ++ rest := by
    change ∃ rest, t.recorder.events = t.recorder.mergeLast.events ++ rest
    cases PsoSleepers.mergeLast_cases t.recorder with
    | inl hsame =>
        rw [hsame]
        exact ⟨[], (List.append_nil _).symm⟩
    | inr hmerge =>
        obtain ⟨events, e, hevents, -, hsame⟩ := hmerge
        rw [hsame]
        exact ⟨[e], hevents⟩
  obtain ⟨rest, hrest⟩ := hmerged
  have hindexed : Indexed s := by
    rw [heq]
    exact indexed_beginEvent (indexed_of_append h.observed.indexed hrest) pid 0
  have htake : Branching { t with
      recorder := merged, nodes := t.nodes.take merged.events.length } :=
    h.toBranching.take hrest
  have hevents : ∃ e, s.events = merged.events ++ [e] := by
    rw [heq]
    exact ⟨_, rfl⟩
  obtain ⟨e, hevents⟩ := hevents
  have hnew := htake.append (n := ⟨[], []⟩) hevents (fun b hb => absurd hb List.not_mem_nil)
    h.planned
  have hlength : s.events.length - 1 = merged.events.length := by
    rw [hevents, List.length_append, List.length_singleton, Nat.add_sub_cancel]
  have hturn : t.recorder.step (.schedule pid) = some s := hs
  rw [hlength]
  refine ⟨⟨hnew, h.observed.step hturn hindexed⟩, hs, ?_⟩
  rw [heq]
  rfl

theorem Invariant.refusedEvent {lock : Option SymAddr} (h : Invariant t)
    (hstep : t.refusedEvent pid lock = some u) : Invariant u := by
  rw [PsoExploration.refusedEvent] at hstep
  obtain ⟨v, hv, hstep⟩ := Option.bind_eq_some_iff.mp hstep
  obtain ⟨w, hw, hstep⟩ := Option.bind_eq_some_iff.mp hstep
  obtain ⟨s, hs, hstep⟩ := Option.bind_eq_some_iff.mp hstep
  cases hstep
  obtain ⟨hinv, hnew, hrunning⟩ := h.newEvent hv
  have hfail : Branching w ∧ w.recorder = v.recorder := by
    cases lock with
    | none =>
        cases hw
        exact ⟨hinv.toBranching, rfl⟩
    | some m =>
        obtain ⟨hcalling, hsame⟩ := (hinv.calling hrunning).mutexLockFail hw
        exact ⟨hcalling.toBranching, hsame⟩
  rw [hfail.2] at hs
  have hevents : ∃ e, w.recorder.events = s.events ++ [e] := by
    rw [hfail.2]
    rw [refuseSchedule] at hs
    obtain ⟨e, he, hs⟩ := Option.bind_eq_some_iff.mp hs
    rw [Option.ite_none_left_eq_some] at hs
    cases hs.2
    exact ⟨e, (List.dropLast_append_getLast? e he).symm⟩
  obtain ⟨e, hevents⟩ := hevents
  refine ⟨hfail.1.take hevents, ?_⟩
  have hturn : t.recorder.step (.refused pid) = some s := by
    rw [PsoRecorder.step, hnew, Option.bind_some, hs]
  rw [hfail.2] at hevents
  exact h.observed.step hturn (indexed_of_append hinv.observed.indexed hevents)

/-- The alternatives of a replayed event that is marked again as one with conflicts. -/
theorem Observed.conflicting (h : Observed s) (hrunning : s.running = .event) :
    Observed s.conflicting := by
  have hturn : s.step (.call (.registerAlternatives 0)) = some s.conflicting := by
    cases hlast : s.events.getLast? with
    | none => exact absurd (List.getLast?_eq_none_iff.mp hlast) (h.events hrunning)
    | some e =>
        rw [PsoRecorder.step, PsoRecorder.performCall, hrunning]
        dsimp only
        rw [hlast]
        rfl
  have hgrows : Grows s s.conflicting 0 := (Part.conflicting s).grows
  exact h.step hturn (indexed_grows h.indexed hgrows headers_conflicting)

theorem Invariant.nextEvent (h : Invariant t) (hstep : t.nextEvent = some u) : Invariant u := by
  rw [PsoExploration.nextEvent] at hstep
  cases hplanned : t.planned with
  | nil =>
      rw [hplanned] at hstep
      cases hstep
  | cons e planned =>
      rw [hplanned] at hstep
      dsimp only at hstep
      rw [Option.ite_none_right_eq_some] at hstep
      obtain ⟨hsleep, hstep⟩ := hstep
      obtain ⟨s, hs, rfl⟩ := Option.map_eq_some_iff.mp hstep
      have hturn : t.recorder.step (.next e.pid e.alt) = some s := hs
      rw [PsoRecorder.nextEvent, Option.ite_none_right_eq_some] at hs
      obtain rfl := Option.some.inj hs.2
      have hall := h.planned
      rw [hplanned] at hall
      have hnew := h.toBranching.append (s := t.recorder.beginEvent e.pid e.alt) (n := e.node) rfl
        (hsleep ▸ hall e List.mem_cons_self) fun d hd => hall d (List.mem_cons_of_mem e hd)
      have hobserved := h.observed.step hturn (indexed_beginEvent h.observed.indexed e.pid e.alt)
      split
      · exact ⟨hnew.of_headers rfl rfl rfl headers_conflicting, hobserved.conflicting rfl⟩
      · exact ⟨hnew, hobserved⟩

theorem Invariant.beginDryRun (h : Invariant t) (hstep : t.beginDryRun = some u) :
    Invariant u := by
  rw [PsoExploration.beginDryRun] at hstep
  obtain ⟨e, -, hstep⟩ := Option.bind_eq_some_iff.mp hstep
  obtain ⟨pid, -, hstep⟩ := Option.bind_eq_some_iff.mp hstep
  refine h.same (.dryRun pid) hstep rfl ?_
  intro s hs
  rw [PsoRecorder.beginDryRun, Option.ite_none_right_eq_some] at hs
  cases hs.2
  rfl

theorem Invariant.continueEvent (h : Invariant t)
    (hstep : t.record? PsoRecorder.continueEvent = some u) : Invariant u := by
  refine h.same .continue hstep rfl ?_
  intro s hs
  rw [PsoRecorder.continueEvent, Option.ite_none_right_eq_some] at hs
  obtain ⟨e, -, rfl⟩ := Option.map_eq_some_iff.mp hs.2
  rfl

theorem events_dryCall (hcall : ∀ altCount, call ≠ .registerAlternatives altCount)
    (hs : s.dryCall pid call = some s') : s'.events = s.events := by
  cases call with
  | spawn =>
      obtain ⟨e, -, rfl⟩ := Option.map_eq_some_iff.mp hs
      rfl
  | registerAlternatives altCount => exact absurd rfl (hcall altCount)
  | _ =>
      cases hs
      rfl

theorem Invariant.dryCall (h : Invariant t) (hrunning : t.recorder.running = .dryRun pid)
    (hpermitted : t.recorder.permitted pid call = true) (hstep : t.dryCall pid call = some u) :
    Invariant u := by
  have hturn : t.recorder.step (.call call) = t.recorder.dryCall pid call := by
    rw [PsoRecorder.step, PsoRecorder.performCall, hrunning]
    exact if_pos hpermitted
  by_cases hcall : ∃ altCount, call = .registerAlternatives altCount
  · obtain ⟨altCount, rfl⟩ := hcall
    cases hstep
    obtain ⟨hbranching, hsame⟩ := registerAlternatives_simulates h.toBranching altCount
    refine ⟨hbranching, ?_⟩
    rw [hsame]
    have hgrows : Grows t.recorder t.recorder.conflicting pid := (Part.conflicting _).grows
    exact h.observed.step hturn (indexed_grows h.observed.indexed hgrows headers_conflicting)
  · have hne : ∀ altCount, call ≠ .registerAlternatives altCount :=
      fun altCount heq => hcall ⟨altCount, heq⟩
    have hrecord : t.record? (·.dryCall pid call) = some u := by
      rwa [PsoExploration.dryCall] at hstep
      exact hne
    exact h.same (.call call) hrecord hturn.symm fun s hs => events_dryCall hne hs

theorem Invariant.performCall (h : Invariant t) (hstep : t.performCall call = some u) :
    Invariant u := by
  rw [PsoExploration.performCall] at hstep
  cases hrunning : t.recorder.running with
  | nobody =>
      rw [hrunning] at hstep
      cases hstep
  | dryRun pid =>
      rw [hrunning] at hstep
      dsimp only at hstep
      rw [Option.ite_none_right_eq_some] at hstep
      exact h.dryCall hrunning hstep.1 hstep.2
  | event =>
      rw [hrunning] at hstep
      dsimp only at hstep
      have hcalling := h.calling hrunning
      obtain ⟨e, he, hpid⟩ := PsoSleepers.getLast?_pids hcalling.events
      rw [he, Option.bind_some, hpid, Option.ite_none_right_eq_some] at hstep
      obtain ⟨hpermitted, hexec⟩ := hstep
      have hsim := exec_simulates hcalling hpermitted hexec
      have hpart := exec_part hcalling.current_lt hcalling.events hcalling.sound.numbered
        hpermitted hsim.recorder
      have hturn : t.recorder.step (.call call) = some u.recorder := by
        rw [PsoRecorder.step, PsoRecorder.performCall, hrunning]
        dsimp only
        rw [he, Option.bind_some, hpid, if_pos hpermitted]
        exact hsim.recorder
      exact ⟨hsim.branching, h.observed.step hturn
        (indexed_grows h.observed.indexed hpart.grows hsim.headers)⟩

/-! ### The next execution -/

theorem alternatives_executed (h : Branching t) {e : PsoPlanned} (he : e ∈ t.executed) :
    Alternatives e.pid e.sleep e.node.branch := by
  obtain ⟨i, hi⟩ := List.mem_iff_getElem?.mp he
  rw [executed, List.getElem?_zipWith_eq_some] at hi
  obtain ⟨d, n, hd, hn, rfl⟩ := hi
  have halternatives := h.alternatives i
  rw [pidOf, sleepAt, branchAt, hd, hn] at halternatives
  exact halternatives

/-- The branch that is taken is no longer there, and the thread that was first is put to sleep if
it is another one. -/
theorem alternatives_branchOff {e d : PsoPlanned} (he : Alternatives e.pid e.sleep e.node.branch)
    (hd : branchOff e = some d) : Alternatives d.pid d.sleep d.node.branch := by
  rw [branchOff] at hd
  cases hbranch : e.node.branch with
  | nil =>
      rw [hbranch] at hd
      cases hd
  | cons br branch =>
      rw [hbranch] at hd he
      cases hd
      intro b hb halt
      have hold := he b (List.mem_cons_of_mem br hb) halt
      dsimp only
      split
      · rename_i hpid
        rwa [hpid]
      · apply Or.inr
        rw [VecSet.mem_insert VecSet.strictTotal_nat]
        exact hold

theorem alternatives_nextExecution {events : List PsoPlanned}
    (hevents : ∀ e ∈ events, Alternatives e.pid e.sleep e.node.branch)
    (hnext : nextExecution events = some planned) :
    ∀ e ∈ planned, Alternatives e.pid e.sleep e.node.branch := by
  induction events generalizing planned with
  | nil => cases hnext
  | cons d events ih =>
      have hd := hevents d List.mem_cons_self
      have hrest := fun e he => hevents e (List.mem_cons_of_mem d he)
      rw [nextExecution] at hnext
      cases hlater : nextExecution events with
      | some later =>
          rw [hlater] at hnext
          cases hnext
          intro e he
          cases List.mem_cons.mp he with
          | inl heq => exact heq ▸ hd
          | inr he => exact ih hrest hlater e he
      | none =>
          rw [hlater] at hnext
          obtain ⟨b, hb, rfl⟩ := Option.map_eq_some_iff.mp hnext
          intro e he
          rw [List.mem_singleton.mp he]
          exact alternatives_branchOff hd hb

theorem Invariant.reset (h : Invariant t) (hstep : t.reset = some u) : Invariant u := by
  obtain ⟨planned, hplanned, rfl⟩ := Option.map_eq_some_iff.mp hstep
  refine ⟨⟨rfl, fun _ _ hb => absurd hb List.not_mem_nil, ?_, h.calls⟩, observed_initial true⟩
  refine alternatives_nextExecution ?_ hplanned
  intro e he
  cases List.mem_append.mp he with
  | inl he => exact alternatives_executed h.toBranching he
  | inr he => exact h.planned e he

/-! ### All turns -/

theorem Invariant.step {turn : Turn} (h : Invariant t) (hstep : t.step turn = some u) :
    Invariant u := by
  cases turn with
  | next => exact h.nextEvent hstep
  | «continue» => exact h.continueEvent hstep
  | dryRun => exact h.beginDryRun hstep
  | cancelReplay =>
      cases hstep
      have hturn : t.recorder.step .cancelReplay = some { t.recorder with replay := false } := rfl
      exact ⟨⟨h.nodes, h.alternatives, nofun, h.calls⟩, h.observed.same hturn rfl⟩
  | schedule pid => exact (h.newEvent hstep).1
  | refused pid lock => exact h.refusedEvent hstep
  | call call => exact h.performCall hstep
  | lockFail m =>
      rw [PsoExploration.step, Option.ite_none_right_eq_some] at hstep
      obtain ⟨hcalling, hsame⟩ := (h.calling hstep.1).mutexLockFail hstep.2
      refine ⟨hcalling.toBranching, ?_⟩
      rw [hsame]
      exact h.observed
  | reset => exact h.reset hstep

theorem initial_invariant : Invariant initial :=
  ⟨⟨rfl, fun _ _ hb => absurd hb List.not_mem_nil, nofun, nofun⟩, observed_initial false⟩

/-- Every call of `add_branch` leaves a branch, or a thread that is asleep, that can begin the
reversal of the race. -/
theorem addsSource_of_run {turns : List Turn} (hrun : run step initial turns = some t) :
    ∀ call ∈ t.calls, AddsSource call.before call.i call.j :=
  (run_invariant (fun _ _ _ h hstep => Invariant.step h hstep) initial_invariant hrun).calls

/-- Two threads write to a byte, first in one order and then in the other one. -/
def reversedRace (b : SymAddr) : List Turn :=
  let ml : AccessRange := ⟨⟨b, 1⟩, Nat.one_pos⟩
  let write : Turn := .call (.compareExchange ml true)
  [.schedule 0, .call .spawn, .schedule 0, write, .schedule 1, write, .reset,
    .next, .call .spawn, .dryRun, write, .next, write, .schedule 0, write]

/-- In the second execution the thread that was first is asleep. -/
theorem addsSource_reversedRace : ∃ t, run step initial (reversedRace ⟨.global 0, 0⟩) = some t ∧
    t.calls.length = 2 ∧ ∀ call ∈ t.calls, AddsSource call.before call.i call.j := by
  have hrun : (run step initial (reversedRace ⟨.global 0, 0⟩)).isSome = true := by
    decide +kernel
  have hcalls : ((run step initial (reversedRace ⟨.global 0, 0⟩)).all fun t =>
      t.calls.length = 2) = true := by
    decide +kernel
  rw [(Option.some_get hrun).symm, Option.all_some, decide_eq_true_eq] at hcalls
  exact ⟨_, (Option.some_get hrun).symm, hcalls, addsSource_of_run (Option.some_get hrun).symm⟩

end Nidhugg.PsoExploration
