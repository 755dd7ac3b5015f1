import Nidhugg.Verification.PsoRecorder.Dependencies

/-! # Sleeping threads and their next calls

A run of the recorder together with the calls that each thread has made in its last dry run, as
long as the thread has not executed them. -/

namespace Nidhugg

structure PsoSleepers where
  recorder : PsoRecorder
  /-- The calls of the next event of a thread, as its dry run has made them. -/
  dryRuns : ℕ → List PsoCall

namespace PsoSleepers

open PsoRecorder

variable {h k : PsoSleepers} {s t : PsoRecorder} {pid p i : ℕ} {call : PsoCall} {turn : Turn}

def initial (replay : Bool) : PsoSleepers := ⟨PsoRecorder.initial replay, fun _ => []⟩

def noteTurn (h : PsoSleepers) : Turn → ℕ → List PsoCall
  | .dryRun pid =>
      if h.recorder.asleep pid then h.dryRuns else Function.update h.dryRuns pid []
  | .call call =>
      match h.recorder.running with
      | .dryRun pid => Function.update h.dryRuns pid (h.dryRuns pid ++ [call])
      | .event | .nobody => h.dryRuns
  | .next pid _ | .schedule pid => Function.update h.dryRuns pid []
  | .continue | .cancelReplay | .refused _ => h.dryRuns

def step (h : PsoSleepers) (turn : Turn) : Option PsoSleepers :=
  (h.recorder.step turn).map fun s => ⟨s, h.noteTurn turn⟩

/-- The thread of the current event. -/
def current (h : PsoSleepers) : ℕ := h.recorder.pidOf h.recorder.prefixIdx

/-- No thread that sleeps on while an event of another real thread executes has a next call that
would see the event. -/
def WokenUp (h : PsoSleepers) : Prop :=
  h.recorder.running = .event → ∀ p, h.recorder.asleep p = true →
    h.recorder.realThread p ≠ h.recorder.realThread h.current → ∀ call ∈ h.dryRuns p,
      h.recorder.prefixIdx ∉ h.recorder.sees p call

/-- The same for all places where the next call looks. -/
def Unseen (h : PsoSleepers) : Prop :=
  h.recorder.running = .event → ∀ p, h.recorder.asleep p = true →
    h.recorder.realThread p ≠ h.recorder.realThread h.current → ∀ call ∈ h.dryRuns p,
      ∀ loc, h.recorder.LooksAt p loc call → ¬ h.recorder.RecordedAt h.recorder.prefixIdx loc

theorem Unseen.wokenUp (hunseen : Unseen h) : WokenUp h := by
  intro hrunning p hasleep hother call hcall hsees
  obtain ⟨loc, hrecorded, hlooks⟩ := exists_of_mem_sees hsees
  exact hunseen hrunning p hasleep hother call hcall loc hlooks hrecorded

/-- What holds in all reachable states. -/
structure Invariant (h : PsoSleepers) : Prop where
  numbered : h.recorder.Numbered
  projected : h.recorder.Projected
  noted : ∀ i, h.recorder.Noted i → h.recorder.Conflicts i
  pids : ∀ pid ∈ h.recorder.pids, pid < h.recorder.threadCount
  calls : ∀ p, h.recorder.asleep p = true → ∀ call ∈ h.dryRuns p, NotedCall h.recorder p call
  fresh : ∀ p, h.recorder.threadCount ≤ p → h.dryRuns p = []
  event : h.recorder.running = .event → h.recorder.events ≠ [] ∧ h.dryRuns h.current = []
  dryRun : ∀ p, h.recorder.running = .dryRun p → p < h.recorder.threadCount

/-! ### Turns that change neither threads nor records -/

/-- A state that differs only in clocks, in who is running and in the last events. -/
structure SameRecords (s t : PsoRecorder) : Prop where
  threadCount : t.threadCount = s.threadCount
  threads : t.threads = s.threads
  accesses : t.accesses = s.accesses

theorem SameRecords.numbered (hsame : SameRecords s t) (hs : s.Numbered) : t.Numbered := by
  refine ⟨?_, ?_, ?_⟩
  · rw [hsame.threads, hsame.threadCount]
    exact hs.owner
  · rw [hsame.threads, hsame.threadCount]
    exact hs.proc
  · intro p hp
    rw [asleep, hsame.threads] at hp
    rw [hsame.threadCount]
    exact hs.asleep p hp

theorem SameRecords.projected (hsame : SameRecords s t) (hs : s.Projected) : t.Projected := by
  rw [Projected, hsame.threads]
  exact hs

theorem SameRecords.recordedAt (hsame : SameRecords s t) {loc : PsoLocation}
    (hi : t.RecordedAt i loc) : s.RecordedAt i loc := by
  cases loc <;> simpa only [RecordedAt, hsame.accesses] using hi

theorem SameRecords.noted (hsame : SameRecords s t) (hi : t.Noted i) : s.Noted i := by
  cases hi with
  | inl hi =>
      obtain ⟨loc, hi⟩ := hi
      exact .inl ⟨loc, hsame.recordedAt hi⟩
  | inr hi =>
      rw [RoweOf, hsame.threads] at hi
      exact .inr hi

theorem SameRecords.notedCall (hsame : SameRecords s t) (hs : NotedCall s p call) :
    NotedCall t p call := by
  refine ⟨?_, ?_, ?_, ?_, ?_⟩
  · rw [hsame.threads]
    exact hs.reads
  · rw [hsame.threads]
    exact hs.writes
  · rw [hsame.threads]
    exact hs.full
  · rw [hsame.threads]
    exact hs.real
  · rw [hsame.threads]
    exact hs.ready

/-- The invariant after such a turn. -/
theorem Invariant.of_sameRecords (hinv : Invariant h) (hsame : SameRecords h.recorder t)
    {dryRuns : ℕ → List PsoCall} (hconflicts : ∀ i, h.recorder.Conflicts i → t.Conflicts i)
    (hpids : ∀ pid ∈ t.pids, pid < t.threadCount)
    (hdryRuns : ∀ p, dryRuns p = h.dryRuns p ∨ dryRuns p = [])
    (hevent : t.running = .event → t.events ≠ [] ∧ dryRuns (t.pidOf t.prefixIdx) = [])
    (hdryRun : ∀ p, t.running = .dryRun p → p < t.threadCount) : Invariant ⟨t, dryRuns⟩ where
  numbered := hsame.numbered hinv.numbered
  projected := hsame.projected hinv.projected
  noted := fun i hi => hconflicts i (hinv.noted i (hsame.noted hi))
  pids := hpids
  calls := by
    intro p hp call hcall
    have hp' : h.recorder.asleep p = true := by
      rw [asleep] at hp ⊢
      rwa [hsame.threads] at hp
    have hcall' : call ∈ dryRuns p := hcall
    cases hdryRuns p with
    | inl heq =>
        rw [heq] at hcall'
        exact hsame.notedCall (hinv.calls p hp' call hcall')
    | inr heq =>
        rw [heq] at hcall'
        exact absurd hcall' List.not_mem_nil
  fresh := by
    intro p hp
    rw [hsame.threadCount] at hp
    cases hdryRuns p with
    | inl heq => exact heq.trans (hinv.fresh p hp)
    | inr heq => exact heq
  event := hevent
  dryRun := hdryRun

theorem initial_invariant (replay : Bool) : Invariant (initial replay) where
  numbered := by
    refine ⟨?_, ?_, ?_⟩
    · intro p q hq
      cases hq
    · intro p q hp hq _ _ _
      have hp' : p < 1 := hp
      have hq' : q < 1 := hq
      omega
    · intro p hp
      cases hp
  projected := fun p _ => ⟨[], ByteBuffers.keyed_empty, fun _ => rfl⟩
  noted := by
    intro i hi
    cases hi with
    | inl hi =>
        obtain ⟨loc, hi⟩ := hi
        cases loc with
        | full => cases hi
        | update | read | mutex | signal | waiters =>
            obtain ⟨info, hmem, -⟩ := hi
            exact absurd hmem List.not_mem_nil
    | inr hi =>
        obtain ⟨p, b, pst, hmem, -⟩ := hi
        exact absurd hmem List.not_mem_nil
  pids := fun pid hpid => absurd hpid List.not_mem_nil
  calls := fun p _ call hcall => absurd hcall List.not_mem_nil
  fresh := fun _ _ => rfl
  event := fun hrunning => by cases hrunning
  dryRun := fun p hrunning => by cases hrunning

/-! ### Scheduling -/

theorem getLast?_pids (hne : s.events ≠ []) :
    ∃ e, s.events.getLast? = some e ∧ e.iid.pid = s.pidOf s.prefixIdx := by
  refine ⟨s.events.getLast hne, List.getLast?_eq_some_getLast hne, ?_⟩
  rw [pidOf, prefixIdx, ← List.getLast?_eq_getElem?, List.getLast?_eq_some_getLast hne]
  rfl

theorem pids_beginEvent (alt : ℕ) : (s.beginEvent pid alt).pids = s.pids ++ [pid] := by
  simp [pids, beginEvent, setThreadClock]

theorem pidOf_beginEvent (alt : ℕ) :
    (s.beginEvent pid alt).pidOf (s.beginEvent pid alt).prefixIdx = pid := by
  rw [pidOf_eq, prefixIdx_eq, pids_beginEvent]
  simp

theorem Conflicts.beginEvent (hi : s.Conflicts i) (alt : ℕ) :
    (s.beginEvent pid alt).Conflicts i := by
  obtain ⟨e, he, hconflict⟩ := hi
  refine ⟨e, ?_, hconflict⟩
  have hlt := (List.getElem?_eq_some_iff.mp he).1
  change (s.events ++ _)[i]? = some e
  rw [List.getElem?_append_left hlt]
  exact he

/-- A new event is not recorded anywhere. -/
theorem Invariant.beginEvent (hinv : Invariant h) (hpid : pid < h.recorder.threadCount)
    (alt : ℕ) :
    Invariant ⟨h.recorder.beginEvent pid alt, Function.update h.dryRuns pid []⟩ ∧
      Unseen ⟨h.recorder.beginEvent pid alt, Function.update h.dryRuns pid []⟩ := by
  have hsame : SameRecords h.recorder (h.recorder.beginEvent pid alt) := ⟨rfl, rfl, rfl⟩
  constructor
  · refine hinv.of_sameRecords hsame (fun i hi => Conflicts.beginEvent hi alt) ?_ ?_ ?_ ?_
    · intro q hq
      rw [pids_beginEvent] at hq
      cases List.mem_append.mp hq with
      | inl hq => exact hinv.pids q hq
      | inr hq => exact (List.mem_singleton.mp hq) ▸ hpid
    · intro p
      by_cases hp : p = pid
      · exact .inr (by rw [hp, Function.update_self])
      · exact .inl (Function.update_of_ne hp ..)
    · intro _
      refine ⟨by simp [PsoRecorder.beginEvent], ?_⟩
      rw [pidOf_beginEvent, Function.update_self]
    · intro p hp
      cases hp
  · intro _ p _ _ call _ loc _ hrecorded
    have hlt := (hinv.noted _ (.inl ⟨loc, hsame.recordedAt hrecorded⟩)).lt
    rw [prefixIdx] at hlt
    simp [PsoRecorder.beginEvent] at hlt

/-- Popping an event without conflicts. -/
theorem Conflicts.dropLast {e : PsoEvent} {events : List PsoEvent} (hi : s.Conflicts i)
    (hevents : s.events = events ++ [e]) (he : e.mayConflict = false) :
    ∃ d, events[i]? = some d ∧ d.mayConflict = true := by
  obtain ⟨d, hd, hconflict⟩ := hi
  rw [hevents] at hd
  by_cases hlt : i < events.length
  · rw [List.getElem?_append_left hlt] at hd
    exact ⟨d, hd, hconflict⟩
  · rw [List.getElem?_append_right (Nat.le_of_not_lt hlt)] at hd
    obtain ⟨hlt', heq⟩ := List.getElem?_eq_some_iff.mp hd
    rw [List.getElem_singleton] at heq
    rw [← heq, he] at hconflict
    cases hconflict

theorem mergeLast_cases (s : PsoRecorder) : s.mergeLast = s ∨
    ∃ events e, s.events = events ++ [e] ∧ e.mayConflict = false ∧
      s.mergeLast = { s with events := events } := by
  rw [mergeLast]
  split
  · rename_i e d rest hreverse
    split
    · rename_i hmerge
      rw [Bool.and_eq_true, Bool.and_eq_true, Bool.not_eq_true'] at hmerge
      have hevents : s.events = (d :: rest).reverse ++ [e] := by
        rw [← List.reverse_reverse s.events, hreverse, List.reverse_cons]
      refine .inr ⟨(d :: rest).reverse, e, hevents, hmerge.1.2, ?_⟩
      rw [hevents, List.dropLast_concat]
    · exact .inl rfl
  · exact .inl rfl

theorem Invariant.mergeLast (hinv : Invariant h) (replay : Bool) :
    Invariant ⟨{ h.recorder.mergeLast with replay := replay, running := .nobody }, h.dryRuns⟩ := by
  cases mergeLast_cases h.recorder with
  | inl heq =>
      rw [heq]
      refine hinv.of_sameRecords (t := { h.recorder with replay := replay, running := .nobody })
        ⟨rfl, rfl, rfl⟩ (fun i hi => hi) hinv.pids (fun p => .inl rfl) ?_ ?_
      · intro hrunning
        cases hrunning
      · intro p hrunning
        cases hrunning
  | inr hmerge =>
      obtain ⟨events, e, hevents, he, heq⟩ := hmerge
      rw [heq]
      refine hinv.of_sameRecords (t := { h.recorder with
          events := events, replay := replay, running := .nobody })
        ⟨rfl, rfl, rfl⟩ ?_ ?_ (fun p => .inl rfl) ?_ ?_
      · exact fun i hi => Conflicts.dropLast hi hevents he
      · intro pid hpid
        refine hinv.pids pid ?_
        rw [PsoRecorder.pids, hevents, List.map_append]
        exact List.mem_append_left _ hpid
      · intro hrunning
        cases hrunning
      · intro p hrunning
        cases hrunning

theorem newEvent_eq_some (hstep : s.newEvent pid = some t) : pid < s.threadCount ∧
    t = { s.mergeLast with replay := false, running := .nobody }.beginEvent pid 0 := by
  rw [newEvent, Option.ite_none_right_eq_some, Bool.and_eq_true, Bool.and_eq_true,
    decide_eq_true_eq] at hstep
  exact ⟨hstep.1.1.2, (Option.some.inj hstep.2).symm⟩

theorem threadCount_mergeLast : s.mergeLast.threadCount = s.threadCount := by
  cases mergeLast_cases s with
  | inl heq => rw [heq]
  | inr hmerge =>
      obtain ⟨events, e, -, -, heq⟩ := hmerge
      rw [heq]

theorem Invariant.newEvent (hinv : Invariant h) (hstep : h.recorder.newEvent pid = some t) :
    Invariant ⟨t, Function.update h.dryRuns pid []⟩ ∧
      Unseen ⟨t, Function.update h.dryRuns pid []⟩ := by
  obtain ⟨hpid, rfl⟩ := newEvent_eq_some hstep
  refine (hinv.mergeLast false).beginEvent ?_ 0
  change pid < h.recorder.mergeLast.threadCount
  rw [threadCount_mergeLast]
  exact hpid

end PsoSleepers

end Nidhugg
