import Nidhugg.Library.LabelledRun
import Nidhugg.Verification.PowerArmRuns.Calls

/-! # The count of nonblocking events

`sleepset_is_empty` tells from the count whether a run is blocked. `reset` starts the count anew,
and `replay` does not, so the count is right up to the first `replay` of a run in which nonblocking
events are left. -/

namespace Nidhugg.PowerArmRuns

namespace TB

open LabelledRun

variable {tb tb' : TB} {iid : IID} {evt : Event}

/-! ### The next run -/

/-- An operation that only prepares the next run: it neither completes nor commits an event. -/
structure Prepares (tb tb' : TB) : Prop where
  threads : tb'.threads = tb.threads
  events : ∀ iid v', tb'.view iid = some v' → ∃ v, tb.view iid = some v ∧
    v'.committed = v.committed ∧ (v'.complete = true → v.complete = true)

theorem Prepares.refl : Prepares tb tb := ⟨rfl, fun _ v' hv' => ⟨v', hv', rfl, id⟩⟩

theorem Prepares.trans {tb'' : TB} (h : Prepares tb tb') (h' : Prepares tb' tb'') :
    Prepares tb tb'' := by
  refine ⟨h'.threads.trans h.threads, fun iid v'' hv'' => ?_⟩
  obtain ⟨v', hv', hcommitted', hcomplete'⟩ := h'.events iid v'' hv''
  obtain ⟨v, hv, hcommitted, hcomplete⟩ := h.events iid v' hv'
  exact ⟨v, hv, hcommitted'.trans hcommitted, fun hc => hcomplete (hcomplete' hc)⟩

theorem prepares_modifyEvt {f : Event → Event}
    (hcommitted : ∀ evt, (f evt).committed = evt.committed)
    (hcomplete : ∀ evt, (f evt).filledStatus = .complete → evt.filledStatus = .complete) :
    Prepares tb (tb.modifyEvt iid f) := by
  refine ⟨rfl, fun other v' hv' => ?_⟩
  rw [view_modifyEvt_eq] at hv'
  by_cases hother : other = iid
  · subst hother
    rw [Function.update_self] at hv'
    obtain ⟨evt, hevt, rfl⟩ := Option.map_eq_some_iff.mp hv'
    refine ⟨evt.view, by rw [view, hevt, Option.map_some], hcommitted evt, fun hc => ?_⟩
    simp only [Event.view, decide_eq_true_eq] at hc ⊢
    exact hcomplete evt hc
  · rw [Function.update_of_ne hother] at hv'
    exact ⟨v', hv', rfl, id⟩

theorem prepares_nextParam (i : ℕ) (evt : Event) : Prepares tb (tb.nextParam i iid evt).1 := by
  have hparam : Prepares tb (tb.modifyEvt iid fun evt =>
      { evt with
        curParam := evt.newParams.getLast?.getD evt.curParam
        newParams := evt.newParams.dropLast }) := prepares_modifyEvt (fun _ => rfl) fun _ => id
  unfold nextParam
  simp only
  split
  · exact hparam
  · split
    · exact hparam
    · refine hparam.trans (prepares_modifyEvt ?_ ?_)
      · exact fun _ => rfl
      · intro evt hcomplete
        cases hcomplete

theorem prepares_lockEvents (i branchEnd : ℕ) (pes : List PowerArmBranches.PEvent) :
    Prepares tb (pes.foldl (lockEvent i branchEnd) tb) := by
  induction pes generalizing tb with
  | nil => exact .refl
  | cons pe pes ih =>
      rw [List.foldl_cons]
      refine Prepares.trans (prepares_modifyEvt ?_ ?_) ih
      · exact fun _ => rfl
      · intro evt hcomplete
        cases hcomplete

theorem prepares_recalcTail (B : PowerArmBranches.Branch) : Prepares tb (recalcTail tb B) := by
  unfold recalcTail
  split
  · refine Prepares.trans (prepares_modifyEvt ?_ ?_) (prepares_modifyEvt ?_ ?_)
    · exact fun _ => rfl
    · exact fun _ => id
    · exact fun _ => rfl
    · exact fun _ => id
  · exact prepares_modifyEvt (fun _ => rfl) fun _ => id
  · exact .refl

theorem prepares_nextBranch (i : ℕ) (B : PowerArmBranches.Branch)
    (branches : List PowerArmBranches.Branch) :
    Prepares tb (tb.nextBranch i iid B branches).1 := by
  have hbranches (tb : TB) (iid : IID) (f : List PowerArmBranches.Branch →
      List PowerArmBranches.Branch) : Prepares tb (tb.modifyEvt iid fun evt =>
      { evt with newBranches := f evt.newBranches }) :=
    prepares_modifyEvt (fun _ => rfl) fun _ => id
  have hpfx (tb : TB) (pfx : List IID) : Prepares tb { tb with pfx := pfx } :=
    ⟨rfl, Prepares.refl.events⟩
  have hlocked := ((((hbranches tb iid fun _ => []).trans (hpfx _
    (tb.pfx.take i ++ B.branch.map (·.iid) ++ tb.pfx.drop (i + B.branch.length)))).trans
      (prepares_lockEvents i (i + B.branch.length - 1) B.branch)).trans (prepares_recalcTail B))
  unfold nextBranch
  simp only
  split
  · exact hlocked
  · exact hlocked.trans (hbranches _ _ fun old => PowerArmBranches.unionExceptOne old branches)

theorem isFetched_clearRun : tb.clearRun.isFetched iid = false := by
  unfold isFetched
  cases hT : tb.clearRun.threads[iid.pid]? with
  | none => rfl
  | some T => exact no_event_of_new (List.mem_of_getElem? hT)

theorem pendingIids_clearRun : tb.clearRun.pendingIids = ∅ := by
  ext iid
  rw [mem_pendingIids, isFetched_clearRun]
  simp

/-- After the events have been cleared, none that is complete is committed. -/
theorem wellFormed_clearRun {kept : IID → Event → Bool} (hwf : tb.WellFormed)
    (hprepares : Prepares tb tb') : (tb'.clearEvents kept).clearRun.WellFormed := by
  refine ⟨fun iid hiid => ?_, fun T hT => ?_, fun iid _ => ?_⟩
  · rw [isFetched_clearRun] at hiid
    cases hiid
  · rw [List.mem_singleton.mp hT]
    exact le_refl _
  · have hview : (tb'.clearEvents kept).clearRun.view iid =
        ((tb'.clearEvents kept).getEvt iid).map Event.view := rfl
    rw [hview, clearEvents, getEvt_mapEvents, Option.map_map]
    cases hevt : tb'.getEvt iid with
    | none => rfl
    | some evt =>
        simp only [Option.map_some, Option.all_some, Function.comp_apply]
        split
        · -- the event of the last run is kept without its accesses, or it is emptied
          split
          · simp [Event.view]
          · simp [Event.view]
        · rename_i hfetched
          have hunfetched : tb.isFetched iid = false := by
            rw [← isFetched_congr (congrArg _ hprepares.threads)]
            exact Bool.eq_false_iff.mpr hfetched
          obtain ⟨v, hv, hcommitted, hcomplete⟩ :=
            hprepares.events iid evt.view (by rw [view, hevt, Option.map_some])
          have hwaiting := hwf.waiting iid hunfetched
          simp only [hv, Option.all_some, Bool.or_eq_true, Bool.not_eq_true'] at hwaiting
          rw [Bool.or_eq_true, Bool.not_eq_true', Bool.not_eq_true', hcommitted]
          rcases hwaiting with h | h
          · left
            rw [Bool.eq_false_iff] at h ⊢
            exact fun hc => h (hcomplete hc)
          · exact .inr h

/-- The end of `reset`. -/
theorem keeps_clearRun {kept : IID → Event → Bool} (hprepares : Prepares tb tb') (pfx : List IID) :
    Keeps tb { (tb'.clearEvents kept).clearRun with
      pfx := pfx
      uncommittedNonblockingCount := 0 } := by
  intro hwf
  have hcleared : (tb'.clearEvents kept).clearRun.WellFormed := wellFormed_clearRun hwf hprepares
  refine ⟨⟨hcleared.filled, hcleared.addrKnown, hcleared.waiting⟩, fun _ => ?_⟩
  change (0 : ℤ) = ((tb'.clearEvents kept).clearRun.pendingIids.card : ℤ)
  rw [pendingIids_clearRun, Finset.card_empty]
  rfl

theorem keeps_reset : Keeps tb tb.reset := by
  unfold reset
  split
  · exact Keeps.refl
  · rename_i i iid evt _
    simp only
    split
    · exact keeps_clearRun (prepares_nextBranch i _ _) _
    · exact keeps_clearRun (prepares_nextParam i evt) _

theorem wellFormed_replay (hwf : tb.WellFormed) : tb.replay.WellFormed :=
  wellFormed_clearRun hwf .refl

/-- `replay` leaves the count as it is, but no event is fetched any more. -/
theorem counted_replay_iff (hcounted : tb.Counted) : tb.replay.Counted ↔ tb.pendingIids = ∅ := by
  change tb.uncommittedNonblockingCount = (tb.replay.pendingIids.card : ℤ) ↔ _
  have hempty : tb.replay.pendingIids = ∅ := pendingIids_clearRun
  rw [hempty, hcounted, Finset.card_empty, Int.natCast_inj, Finset.card_eq_zero]

/-! ### Runs -/

theorem wellFormed_init : init.WellFormed := by
  refine ⟨fun iid hiid => ?_, fun T hT => ?_, fun iid _ => ?_⟩
  · have hnone : init.clearRun.isFetched iid = false := isFetched_clearRun
    exact absurd (hnone.symm.trans hiid) (by decide)
  · rw [List.mem_singleton.mp hT]
    exact le_refl _
  · have hnone : init.getEvt iid = none := by
      unfold getEvt
      split
      · rfl
      · cases hevents : init.fch[iid.pid]? with
        | none => rfl
        | some events =>
            have hnil := List.mem_singleton.mp (List.mem_of_getElem? hevents)
            rw [hnil]
            rfl
    rw [view, hnone]
    rfl

theorem counted_init : init.Counted := by
  change (0 : ℤ) = (init.clearRun.pendingIids.card : ℤ)
  rw [pendingIids_clearRun, Finset.card_empty]
  rfl

/-- Every call but `replay`. -/
theorem keeps_step {call : Call} (h : tb.step call = some tb') (hcall : call ≠ .replay) :
    Keeps tb tb' := by
  cases call with
  | spawn proc => exact keeps_spawn h
  | fetch proc loadCount storeCount => exact keeps_fetch h
  | registerAddr iid => exact keeps_registerAddr h
  | registerData iid => exact keeps_registerData h
  | registerLoadRequirement iid a f => exact keeps_registerLoadRequirement h
  | schedule R => exact keeps_schedule h
  | abort =>
      cases h
      exact Same.keeps ⟨rfl, rfl, rfl, id⟩
  | reset =>
      cases h
      exact keeps_reset
  | replay => exact absurd rfl hcall

theorem wellFormed_step {call : Call} (hwf : tb.WellFormed) (h : tb.step call = some tb') :
    tb'.WellFormed := by
  cases call with
  | replay =>
      cases h
      exact wellFormed_replay hwf
  | _ => exact (keeps_step h (by simp) hwf).1

/-- The count is the number of fetched, uncommitted events without load requirements, and tells
whether there are any. -/
def Accounted (tb : TB) : Prop :=
  tb.uncommittedNonblockingCount = tb.pendingIids.card ∧
    (tb.sleepsetIsEmpty = true ↔ tb.pendingIids = ∅)

/-- A `replay` of a run in which such an event is left. -/
def replaysPending (tb : TB) : Call → Bool
  | .replay => tb.pendingIids ≠ ∅
  | _ => false

theorem accounted_iff : tb.Accounted ↔ tb.Counted := by
  refine ⟨fun h => h.1, fun h => ⟨h, ?_⟩⟩
  rw [sleepsetIsEmpty, h, decide_eq_true_eq, Int.natCast_eq_zero, Finset.card_eq_zero]

theorem accounted_step {call : Call} (hwf : tb.WellFormed) (hacc : tb.Accounted)
    (h : tb.step call = some tb') : tb'.Accounted ↔ tb.replaysPending call = false := by
  rw [accounted_iff] at hacc ⊢
  cases call with
  | replay =>
      cases h
      rw [counted_replay_iff hacc]
      simp [replaysPending]
  | _ =>
      refine iff_of_true ?_ rfl
      exact (keeps_step h (by simp) hwf).2 hacc

/-- The count is right in every state of a run exactly if the run is never replayed while a fetched,
uncommitted event without a load requirement is left. -/
theorem accounted_alwaysAlong_iff {calls : List Call} (hrun : run step init calls = some tb) :
    AlwaysAlong step Accounted init calls ↔ NeverAlong step replaysPending init calls :=
  good_iff_never (fun _ _ _ => wellFormed_step) (fun _ _ _ => accounted_step) wellFormed_init
    (accounted_iff.mpr counted_init) hrun

theorem accounted_alwaysAlong_iff_committed :
    AlwaysAlong step Accounted init
      [.fetch 0 0 1, .registerAddr ⟨0, 1⟩, .registerData ⟨0, 1⟩,
        .schedule ⟨fun _ => true, fun _ => [⟨[.coherence 0], []⟩], fun _ _ branches => branches⟩,
        .abort, .replay] ↔
    NeverAlong step replaysPending init
      [.fetch 0 0 1, .registerAddr ⟨0, 1⟩, .registerData ⟨0, 1⟩,
        .schedule ⟨fun _ => true, fun _ => [⟨[.coherence 0], []⟩], fun _ _ branches => branches⟩,
        .abort, .replay] :=
  accounted_alwaysAlong_iff rfl

/-- An erroneous run in which a store is left whose data is not known, and is then replayed. -/
theorem not_accounted_replay : ¬ ∀ calls tb, run step init calls = some tb → tb.Accounted := by
  intro hall
  have h := hall [.fetch 0 0 1, .registerAddr ⟨0, 1⟩,
    .schedule ⟨fun _ => true, fun _ => [⟨[.coherence 0], []⟩], fun _ _ branches => branches⟩,
    .replay] _ rfl
  exact absurd h.1 (by decide)

end TB

end Nidhugg.PowerArmRuns
