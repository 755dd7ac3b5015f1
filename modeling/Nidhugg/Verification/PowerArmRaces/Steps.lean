import Nidhugg.Verification.PowerArmRaces.Scheduling

/-! # What the calls of a run keep

The branches that a search for conflicts adds fit, and so does an event that has been committed. -/

namespace Nidhugg.PowerArmRaces

open PowerArmBranches PowerArmRuns

namespace TB

variable {prog : Program} {tb tb' : TB} {R : Relations} {w e : IID} {replay : Bool}
  {P : List Choice} {newParams : List (List Choice)} {mem : Memory}

/-! ### Branches that are added -/

/-- Branches that are added to an event start where it is in the prefix. -/
structure Adds (tb tb' : TB) : Prop where
  branches : ∀ e, ∀ B ∈ (tb'.evt e).newBranches, B ∈ (tb.evt e).newBranches ∨
    ∃ i, tb.pfx[i]? = some e ∧ B.branch ≠ [] ∧
      (tb.pfx.take i ++ B.branch.map PEvent.iid).Nodup
  locked : ∀ e, (tb'.evt e).lockedBranch = (tb.evt e).lockedBranch

theorem Detecting.adds (h : tb.Detecting R w) (hdetected : tb.Detected R w tb') : tb.Adds tb' where
  branches := by
    intro e B hB
    cases hdetected.branches e B hB with
    | inl hold => exact .inl hold
    | inr hnew =>
        obtain ⟨r, hr, hstart, hbranch⟩ := hnew
        exact .inr ⟨_, hstart, h.raceBranch_fits hr hbranch⟩
  locked := by
    intro e
    rw [hdetected.same.evt e]

/-- The prefix may get longer. -/
theorem BranchesFit.add (h : tb.BranchesFit) (hnodup : tb.pfx.Nodup) (hadds : tb.Adds tb')
    (more : List IID) (hpfx : tb'.pfx = tb.pfx ++ more) (hmore : ∀ e ∈ more, e ∉ tb.pfx) :
    tb'.BranchesFit where
  fits := by
    intro i e he B hB
    rw [hpfx] at he ⊢
    have hold : ∀ j, tb.pfx[j]? = some e →
        (tb.pfx ++ more).take j = tb.pfx.take j ∧ (tb.pfx ++ more)[j]? = some e := by
      intro j hj
      have hlt := (List.getElem?_eq_some_iff.mp hj).1
      exact ⟨List.take_append_of_le_length hlt.le, by rw [List.getElem?_append_left hlt, hj]⟩
    by_cases hlt : i < tb.pfx.length
    · rw [List.getElem?_append_left hlt] at he
      rw [(hold i he).1]
      cases hadds.branches e B hB with
      | inl hB => exact h.fits i e he B hB
      | inr hnew =>
          obtain ⟨j, hj, hfits⟩ := hnew
          obtain rfl := (List.getElem?_inj hlt hnodup).mp (he.trans hj.symm)
          exact hfits
    · have hmem : e ∉ tb.pfx := by
        apply hmore
        rw [List.getElem?_append_right (Nat.le_of_not_lt hlt)] at he
        exact List.mem_of_getElem? he
      cases hadds.branches e B hB with
      | inl hB =>
          rw [h.outside e hmem] at hB
          cases hB
      | inr hnew =>
          obtain ⟨j, hj, _⟩ := hnew
          exact (hmem (List.mem_of_getElem? hj)).elim
  outside := by
    intro e he
    rw [hpfx] at he
    have hmem : e ∉ tb.pfx := fun hmem => he (List.mem_append_left _ hmem)
    apply List.eq_nil_iff_forall_not_mem.mpr
    intro B hB
    cases hadds.branches e B hB with
    | inl hB =>
        rw [h.outside e hmem] at hB
        cases hB
    | inr hnew =>
        obtain ⟨j, hj, _⟩ := hnew
        exact hmem (List.mem_of_getElem? hj)
  locked := by
    intro e start branchEnd he
    rw [hadds.locked e] at he
    exact h.locked e start branchEnd he

theorem Invariant.detected (h : tb.Invariant prog) (hdetecting : tb.Detecting R w)
    (hdetected : tb.Detected R w tb') : tb'.Invariant prog where
  nodup := by
    rw [hdetected.same.pfx]
    exact h.nodup
  planned := by
    refine h.planned.weaken hdetected.same.pfx fun e => ?_
    rw [hdetected.same.evt e]
    exact .kept rfl rfl fun _ => id
  branches := by
    refine h.branches.add h.nodup (hdetecting.adds hdetected) [] ?_ ?_
    · rw [List.append_nil, hdetected.same.pfx]
    · simp
  running := by
    refine h.running.frame hdetected.same.pfx hdetected.same.schedCount hdetected.same.mem
      hdetected.same.fchCount (fun e _ => ?_) fun e => ?_
    · rw [hdetected.same.evt e]
    · rw [hdetected.same.evt e]
      exact ⟨rfl, rfl, rfl, rfl⟩
  clocked := by
    refine h.clocked.frame hdetected.same.pfx hdetected.same.schedCount
      hdetected.same.nextClockIndex hdetected.same.fchCount fun e => ?_
    rw [hdetected.same.evt e]
    exact ⟨rfl, rfl, rfl⟩

/-! ### An event that is committed -/

/-- What a successful attempt changes. -/
structure Committed (tb : TB) (R : Relations) (w : IID) (P : List Choice)
    (newParams : List (List Choice)) (mem : Memory) (more : List IID) (tb' : TB) : Prop where
  pfx : tb'.pfx = tb.pfx ++ more
  schedCount : tb'.schedCount = tb.schedCount + 1
  fchCount : tb'.fchCount = tb.fchCount
  nextClockIndex : tb'.nextClockIndex = tb.nextClockIndex
  mem : tb'.mem = mem
  self : tb'.evt w = { tb.evt w with
    committed := true
    curParam := P
    newParams := newParams
    recalcParams := .no
    newBranches := (tb'.evt w).newBranches
    cbBwd := tb.computeCb R w (sources P) }
  other : ∀ e, e ≠ w → tb'.evt e = { tb.evt e with newBranches := (tb'.evt e).newBranches }
  adds : tb.Adds tb'

theorem Committed.clock {more : List IID} (h : tb.Committed R w P newParams mem more tb')
    (e : IID) : (tb'.evt e).clockIndex = (tb.evt e).clockIndex := by
  by_cases he : e = w
  · rw [he, h.self]
  · rw [h.other e he]

/-- The part of the prefix that an attempt adds. -/
def added (w : IID) (replay : Bool) : List IID := if replay then [] else [w]

section

variable (h : Attempted prog R tb w replay)
  (hcommitted : tb.Committed R w P newParams mem (added w replay) tb')

include h hcommitted

theorem Attempted.take (i : ℕ) (hi : i ≤ tb.schedCount) : tb'.pfx.take i = tb.pfx.take i := by
  rw [hcommitted.pfx, List.take_append_of_le_length (hi.trans h.invariant.running.le)]

theorem Attempted.getElem? : tb'.pfx[tb.schedCount]? = some w := by
  rw [hcommitted.pfx]
  cases replay with
  | true =>
      rw [added, if_pos rfl, List.append_nil]
      exact h.planned rfl
  | false =>
      rw [added, if_neg Bool.false_ne_true, (h.new rfl).1, List.getElem?_concat_length]

theorem Attempted.scheduled : tb'.scheduled = tb.scheduled ++ [w] := by
  rw [TB.scheduled, hcommitted.schedCount, List.take_add_one,
    h.getElem? hcommitted, h.take hcommitted _ le_rfl]
  rfl

theorem Attempted.evt_scheduled (he : e ∈ tb.scheduled) :
    tb'.evt e = { tb.evt e with newBranches := (tb'.evt e).newBranches } := by
  have hne : e ≠ w := fun heq => h.idle (heq ▸ he)
  exact hcommitted.other e hne

theorem Attempted.planned_eq (i : ℕ) (hi : i ≤ tb.schedCount) : tb'.planned i = tb.planned i := by
  apply planned_congr (h.take hcommitted i hi)
  intro e he
  rw [h.evt_scheduled hcommitted (List.take_subset_take_left tb.pfx hi he)]

theorem Attempted.nodup : tb'.pfx.Nodup := by
  rw [hcommitted.pfx]
  cases replay with
  | true =>
      rw [added, if_pos rfl, List.append_nil]
      exact h.invariant.nodup
  | false =>
      rw [added, if_neg Bool.false_ne_true, ← List.concat_eq_append]
      exact h.invariant.nodup.concat (h.new rfl).2

theorem Attempted.branchesFit : tb'.BranchesFit := by
  refine h.invariant.branches.add h.invariant.nodup hcommitted.adds _ hcommitted.pfx fun e he => ?_
  cases replay with
  | true => cases he
  | false =>
      rw [added, if_neg Bool.false_ne_true, List.mem_singleton] at he
      exact he ▸ (h.new rfl).2

theorem Attempted.running (hfits : Fitting tb.mem (tb.evt w).accesses.baccesses P)
    (hcommit : commitAccesses (tb.evt w).accesses.baccesses tb.mem ⟨w, P⟩ = some mem) :
    tb'.Running prog := by
  have hw := h.getElem? hcommitted
  have hself := hcommitted.self
  have hscheduled := h.scheduled hcommitted
  constructor
  · rw [hcommitted.schedCount]
    exact (List.getElem?_eq_some_iff.mp hw).1
  · have hpevent : tb'.pevent w = ⟨w, P⟩ := by rw [pevent, hself]
    rw [history, hcommitted.schedCount, planned_succ hw, h.planned_eq hcommitted _ le_rfl, hpevent,
      hcommitted.mem]
    rw [h.accesses] at hfits hcommit
    exact .cons h.invariant.running.results hfits hcommit
  · intro i e hi he
    rw [hcommitted.schedCount] at hi
    rw [h.planned_eq hcommitted i (Nat.le_of_lt_succ hi)]
    by_cases hlt : i < tb.schedCount
    · have hold : tb.pfx[i]? = some e := by
        have htake := congrArg (fun l => l[i]?) (h.take hcommitted _ le_rfl)
        simp only [List.getElem?_take, if_pos hlt] at htake
        rw [← htake, he]
      rw [h.evt_scheduled hcommitted (mem_scheduled hlt hold)]
      exact h.invariant.running.accesses i e hlt hold
    · obtain rfl : i = tb.schedCount := by omega
      obtain rfl : w = e := Option.some.inj (hw.symm.trans he)
      rw [hself]
      exact h.accesses
  · intro e he
    rw [isFetched_congr hcommitted.fchCount] at he
    rw [hscheduled, List.mem_append, List.mem_singleton]
    by_cases heq : e = w
    · rw [heq, hself]
      simp
    · rw [hcommitted.other e heq, h.invariant.running.committed e he]
      simp [heq]
  · intro e he
    rw [isFetched_congr hcommitted.fchCount]
    rw [hscheduled, List.mem_append, List.mem_singleton] at he
    cases he with
    | inl he => exact h.invariant.running.fetched e he
    | inr he => exact he ▸ h.fetched
  · intro e he
    rw [hscheduled, List.mem_append, List.mem_singleton] at he
    cases he with
    | inl he =>
        rw [h.evt_scheduled hcommitted he]
        exact h.invariant.running.recalc e he
    | inr he => rw [he, hself]
  · intro e he hstatus
    rw [isFetched_congr hcommitted.fchCount] at he
    have hne : e ≠ w := by
      rintro rfl
      rw [h.fetched] at he
      cases he
    rw [hcommitted.other e hne] at hstatus ⊢
    exact h.invariant.running.fresh e he hstatus

theorem Attempted.clocked (hfits : Fitting tb.mem (tb.evt w).accesses.baccesses P) :
    tb'.Clocked := by
  have hclock := hcommitted.clock
  have hscheduled := h.scheduled hcommitted
  have hsrcs := h.sources_mem hfits
  have hself : (tb'.evt w).cbBwd = tb.computeCb R w (sources P) := by rw [hcommitted.self]
  have hold : ∀ e ∈ tb.scheduled, (tb'.evt e).cbBwd = (tb.evt e).cbBwd := by
    intro e he
    rw [h.evt_scheduled hcommitted he]
  have hown : tb.computeCb R w (sources P) (tb.evt w).clockIndex = true := by simp [computeCb]
  have hnot : ∀ d ∈ tb.scheduled, (tb.evt d).clockIndex ≠ (tb.evt w).clockIndex := by
    intro d hd heq
    have hdw := h.invariant.clocked.inj d w (h.invariant.running.fetched d hd) h.fetched heq
    exact h.idle (hdw ▸ hd)
  have hdep : ∀ c, tb.computeCb R w (sources P) c = true → c = (tb.evt w).clockIndex ∨
      ∃ d ∈ tb.scheduled, (tb.evt d).cbBwd c = true := by
    intro c hc
    rw [computeCb, Bool.or_eq_true, decide_eq_true_eq, List.any_eq_true] at hc
    refine hc.imp_right fun hany => ?_
    obtain ⟨d, hd, hbit⟩ := hany
    exact ⟨d, (List.mem_append.mp hd).elim (h.preds d) (hsrcs d), hbit⟩
  constructor
  · intro e he
    rw [isFetched_congr hcommitted.fchCount] at he
    rw [hclock, hcommitted.nextClockIndex]
    exact h.invariant.clocked.lt e he
  · intro d e hd he heq
    rw [isFetched_congr hcommitted.fchCount] at hd he
    rw [hclock, hclock] at heq
    exact h.invariant.clocked.inj d e hd he heq
  · intro e he hmem c hc
    rw [isFetched_congr hcommitted.fchCount] at he
    rw [hscheduled, List.mem_append, List.mem_singleton, not_or] at hmem
    rw [hcommitted.other e hmem.2] at hc ⊢
    exact h.invariant.clocked.idle e he hmem.1 c hc
  · intro e he
    rw [hscheduled, List.mem_append, List.mem_singleton] at he
    rw [hclock]
    cases he with
    | inl he =>
        rw [hold e he]
        exact h.invariant.clocked.own e he
    | inr he =>
        rw [he, hself]
        exact hown
  · intro e he c hc
    rw [hscheduled] at he ⊢
    have hbits : ∀ d ∈ tb.scheduled, (tb.evt d).cbBwd c = true →
        ∃ d ∈ tb.scheduled ++ [w], (tb'.evt d).clockIndex = c := by
      intro d hd hbit
      obtain ⟨f, hf, heq⟩ := h.invariant.clocked.bits d hd c hbit
      exact ⟨f, List.mem_append_left _ hf, (hclock f).trans heq⟩
    rw [List.mem_append, List.mem_singleton] at he
    cases he with
    | inl he => exact hbits e he (hold e he ▸ hc)
    | inr he =>
        rw [he, hself] at hc
        cases hdep c hc with
        | inl heq => exact ⟨w, by simp, (hclock w).trans heq.symm⟩
        | inr hany =>
            obtain ⟨d, hd, hbit⟩ := hany
            exact hbits d hd hbit
  · intro e he d hd hbit c hc
    rw [hscheduled, List.mem_append, List.mem_singleton] at he hd
    rw [hclock] at hbit
    cases he with
    | inl he =>
        rw [hold e he] at hbit ⊢
        cases hd with
        | inl hd =>
            rw [hold d hd] at hc
            exact h.invariant.clocked.closed e he d hd hbit c hc
        | inr hd =>
            obtain ⟨f, hf, heq⟩ := h.invariant.clocked.bits e he _ hbit
            exact (hnot f hf (heq.trans (by rw [hd]))).elim
    | inr he =>
        rw [he] at hbit ⊢
        cases hd with
        | inl hd =>
            rw [hself] at hbit ⊢
            rw [hold d hd] at hc
            exact h.closed_computeCb hsrcs d hd hbit c hc
        | inr hd => exact hd ▸ hc
  · intro e he s hs
    rw [hscheduled, List.mem_append, List.mem_singleton] at he
    rw [hclock, hscheduled]
    cases he with
    | inl he =>
        rw [h.evt_scheduled hcommitted he] at hs
        rw [hold e he]
        obtain ⟨hmem, hbit⟩ := h.invariant.clocked.sources e he s hs
        exact ⟨List.mem_append_left _ hmem, hbit⟩
    | inr he =>
        have hcur : (tb'.evt w).curParam = P := by rw [hcommitted.self]
        rw [he, hcur] at hs
        have hmem := hsrcs s hs
        refine ⟨List.mem_append_left _ hmem, ?_⟩
        rw [he, hself, computeCb, Bool.or_eq_true]
        exact .inr (List.any_eq_true.mpr
          ⟨s, List.mem_append_right _ hs, h.invariant.clocked.own s hmem⟩)

theorem Attempted.plan (hchosen : tb.Chosen R w replay P newParams)
    (hcommit : commitAccesses (tb.evt w).accesses.baccesses tb.mem ⟨w, P⟩ = some mem) :
    tb'.Planned prog := by
  have hfits := h.fitting hchosen hcommit
  have hnew := h.fitting_new hchosen
  cases hchosen with
  | planned hreplay hno =>
      subst hreplay
      refine h.invariant.planned.weaken ?_ fun e => ?_
      · rw [hcommitted.pfx, added, if_pos rfl, List.append_nil]
      · by_cases he : e = w
        · rw [he, hcommitted.self]
          exact .kept hno.symm rfl fun _ => id
        · rw [hcommitted.other e he]
          exact .kept rfl rfl fun _ => id
  | computed hre hP hnewP =>
      refine h.invariant.planned.cut (h.take hcommitted _ le_rfl) (fun e he => ?_) (fun e he => ?_)
        fun e he => ?_
      · rw [h.evt_scheduled hcommitted he]
        exact ⟨rfl, rfl, rfl⟩
      · obtain rfl : w = e := Option.some.inj ((h.getElem? hcommitted).symm.trans he)
        refine .inl ⟨h.invariant.running.recalc, fun mem' hmem' => ?_⟩
        obtain rfl := h.invariant.running.results.unique hmem'
        rw [hcommitted.self, ← history, ← h.accesses]
        exact ⟨fun _ => .inr hfits, hnew⟩
      · rw [hcommitted.pfx] at he
        cases replay with
        | true =>
            rw [added, if_pos rfl, List.append_nil] at he
            have hne : e ≠ w := by
              rintro rfl
              obtain ⟨j, hj⟩ := List.mem_iff_getElem?.mp he
              rw [List.getElem?_drop] at hj
              have hinj := (List.getElem?_inj (List.getElem?_eq_some_iff.mp hj).1
                h.invariant.nodup).mp (hj.trans (h.planned rfl).symm)
              omega
            rw [hcommitted.other e hne]
            have hunsettled := h.invariant.planned.tail _ w (h.planned rfl) (hre rfl) e he
            exact ⟨hunsettled.cur, hunsettled.new⟩
        | false =>
            rw [added, if_neg Bool.false_ne_true, (h.new rfl).1, List.drop_eq_nil_of_le] at he
            · cases he
            · simp

theorem Attempted.committed (hchosen : tb.Chosen R w replay P newParams)
    (hcommit : commitAccesses (tb.evt w).accesses.baccesses tb.mem ⟨w, P⟩ = some mem) :
    tb'.Invariant prog where
  nodup := h.nodup hcommitted
  planned := h.plan hcommitted hchosen hcommit
  branches := h.branchesFit hcommitted
  running := h.running hcommitted (h.fitting hchosen hcommit) hcommit
  clocked := h.clocked hcommitted (h.fitting hchosen hcommit)

end

/-! ### Scheduling -/

/-- The end of a successful attempt. -/
def finish (tb tb' : TB) (w : IID) (replay : Bool) : TB :=
  { tb'.modifyEvt w fun evt => { evt with committed := true } with
    pfx := if replay then tb.pfx else tb.pfx ++ [w]
    schedCount := tb.schedCount + 1 }

theorem evt_finish_self : (tb.finish tb' w replay).evt w = { tb'.evt w with committed := true } :=
  Function.update_self ..

theorem evt_finish_of_ne (hne : e ≠ w) : (tb.finish tb' w replay).evt e = tb'.evt e :=
  Function.update_of_ne hne ..

theorem branches_finish (e : IID) :
    ((tb.finish tb' w replay).evt e).newBranches = (tb'.evt e).newBranches ∧
      ((tb.finish tb' w replay).evt e).lockedBranch = (tb'.evt e).lockedBranch := by
  by_cases he : e = w
  · rw [he, evt_finish_self]
    exact ⟨rfl, rfl⟩
  · rw [evt_finish_of_ne he]
    exact ⟨rfl, rfl⟩

theorem branches_prepared (e : IID) :
    ((tb.prepared R w P newParams mem).evt e).newBranches = (tb.evt e).newBranches ∧
      ((tb.prepared R w P newParams mem).evt e).lockedBranch = (tb.evt e).lockedBranch := by
  by_cases he : e = w
  · rw [he, evt_prepared_self]
    exact ⟨rfl, rfl⟩
  · rw [evt_prepared_of_ne he]
    exact ⟨rfl, rfl⟩

theorem Detected.committed (hdetected : (tb.prepared R w P newParams mem).Detected R w tb')
    (hadds : (tb.prepared R w P newParams mem).Adds tb') (replay : Bool) :
    tb.Committed R w P newParams mem (added w replay) (tb.finish tb' w replay) where
  pfx := by
    cases replay with
    | true => exact (List.append_nil _).symm
    | false => rfl
  schedCount := rfl
  fchCount := hdetected.same.fchCount
  nextClockIndex := hdetected.same.nextClockIndex
  mem := hdetected.same.mem
  self := by
    rw [evt_finish_self, hdetected.same.evt w, evt_prepared_self]
  other := by
    intro e he
    rw [evt_finish_of_ne he, hdetected.same.evt e, evt_prepared_of_ne he]
  adds :=
    { branches := by
        intro e B hB
        rw [(branches_finish e).1] at hB
        rw [← (branches_prepared e).1]
        exact hadds.branches e B hB
      locked := by
        intro e
        rw [(branches_finish e).2, hadds.locked e, (branches_prepared e).2] }

theorem Invariant.schedule (h : tb.Invariant prog) (hstep : tb.schedule prog R w = some tb') :
    tb'.Invariant prog := by
  rw [TB.schedule] at hstep
  by_cases hattempts : tb.attempts R w = true
  · rw [if_pos hattempts] at hstep
    have hattempted := h.attempted hattempts
    obtain ⟨⟨ok, tb₁⟩, htb₁, hfinish⟩ := Option.bind_eq_some_iff.mp hstep
    obtain ⟨⟨ok', tb₂⟩, htb₂, hdetect⟩ := Option.bind_eq_some_iff.mp htb₁
    obtain ⟨tb₃, htb₃, heq⟩ := Option.bind_eq_some_iff.mp hdetect
    cases heq
    have hdetected := TB.detected htb₃
    cases prepare_cases htb₂ with
    | inl hfailed =>
        obtain ⟨rfl, rfl⟩ := hfailed
        cases hfinish
        exact hattempted.invariant.detected hattempted.detecting_failed hdetected
    | inr hsuccess =>
        obtain ⟨rfl, P, newParams, mem, hchosen, hcommit, rfl⟩ := hsuccess
        cases hfinish
        have hfits := hattempted.fitting hchosen hcommit
        have hadds := (hattempted.detecting_prepared hfits hcommit).adds hdetected
        exact hattempted.committed (hdetected.committed hadds tb.replays) hchosen hcommit
  · rw [if_neg hattempts] at hstep
    cases hstep

end TB

end Nidhugg.PowerArmRaces
