import Nidhugg.Verification.PowerArmRaces.Steps

/-! # The runs of the exploration

The next run is prepared at the latest place of the prefix with something else to explore. Nothing
is left to explore behind it, and the branches there start where they were found. -/

namespace Nidhugg.PowerArmBranches

theorem mem_union {As Bs : List Branch} {B : Branch} (h : B ∈ union As Bs) : B ∈ As ∨ B ∈ Bs := by
  induction As, Bs using union.induct with
  | case1 Bs =>
      rw [union] at h
      exact .inr h
  | case2 As hne =>
      rw [union] at h
      · exact .inl h
      · exact hne
  | case3 A As B' Bs hlt ih =>
      rw [union, if_pos hlt] at h
      cases List.mem_cons.mp h with
      | inl heq => exact .inl (heq ▸ List.mem_cons_self)
      | inr h => exact (ih h).imp_left (List.mem_cons_of_mem _)
  | case4 A As Bs hlt ih =>
      rw [union, if_neg hlt, if_pos rfl] at h
      cases List.mem_cons.mp h with
      | inl heq => exact .inl (heq ▸ List.mem_cons_self)
      | inr h => exact (ih h).imp (List.mem_cons_of_mem _) (List.mem_cons_of_mem _)
  | case5 A As B' Bs hlt hne ih =>
      rw [union, if_neg hlt, if_neg hne] at h
      cases List.mem_cons.mp h with
      | inl heq => exact .inr (heq ▸ List.mem_cons_self)
      | inr h => exact (ih h).imp_right (List.mem_cons_of_mem _)

end Nidhugg.PowerArmBranches

namespace Nidhugg.PowerArmRaces

open PowerArmBranches PowerArmRuns

namespace TB

variable {prog : Program} {tb tb' : TB} {iid e : IID} {i k proc : ℕ} {B : Branch}

theorem Invariant.fetch (h : tb.Invariant prog) : (tb.fetch proc).Invariant prog where
  nodup := h.nodup
  planned := by
    refine h.planned.weaken ?_ (forall_fetch (p := fun e evt => Weaker (tb.evt e) evt) ?_ ?_)
    · rfl
    · exact weaker_refill _ _
    · exact fun e _ => .refl _
  branches := by
    refine h.branches.weaken ?_ (forall_fetch
      (p := fun e evt => ∀ B ∈ evt.newBranches, B ∈ (tb.evt e).newBranches) ?_ ?_) (forall_fetch
      (p := fun e evt => evt.lockedBranch = (tb.evt e).lockedBranch ∨ evt.lockedBranch = none)
      ?_ ?_)
    · rfl
    · exact newBranches_refill _ _
    · exact fun e _ B hB => hB
    · exact lockedBranch_refill _ _
    · exact fun e _ => .inl rfl
  running := h.running.fetch
  clocked := h.clocked.fetch h.running

theorem Invariant.abort (h : tb.Invariant prog) : tb.abort.Invariant prog where
  nodup := h.nodup
  planned := ⟨h.planned.sound, h.planned.tail⟩
  branches := ⟨h.branches.fits, h.branches.outside, h.branches.locked⟩
  running := ⟨h.running.le, h.running.results, h.running.accesses, h.running.committed,
    h.running.fetched, h.running.recalc, h.running.fresh⟩
  clocked := ⟨h.clocked.lt, h.clocked.inj, h.clocked.idle, h.clocked.own, h.clocked.bits,
    h.clocked.closed, h.clocked.sources⟩

/-! ### The plan for the next run -/

/-- What the next run starts with, before the current one is cleared. -/
structure Plan (prog : Program) (tb : TB) : Prop where
  nodup : tb.pfx.Nodup
  planned : tb.Planned prog
  branches : tb.BranchesFit
  fresh : ∀ e, tb.isFetched e = false → (tb.evt e).filledStatus = .complete →
    (tb.evt e).committed = false

theorem Invariant.plan (h : tb.Invariant prog) : tb.Plan prog :=
  ⟨h.nodup, h.planned, h.branches, h.running.fresh⟩

theorem evt_clearEvents (kept : IID → Bool) (e : IID) : (tb.clearEvents kept).evt e =
    if tb.isFetched e then
      if kept e then { tb.evt e with committed := false, accesses := .none }
      else { tb.evt e with filledStatus := .empty }
    else tb.evt e := rfl

/-- Clearing a run keeps the parameters and the branches of all events. -/
theorem clearEvents_keeps (tb : TB) (kept : IID → Bool) (e : IID) :
    ((tb.clearEvents kept).evt e).recalcParams = (tb.evt e).recalcParams ∧
      ((tb.clearEvents kept).evt e).curParam = (tb.evt e).curParam ∧
      ((tb.clearEvents kept).evt e).newParams = (tb.evt e).newParams ∧
      ((tb.clearEvents kept).evt e).newBranches = (tb.evt e).newBranches ∧
      ((tb.clearEvents kept).evt e).lockedBranch = (tb.evt e).lockedBranch := by
  rw [evt_clearEvents]
  split
  · split
    · exact ⟨rfl, rfl, rfl, rfl, rfl⟩
    · exact ⟨rfl, rfl, rfl, rfl, rfl⟩
  · exact ⟨rfl, rfl, rfl, rfl, rfl⟩

theorem Plan.clear (h : tb.Plan prog) (kept : IID → Bool) :
    (tb.clearEvents kept).clearRun.Invariant prog where
  nodup := h.nodup
  planned := by
    refine h.planned.weaken ?_ fun e => ?_
    · rfl
    · obtain ⟨hrecalc, hcur, hnew, _⟩ := clearEvents_keeps tb kept e
      exact .kept hrecalc hcur fun P hP => hnew ▸ hP
  branches := by
    refine h.branches.weaken ?_ (fun e B hB => ?_) fun e => ?_
    · rfl
    · exact (clearEvents_keeps tb kept e).2.2.2.1 ▸ hB
    · exact .inl (clearEvents_keeps tb kept e).2.2.2.2
  running := by
    refine .of_start rfl rfl (fun _ => rfl) fun e hstatus => ?_
    have hevt : (tb.clearEvents kept).clearRun.evt e = (tb.clearEvents kept).evt e := rfl
    rw [hevt, evt_clearEvents] at hstatus ⊢
    by_cases hfetched : tb.isFetched e = true
    · rw [if_pos hfetched] at hstatus ⊢
      by_cases hkept : kept e = true
      · rw [if_pos hkept]
      · rw [if_neg hkept] at hstatus
        cases hstatus
    · rw [if_neg hfetched] at hstatus ⊢
      exact h.fresh e (Bool.eq_false_iff.mpr hfetched) hstatus
  clocked := .of_start rfl fun _ => rfl

/-- A part of the prefix. -/
def cut (tb : TB) (k : ℕ) : TB := { tb with pfx := tb.pfx.take k }

/-- The part of the prefix that is kept has all that there is to explore. -/
theorem Plan.keep (h : (tb.cut k).Plan prog) :
    (tb.keep k).Invariant prog := h.clear _

/-! ### The latest place -/

theorem lastChoice_spec (h : tb.lastChoice = some i) :
    ∀ (j : ℕ) e, i < j → tb.pfx[j]? = some e →
      (tb.evt e).newParams = [] ∧ (tb.evt e).newBranches = [] := by
  intro j e hj he
  have hlt := (List.getElem?_eq_some_iff.mp he).1
  obtain ⟨_, front, back, hsplit, hfront⟩ := List.find?_eq_some_iff_append.mp h
  have hmem : j ∈ front := by
    have hrange : List.range tb.pfx.length = back.reverse ++ i :: front.reverse := by
      rw [← List.reverse_reverse (List.range tb.pfx.length), hsplit]
      simp
    have hj' : j ∈ back.reverse ++ i :: front.reverse := hrange ▸ List.mem_range.mpr hlt
    rw [List.mem_append, List.mem_cons, List.mem_reverse, List.mem_reverse] at hj'
    have hsorted := List.pairwise_lt_range (n := tb.pfx.length)
    rw [hrange, List.pairwise_append] at hsorted
    cases hj' with
    | inl hback =>
        have hlt := hsorted.2.2 j (List.mem_reverse.mpr hback) i List.mem_cons_self
        omega
    | inr hj' => exact hj'.resolve_left (Nat.ne_of_gt hj)
  have hnone := hfront j hmem
  rw [he] at hnone
  simpa using hnone

theorem lt_of_lastChoice (h : tb.lastChoice = some i) : i < tb.pfx.length := by
  have hmem := List.mem_of_find?_eq_some h
  rwa [List.mem_reverse, List.mem_range] at hmem

/-- What the prefix looks like where the next run departs from the current one. -/
structure Departs (tb : TB) (i : ℕ) (iid : IID) : Prop where
  get : tb.pfx[i]? = some iid
  behind : ∀ (j : ℕ) e, i < j → tb.pfx[j]? = some e →
    (tb.evt e).newParams = [] ∧ (tb.evt e).newBranches = []

theorem Departs.not_mem (h : tb.Departs i iid) (hnodup : tb.pfx.Nodup) :
    iid ∉ tb.pfx.take i := by
  intro hmem
  obtain ⟨j, hj⟩ := List.mem_iff_getElem?.mp hmem
  rw [List.getElem?_take] at hj
  split at hj
  · next hlt =>
      have hinj := (List.getElem?_inj (List.getElem?_eq_some_iff.mp hj).1 hnodup).mp
        (hj.trans h.get.symm)
      omega
  · cases hj

theorem mem_take_of_get {j : ℕ} (hj : j < i) (he : tb.pfx[j]? = some e) : e ∈ tb.pfx.take i :=
  List.mem_of_getElem? (i := j) (by rw [List.getElem?_take, if_pos hj, he])

/-! ### Other parameters -/

/-- The next parameter of the last event that is kept. -/
def takeParam (tb : TB) (iid : IID) : TB :=
  tb.modifyEvt iid fun evt =>
    { evt with
      curParam := evt.newParams.getLast?.getD []
      newParams := evt.newParams.dropLast }

theorem evt_takeParam (iid e : IID) : (tb.takeParam iid).evt e =
    { tb.evt e with
      curParam := ((tb.takeParam iid).evt e).curParam
      newParams := ((tb.takeParam iid).evt e).newParams } := by
  by_cases he : e = iid
  · rw [he, takeParam, evt_modifyEvt_self]
  · rw [takeParam, evt_modifyEvt_of_ne _ he]

theorem fitting_next {mem : Memory} {baccesses : List ByteAccess} {evt : Event}
    (h : Sound mem baccesses evt) (hne : evt.newParams ≠ []) :
    Fitting mem baccesses (evt.newParams.getLast?.getD []) := by
  rw [List.getLast?_eq_some_getLast hne, Option.getD_some]
  exact h.new _ (List.getLast_mem hne)

/-- The prefix is cut behind the event, or behind a load that is chosen anew. -/
theorem Departs.plan_of_param (h : tb.Departs i iid) (hplan : tb.Plan prog)
    (hne : (tb.evt iid).newParams ≠ []) (hpfx : tb'.pfx = tb.pfx.take k)
    (hk : i < k) (hself : (tb'.evt iid) = (tb.takeParam iid).evt iid)
    (hfront : ∀ e ∈ tb.pfx.take i, tb'.evt e = tb.evt e)
    (hrest : ∀ (j : ℕ) e, i < j → tb'.pfx[j]? = some e → (tb'.evt e).recalcParams ≠ .no ∧
      (tb'.evt e).newParams = (tb.evt e).newParams)
    (hbranches : ∀ e, (tb'.evt e).newBranches = (tb.evt e).newBranches ∧
      (tb'.evt e).lockedBranch = (tb.evt e).lockedBranch)
    (hfresh : ∀ e, tb'.isFetched e = false → (tb'.evt e).filledStatus = .complete →
      (tb'.evt e).committed = false) : tb'.Plan prog where
  nodup := by
    rw [hpfx]
    exact hplan.nodup.sublist (List.take_sublist _ _)
  planned := by
    have htake : tb'.pfx.take i = tb.pfx.take i := by
      rw [hpfx, List.take_take, Nat.min_eq_left hk.le]
    have hself' : (tb'.evt iid).newParams = (tb.evt iid).newParams.dropLast ∧
        (tb'.evt iid).curParam = (tb.evt iid).newParams.getLast?.getD [] := by
      rw [hself, takeParam, evt_modifyEvt_self]
      exact ⟨rfl, rfl⟩
    have hget : ∀ (j : ℕ) e, tb'.pfx[j]? = some e → tb.pfx[j]? = some e := by
      intro j e hj
      rw [hpfx, List.getElem?_take] at hj
      split at hj
      · exact hj
      · cases hj
    refine hplan.planned.cut htake (fun e he => ?_) (fun e he => ?_) fun e he => ?_
    · rw [hfront e he]
      exact ⟨rfl, rfl, rfl⟩
    · obtain rfl : iid = e := Option.some.inj (h.get.symm.trans (hget i e he))
      have hno : ∀ d ∈ tb.pfx.take i, (tb.evt d).recalcParams = .no := by
        intro d hd
        by_contra hrecalc
        exact hne (hplan.planned.tail_of_lt h.get hd hrecalc).new
      refine .inl ⟨hno, fun mem hmem => ?_⟩
      have hsound := hplan.planned.sound i iid mem h.get hno hmem
      constructor
      · intro _
        rw [hself'.2]
        exact .inr (fitting_next hsound hne)
      · intro P hP
        rw [hself'.1] at hP
        exact hsound.new P ((List.dropLast_sublist _).subset hP)
    · obtain ⟨l, hl⟩ := List.mem_iff_getElem?.mp he
      rw [List.getElem?_drop] at hl
      have hlt : i < i + 1 + l := by omega
      obtain ⟨hrecalc, hnew⟩ := hrest _ e hlt hl
      exact ⟨.inl hrecalc, hnew.trans (h.behind _ e hlt (hget _ e hl)).1⟩
  branches :=
    { fits := by
        intro j e he B hB
        rw [hpfx, List.getElem?_take] at he
        rw [(hbranches e).1] at hB
        split at he
        · next hlt =>
            rw [hpfx, List.take_take, Nat.min_eq_left hlt.le]
            exact hplan.branches.fits j e he B hB
        · cases he
      outside := by
        intro e he
        rw [(hbranches e).1]
        by_cases hmem : e ∈ tb.pfx
        · obtain ⟨j, hj⟩ := List.mem_iff_getElem?.mp hmem
          have hle : k ≤ j := by
            apply Nat.le_of_not_lt
            intro hlt
            exact he (hpfx ▸ mem_take_of_get hlt hj)
          exact (h.behind j e (lt_of_lt_of_le hk hle) hj).2
        · exact hplan.branches.outside e hmem
      locked := by
        intro e start branchEnd he
        rw [(hbranches e).2] at he
        exact hplan.branches.locked e start branchEnd he }
  fresh := hfresh

theorem Plan.fresh_of (hplan : tb.Plan prog) (hfch : tb'.fchCount = tb.fchCount)
    (hevt : ∀ e, (tb'.evt e).filledStatus = .complete →
      (tb.evt e).filledStatus = .complete ∧ (tb'.evt e).committed = (tb.evt e).committed) :
    ∀ e, tb'.isFetched e = false → (tb'.evt e).filledStatus = .complete →
      (tb'.evt e).committed = false := by
  intro e he hstatus
  rw [isFetched_congr hfch] at he
  rw [(hevt e hstatus).2]
  exact hplan.fresh e he (hevt e hstatus).1

/-- The load at the end of a branch is chosen anew. -/
def recalcLoad (tb : TB) (load : IID) : TB :=
  tb.modifyEvt load fun evt => { evt with recalcParams := .load, filledStatus := .parameter }

theorem evt_recalcLoad_self : (tb.recalcLoad e).evt e =
    { tb.evt e with recalcParams := .load, filledStatus := .parameter } := evt_modifyEvt_self _

theorem evt_recalcLoad_of_ne {load : IID} (hne : e ≠ load) :
    (tb.recalcLoad load).evt e = tb.evt e := evt_modifyEvt_of_ne _ hne

section

variable (h : tb.Departs i iid) (hplan : tb.Plan prog) (hne : (tb.evt iid).newParams ≠ [])

include h hplan hne

theorem Departs.ordinary : ((tb.takeParam iid).cut (i + 1)).Plan prog := by
  have hnot := h.not_mem hplan.nodup
  refine h.plan_of_param (k := i + 1) hplan hne ?_ (Nat.lt_succ_self i) ?_ (fun e he => ?_)
    (fun j e hj he => ?_) (fun e => ?_) (hplan.fresh_of ?_ fun e hstatus => ?_)
  · rfl
  · rfl
  · have hself : e ≠ iid := fun heq => hnot (heq ▸ he)
    rw [cut, takeParam, evt_modifyEvt_of_ne _ hself]
  · have hlt := (List.getElem?_eq_some_iff.mp he).1
    have hle := List.length_take_le (i + 1) tb.pfx
    exact (Nat.not_lt.mpr hle (lt_of_le_of_lt (Nat.succ_le_of_lt hj) hlt)).elim
  · rw [cut, evt_takeParam]
    exact ⟨rfl, rfl⟩
  · rfl
  · rw [cut, evt_takeParam] at hstatus ⊢
    exact ⟨hstatus, rfl⟩

theorem Departs.store {load : IID} (hload : tb.pfx[i + 1]? = some load) :
    (((tb.takeParam iid).recalcLoad load).cut (i + 2)).Plan prog := by
  have hnot := h.not_mem hplan.nodup
  have hmem : load ∉ tb.pfx.take (i + 1) := by
    intro hmem
    obtain ⟨j, hj⟩ := List.mem_iff_getElem?.mp hmem
    rw [List.getElem?_take] at hj
    split at hj
    · next hlt =>
        have hinj := (List.getElem?_inj (List.getElem?_eq_some_iff.mp hj).1 hplan.nodup).mp
          (hj.trans hload.symm)
        omega
    · cases hj
  have hself : iid ≠ load := by
    rintro rfl
    exact hmem (mem_take_of_get (Nat.lt_succ_self i) h.get)
  refine h.plan_of_param (k := i + 2) hplan hne ?_ (by omega) ?_ (fun e he => ?_)
    (fun j e hj he => ?_) (fun e => ?_) (hplan.fresh_of ?_ fun e hstatus => ?_)
  · rfl
  · exact evt_recalcLoad_of_ne hself
  · have hload' : e ≠ load := by
      rintro rfl
      exact hmem (List.take_subset_take_left tb.pfx (Nat.le_succ i) he)
    have hiid : e ≠ iid := fun heq => hnot (heq ▸ he)
    rw [cut, evt_recalcLoad_of_ne hload', takeParam, evt_modifyEvt_of_ne _ hiid]
  · have hget : (tb.pfx.take (i + 2))[j]? = some e := he
    rw [List.getElem?_take] at hget
    split at hget
    · next hlt =>
        obtain rfl : j = i + 1 := by omega
        obtain rfl : load = e := Option.some.inj (hload.symm.trans hget)
        rw [cut, evt_recalcLoad_self, takeParam, evt_modifyEvt_of_ne _ hself.symm]
        exact ⟨by simp, rfl⟩
    · cases hget
  · by_cases he : e = load
    · rw [he, cut, evt_recalcLoad_self, evt_takeParam]
      exact ⟨rfl, rfl⟩
    · rw [cut, evt_recalcLoad_of_ne he, evt_takeParam]
      exact ⟨rfl, rfl⟩
  · rfl
  · by_cases he : e = load
    · rw [he, cut, evt_recalcLoad_self] at hstatus
      cases hstatus
    · rw [cut, evt_recalcLoad_of_ne he, evt_takeParam] at hstatus ⊢
      exact ⟨hstatus, rfl⟩

theorem Departs.nextParam (hstep : tb.nextParam i iid = some (tb', k)) :
    (tb'.cut k).Plan prog := by
  rw [TB.nextParam] at hstep
  cases hlocked : (tb.evt iid).lockedBranch with
  | none =>
      rw [hlocked] at hstep
      cases hstep
      exact h.ordinary hplan hne
  | some range =>
      rw [hlocked] at hstep
      dsimp only at hstep
      by_cases hend : range.2 = i
      · rw [if_pos hend] at hstep
        cases hstep
        exact h.ordinary hplan hne
      · rw [if_neg hend] at hstep
        by_cases hstore : range.2 = i + 1
        · rw [if_pos hstore] at hstep
          obtain ⟨load, hload, heq⟩ := Option.map_eq_some_iff.mp hstep
          cases heq
          exact h.store hplan hne hload
        · rw [if_neg hstore] at hstep
          cases hstep

end

/-! ### Branches -/

/-- An event of a locked branch. -/
structure Locked (i branchEnd : ℕ) (evt : Event) : Prop where
  unsettled : Unsettled evt
  newBranches : evt.newBranches = []
  lockedBranch : evt.lockedBranch = some (i, branchEnd)
  filledStatus : evt.filledStatus = .parameter

/-- The events of a branch get locked, and the others stay as they are. -/
structure Locks (tb : TB) (i branchEnd : ℕ) (iids : List IID) (tb' : TB) : Prop where
  pfx : tb'.pfx = tb.pfx
  fchCount : tb'.fchCount = tb.fchCount
  locked : ∀ e ∈ iids, Locked i branchEnd (tb'.evt e)
  other : ∀ e ∉ iids, tb'.evt e = tb.evt e

variable {branchEnd : ℕ}

theorem Locks.modifyEvt {iids : List IID} {f : Event → Event}
    (h : tb.Locks i branchEnd iids tb') (he : e ∈ iids)
    (hf : ∀ evt, Locked i branchEnd evt → Locked i branchEnd (f evt)) :
    tb.Locks i branchEnd iids (tb'.modifyEvt e f) where
  pfx := h.pfx
  fchCount := h.fchCount
  locked := by
    intro d hd
    by_cases hde : d = e
    · rw [hde, evt_modifyEvt_self]
      exact hf _ (h.locked e he)
    · rw [evt_modifyEvt_of_ne _ hde]
      exact h.locked d hd
  other := by
    intro d hd
    have hde : d ≠ e := fun heq => hd (heq ▸ he)
    rw [evt_modifyEvt_of_ne _ hde]
    exact h.other d hd

theorem Locks.lockEvent {iids : List IID} (h : tb.Locks i branchEnd iids tb') (pe : PEvent) :
    tb.Locks i branchEnd (iids ++ [pe.iid]) (lockEvent i branchEnd tb' pe) where
  pfx := h.pfx
  fchCount := h.fchCount
  locked := by
    intro d hd
    rw [TB.lockEvent]
    by_cases hde : d = pe.iid
    · rw [hde, evt_modifyEvt_self]
      exact ⟨⟨.inl (by simp), rfl⟩, rfl, rfl, rfl⟩
    · rw [List.mem_append, List.mem_singleton] at hd
      rw [evt_modifyEvt_of_ne _ hde]
      exact h.locked d (hd.resolve_right hde)
  other := by
    intro d hd
    rw [List.mem_append, List.mem_singleton, not_or] at hd
    rw [TB.lockEvent, evt_modifyEvt_of_ne _ hd.2]
    exact h.other d hd.1

theorem Locks.foldl {iids : List IID} (h : tb.Locks i branchEnd iids tb') (branch : List PEvent) :
    tb.Locks i branchEnd (iids ++ branch.map PEvent.iid)
      (branch.foldl (TB.lockEvent i branchEnd) tb') := by
  induction branch generalizing iids tb' with
  | nil =>
      rw [List.map_nil, List.append_nil]
      exact h
  | cons pe branch ih =>
      rw [List.map_cons, ← List.singleton_append, ← List.append_assoc, List.foldl_cons]
      exact ih (h.lockEvent pe)

theorem Locked.recalc {evt : Event} {recalc : RecalcParams} (h : Locked i branchEnd evt)
    (hrecalc : recalc ≠ .no) (src : IID) : Locked i branchEnd
      { evt with recalcParams := recalc, recalcParamsLoadSrc := src } where
  unsettled := ⟨.inl hrecalc, h.unsettled.new⟩
  newBranches := h.newBranches
  lockedBranch := h.lockedBranch
  filledStatus := h.filledStatus

theorem Locks.recalcTail (h : tb.Locks i branchEnd (B.branch.map PEvent.iid) tb') :
    tb.Locks i branchEnd (B.branch.map PEvent.iid) (recalcTail tb' B) := by
  have hmem : ∀ pe ∈ B.branch.reverse, pe.iid ∈ B.branch.map PEvent.iid :=
    fun pe hpe => List.mem_map_of_mem (List.mem_reverse.mp hpe)
  unfold TB.recalcTail
  split
  · next r w rest hparam hrev =>
      rw [hrev] at hmem
      apply Locks.modifyEvt _ (hmem r (by simp))
      · exact fun evt hevt => hevt.recalc (by simp) _
      apply h.modifyEvt (hmem w (by simp))
      exact fun evt hevt => hevt.recalc (by simp) _
  · next l rest hparam hrev =>
      rw [hrev] at hmem
      apply h.modifyEvt (hmem l (by simp))
      exact fun evt hevt => hevt.recalc (by simp) _
  · exact h

/-- The events of the branch behind the part of the prefix that is kept. -/
def branched (tb : TB) (i : ℕ) (iid : IID) (B : Branch) : TB :=
  { tb.modifyEvt iid fun evt => { evt with newBranches := [] } with
    pfx := tb.pfx.take i ++ B.branch.map (·.iid) ++ tb.pfx.drop (i + B.branch.length) }

theorem evt_branched (e : IID) : (tb.branched i iid B).evt e =
    { tb.evt e with newBranches := ((tb.branched i iid B).evt e).newBranches } := by
  by_cases he : e = iid
  · rw [he, branched, evt_modifyEvt_self]
  · rw [branched, evt_modifyEvt_of_ne _ he]

theorem newBranches_branched (e : IID) : ((tb.branched i iid B).evt e).newBranches =
    if e = iid then [] else (tb.evt e).newBranches := by
  by_cases he : e = iid
  · rw [if_pos he, he, branched, evt_modifyEvt_self]
  · rw [if_neg he, branched, evt_modifyEvt_of_ne _ he]

/-- What the next run starts with when a branch has been locked. -/
structure Relocked (tb : TB) (i : ℕ) (iid : IID) (B : Branch) (branches : List Branch) (tb' : TB) :
    Prop where
  pfx : tb'.pfx = tb.pfx.take i ++ B.branch.map PEvent.iid
  fchCount : tb'.fchCount = tb.fchCount
  inside : ∀ e ∈ B.branch.map PEvent.iid, Unsettled (tb'.evt e) ∧
    (tb'.evt e).filledStatus = .parameter ∧
    (∀ start branchEnd, (tb'.evt e).lockedBranch = some (start, branchEnd) → start ≤ branchEnd) ∧
    ∀ B' ∈ (tb'.evt e).newBranches, B' ∈ branches ∧ (B.branch.map PEvent.iid).head? = some e
  other : ∀ e ∉ B.branch.map PEvent.iid, tb'.evt e = (tb.branched i iid B).evt e

theorem relocked_nextBranch (branches : List Branch) (hi : i ≤ tb.pfx.length)
    (hB : B.branch ≠ []) : tb.Relocked i iid B branches
      ((tb.nextBranch i iid B branches).1.cut (tb.nextBranch i iid B branches).2) := by
  obtain ⟨pe, rest, hbranch⟩ := List.exists_cons_of_ne_nil hB
  have hlen : (tb.pfx.take i).length = i := by simp [hi]
  have hlocks : (tb.branched i iid B).Locks i (i + B.branch.length - 1) (B.branch.map PEvent.iid)
      (recalcTail (B.branch.foldl (lockEvent i (i + B.branch.length - 1)) (tb.branched i iid B))
        B) := by
    apply Locks.recalcTail
    have hstart : (tb.branched i iid B).Locks i (i + B.branch.length - 1) []
        (tb.branched i iid B) := ⟨rfl, rfl, by simp, fun _ _ => rfl⟩
    exact hstart.foldl B.branch
  have hfirst : (recalcTail (B.branch.foldl (lockEvent i (i + B.branch.length - 1))
      (tb.branched i iid B)) B).pfx[i]? = some pe.iid := by
    rw [hlocks.pfx]
    show (tb.pfx.take i ++ B.branch.map PEvent.iid ++ tb.pfx.drop (i + B.branch.length))[i]? = _
    rw [List.append_assoc, List.getElem?_append_right hlen.le, hlen, Nat.sub_self, hbranch]
    rfl
  have hnext : tb.nextBranch i iid B branches =
      ((recalcTail (B.branch.foldl (lockEvent i (i + B.branch.length - 1)) (tb.branched i iid B))
        B).modifyEvt pe.iid fun evt =>
        { evt with
          newBranches := unionExceptOne evt.newBranches (B :: branches)
          curBranch := B }, i + B.branch.length) := by
    rw [TB.nextBranch, ← branched, hfirst]
  have hmem : pe.iid ∈ B.branch.map PEvent.iid := by simp [hbranch]
  rw [hnext]
  constructor
  · show List.take (i + B.branch.length) _ = _
    rw [modifyEvt, hlocks.pfx, branched, List.take_left']
    simp [hlen]
  · exact hlocks.fchCount
  · intro e he
    have hlocked := hlocks.locked e he
    have hle : ∀ start branchEnd, some (i, i + B.branch.length - 1) = some (start, branchEnd) →
        start ≤ branchEnd := by
      intro start branchEnd heq
      cases heq
      rw [hbranch, List.length_cons]
      omega
    rw [cut]
    by_cases hpe : e = pe.iid
    · rw [hpe] at hlocked ⊢
      rw [evt_modifyEvt_self]
      refine ⟨⟨hlocked.unsettled.cur, hlocked.unsettled.new⟩, hlocked.filledStatus, ?_, ?_⟩
      · rw [hlocked.lockedBranch]
        exact hle
      · intro B' hB'
        rw [hlocked.newBranches] at hB'
        refine ⟨(mem_union hB').resolve_left List.not_mem_nil, ?_⟩
        rw [hbranch]
        rfl
    · rw [evt_modifyEvt_of_ne _ hpe]
      refine ⟨hlocked.unsettled, hlocked.filledStatus, ?_, ?_⟩
      · rw [hlocked.lockedBranch]
        exact hle
      · intro B' hB'
        rw [hlocked.newBranches] at hB'
        cases hB'
  · intro e he
    have hpe : e ≠ pe.iid := fun heq => he (heq ▸ hmem)
    rw [cut, evt_modifyEvt_of_ne _ hpe]
    exact hlocks.other e he

/-- A branch of the latest place starts the next run. -/
theorem Departs.nextBranch (h : tb.Departs i iid) (hplan : tb.Plan prog) {branches : List Branch}
    (hnew : (tb.evt iid).newBranches = B :: branches) (hrelocked : tb.Relocked i iid B branches tb') :
    tb'.Plan prog := by
  have hnot := h.not_mem hplan.nodup
  have hi : i ≤ tb.pfx.length := (List.getElem?_eq_some_iff.mp h.get).1.le
  have hlen : (tb.pfx.take i).length = i := by simp [hi]
  have hfits := hplan.branches.fits i iid h.get
  obtain ⟨_, hnodup⟩ := hfits B (hnew ▸ List.mem_cons_self)
  have hdisjoint := (List.nodup_append.mp hnodup).2.2
  have hfront : ∀ e ∈ tb.pfx.take i, tb'.evt e = tb.evt e := by
    intro e he
    have hbranch : e ∉ B.branch.map PEvent.iid := fun hmem => hdisjoint e he e hmem rfl
    have hiid : e ≠ iid := fun heq => hnot (heq ▸ he)
    rw [hrelocked.other e hbranch, branched, evt_modifyEvt_of_ne _ hiid]
  have htake : tb'.pfx.take i = tb.pfx.take i := by
    rw [hrelocked.pfx, List.take_left' hlen]
  have hbehind : ∀ (j : ℕ) e, i ≤ j → tb'.pfx[j]? = some e → e ∈ B.branch.map PEvent.iid := by
    intro j e hj he
    rw [hrelocked.pfx, List.getElem?_append_right (hlen.le.trans hj)] at he
    exact List.mem_of_getElem? he
  constructor
  · rw [hrelocked.pfx]
    exact hnodup
  · refine hplan.planned.cut htake (fun e he => ?_) (fun e he => ?_) fun e he => ?_
    · rw [hfront e he]
      exact ⟨rfl, rfl, rfl⟩
    · exact .inr (hrelocked.inside e (hbehind i e le_rfl he)).1
    · obtain ⟨l, hl⟩ := List.mem_iff_getElem?.mp he
      rw [List.getElem?_drop] at hl
      exact (hrelocked.inside e (hbehind _ e (by omega) hl)).1
  · constructor
    · intro j e he B' hB'
      by_cases hj : j < i
      · have hget : tb.pfx[j]? = some e := by
          rw [hrelocked.pfx, List.getElem?_append_left (by omega), List.getElem?_take,
            if_pos hj] at he
          exact he
        rw [hfront e (mem_take_of_get hj hget)] at hB'
        rw [hrelocked.pfx, List.take_append_of_le_length (by omega), List.take_take,
          Nat.min_eq_left hj.le]
        exact hplan.branches.fits j e hget B' hB'
      · have hle := Nat.le_of_not_lt hj
        obtain ⟨hmem, hhead⟩ := (hrelocked.inside e (hbehind j e hle he)).2.2.2 B' hB'
        have hij : tb'.pfx[i]? = some e := by
          rw [hrelocked.pfx, List.getElem?_append_right hlen.le, hlen, Nat.sub_self,
            ← List.head?_eq_getElem?]
          exact hhead
        have hnodup' : tb'.pfx.Nodup := hrelocked.pfx ▸ hnodup
        obtain rfl := (List.getElem?_inj (List.getElem?_eq_some_iff.mp he).1 hnodup').mp
          (he.trans hij.symm)
        rw [htake]
        exact hfits B' (hnew ▸ List.mem_cons_of_mem _ hmem)
    · intro e he
      rw [hrelocked.pfx, List.mem_append, not_or] at he
      rw [hrelocked.other e he.2, newBranches_branched]
      by_cases hiid : e = iid
      · rw [if_pos hiid]
      · rw [if_neg hiid]
        by_cases hmem : e ∈ tb.pfx
        · obtain ⟨j, hj⟩ := List.mem_iff_getElem?.mp hmem
          have hlt : i < j := by
            rcases Nat.lt_trichotomy i j with hlt | rfl | hlt
            · exact hlt
            · exact (hiid (Option.some.inj (hj.symm.trans h.get))).elim
            · exact (he.1 (mem_take_of_get hlt hj)).elim
          exact (h.behind j e hlt hj).2
        · exact hplan.branches.outside e hmem
    · intro e start branchEnd he
      by_cases hmem : e ∈ B.branch.map PEvent.iid
      · exact (hrelocked.inside e hmem).2.2.1 start branchEnd he
      · rw [hrelocked.other e hmem, evt_branched] at he
        exact hplan.branches.locked e start branchEnd he
  · apply hplan.fresh_of hrelocked.fchCount
    intro e hstatus
    by_cases hmem : e ∈ B.branch.map PEvent.iid
    · rw [(hrelocked.inside e hmem).2.1] at hstatus
      cases hstatus
    · rw [hrelocked.other e hmem, evt_branched] at hstatus ⊢
      exact ⟨hstatus, rfl⟩

/-! ### All calls -/

theorem Invariant.reset (h : tb.Invariant prog) (hstep : tb.reset = some tb') :
    tb'.Invariant prog := by
  rw [TB.reset] at hstep
  cases hplace : tb.lastChoice.bind fun i => (tb.pfx[i]?).map (i, ·) with
  | none =>
      rw [hplace] at hstep
      cases hstep
      exact h
  | some place =>
      obtain ⟨i, iid⟩ := place
      rw [hplace] at hstep
      obtain ⟨i', hlast, hget⟩ := Option.bind_eq_some_iff.mp hplace
      obtain ⟨iid', hiid, heq⟩ := Option.map_eq_some_iff.mp hget
      cases heq
      have hdeparts : tb.Departs i iid := ⟨hiid, lastChoice_spec hlast⟩
      dsimp only at hstep
      cases hparams : (tb.evt iid).newParams with
      | nil =>
          cases hbranches : (tb.evt iid).newBranches with
          | nil =>
              have hsome := List.find?_some hlast
              rw [hiid] at hsome
              simp [hparams, hbranches] at hsome
          | cons B branches =>
              rw [hparams, hbranches] at hstep
              cases hstep
              have hfits := h.branches.fits i iid hiid B (hbranches ▸ List.mem_cons_self)
              have hlt := lt_of_lastChoice hlast
              exact (hdeparts.nextBranch h.plan hbranches
                (relocked_nextBranch branches hlt.le hfits.1)).keep
      | cons P params =>
          rw [hparams] at hstep
          obtain ⟨⟨tb₁, k⟩, htb₁, heq⟩ := Option.map_eq_some_iff.mp hstep
          cases heq
          exact (hdeparts.nextParam h.plan (by simp [hparams]) htb₁).keep

theorem Invariant.step {call : Call} (h : tb.Invariant prog)
    (hstep : tb.step prog call = some tb') : tb'.Invariant prog := by
  cases call with
  | fetch proc =>
      cases hstep
      exact h.fetch
  | schedule R iid => exact h.schedule hstep
  | abort =>
      cases hstep
      exact h.abort
  | reset => exact h.reset hstep
  | replay =>
      cases hstep
      exact h.plan.clear _

theorem Reachable.invariant (h : Reachable prog tb) : tb.Invariant prog := by
  induction h with
  | init => exact invariant_init
  | step hreach hstep ih => exact ih.step hstep

/-! ### Coherence orders and readers -/

/-- The events that have been committed and read from a store, or the initial value. -/
def Reader (tb : TB) (x : Addr) (src : Option IID) (iid : IID) : Prop :=
  tb.isFetched iid = true ∧ (tb.evt iid).committed = true ∧
    Reads ((tb.evt iid).accesses.baccesses.zip (tb.evt iid).curParam) x src

/-- The readers of each store have their place among the loads of a byte. -/
structure ListsReaders (tb : TB) (x : Addr) : Prop where
  length : (tb.mem x).loads.length = (tb.mem x).coherence.length + 1
  initial : ∀ iid, iid ∈ (tb.mem x).loads.getD 0 [] ↔ tb.Reader x none iid
  stores : ∀ (k : ℕ) s, (tb.mem x).coherence[k]? = some s →
    ∀ iid, iid ∈ (tb.mem x).loads.getD (k + 1) [] ↔ tb.Reader x (some s) iid

theorem Running.readsIn_iff (h : tb.Running prog) {x : Addr} {src : Option IID} :
    ReadsIn tb.acc (tb.hist tb.scheduled) x iid src ↔ tb.Reader x src iid := by
  have hscheduled : tb.isFetched iid = true ∧ (tb.evt iid).committed = true ↔
      iid ∈ tb.scheduled := by
    constructor
    · intro hiid
      exact (h.committed iid hiid.1).mp hiid.2
    · intro hiid
      have hfetched := h.fetched iid hiid
      exact ⟨hfetched, (h.committed iid hfetched).mpr hiid⟩
  rw [Reader, ← and_assoc, hscheduled]
  constructor
  · intro hreads
    obtain ⟨pe, hpe, rfl, hreads⟩ := hreads
    obtain ⟨d, hd, rfl⟩ := List.mem_map.mp (List.mem_reverse.mp hpe)
    exact ⟨hd, hreads⟩
  · intro hreads
    exact ⟨tb.pevent iid, List.mem_reverse.mpr (List.mem_map_of_mem hreads.1), rfl, hreads.2⟩

theorem Invariant.listsReaders (h : tb.Invariant prog) (x : Addr) : tb.ListsReaders x := by
  have hnodup : ((tb.hist tb.scheduled).map PEvent.iid).Nodup := by
    rw [map_iid_hist]
    exact List.nodup_reverse.mpr (h.nodup.sublist (List.take_sublist _ _))
  have htracks := (h.running.static.tracked hnodup x).congr
    (fun iid src => h.running.readsIn_iff.symm)
  have hloads : ∀ (l : ℕ) src, (tb.mem x).sources[l]? = some src →
      ∀ iid, iid ∈ (tb.mem x).loads.getD l [] ↔ tb.Reader x src iid := by
    intro l src hsrc iid
    have hlt : l < (tb.mem x).loads.length := by
      rw [htracks.length, ← Mem.length_sources]
      exact (List.getElem?_eq_some_iff.mp hsrc).1
    rw [List.getD_eq_getElem?_getD, List.getElem?_eq_getElem hlt, Option.getD_some]
    exact htracks.loads l src _ hsrc (List.getElem?_eq_getElem hlt) iid
  constructor
  · exact htracks.length
  · exact hloads 0 none rfl
  · intro k s hs
    apply hloads (k + 1) (some s)
    rw [Mem.sources, List.getElem?_cons_succ, List.getElem?_map, hs]
    rfl

/-- The branch of each conflict that is found in any run keeps the coherence orders of the events
that it repeats, and the readers of all stores are known. -/
theorem Reachable.coherent (h : Reachable prog tb) :
    (∀ x, tb.ListsReaders x) ∧ ∀ R w ok tb', tb.attempts R w = true →
      (tb.register prog w).prepare R w tb.replays = some (ok, tb') →
      ∀ r ∈ tb'.conflicts R w, tb'.KeepsCoherence R w r := by
  refine ⟨h.invariant.listsReaders, ?_⟩
  intro R w ok tb' hattempts hprepare r hr
  have hattempted := h.invariant.attempted hattempts
  cases prepare_cases hprepare with
  | inl hfailed =>
      obtain ⟨_, rfl⟩ := hfailed
      exact hattempted.detecting_failed.keepsCoherence hr
  | inr hsuccess =>
      obtain ⟨_, P, newParams, mem, hchosen, hcommit, rfl⟩ := hsuccess
      exact (hattempted.detecting_prepared (hattempted.fitting hchosen hcommit)
        hcommit).keepsCoherence hr

/-- Thread 0 stores to byte 1 and then to byte 0, which thread 1 loads. Thread 2 stores to
byte 1. -/
def racing : Program := fun _ iid =>
  if iid = ⟨0, 2⟩ then ⟨0, 1, false, [⟨true, 0⟩], by simp, by simp⟩
  else if iid.pid = 1 then ⟨1, 0, false, [⟨false, 0⟩], by simp, by simp⟩
  else ⟨0, 1, false, [⟨true, 1⟩], by simp, by simp⟩

/-- The stores of thread 0 are in order. -/
def inOrder : Relations where
  ready := fun _ => true
  cbPreds := fun iid => if iid = ⟨0, 2⟩ then [⟨0, 1⟩] else []
  allowed := fun _ _ _ => true
  consistent := fun _ _ => true

/-- The first store to byte 1 is taken out, so that the position of the second one decreases. -/
theorem coherent_storeTakenOut : ∃ tb tb', Reachable racing tb ∧
    (tb.register racing ⟨0, 2⟩).prepare inOrder ⟨0, 2⟩ tb.replays = some (true, tb') ∧
    tb'.conflicts inOrder ⟨0, 2⟩ = [⟨1, 1⟩] ∧ (tb'.mem 1).coherence = [⟨2, 1⟩, ⟨0, 1⟩] ∧
    tb'.collect inOrder ⟨0, 2⟩ ⟨1, 1⟩ = some [⟨⟨0, 1⟩, [.coherence 0]⟩] ∧
    (∀ x, tb.ListsReaders x) ∧ tb'.KeepsCoherence inOrder ⟨0, 2⟩ ⟨1, 1⟩ := by
  have hfetch : init.step racing (.fetch 0) = some _ := rfl
  have hfetch' : (init.fetch 0).step racing (.fetch 0) = some _ := rfl
  have hfetch₁ : ((init.fetch 0).fetch 0).step racing (.fetch 1) = some _ := rfl
  have hfetch₂ : (((init.fetch 0).fetch 0).fetch 1).step racing (.fetch 2) = some _ := rfl
  have hload : ((((init.fetch 0).fetch 0).fetch 1).fetch 2).step racing
      (.schedule inOrder ⟨1, 1⟩) = some _ := rfl
  have hfetched := Reachable.step (.step (.step (.step .init hfetch) hfetch') hfetch₁) hfetch₂
  have hloaded := hfetched.step hload
  have hstored := hloaded.step (rfl : TB.step _ _ (.schedule inOrder ⟨2, 1⟩) = some _)
  have hreach := hstored.step (rfl : TB.step _ _ (.schedule inOrder ⟨0, 1⟩) = some _)
  have hcoherent := Reachable.coherent hreach
  exact ⟨_, _, hreach, rfl, rfl, rfl, rfl, hcoherent.1,
    hcoherent.2 inOrder ⟨0, 2⟩ true _ rfl rfl ⟨1, 1⟩ (by decide)⟩

end TB

end Nidhugg.PowerArmRaces
