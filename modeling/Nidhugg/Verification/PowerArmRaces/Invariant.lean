import Nidhugg.Verification.PowerArmRaces.Collection

/-! # What holds in every state

The prefix is a plan for the next run. Its parameters were found when the same events had been
committed with the same choices, or they are computed anew. The events of the current run have been
committed in the order of the prefix, and what they depend on before them. -/

namespace Nidhugg.PowerArmRaces

open PowerArmBranches PowerArmRuns

variable {prog : Program} {mem : Memory} {baccesses : List ByteAccess} {evt evt' : Event}

/-! ### Parameters of an event -/

/-- The parameters that are taken up without a check fit. -/
structure Sound (mem : Memory) (baccesses : List ByteAccess) (evt : Event) : Prop where
  cur : evt.recalcParams = .no → evt.curParam = [] ∨ Fitting mem baccesses evt.curParam
  new : ∀ P ∈ evt.newParams, Fitting mem baccesses P

/-- No parameter is taken up without a check. -/
structure Unsettled (evt : Event) : Prop where
  cur : evt.recalcParams ≠ .no ∨ evt.curParam = []
  new : evt.newParams = []

theorem Unsettled.sound (h : Unsettled evt) : Sound mem baccesses evt where
  cur := fun hno => .inl (h.cur.resolve_left (not_not_intro hno))
  new := by
    intro P hP
    rw [h.new] at hP
    cases hP

/-- The parameters are kept, or the event is as good as new. -/
inductive Weaker (evt evt' : Event) : Prop
  | kept (hrecalc : evt'.recalcParams = evt.recalcParams) (hcur : evt'.curParam = evt.curParam)
      (hnew : ∀ P ∈ evt'.newParams, P ∈ evt.newParams)
  | blank (hrecalc : evt'.recalcParams = .no) (hcur : evt'.curParam = [])
      (hnew : evt'.newParams = [])

theorem Weaker.refl (evt : Event) : Weaker evt evt := .kept rfl rfl fun _ => id

theorem Weaker.unsettled (h : Weaker evt evt') (hevt : Unsettled evt) : Unsettled evt' := by
  cases h with
  | kept hrecalc hcur hnew =>
      constructor
      · rw [hrecalc, hcur]
        exact hevt.cur
      · apply List.eq_nil_iff_forall_not_mem.mpr
        intro P hP
        have hmem := hnew P hP
        rw [hevt.new] at hmem
        cases hmem
  | blank hrecalc hcur hnew => exact ⟨.inr hcur, hnew⟩

theorem Weaker.sound (h : Weaker evt evt') (hevt : Sound mem baccesses evt) :
    Sound mem baccesses evt' := by
  cases h with
  | kept hrecalc hcur hnew =>
      constructor
      · rw [hrecalc, hcur]
        exact hevt.cur
      · intro P hP
        exact hevt.new P (hnew P hP)
  | blank hrecalc hcur hnew => exact Unsettled.sound ⟨.inr hcur, hnew⟩

theorem Fitting.eq_nil {P : List Choice} (h : Fitting mem baccesses P)
    (hnil : Fitting mem baccesses []) : P = [] := by
  have hlen : P.length = 0 := h.length.symm.trans hnil.length
  exact List.length_eq_zero_iff.mp hlen

namespace TB

variable {tb tb' : TB} {i k : ℕ} {d e : IID}

/-! ### Planned histories -/

theorem planned_succ (he : tb.pfx[i]? = some e) :
    tb.planned (i + 1) = tb.pevent e :: tb.planned i := by
  simp [planned, List.take_add_one, he]

theorem planned_congr (htake : tb'.pfx.take i = tb.pfx.take i)
    (hcur : ∀ e ∈ tb.pfx.take i, (tb'.evt e).curParam = (tb.evt e).curParam) :
    tb'.planned i = tb.planned i := by
  rw [planned, planned, htake]
  congr 1
  apply List.map_congr_left
  intro e he
  rw [pevent, pevent, hcur e he]

/-- The parameters of the prefix are sound if the events before them are committed as planned. -/
structure Planned (prog : Program) (tb : TB) : Prop where
  sound : ∀ (i : ℕ) e mem, tb.pfx[i]? = some e →
    (∀ d ∈ tb.pfx.take i, (tb.evt d).recalcParams = .no) → Results prog (tb.planned i) mem →
    Sound mem (prog (tb.planned i) e).baccesses (tb.evt e)
  tail : ∀ (i : ℕ) d, tb.pfx[i]? = some d → (tb.evt d).recalcParams ≠ .no →
    ∀ e ∈ tb.pfx.drop (i + 1), Unsettled (tb.evt e)

theorem Planned.tail_of_lt (h : tb.Planned prog) (he : tb.pfx[i]? = some e)
    (hd : d ∈ tb.pfx.take i) (hrecalc : (tb.evt d).recalcParams ≠ .no) : Unsettled (tb.evt e) := by
  obtain ⟨j, hj⟩ := List.mem_iff_getElem?.mp hd
  rw [List.getElem?_take] at hj
  obtain ⟨hlt, hget⟩ : j < i ∧ tb.pfx[j]? = some d := by
    by_cases hlt : j < i
    · exact ⟨hlt, by rwa [if_pos hlt] at hj⟩
    · rw [if_neg hlt] at hj
      cases hj
  apply h.tail j d hget hrecalc e
  apply List.mem_of_getElem? (i := i - (j + 1))
  rw [List.getElem?_drop, Nat.add_sub_cancel' hlt, he]

/-- An event that is as good as new has no accesses if it fits, and so it had no choices before. -/
theorem Planned.planned_eq (h : tb.Planned prog) (hpfx : tb'.pfx = tb.pfx)
    (hweaker : ∀ e, Weaker (tb.evt e) (tb'.evt e))
    (hno : ∀ d ∈ tb.pfx.take i, (tb.evt d).recalcParams = .no)
    (hresults : Results prog (tb'.planned i) mem) : tb'.planned i = tb.planned i := by
  induction i generalizing mem with
  | zero => rfl
  | succ i ih =>
      have htake : ∀ d ∈ tb.pfx.take i, (tb.evt d).recalcParams = .no := fun d hd =>
        hno d (List.take_subset_take_left tb.pfx (Nat.le_succ i) hd)
      cases he : tb.pfx[i]? with
      | none =>
          have hsame : tb.planned (i + 1) = tb.planned i := by
            simp [planned, List.take_add_one, he]
          have hsame' : tb'.planned (i + 1) = tb'.planned i := by
            simp [planned, List.take_add_one, hpfx, he]
          rw [hsame'] at hresults ⊢
          rw [hsame]
          exact ih htake hresults
      | some e =>
          rw [planned_succ (hpfx ▸ he)] at hresults ⊢
          rw [planned_succ he]
          obtain ⟨mem₁, hmem₁, hfits, _⟩ := hresults.of_cons
          have heq := ih htake hmem₁
          rw [heq] at hmem₁ hfits ⊢
          have hsound := h.sound i e mem₁ he htake hmem₁
          have hcur : (tb'.evt e).curParam = (tb.evt e).curParam := by
            cases hweaker e with
            | kept hrecalc hcur hnew => exact hcur
            | blank hrecalc hcur hnew =>
                have hnil : Fitting mem₁ (prog (tb.planned i) e).baccesses [] := hcur ▸ hfits
                have hrecalc' := hno e (List.mem_of_getElem?
                  (by rw [List.getElem?_take, if_pos (Nat.lt_succ_self i), he]))
                rw [hcur]
                exact ((hsound.cur hrecalc').elim id fun hold => hold.eq_nil hnil).symm
          rw [pevent, pevent, hcur]

theorem Planned.weaken (h : tb.Planned prog) (hpfx : tb'.pfx = tb.pfx)
    (hweaker : ∀ e, Weaker (tb.evt e) (tb'.evt e)) : tb'.Planned prog where
  sound := by
    intro i e mem he _ hresults
    rw [hpfx] at he
    by_cases hno : ∀ d ∈ tb.pfx.take i, (tb.evt d).recalcParams = .no
    · have heq := h.planned_eq hpfx hweaker hno hresults
      rw [heq] at hresults ⊢
      exact (hweaker e).sound (h.sound i e mem he hno hresults)
    · rw [not_forall₂] at hno
      obtain ⟨d, hd, hrecalc⟩ := hno
      exact ((hweaker e).unsettled (h.tail_of_lt he hd hrecalc)).sound
  tail := by
    intro i d hd hrecalc e he
    rw [hpfx] at hd he
    cases hweaker d with
    | kept hsame _ _ => exact (hweaker e).unsettled (h.tail i d hd (hsame ▸ hrecalc) e he)
    | blank hno _ _ => exact (hrecalc hno).elim

/-- The prefix is as before up to an event, and nothing is settled behind it. -/
theorem Planned.cut (h : tb.Planned prog) (htake : tb'.pfx.take k = tb.pfx.take k)
    (hsame : ∀ e ∈ tb.pfx.take k, (tb'.evt e).recalcParams = (tb.evt e).recalcParams ∧
      (tb'.evt e).curParam = (tb.evt e).curParam ∧ (tb'.evt e).newParams = (tb.evt e).newParams)
    (hat : ∀ e, tb'.pfx[k]? = some e →
      ((∀ d ∈ tb.pfx.take k, (tb.evt d).recalcParams = .no) ∧ ∀ mem,
        Results prog (tb.planned k) mem →
          Sound mem (prog (tb.planned k) e).baccesses (tb'.evt e)) ∨ Unsettled (tb'.evt e))
    (hrest : ∀ e ∈ tb'.pfx.drop (k + 1), Unsettled (tb'.evt e)) : tb'.Planned prog := by
  have hplanned : ∀ i ≤ k, tb'.planned i = tb.planned i := by
    intro i hi
    have hsub : tb.pfx.take i ⊆ tb.pfx.take k := List.take_subset_take_left tb.pfx hi
    apply planned_congr
    · have := congrArg (List.take i) htake
      rwa [List.take_take, List.take_take, Nat.min_eq_left hi] at this
    · intro e he
      exact (hsame e (hsub he)).2.1
  have hbehind : ∀ (i : ℕ) e, k < i → tb'.pfx[i]? = some e → Unsettled (tb'.evt e) := by
    intro i e hi he
    apply hrest e
    apply List.mem_of_getElem? (i := i - (k + 1))
    rw [List.getElem?_drop, Nat.add_sub_cancel' hi, he]
  have hfront : ∀ (i : ℕ) e, i < k → tb'.pfx[i]? = some e → tb.pfx[i]? = some e := by
    intro i e hi he
    have := congrArg (fun l => l[i]?) htake
    simp only [List.getElem?_take, if_pos hi] at this
    rw [← this, he]
  have hmem : ∀ (i : ℕ) e, i < k → tb.pfx[i]? = some e → e ∈ tb.pfx.take k := by
    intro i e hi he
    exact List.mem_of_getElem? (by rw [List.getElem?_take, if_pos hi, he])
  have hweaker : ∀ e ∈ tb.pfx.take k, Weaker (tb.evt e) (tb'.evt e) := by
    intro e he
    obtain ⟨hrecalc, hcur, hnew⟩ := hsame e he
    exact .kept hrecalc hcur fun P hP => hnew ▸ hP
  constructor
  · intro i e mem he hno hresults
    rcases Nat.lt_trichotomy i k with hlt | rfl | hlt
    · have he' := hfront i e hlt he
      rw [hplanned i hlt.le] at hresults ⊢
      apply (hweaker e (hmem i e hlt he')).sound
      apply h.sound i e mem he' _ hresults
      intro d hd
      have hd' : d ∈ tb'.pfx.take i := by
        have := congrArg (List.take i) htake
        rw [List.take_take, List.take_take, Nat.min_eq_left hlt.le] at this
        rwa [this]
      rw [← (hsame d (List.take_subset_take_left tb.pfx hlt.le hd)).1]
      exact hno d hd'
    · rw [hplanned i le_rfl] at hresults ⊢
      cases hat e he with
      | inl hsound => exact hsound.2 mem hresults
      | inr hunsettled => exact hunsettled.sound
    · exact (hbehind i e hlt he).sound
  · intro i d hd hrecalc e he
    obtain ⟨l, hl⟩ := List.mem_iff_getElem?.mp he
    rw [List.getElem?_drop] at hl
    rcases Nat.lt_trichotomy (i + 1 + l) k with hlt | heq | hlt
    · have hi : i < k := by omega
      have he' := hfront _ e hlt hl
      have hd' := hfront i d hi hd
      rw [(hsame d (hmem i d hi hd')).1] at hrecalc
      apply (hweaker e (hmem _ e hlt he')).unsettled
      exact h.tail i d hd' hrecalc e (List.mem_of_getElem? (by rw [List.getElem?_drop, he']))
    · have hi : i < k := by omega
      have hd' := hfront i d hi hd
      have hmemd := hmem i d hi hd'
      cases hat e (heq ▸ hl) with
      | inl hsound => exact (hrecalc ((hsame d hmemd).1.trans (hsound.1 d hmemd))).elim
      | inr hunsettled => exact hunsettled
    · exact hbehind _ e hlt hl

/-! ### What holds in every state -/

/-- The events that have been committed in the current run. -/
def scheduled (tb : TB) : List IID := tb.pfx.take tb.schedCount

theorem mem_scheduled (hi : i < tb.schedCount) (he : tb.pfx[i]? = some e) : e ∈ tb.scheduled :=
  List.mem_of_getElem? (i := i) (by rw [scheduled, List.getElem?_take, if_pos hi, he])

/-- The branches start where they are found. -/
structure BranchesFit (tb : TB) : Prop where
  fits : ∀ (i : ℕ) e, tb.pfx[i]? = some e → ∀ B ∈ (tb.evt e).newBranches,
    B.branch ≠ [] ∧ (tb.pfx.take i ++ B.branch.map PEvent.iid).Nodup
  outside : ∀ e ∉ tb.pfx, (tb.evt e).newBranches = []
  locked : ∀ e start branchEnd, (tb.evt e).lockedBranch = some (start, branchEnd) →
    start ≤ branchEnd

/-- The current run. -/
structure Running (prog : Program) (tb : TB) : Prop where
  le : tb.schedCount ≤ tb.pfx.length
  results : Results prog tb.history tb.mem
  accesses : ∀ (i : ℕ) e, i < tb.schedCount → tb.pfx[i]? = some e →
    (tb.evt e).accesses = prog (tb.planned i) e
  committed : ∀ e, tb.isFetched e = true → ((tb.evt e).committed = true ↔ e ∈ tb.scheduled)
  fetched : ∀ e ∈ tb.scheduled, tb.isFetched e = true
  recalc : ∀ e ∈ tb.scheduled, (tb.evt e).recalcParams = .no
  fresh : ∀ e, tb.isFetched e = false → (tb.evt e).filledStatus = .complete →
    (tb.evt e).committed = false

/-- A clock that has an event of the current run has all that the event depends on. -/
def Closed (tb : TB) (cb : ℕ → Bool) : Prop :=
  ∀ e ∈ tb.scheduled, cb (tb.evt e).clockIndex = true → ∀ c, (tb.evt e).cbBwd c = true → cb c = true

/-- The clocks of the current run. -/
structure Clocked (tb : TB) : Prop where
  lt : ∀ e, tb.isFetched e = true → (tb.evt e).clockIndex < tb.nextClockIndex
  inj : ∀ d e, tb.isFetched d = true → tb.isFetched e = true →
    (tb.evt d).clockIndex = (tb.evt e).clockIndex → d = e
  idle : ∀ e, tb.isFetched e = true → e ∉ tb.scheduled → ∀ c, (tb.evt e).cbBwd c = true →
    c = (tb.evt e).clockIndex
  own : ∀ e ∈ tb.scheduled, (tb.evt e).cbBwd (tb.evt e).clockIndex = true
  bits : ∀ e ∈ tb.scheduled, ∀ c, (tb.evt e).cbBwd c = true →
    ∃ d ∈ tb.scheduled, (tb.evt d).clockIndex = c
  closed : ∀ e ∈ tb.scheduled, tb.Closed (tb.evt e).cbBwd
  sources : ∀ e ∈ tb.scheduled, ∀ s ∈ sources (tb.evt e).curParam,
    s ∈ tb.scheduled ∧ (tb.evt e).cbBwd (tb.evt s).clockIndex = true

structure Invariant (prog : Program) (tb : TB) : Prop where
  nodup : tb.pfx.Nodup
  planned : tb.Planned prog
  branches : tb.BranchesFit
  running : tb.Running prog
  clocked : tb.Clocked

theorem isFetched_iff : tb.isFetched e = true ↔ 0 < e.index ∧ e.index ≤ tb.fchCount e.pid := by
  rw [isFetched, Bool.and_eq_true, decide_eq_true_eq, decide_eq_true_eq]

theorem isFetched_congr (h : tb'.fchCount = tb.fchCount) : tb'.isFetched e = tb.isFetched e := by
  rw [isFetched, isFetched, h]

theorem evt_modifyEvt_self (f : Event → Event) : (tb.modifyEvt e f).evt e = f (tb.evt e) :=
  Function.update_self ..

theorem evt_modifyEvt_of_ne {d : IID} (f : Event → Event) (hne : d ≠ e) :
    (tb.modifyEvt e f).evt d = tb.evt d := Function.update_of_ne hne ..

/-! ### The start of a run -/

theorem Running.of_start (hsched : tb.schedCount = 0) (hmem : tb.mem = .new)
    (hfch : ∀ proc, tb.fchCount proc = 0)
    (hfresh : ∀ e, (tb.evt e).filledStatus = .complete → (tb.evt e).committed = false) :
    tb.Running prog := by
  have hscheduled : tb.scheduled = [] := by rw [scheduled, hsched, List.take_zero]
  have hfetched : ∀ e, tb.isFetched e = false := by
    intro e
    rw [← Bool.not_eq_true, isFetched_iff, hfch]
    omega
  constructor
  · rw [hsched]
    exact Nat.zero_le _
  · rw [history, hsched, hmem]
    exact .nil
  · intro i e hi
    rw [hsched] at hi
    exact (Nat.not_lt_zero i hi).elim
  · intro e he
    rw [hfetched e] at he
    cases he
  · intro e he
    rw [hscheduled] at he
    cases he
  · intro e he
    rw [hscheduled] at he
    cases he
  · intro e _ hstatus
    exact hfresh e hstatus

theorem Clocked.of_start (hsched : tb.schedCount = 0) (hfch : ∀ proc, tb.fchCount proc = 0) :
    tb.Clocked := by
  have hscheduled : ∀ e, e ∉ tb.scheduled := by simp [scheduled, hsched]
  have hfetched : ∀ e, tb.isFetched e ≠ true := by
    intro e
    rw [ne_eq, isFetched_iff, hfch]
    omega
  constructor
  · exact fun e he => (hfetched e he).elim
  · exact fun d e hd => (hfetched d hd).elim
  · exact fun e he => (hfetched e he).elim
  · exact fun e he => (hscheduled e he).elim
  · exact fun e he => (hscheduled e he).elim
  · exact fun e he => (hscheduled e he).elim
  · exact fun e he => (hscheduled e he).elim

theorem BranchesFit.weaken (h : tb.BranchesFit) (hpfx : tb'.pfx = tb.pfx)
    (hnew : ∀ e, ∀ B ∈ (tb'.evt e).newBranches, B ∈ (tb.evt e).newBranches)
    (hlocked : ∀ e, (tb'.evt e).lockedBranch = (tb.evt e).lockedBranch ∨
      (tb'.evt e).lockedBranch = none) : tb'.BranchesFit where
  fits := by
    intro i e he B hB
    rw [hpfx] at he ⊢
    exact h.fits i e he B (hnew e B hB)
  outside := by
    intro e he
    rw [hpfx] at he
    apply List.eq_nil_iff_forall_not_mem.mpr
    intro B hB
    have hmem := hnew e B hB
    rw [h.outside e he] at hmem
    cases hmem
  locked := by
    intro e start branchEnd he
    cases hlocked e with
    | inl hsame => exact h.locked e start branchEnd (hsame ▸ he)
    | inr hnone =>
        rw [hnone] at he
        cases he

theorem invariant_init : (init : TB).Invariant prog where
  nodup := .nil
  planned :=
    { sound := by
        intro i e mem he
        cases he
      tail := by
        intro i d hd
        cases hd }
  branches :=
    { fits := by
        intro i e he
        cases he
      outside := by
        intro e _
        rfl
      locked := by
        intro e start branchEnd he
        cases he }
  running := .of_start rfl rfl (fun _ => rfl) (fun _ _ => rfl)
  clocked := .of_start rfl fun _ => rfl

/-! ### Fetching an event -/

section

variable {proc : ℕ}

theorem isFetched_fetch : (tb.fetch proc).isFetched e = true ↔
    tb.isFetched e = true ∨ e = ⟨proc, tb.fchCount proc + 1⟩ := by
  obtain ⟨p, i⟩ := e
  rw [isFetched_iff, isFetched_iff]
  show (0 < i ∧ i ≤ Function.update tb.fchCount proc (tb.fchCount proc + 1) p) ↔
    (0 < i ∧ i ≤ tb.fchCount p) ∨ (⟨p, i⟩ : IID) = ⟨proc, tb.fchCount proc + 1⟩
  rw [IID.mk.injEq]
  by_cases hp : p = proc
  · subst hp
    rw [Function.update_self]
    omega
  · rw [Function.update_of_ne hp]
    simp [hp]

theorem not_isFetched : tb.isFetched ⟨proc, tb.fchCount proc + 1⟩ = false := by
  simp [isFetched]

theorem evt_fetch_self : (tb.fetch proc).evt ⟨proc, tb.fchCount proc + 1⟩ =
    (tb.evt ⟨proc, tb.fchCount proc + 1⟩).refill tb.nextClockIndex := Function.update_self ..

theorem evt_fetch_of_ne (hne : e ≠ ⟨proc, tb.fchCount proc + 1⟩) :
    (tb.fetch proc).evt e = tb.evt e := Function.update_of_ne hne ..

theorem weaker_refill (evt : Event) (c : ℕ) : Weaker evt (evt.refill c) := by
  unfold Event.refill
  cases evt.filledStatus with
  | empty => exact .blank rfl rfl rfl
  | parameter => exact .kept rfl rfl fun P hP => by cases hP
  | complete => exact .kept rfl rfl fun _ => id

theorem newBranches_refill (evt : Event) (c : ℕ) :
    ∀ B ∈ (evt.refill c).newBranches, B ∈ evt.newBranches := by
  unfold Event.refill
  intro B hB
  cases hstatus : evt.filledStatus with
  | empty =>
      rw [hstatus] at hB
      cases hB
  | parameter =>
      rw [hstatus] at hB
      exact hB
  | complete =>
      rw [hstatus] at hB
      exact hB

theorem lockedBranch_refill (evt : Event) (c : ℕ) :
    (evt.refill c).lockedBranch = evt.lockedBranch ∨ (evt.refill c).lockedBranch = none := by
  unfold Event.refill
  cases evt.filledStatus with
  | empty => exact .inr rfl
  | parameter => exact .inl rfl
  | complete => exact .inl rfl

theorem committed_refill {evt : Event} (c : ℕ)
    (h : evt.filledStatus = .complete → evt.committed = false) :
    (evt.refill c).committed = false := by
  unfold Event.refill
  cases hstatus : evt.filledStatus with
  | empty => rfl
  | parameter => rfl
  | complete => exact h hstatus

theorem clock_refill (evt : Event) (c : ℕ) : (evt.refill c).clockIndex = c ∧
    ∀ c', (evt.refill c).cbBwd c' = true → c' = c := by
  unfold Event.refill
  cases evt.filledStatus with
  | empty => exact ⟨rfl, fun c' h => of_decide_eq_true h⟩
  | parameter => exact ⟨rfl, fun c' h => of_decide_eq_true h⟩
  | complete => exact ⟨rfl, fun c' h => of_decide_eq_true h⟩

/-- What an event that has not been fetched before leaves as it is. -/
theorem forall_fetch {p : IID → Event → Prop}
    (hself : p ⟨proc, tb.fchCount proc + 1⟩
      ((tb.evt ⟨proc, tb.fchCount proc + 1⟩).refill tb.nextClockIndex))
    (hother : ∀ e, e ≠ ⟨proc, tb.fchCount proc + 1⟩ → p e (tb.evt e)) (e : IID) :
    p e ((tb.fetch proc).evt e) := by
  by_cases he : e = ⟨proc, tb.fchCount proc + 1⟩
  · rw [he, evt_fetch_self]
    exact hself
  · rw [evt_fetch_of_ne he]
    exact hother e he

theorem Running.ne_of_scheduled (h : tb.Running prog) (he : e ∈ tb.scheduled) :
    e ≠ ⟨proc, tb.fchCount proc + 1⟩ := by
  rintro rfl
  have hfetched := h.fetched _ he
  rw [not_isFetched] at hfetched
  cases hfetched

theorem Running.fetch (h : tb.Running prog) : (tb.fetch proc).Running prog := by
  have hevt : ∀ e ∈ tb.scheduled, (tb.fetch proc).evt e = tb.evt e :=
    fun e he => evt_fetch_of_ne (h.ne_of_scheduled he)
  have hplanned : ∀ i ≤ tb.schedCount, (tb.fetch proc).planned i = tb.planned i := by
    intro i hi
    apply planned_congr (show (tb.fetch proc).pfx.take i = tb.pfx.take i from rfl)
    intro e he
    rw [hevt e (List.take_subset_take_left tb.pfx hi he)]
  constructor
  · exact h.le
  · have hhistory : (tb.fetch proc).history = tb.history := hplanned _ le_rfl
    rw [hhistory]
    exact h.results
  · intro i e hi he
    have hmem : e ∈ tb.scheduled := mem_scheduled hi he
    rw [hevt e hmem, hplanned i (le_of_lt hi)]
    exact h.accesses i e hi he
  · intro e he
    by_cases hself : e = ⟨proc, tb.fchCount proc + 1⟩
    · have hnot : e ∉ tb.scheduled := fun hmem => h.ne_of_scheduled hmem hself
      have hfalse : ((tb.fetch proc).evt e).committed = false := by
        rw [hself, evt_fetch_self]
        exact committed_refill _ (h.fresh _ not_isFetched)
      rw [hfalse]
      exact ⟨fun h => (Bool.false_ne_true h).elim, fun hmem => (hnot hmem).elim⟩
    · rw [evt_fetch_of_ne hself]
      exact h.committed e ((isFetched_fetch.mp he).resolve_right hself)
  · intro e he
    exact isFetched_fetch.mpr (.inl (h.fetched e he))
  · intro e he
    rw [hevt e he]
    exact h.recalc e he
  · intro e he
    have hnot : ¬(tb.isFetched e = true ∨ e = ⟨proc, tb.fchCount proc + 1⟩) := by
      rw [← isFetched_fetch, he]
      exact Bool.false_ne_true
    rw [not_or] at hnot
    rw [evt_fetch_of_ne hnot.2]
    exact h.fresh e (Bool.eq_false_iff.mpr hnot.1)

theorem Clocked.fetch (h : tb.Clocked) (hrunning : tb.Running prog) : (tb.fetch proc).Clocked := by
  have hevt : ∀ e ∈ tb.scheduled, (tb.fetch proc).evt e = tb.evt e :=
    fun e he => evt_fetch_of_ne (hrunning.ne_of_scheduled he)
  have hself := clock_refill (tb.evt ⟨proc, tb.fchCount proc + 1⟩) tb.nextClockIndex
  have hlt : ∀ e, tb.isFetched e = true → ((tb.fetch proc).evt e).clockIndex < tb.nextClockIndex := by
    intro e he
    have hne : e ≠ ⟨proc, tb.fchCount proc + 1⟩ := by
      rintro rfl
      rw [not_isFetched] at he
      cases he
    rw [evt_fetch_of_ne hne]
    exact h.lt e he
  have hnew : ((tb.fetch proc).evt ⟨proc, tb.fchCount proc + 1⟩).clockIndex = tb.nextClockIndex := by
    rw [evt_fetch_self]
    exact hself.1
  have hne : ∀ {e}, tb.isFetched e = true → e ≠ ⟨proc, tb.fchCount proc + 1⟩ := by
    rintro e he rfl
    rw [not_isFetched] at he
    cases he
  constructor
  · intro e he
    cases isFetched_fetch.mp he with
    | inl he => exact Nat.lt_succ_of_lt (hlt e he)
    | inr he =>
        rw [he, hnew]
        exact Nat.lt_succ_self _
  · intro d e hd he heq
    cases isFetched_fetch.mp hd with
    | inl hd =>
        cases isFetched_fetch.mp he with
        | inl he =>
            rw [evt_fetch_of_ne (hne hd), evt_fetch_of_ne (hne he)] at heq
            exact h.inj d e hd he heq
        | inr he =>
            have hdlt := hlt d hd
            rw [heq, he, hnew] at hdlt
            exact (lt_irrefl _ hdlt).elim
    | inr hd =>
        cases isFetched_fetch.mp he with
        | inl he =>
            have helt := hlt e he
            rw [← heq, hd, hnew] at helt
            exact (lt_irrefl _ helt).elim
        | inr he => exact hd.trans he.symm
  · intro e he hnot c hc
    cases isFetched_fetch.mp he with
    | inl he =>
        rw [evt_fetch_of_ne (hne he)] at hc ⊢
        exact h.idle e he hnot c hc
    | inr he =>
        rw [he, evt_fetch_self] at hc ⊢
        rw [hself.1]
        exact hself.2 c hc
  · intro e he
    rw [hevt e he]
    exact h.own e he
  · intro e he c hc
    rw [hevt e he] at hc
    obtain ⟨d, hd, hclock⟩ := h.bits e he c hc
    exact ⟨d, hd, by rw [hevt d hd]; exact hclock⟩
  · intro e he d hd
    rw [hevt e he, hevt d hd]
    exact h.closed e he d hd
  · intro e he s hs
    rw [hevt e he] at hs ⊢
    obtain ⟨hmem, hbit⟩ := h.sources e he s hs
    exact ⟨hmem, by rwa [hevt s hmem]⟩

end

end TB

end Nidhugg.PowerArmRaces
