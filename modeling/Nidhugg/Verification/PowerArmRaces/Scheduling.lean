import Nidhugg.Library.FoldInvariant
import Nidhugg.Verification.PowerArmRaces.Conflicts

/-! # Committing an event

The parameters that are computed fit to the memory, and those of the plan do. -/

namespace Nidhugg.PowerArmRaces

open PowerArmBranches PowerArmRuns

theorem Fitting.concat {mem : Memory} {baccesses : List ByteAccess} {choices : List Choice}
    {A : ByteAccess} {C : Choice} (h : Fitting mem baccesses choices)
    (hC : (mem A.addr).Fits A C) : Fitting mem (baccesses ++ [A]) (choices ++ [C]) where
  length := by simp [h.length]
  fits := by
    intro u hu
    rw [List.zip_append h.length, List.mem_append] at hu
    cases hu with
    | inl hu => exact h.fits u hu
    | inr hu =>
        rw [List.zip_cons_cons, List.zip_nil_left, List.mem_singleton] at hu
        rw [hu]
        exact hC

namespace TB

variable {prog : Program} {tb tb' : TB} {R : Relations} {w e : IID} {replay ok : Bool}

/-! ### Parameters -/

theorem fits_of_mem_choicesFor {choices : List Choice} {A : ByteAccess} {C : Choice}
    (hC : C ∈ tb.choicesFor R w choices A) : (tb.mem A.addr).Fits A C := by
  have hmem := (List.mem_filter.mp hC).1
  cases hstore : A.isStore with
  | true =>
      rw [if_pos hstore] at hmem
      obtain ⟨p, hp, rfl⟩ := List.mem_map.mp hmem
      exact ⟨hstore, Nat.le_of_lt_succ (List.mem_range.mp hp)⟩
  | false =>
      rw [if_neg (by simp [hstore])] at hmem
      cases List.mem_append.mp hmem with
      | inl hmem =>
          obtain ⟨s, hs, rfl⟩ := List.mem_map.mp hmem
          exact ⟨hstore, Mem.some_mem_sources.mpr (List.mem_reverse.mp hs)⟩
      | inr hmem =>
          rw [List.mem_singleton.mp hmem]
          exact ⟨hstore, List.mem_cons_self⟩

theorem fitting_of_mem_foldl {done baccesses : List ByteAccess} {prm : List (List Choice)}
    (hprm : ∀ P ∈ prm, Fitting tb.mem done P) {P : List Choice}
    (hP : P ∈ baccesses.foldl (fun prm A => prm.flatMap fun choices =>
      (tb.choicesFor R w choices A).map fun C => choices ++ [C]) prm) :
    Fitting tb.mem (done ++ baccesses) P := by
  induction baccesses generalizing done prm with
  | nil =>
      rw [List.append_nil]
      exact hprm P hP
  | cons A baccesses ih =>
      rw [← List.singleton_append, ← List.append_assoc]
      apply ih _ hP
      intro Q hQ
      obtain ⟨choices, hchoices, hQ⟩ := List.mem_flatMap.mp hQ
      obtain ⟨C, hC, rfl⟩ := List.mem_map.mp hQ
      exact (hprm choices hchoices).concat (fits_of_mem_choicesFor hC)

theorem fitting_of_mem_populateParameters {P : List Choice}
    (hP : P ∈ tb.populateParameters R w) :
    Fitting tb.mem (tb.evt w).accesses.baccesses P := by
  have hfold := (List.mem_filter.mp hP).1
  rw [← List.nil_append (tb.evt w).accesses.baccesses]
  apply fitting_of_mem_foldl _ hfold
  intro Q hQ
  rw [List.mem_singleton.mp hQ]
  exact ⟨rfl, by simp⟩

theorem mem_of_mem_eligible {evt : Event} {params : List (List Choice)} {P : List Choice}
    (hP : P ∈ eligible evt params) : P ∈ params := by
  unfold eligible at hP
  cases hrecalc : evt.recalcParams with
  | no =>
      rw [hrecalc] at hP
      exact hP
  | star =>
      rw [hrecalc] at hP
      exact hP
  | load =>
      rw [hrecalc] at hP
      exact (List.mem_filter.mp hP).1
  | param =>
      rw [hrecalc] at hP
      exact List.mem_of_find?_eq_some (Option.mem_toList.mp hP)

/-! ### The state before the search for conflicts -/

/-- The event has been committed with a parameter. -/
def prepared (tb : TB) (R : Relations) (w : IID) (P : List Choice) (newParams : List (List Choice))
    (mem : Memory) : TB :=
  { tb.modifyEvt w fun evt =>
      { evt with
        curParam := P
        newParams := newParams
        recalcParams := .no
        cbBwd := tb.computeCb R w (sources P) } with
    mem := mem }

/-- A parameter of the plan, or one that has been computed. -/
inductive Chosen (tb : TB) (R : Relations) (w : IID) (replay : Bool) :
    List Choice → List (List Choice) → Prop
  | planned (hreplay : replay = true) (hno : (tb.evt w).recalcParams = .no) :
      Chosen tb R w replay (tb.evt w).curParam (tb.evt w).newParams
  | computed {P : List Choice} {newParams : List (List Choice)}
      (hre : replay = true → (tb.evt w).recalcParams ≠ .no) (hP : P ∈ tb.populateParameters R w)
      (hnew : ∀ Q ∈ newParams, Q ∈ tb.populateParameters R w) : Chosen tb R w replay P newParams

theorem computeCb_modifyEvt {f : Event → Event} {srcs : List IID}
    (hclock : ∀ evt, (f evt).clockIndex = evt.clockIndex) (hcb : ∀ evt, (f evt).cbBwd = evt.cbBwd) :
    (tb.modifyEvt w f).computeCb R w srcs = tb.computeCb R w srcs := by
  have hsame : ∀ d, ((tb.modifyEvt w f).evt d).clockIndex = (tb.evt d).clockIndex ∧
      ((tb.modifyEvt w f).evt d).cbBwd = (tb.evt d).cbBwd := by
    intro d
    by_cases hd : d = w
    · rw [hd, evt_modifyEvt_self]
      exact ⟨hclock _, hcb _⟩
    · rw [evt_modifyEvt_of_ne _ hd]
      exact ⟨rfl, rfl⟩
  funext c
  simp only [computeCb, hsame]

/-- The choice of a parameter. -/
def choose (tb : TB) (w : IID) (P : List Choice) (newParams : List (List Choice)) : TB :=
  tb.modifyEvt w fun evt =>
    { evt with curParam := P, newParams := newParams, recalcParams := .no }

theorem commitParam_choose (P : List Choice) (newParams : List (List Choice)) :
    (tb.choose w P newParams).commitParam R w =
      (commitAccesses (tb.evt w).accesses.baccesses tb.mem ⟨w, P⟩).map
        (tb.prepared R w P newParams) := by
  have hevt : (tb.choose w P newParams).evt w =
      { tb.evt w with curParam := P, newParams := newParams, recalcParams := .no } :=
    evt_modifyEvt_self _
  have hcb : ∀ srcs, (tb.choose w P newParams).computeCb R w srcs = tb.computeCb R w srcs :=
    fun srcs => computeCb_modifyEvt (fun _ => rfl) (fun _ => rfl)
  rw [commitParam, pevent, hevt]
  congr 1
  funext mem
  simp only [prepared, choose, modifyEvt, Function.update_self, Function.update_idem]
  simp only [choose, modifyEvt] at hcb
  rw [hcb]

theorem choose_planned (hno : (tb.evt w).recalcParams = .no) :
    tb.choose w (tb.evt w).curParam (tb.evt w).newParams = tb := by
  have hevt : { tb.evt w with recalcParams := .no } = tb.evt w := by rw [← hno]
  show { tb with evt := Function.update tb.evt w { tb.evt w with recalcParams := .no } } = tb
  rw [hevt, Function.update_eq_self]

theorem prepare_cases (h : tb.prepare R w replay = some (ok, tb')) :
    (ok = false ∧ tb' = tb) ∨
    (ok = true ∧ ∃ P newParams mem, tb.Chosen R w replay P newParams ∧
      commitAccesses (tb.evt w).accesses.baccesses tb.mem ⟨w, P⟩ = some mem ∧
      tb' = tb.prepared R w P newParams mem) := by
  unfold prepare at h
  by_cases hre : (!replay || decide ((tb.evt w).recalcParams ≠ .no)) = true
  · have hrecalc : replay = true → (tb.evt w).recalcParams ≠ .no := by
      intro hreplay
      simpa [hreplay] using hre
    rw [if_pos hre] at h
    by_cases hempty : (tb.evt w).newParams.isEmpty = true
    · rw [if_pos hempty] at h
      dsimp only at h
      cases hlast : (eligible (tb.evt w) (tb.populateParameters R w)).getLast? with
      | none =>
          rw [hlast] at h
          cases h
          exact .inl ⟨rfl, rfl⟩
      | some P =>
          rw [hlast] at h
          obtain ⟨tb₁, htb₁, heq⟩ := Option.map_eq_some_iff.mp h
          cases heq
          obtain ⟨mem, hmem, rfl⟩ := Option.map_eq_some_iff.mp
            ((commitParam_choose P _).symm.trans htb₁)
          refine .inr ⟨rfl, P, _, mem, .computed hrecalc ?_ ?_, hmem, rfl⟩
          · exact mem_of_mem_eligible (List.mem_of_getLast? hlast)
          · intro Q hQ
            exact mem_of_mem_eligible ((List.dropLast_sublist _).subset hQ)
    · rw [if_neg hempty] at h
      cases h
  · have hreplay : replay = true ∧ (tb.evt w).recalcParams = .no := by simpa using hre
    rw [if_neg hre] at h
    obtain ⟨tb₁, htb₁, heq⟩ := Option.map_eq_some_iff.mp h
    cases heq
    rw [← choose_planned hreplay.2, commitParam_choose] at htb₁
    obtain ⟨mem, hmem, rfl⟩ := Option.map_eq_some_iff.mp htb₁
    exact .inr ⟨rfl, _, _, mem, .planned hreplay.1 hreplay.2, hmem, rfl⟩

/-! ### Conflicts -/

/-- Nothing but branches has been added. -/
structure SameButBranches (tb tb' : TB) : Prop where
  pfx : tb'.pfx = tb.pfx
  schedCount : tb'.schedCount = tb.schedCount
  fchCount : tb'.fchCount = tb.fchCount
  nextClockIndex : tb'.nextClockIndex = tb.nextClockIndex
  mem : tb'.mem = tb.mem
  evt : ∀ e, tb'.evt e = { tb.evt e with newBranches := (tb'.evt e).newBranches }

/-- The branches that the search for conflicts may add. -/
structure Detected (tb : TB) (R : Relations) (w : IID) (tb' : TB) : Prop where
  same : tb.SameButBranches tb'
  branches : ∀ e, ∀ B ∈ (tb'.evt e).newBranches, B ∈ (tb.evt e).newBranches ∨
    ∃ r ∈ tb.conflicts R w, tb.pfx[tb.branchStart r]? = some e ∧ tb.raceBranch R w r = some B

theorem mem_insertBranch {evt : Event} {B B' : Branch}
    (h : B' ∈ (insertBranch evt B).newBranches) : B' ∈ evt.newBranches ∨ B' = B := by
  unfold insertBranch at h
  split at h
  · exact (VecSet.eq_or_mem_of_mem_insert h).symm
  · exact .inl h

theorem insertBranch_eq (evt : Event) (B : Branch) :
    insertBranch evt B = { evt with newBranches := (insertBranch evt B).newBranches } := by
  unfold insertBranch
  split
  · rfl
  · rfl

theorem Detected.addBranch {r : IID} {B : Branch} (h : tb.Detected R w tb')
    (hr : r ∈ tb.conflicts R w) (hB : tb.raceBranch R w r = some B) :
    tb.Detected R w (tb.addBranch tb' r B) := by
  rw [TB.addBranch]
  cases hfirst : tb.pfx[tb.branchStart r]? with
  | none => exact h
  | some first =>
      constructor
      · refine ⟨h.same.pfx, h.same.schedCount, h.same.fchCount, h.same.nextClockIndex, h.same.mem,
          ?_⟩
        intro e
        by_cases he : e = first
        · subst he
          rw [evt_modifyEvt_self, insertBranch_eq, h.same.evt e]
        · rw [evt_modifyEvt_of_ne _ he]
          exact h.same.evt e
      · intro e B' hB'
        by_cases he : e = first
        · subst he
          rw [evt_modifyEvt_self] at hB'
          cases mem_insertBranch hB' with
          | inl hold => exact h.branches e B' hold
          | inr heq => exact .inr ⟨r, hr, hfirst, heq ▸ hB⟩
        · rw [evt_modifyEvt_of_ne _ he] at hB'
          exact h.branches e B' hB'

theorem detected (h : tb.detectRwConflicts R w = some tb') : tb.Detected R w tb' := by
  apply FoldInvariant.of_foldlM (tb.conflicts R w) _ _ h
  · intro tb₁ r tb₂ hr hdetected hstep
    obtain ⟨B, hB, rfl⟩ := Option.map_eq_some_iff.mp hstep
    exact hdetected.addBranch hr hB
  · exact ⟨⟨rfl, rfl, rfl, rfl, rfl, fun _ => rfl⟩, fun e B hB => .inl hB⟩

/-! ### What stays as it is -/

theorem Running.frame (h : tb.Running prog) (hpfx : tb'.pfx = tb.pfx)
    (hsched : tb'.schedCount = tb.schedCount) (hmem : tb'.mem = tb.mem)
    (hfch : tb'.fchCount = tb.fchCount)
    (hfront : ∀ e ∈ tb.scheduled, (tb'.evt e).accesses = (tb.evt e).accesses)
    (hevt : ∀ e, (tb'.evt e).curParam = (tb.evt e).curParam ∧
      (tb'.evt e).recalcParams = (tb.evt e).recalcParams ∧
      (tb'.evt e).committed = (tb.evt e).committed ∧
      (tb'.evt e).filledStatus = (tb.evt e).filledStatus) : tb'.Running prog := by
  have hscheduled : tb'.scheduled = tb.scheduled := by rw [scheduled, scheduled, hpfx, hsched]
  have hplanned : ∀ i, tb'.planned i = tb.planned i := fun i =>
    planned_congr (by rw [hpfx]) fun e _ => (hevt e).1
  constructor
  · rw [hsched, hpfx]
    exact h.le
  · rw [history, hplanned, hsched, hmem]
    exact h.results
  · intro i e hi he
    rw [hsched] at hi
    rw [hpfx] at he
    rw [hfront e (mem_scheduled hi he), hplanned]
    exact h.accesses i e hi he
  · intro e he
    rw [isFetched_congr hfch] at he
    rw [(hevt e).2.2.1, hscheduled]
    exact h.committed e he
  · intro e he
    rw [isFetched_congr hfch]
    exact h.fetched e (hscheduled ▸ he)
  · intro e he
    rw [(hevt e).2.1]
    exact h.recalc e (hscheduled ▸ he)
  · intro e he hstatus
    rw [isFetched_congr hfch] at he
    rw [(hevt e).2.2.2] at hstatus
    rw [(hevt e).2.2.1]
    exact h.fresh e he hstatus

theorem Clocked.frame (h : tb.Clocked) (hpfx : tb'.pfx = tb.pfx)
    (hsched : tb'.schedCount = tb.schedCount) (hnext : tb'.nextClockIndex = tb.nextClockIndex)
    (hfch : tb'.fchCount = tb.fchCount)
    (hevt : ∀ e, (tb'.evt e).curParam = (tb.evt e).curParam ∧
      (tb'.evt e).clockIndex = (tb.evt e).clockIndex ∧ (tb'.evt e).cbBwd = (tb.evt e).cbBwd) :
    tb'.Clocked := by
  have hscheduled : tb'.scheduled = tb.scheduled := by rw [scheduled, scheduled, hpfx, hsched]
  constructor
  · intro e he
    rw [isFetched_congr hfch] at he
    rw [(hevt e).2.1, hnext]
    exact h.lt e he
  · intro d e hd he heq
    rw [isFetched_congr hfch] at hd he
    rw [(hevt d).2.1, (hevt e).2.1] at heq
    exact h.inj d e hd he heq
  · intro e he hnot c hc
    rw [isFetched_congr hfch] at he
    rw [(hevt e).2.2] at hc
    rw [(hevt e).2.1]
    exact h.idle e he (hscheduled ▸ hnot) c hc
  · intro e he
    rw [(hevt e).2.1, (hevt e).2.2]
    exact h.own e (hscheduled ▸ he)
  · intro e he c hc
    rw [(hevt e).2.2] at hc
    obtain ⟨d, hd, heq⟩ := h.bits e (hscheduled ▸ he) c hc
    exact ⟨d, hscheduled ▸ hd, (hevt d).2.1.trans heq⟩
  · intro e he d hd
    rw [(hevt e).2.2, (hevt d).2.1, (hevt d).2.2]
    exact h.closed e (hscheduled ▸ he) d (hscheduled ▸ hd)
  · intro e he s hs
    rw [(hevt e).1] at hs
    rw [(hevt e).2.2, (hevt s).2.1, hscheduled]
    exact h.sources e (hscheduled ▸ he) s hs

/-! ### An attempt -/

/-- An event that `schedule` tries to commit, with the accesses that have been registered. -/
structure Attempted (prog : Program) (R : Relations) (tb : TB) (w : IID) (replay : Bool) :
    Prop where
  invariant : tb.Invariant prog
  fetched : tb.isFetched w = true
  idle : w ∉ tb.scheduled
  accesses : (tb.evt w).accesses = prog tb.history w
  preds : ∀ d ∈ R.cbPreds w, d ∈ tb.scheduled
  planned : replay = true → tb.pfx[tb.schedCount]? = some w
  new : replay = false → tb.schedCount = tb.pfx.length ∧ w ∉ tb.pfx

theorem evt_register_of_ne (hne : e ≠ w) : (tb.register prog w).evt e = tb.evt e :=
  evt_modifyEvt_of_ne _ hne

theorem evt_register (prog : Program) (tb : TB) (w e : IID) :
    (tb.register prog w).evt e =
      { tb.evt e with accesses := ((tb.register prog w).evt e).accesses } := by
  by_cases he : e = w
  · subst he
    rw [register, evt_modifyEvt_self]
  · rw [evt_register_of_ne he]

theorem Invariant.register (h : tb.Invariant prog) (hw : w ∉ tb.scheduled) :
    (tb.register prog w).Invariant prog where
  nodup := h.nodup
  planned := by
    refine h.planned.weaken ?_ fun e => ?_
    · rfl
    rw [evt_register]
    exact .kept rfl rfl fun _ => id
  branches := by
    refine h.branches.weaken ?_ ?_ ?_
    · rfl
    · intro e B hB
      rw [evt_register] at hB
      exact hB
    · intro e
      rw [evt_register]
      exact .inl rfl
  running := by
    refine h.running.frame ?_ ?_ ?_ ?_ ?_ ?_
    · rfl
    · rfl
    · rfl
    · rfl
    · intro e he
      have hne : e ≠ w := fun heq => hw (heq ▸ he)
      rw [evt_register_of_ne hne]
    · intro e
      rw [evt_register]
      exact ⟨rfl, rfl, rfl, rfl⟩
  clocked := by
    refine h.clocked.frame ?_ ?_ ?_ ?_ fun e => ?_
    · rfl
    · rfl
    · rfl
    · rfl
    rw [evt_register]
    exact ⟨rfl, rfl, rfl⟩

theorem Invariant.attempted (h : tb.Invariant prog) (hattempts : tb.attempts R w = true) :
    Attempted prog R (tb.register prog w) w tb.replays := by
  rw [attempts, committable] at hattempts
  simp only [Bool.and_eq_true, Bool.not_eq_true', Bool.or_eq_true, decide_eq_true_eq,
    List.all_eq_true] at hattempts
  obtain ⟨⟨_, ⟨⟨hfetched, hcommitted⟩, _⟩, hpreds⟩, hplace⟩ := hattempts
  have hidle : w ∉ tb.scheduled := by
    intro hw
    rw [(h.running.committed w hfetched).mpr hw] at hcommitted
    cases hcommitted
  have hhistory : (tb.register prog w).history = tb.history := by
    refine planned_congr ?_ fun e _ => ?_
    · rfl
    rw [evt_register]
  constructor
  · exact h.register hidle
  · exact hfetched
  · exact hidle
  · rw [hhistory, TB.register, evt_modifyEvt_self]
  · intro d hd
    exact (h.running.committed d (hpreds d hd).1).mp (hpreds d hd).2
  · intro hreplay
    exact hplace.resolve_left (by simp [hreplay])
  · intro hnew
    have hlen : ¬tb.schedCount < tb.pfx.length := of_decide_eq_false hnew
    have heq : tb.schedCount = tb.pfx.length := by
      have hle := h.running.le
      omega
    refine ⟨heq, ?_⟩
    intro hw
    apply hidle
    rw [scheduled, heq, List.take_length]
    exact hw

section

variable {P : List Choice} {newParams : List (List Choice)} {mem : Memory}

theorem Attempted.sound (h : Attempted prog R tb w replay) (hreplay : replay = true) :
    Sound tb.mem (tb.evt w).accesses.baccesses (tb.evt w) := by
  rw [h.accesses]
  exact h.invariant.planned.sound _ w tb.mem (h.planned hreplay) h.invariant.running.recalc
    h.invariant.running.results

theorem Attempted.fitting (h : Attempted prog R tb w replay)
    (hchosen : tb.Chosen R w replay P newParams)
    (hcommit : commitAccesses (tb.evt w).accesses.baccesses tb.mem ⟨w, P⟩ = some mem) :
    Fitting tb.mem (tb.evt w).accesses.baccesses P := by
  cases hchosen with
  | planned hreplay hno =>
      cases (h.sound hreplay).cur hno with
      | inl hnil =>
          have hlen := (foldlM_of_commitAccesses hcommit).1
          rw [hnil] at hlen ⊢
          exact ⟨hlen, by simp⟩
      | inr hfits => exact hfits
  | computed hre hP hnew => exact fitting_of_mem_populateParameters hP

theorem Attempted.fitting_new (h : Attempted prog R tb w replay)
    (hchosen : tb.Chosen R w replay P newParams) :
    ∀ Q ∈ newParams, Fitting tb.mem (tb.evt w).accesses.baccesses Q := by
  cases hchosen with
  | planned hreplay hno => exact (h.sound hreplay).new
  | computed hre hP hnew => exact fun Q hQ => fitting_of_mem_populateParameters (hnew Q hQ)

/-! ### Clocks of the attempt -/

theorem results_planned {n : ℕ} (hacc : ∀ (i : ℕ) e, i < n → tb.pfx[i]? = some e →
    (tb.evt e).accesses = prog (tb.planned i) e) (hresults : Results prog (tb.planned n) mem) :
    Results (fun _ => tb.acc) (tb.planned n) mem := by
  induction n generalizing mem with
  | zero =>
      cases hresults
      exact .nil
  | succ n ih =>
      have hacc' : ∀ (i : ℕ) e, i < n → tb.pfx[i]? = some e →
          (tb.evt e).accesses = prog (tb.planned i) e :=
        fun i e hi => hacc i e (Nat.lt_succ_of_lt hi)
      cases he : tb.pfx[n]? with
      | none =>
          have hsame : tb.planned (n + 1) = tb.planned n := by
            simp [TB.planned, List.take_add_one, he]
          rw [hsame] at hresults ⊢
          exact ih hacc' hresults
      | some e =>
          rw [planned_succ he] at hresults ⊢
          obtain ⟨mem₁, hmem₁, hfits, hcommit⟩ := hresults.of_cons
          have hself : prog (tb.planned n) (tb.pevent e).iid = tb.acc (tb.pevent e).iid :=
            (hacc n e (Nat.lt_succ_self n) he).symm
          rw [hself] at hfits hcommit
          exact .cons (ih hacc' hmem₁) hfits hcommit

theorem Running.static (h : tb.Running prog) :
    Results (fun _ => tb.acc) (tb.hist tb.scheduled) tb.mem :=
  results_planned h.accesses h.results

theorem Running.mem_of_coherence (h : tb.Running prog) {x : Addr} {s : IID}
    (hs : s ∈ (tb.mem x).coherence) : s ∈ tb.scheduled := by
  have hmem := (h.static.exists_store hs).1
  rw [map_iid_hist] at hmem
  exact List.mem_reverse.mp hmem

/-- What the event depends on has clocks of its own. -/
theorem Attempted.closed_computeCb (h : Attempted prog R tb w replay) {srcs : List IID}
    (hsrcs : ∀ s ∈ srcs, s ∈ tb.scheduled) : tb.Closed (tb.computeCb R w srcs) := by
  intro e he hcb c hc
  rw [computeCb, Bool.or_eq_true, decide_eq_true_eq] at hcb
  cases hcb with
  | inl heq =>
      have hself := h.invariant.clocked.inj e w (h.invariant.running.fetched e he) h.fetched heq
      exact (h.idle (hself ▸ he)).elim
  | inr hany =>
      obtain ⟨d, hd, hbit⟩ := List.any_eq_true.mp hany
      have hdone : d ∈ tb.scheduled := by
        cases List.mem_append.mp hd with
        | inl hd => exact h.preds d hd
        | inr hd => exact hsrcs d hd
      rw [computeCb, Bool.or_eq_true]
      exact .inr (List.any_eq_true.mpr ⟨d, hd, h.invariant.clocked.closed d hdone e he hbit c hc⟩)

theorem Attempted.closed_idle (h : Attempted prog R tb w replay) :
    tb.Closed (tb.evt w).cbBwd := by
  intro e he hcb
  have heq := h.invariant.clocked.idle w h.fetched h.idle _ hcb
  have hself := h.invariant.clocked.inj e w (h.invariant.running.fetched e he) h.fetched heq
  exact (h.idle (hself ▸ he)).elim

/-- No parameter is allowed. -/
theorem Attempted.detecting_failed (h : Attempted prog R tb w replay) : tb.Detecting R w where
  nodup := h.invariant.nodup
  results := by
    refine ⟨[], h.invariant.running.static, ?_, by simp⟩
    rw [List.nil_append, map_iid_hist]
    exact List.nodup_reverse.mpr (h.invariant.nodup.sublist (List.take_sublist _ _))
  not_mem := h.idle
  closed := by
    intro r
    have hraceCb : tb.raceCb R w r = if tb.lockLockRace w r then tb.computeCb R w []
        else (tb.evt w).cbBwd := by
      funext c
      rw [raceCb]
      split <;> rfl
    rw [hraceCb]
    split
    · exact h.closed_computeCb (by simp)
    · exact h.closed_idle
  sources := fun e he s hs => (h.invariant.clocked.sources e he s hs).2
  locked := h.invariant.branches.locked

theorem evt_prepared_self : (tb.prepared R w P newParams mem).evt w =
    { tb.evt w with
      curParam := P
      newParams := newParams
      recalcParams := .no
      cbBwd := tb.computeCb R w (sources P) } := Function.update_self ..

theorem evt_prepared_of_ne (hne : e ≠ w) :
    (tb.prepared R w P newParams mem).evt e = tb.evt e := Function.update_of_ne hne ..

theorem Attempted.evt_prepared (h : Attempted prog R tb w replay) (he : e ∈ tb.scheduled) :
    (tb.prepared R w P newParams mem).evt e = tb.evt e := by
  have hne : e ≠ w := fun heq => h.idle (heq ▸ he)
  exact evt_prepared_of_ne hne

theorem Attempted.sources_mem (h : Attempted prog R tb w replay)
    (hfits : Fitting tb.mem (tb.evt w).accesses.baccesses P) :
    ∀ s ∈ sources P, s ∈ tb.scheduled := by
  intro s hs
  obtain ⟨x, hx⟩ := hfits.exists_coherence hs
  exact h.invariant.running.mem_of_coherence hx

theorem Attempted.hist_prepared (h : Attempted prog R tb w replay) :
    (tb.prepared R w P newParams mem).hist tb.scheduled = tb.hist tb.scheduled := by
  rw [hist, hist]
  congr 1
  apply List.map_congr_left
  intro e he
  rw [pevent, pevent, h.evt_prepared he]

/-- The event has been committed with a parameter that fits. -/
theorem Attempted.detecting_prepared (h : Attempted prog R tb w replay)
    (hfits : Fitting tb.mem (tb.evt w).accesses.baccesses P)
    (hcommit : commitAccesses (tb.evt w).accesses.baccesses tb.mem ⟨w, P⟩ = some mem) :
    (tb.prepared R w P newParams mem).Detecting R w where
  nodup := h.invariant.nodup
  results := by
    have hacc : (tb.prepared R w P newParams mem).acc = tb.acc := by
      funext e
      by_cases he : e = w
      · rw [he, acc, evt_prepared_self]
        rfl
      · rw [acc, evt_prepared_of_ne he]
        rfl
    refine ⟨[⟨w, P⟩], ?_, ?_, by simp⟩
    · rw [hacc]
      show Results _ (⟨w, P⟩ :: (tb.prepared R w P newParams mem).hist tb.scheduled) mem
      rw [h.hist_prepared]
      exact .cons h.invariant.running.static hfits hcommit
    · show (List.map PEvent.iid
        (⟨w, P⟩ :: (tb.prepared R w P newParams mem).hist tb.scheduled)).Nodup
      rw [List.map_cons, map_iid_hist, List.nodup_cons, List.mem_reverse, List.nodup_reverse]
      exact ⟨h.idle, h.invariant.nodup.sublist (List.take_sublist _ _)⟩
  not_mem := h.idle
  closed := by
    intro r
    have hsame : ∀ cb, tb.Closed cb → (tb.prepared R w P newParams mem).Closed cb := by
      intro cb hclosed e he
      rw [h.evt_prepared he]
      exact hclosed e he
    have hclock : ((tb.prepared R w P newParams mem).evt w).clockIndex = (tb.evt w).clockIndex := by
      rw [evt_prepared_self]
    have hcb : (tb.prepared R w P newParams mem).computeCb R w [] = tb.computeCb R w [] := by
      funext c
      rw [computeCb, computeCb, hclock, List.append_nil]
      congr 1
      rw [Bool.eq_iff_iff, List.any_eq_true, List.any_eq_true]
      refine exists_congr fun d => and_congr_right fun hd => ?_
      rw [h.evt_prepared (h.preds d hd)]
    have hraceCb : (tb.prepared R w P newParams mem).raceCb R w r =
        if (tb.prepared R w P newParams mem).lockLockRace w r then tb.computeCb R w []
        else tb.computeCb R w (sources P) := by
      funext c
      rw [raceCb, hcb, evt_prepared_self]
      split <;> rfl
    rw [hraceCb]
    split
    · exact hsame _ (h.closed_computeCb (by simp))
    · exact hsame _ (h.closed_computeCb (h.sources_mem hfits))
  sources := by
    intro e he s hs
    have hscheduled : e ∈ tb.scheduled := he
    rw [h.evt_prepared hscheduled] at hs ⊢
    obtain ⟨hmem, hbit⟩ := h.invariant.clocked.sources e hscheduled s hs
    rw [h.evt_prepared hmem]
    exact hbit
  locked := by
    intro e start branchEnd he
    by_cases hself : e = w
    · rw [hself, evt_prepared_self] at he
      exact h.invariant.branches.locked w start branchEnd he
    · rw [evt_prepared_of_ne hself] at he
      exact h.invariant.branches.locked e start branchEnd he

end

end TB

end Nidhugg.PowerArmRaces
