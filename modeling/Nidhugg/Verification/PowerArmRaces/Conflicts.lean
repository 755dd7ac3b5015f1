import Nidhugg.Verification.PowerArmRaces.Invariant

/-! # The branches of the conflicts

What is known when `detect_rw_conflicts` is called for an event, and what follows for the branches
that it makes. -/

namespace Nidhugg.PowerArmRaces

open PowerArmBranches PowerArmRuns

namespace TB

variable {tb : TB} {R : Relations} {w r e : IID} {B : Branch}

/-- The events of a branch before the store are committed, behind the part of the prefix that is
kept, and the coherence orders are those of the run for these events. -/
def KeepsCoherence (tb : TB) (R : Relations) (w r : IID) : Prop :=
  ∃ events M, tb.collect R w r = some events ∧
    tb.commitEvents .new ((tb.pfx.take (tb.branchStart r)).map tb.pevent ++ events) = some M ∧
    ∀ x, (M x).coherence = (tb.mem x).coherence.filter fun s =>
      s ∈ ((tb.pfx.take (tb.branchStart r)).map tb.pevent ++ events).map PEvent.iid

/-- Conflicts are searched for an event. It has been committed, or it has not. -/
structure Detecting (tb : TB) (R : Relations) (w : IID) : Prop where
  nodup : tb.pfx.Nodup
  results : ∃ later, Results (fun _ => tb.acc) (later ++ tb.hist tb.scheduled) tb.mem ∧
    ((later ++ tb.hist tb.scheduled).map PEvent.iid).Nodup ∧ ∀ pe ∈ later, pe.iid = w
  not_mem : w ∉ tb.scheduled
  closed : ∀ r, tb.Closed (tb.raceCb R w r)
  sources : ∀ e ∈ tb.scheduled, ∀ s ∈ sources (tb.evt e).curParam,
    (tb.evt e).cbBwd (tb.evt s).clockIndex = true
  locked : ∀ e start branchEnd, (tb.evt e).lockedBranch = some (start, branchEnd) →
    start ≤ branchEnd

theorem Detecting.settled (h : tb.Detecting R w) : tb.Settled tb.scheduled := by
  obtain ⟨later, hresults, hnodup, _⟩ := h.results
  exact ⟨later, hresults, hnodup⟩

theorem Detecting.sourcesIn (h : tb.Detecting R w) (r : IID) :
    tb.SourcesIn (tb.raceCb R w r) tb.scheduled :=
  fun e he hcb s hs => h.closed r e he hcb _ (h.sources e he s hs)

/-- The readers that are known have been committed. -/
theorem Detecting.mem_of_mem_loads (h : tb.Detecting R w) {x : Addr} {readers : List IID}
    (hreaders : readers ∈ (tb.mem x).loads) (hr : r ∈ readers) : r = w ∨ r ∈ tb.scheduled := by
  obtain ⟨later, hresults, hnodup, hlater⟩ := h.results
  have htracked := hresults.tracked hnodup x
  obtain ⟨l, hl⟩ := List.mem_iff_getElem?.mp hreaders
  have hlt : l < (tb.mem x).sources.length := by
    rw [Mem.length_sources, ← htracked.length]
    exact (List.getElem?_eq_some_iff.mp hl).1
  obtain ⟨pe, hpe, hiid, _⟩ :=
    (htracked.loads l _ readers (List.getElem?_eq_getElem hlt) hl r).mp hr
  cases List.mem_append.mp hpe with
  | inl hpe => exact .inl (hiid ▸ hlater pe hpe)
  | inr hpe =>
      have hmem := List.mem_map_of_mem (f := PEvent.iid) hpe
      rw [map_iid_hist, List.mem_reverse] at hmem
      exact .inr (hiid ▸ hmem)

theorem mem_foldl_insert {iids vec : List IID}
    (hr : r ∈ iids.foldl (VecSet.insert IID.lt) vec) : r ∈ vec ∨ r ∈ iids := by
  induction iids generalizing vec with
  | nil => exact .inl hr
  | cons s iids ih =>
      cases ih hr with
      | inl hr =>
          cases VecSet.eq_or_mem_of_mem_insert hr with
          | inl heq => exact .inr (heq ▸ List.mem_cons_self)
          | inr hr => exact .inl hr
      | inr hr => exact .inr (List.mem_cons_of_mem _ hr)

/-- A conflict is with an event that has been committed before. -/
theorem Detecting.conflict (h : tb.Detecting R w) (hr : r ∈ tb.conflicts R w) :
    r ∈ tb.scheduled ∧ tb.isConflict R w r = true := by
  have hmem := (mem_foldl_insert hr).resolve_left (by simp)
  obtain ⟨A, _, hA⟩ := List.mem_flatMap.mp hmem
  obtain ⟨hflat, hconflict⟩ := List.mem_filter.mp hA
  obtain ⟨readers, hreaders, hr⟩ := List.mem_flatten.mp hflat
  refine ⟨(h.mem_of_mem_loads hreaders hr).resolve_left ?_, hconflict⟩
  rintro rfl
  simp [isConflict] at hconflict

/-- The branch starts at the load, or before it. -/
theorem Detecting.branchStart_le (h : tb.Detecting R w) (hr : r ∈ tb.conflicts R w) :
    tb.branchStart r ≤ tb.schedCount ∧ r ∉ tb.pfx.take (tb.branchStart r) := by
  obtain ⟨hmem, hconflict⟩ := h.conflict hr
  obtain ⟨j, hj⟩ := List.mem_iff_getElem?.mp hmem
  have hjn : j < tb.schedCount ∧ tb.pfx[j]? = some r := by
    rw [scheduled, List.getElem?_take] at hj
    by_cases hlt : j < tb.schedCount
    · exact ⟨hlt, by rwa [if_pos hlt] at hj⟩
    · rw [if_neg hlt] at hj
      cases hj
  have hinj : ∀ i, tb.pfx[i]? = some r → i = j := fun i hi =>
    (List.getElem?_inj (List.getElem?_eq_some_iff.mp hi).1 h.nodup).mp (hi.trans hjn.2.symm)
  have hle : tb.branchStart r ≤ j := by
    rw [branchStart]
    cases hlocked : (tb.evt r).lockedBranch with
    | none =>
        have hlt : tb.pfx.idxOf r < tb.pfx.length :=
          List.idxOf_lt_length_iff.mpr (List.mem_of_getElem? hjn.2)
        have hget : tb.pfx[tb.pfx.idxOf r]? = some r := by
          rw [List.getElem?_eq_getElem hlt, List.getElem_idxOf hlt]
        exact (hinj _ hget).le
    | some ends =>
        obtain ⟨start, branchEnd⟩ := ends
        rw [isConflict, hlocked] at hconflict
        simp only [Bool.and_eq_true, decide_eq_true_eq] at hconflict
        exact (h.locked r start branchEnd hlocked).trans (hinj _ hconflict.2.2).le
  refine ⟨hle.trans hjn.1.le, ?_⟩
  intro hmem
  obtain ⟨i, hi⟩ := List.mem_iff_getElem?.mp hmem
  rw [List.getElem?_take] at hi
  by_cases hlt : i < tb.branchStart r
  · rw [if_pos hlt] at hi
    have heq := hinj i hi
    omega
  · rw [if_neg hlt] at hi
    cases hi

theorem Detecting.keepsCoherence (h : tb.Detecting R w) (hr : r ∈ tb.conflicts R w) :
    tb.KeepsCoherence R w r := by
  obtain ⟨st, M, hst, hcollecting⟩ :=
    h.settled.exists_collecting (h.branchStart_le hr).1 (h.sourcesIn r)
  refine ⟨st.2, M, by rw [collect, hst]; rfl, hcollecting.commits, ?_⟩
  intro x
  rw [hcollecting.branched x, List.map_append, List.map_map]
  simp [Function.comp_def, pevent]

/-! ### The events of a branch -/

theorem map_iid_normaliseBranch (getEvt : IID → PowerArmBranches.Event) (B : Branch) :
    ((normaliseBranch getEvt B).branch.map PEvent.iid).Perm (B.branch.map PEvent.iid) := by
  have hsplit : B.branch.map PEvent.iid = (B.branch.take B.lastEvent).map PEvent.iid ++
      (B.branch.drop B.lastEvent).map PEvent.iid := by
    rw [← List.map_append, List.take_append_drop]
  rw [hsplit, normaliseBranch, List.map_append, sortEvents_eq_sortBy]
  exact (map_iid_sortBy_perm _ _).append_right _

/-- The branch follows the part of the prefix that is kept. -/
theorem Detecting.raceBranch_fits (h : tb.Detecting R w) (hr : r ∈ tb.conflicts R w)
    (hB : tb.raceBranch R w r = some B) :
    B.branch ≠ [] ∧ (tb.pfx.take (tb.branchStart r) ++ B.branch.map PEvent.iid).Nodup := by
  obtain ⟨hmem, hconflict⟩ := h.conflict hr
  obtain ⟨hle, hfront⟩ := h.branchStart_le hr
  obtain ⟨st, M, hst, hcollecting⟩ := h.settled.exists_collecting hle (h.sourcesIn r)
  have hcollect : tb.collect R w r = some st.2 := by rw [collect, hst]; rfl
  rw [raceBranch, hcollect, Option.map_some, Option.some.injEq] at hB
  have hperm := map_iid_normaliseBranch tb.getEvt
    (if tb.lockLockRace w r then ⟨st.2 ++ [⟨w, []⟩], .star⟩
      else ⟨st.2 ++ [⟨w, []⟩, ⟨r, []⟩], .wr⟩)
  rw [hB] at hperm
  have hw : w ∉ tb.pfx.take (tb.branchStart r) ++ st.2.map PEvent.iid :=
    fun hw => h.not_mem (hcollecting.parts.sub w hw)
  have hnodup : (tb.pfx.take (tb.branchStart r) ++ st.2.map PEvent.iid ++ [w]).Nodup := by
    rw [← List.concat_eq_append]
    exact hcollecting.nodup.concat hw
  have hcb : tb.raceCb R w r (tb.evt r).clockIndex = false := by
    rw [isConflict] at hconflict
    simp only [Bool.and_eq_true, Bool.not_eq_true'] at hconflict
    exact hconflict.1.2
  have hr' : r ∉ tb.pfx.take (tb.branchStart r) ++ st.2.map PEvent.iid ++ [w] := by
    intro hr'
    rw [List.mem_append, List.mem_append, List.mem_singleton] at hr'
    rcases hr' with (hr' | hr') | hr'
    · exact hfront hr'
    · have hbefore := hcollecting.before r hr'
      rw [hcb] at hbefore
      cases hbefore
    · exact h.not_mem (hr' ▸ hmem)
  have hlists : B.branch.map PEvent.iid ≠ [] ∧
      (tb.pfx.take (tb.branchStart r) ++ B.branch.map PEvent.iid).Nodup := by
    cases hlock : tb.lockLockRace w r with
    | true =>
        rw [if_pos hlock, List.map_append] at hperm
        refine ⟨fun hnil => by simpa [hnil] using hperm.length_eq, ?_⟩
        rw [(hperm.append_left _).nodup_iff, ← List.append_assoc]
        exact hnodup
    | false =>
        rw [if_neg (by simp [hlock]), List.map_append] at hperm
        refine ⟨fun hnil => by simpa [hnil] using hperm.length_eq, ?_⟩
        rw [(hperm.append_left _).nodup_iff]
        have hboth := hnodup.concat hr'
        rw [List.concat_eq_append, List.append_assoc, List.append_assoc] at hboth
        exact hboth
  exact ⟨fun hnil => hlists.1 (by rw [hnil, List.map_nil]), hlists.2⟩

end TB

end Nidhugg.PowerArmRaces
