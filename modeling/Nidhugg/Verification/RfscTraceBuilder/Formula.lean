import Mathlib.Data.List.MinMax
import Nidhugg.Verification.RfscTraceBuilder.Candidates

/-! # What the formula for the solver says

The constraints on the kept events are satisfied by exactly those total orders in which every read
reads from its source. -/

namespace Nidhugg.RfscTraceBuilder

open Relation

variable {s t u : RfscTraceBuilder} {keep : List Bool} {num : ℕ → ℕ}

/-! ### Numbering the kept events -/

/-- Whether an event is kept. -/
def Kept (keep : List Bool) (i : ℕ) : Prop := keep.getD i false = true

/-- The values of the solver's variables for a numbering of the events. -/
def solverModel (keep : List Bool) (num : ℕ → ℕ) (v : ℕ) : ℕ :=
  num (((List.range keep.length).filter fun i => keep.getD i false).getD v 0)

theorem Kept.lt {i : ℕ} (h : Kept keep i) : i < keep.length := by
  by_contra hlt
  rw [Kept, List.getD_eq_getElem?_getD, List.getElem?_eq_none (Nat.le_of_not_lt hlt)] at h
  cases h

theorem length_filter_range {i : ℕ} (hi : i ≤ keep.length) :
    ((List.range i).filter fun j => keep.getD j false).length = formulaVar keep i := by
  induction i with
  | zero => rfl
  | succ i ih =>
      have hget : keep[i]? = some keep[i] := List.getElem?_eq_getElem hi
      rw [List.range_succ, List.filter_append, List.length_append, ih (Nat.le_of_succ_le hi),
        formulaVar, formulaVar, List.take_add_one, hget, Option.toList_some, List.count_append,
        List.filter_singleton, List.getD_eq_getElem?_getD, hget]
      cases keep[i] with
      | true => rfl
      | false => rfl

theorem solverModel_formulaVar {i : ℕ} (h : Kept keep i) :
    solverModel keep num (formulaVar keep i) = num i := by
  have hi := h.lt
  have hsplit : List.range keep.length = List.range i ++ i ::
      (List.range (keep.length - (i + 1))).map (i + 1 + ·) := by
    rw [List.append_cons, ← List.range_succ, ← List.range_add, Nat.add_sub_cancel' hi]
  rw [solverModel, hsplit, List.filter_append,
    List.filter_cons_of_pos (p := fun i => keep.getD i false) h, ← length_filter_range hi.le, List.getD_eq_getElem?_getD, List.getElem?_append_right (Nat.le_refl _),
    Nat.sub_self]
  rfl

/-! ### Consistent orders -/

/-- The event writes to an address. -/
def storesTo (s : RfscTraceBuilder) (j : ℕ) (a : SymAddr) : Bool :=
  s.events[j]?.any fun e => isStore e && (getAddr e).any (·.addr = a)

/-- The last kept event before `r` that writes to the address. -/
def sourceIn (s : RfscTraceBuilder) (keep : List Bool) (num : ℕ → ℕ) (r : ℕ) (a : SymAddr) :
    Option ℕ :=
  ((List.range s.events.length).filter fun j =>
    keep.getD j false && s.storesTo j a && num j < num r).argmax num

/-- The order given by a numbering extends the orders that cannot be changed, and every read reads
from its source. -/
structure Consistent (s : RfscTraceBuilder) (keep : List Bool) (num : ℕ → ℕ) : Prop where
  programOrder : ∀ {i j : ℕ} {d e : Event}, Kept keep i → Kept keep j → s.events[i]? = some d →
    s.events[j]? = some e → d.iid.pid = e.iid.pid → d.iid.index < e.iid.index → num i < num j
  /-- Among these are the edges from joined threads. -/
  happensAfter : ∀ {i j : ℕ} {e : Event}, Kept keep i → s.events[i]? = some e → j ∈ e.happensAfter →
    num j < num i
  spawn : ∀ {i j : ℕ} {e : Event}, Kept keep i → s.events[i]? = some e → e.iid.index = 1 →
    s.spawnEvent e.iid.pid = some j → num j < num i
  reads : ∀ {r : ℕ} {e : Event} {ml : SymAddrSize} {source : Option ℕ}, Kept keep r → s.events[r]? = some e → getAddr e = some ml →
    e.readFrom = some source → s.sourceIn keep num r ml.addr = source

/-- A state in which reads have got other sources and the outcomes of their events have been
recomputed. -/
structure Reassigned (t u : RfscTraceBuilder) : Prop where
  threads : u.threads = t.threads
  length : u.events.length = t.events.length
  same : ∀ {i : ℕ} {d e : Event}, t.events[i]? = some d → u.events[i]? = some e →
    e.iid = d.iid ∧ e.happensAfter = d.happensAfter
  source_lt : ∀ {i w : ℕ} {e : Event}, u.events[i]? = some e → e.readFrom = some (some w) → w < u.events.length

/-- `writes_by_address` lists the events that store. -/
def ListsStores (s : RfscTraceBuilder) (writesByAddress : SymAddr → List ℕ) : Prop :=
  ∀ a j, j ∈ writesByAddress a ↔ s.storesTo j a = true

theorem listsStores_writesByAddress (s : RfscTraceBuilder) : ListsStores s s.writesByAddress := by
  intro a j
  rw [writesByAddress, List.mem_filter, List.mem_range]
  refine ⟨fun h => h.2, fun h => ⟨?_, h⟩⟩
  obtain ⟨e, he, -⟩ := (Option.any_eq_true _ _).mp h
  exact (List.getElem?_eq_some_iff.mp he).1

/-- The sources of the kept reads are other events that write to their addresses. -/
def ReadsStores (s : RfscTraceBuilder) (keep : List Bool) : Prop :=
  ∀ {r : ℕ} {e : Event} {source : Option ℕ}, Kept keep r → s.events[r]? = some e → e.readFrom = some source →
    ∃ ml, getAddr e = some ml ∧ ∀ w, source = some w → w ≠ r ∧ s.storesTo w ml.addr = true

/-! ### The kept events are closed -/

theorem Reassigned.exists_event (h : Reassigned t u) {i : ℕ} {e : Event}
    (he : u.events[i]? = some e) :
    ∃ d, t.events[i]? = some d ∧ e.iid = d.iid ∧ e.happensAfter = d.happensAfter := by
  have hi := (List.getElem?_eq_some_iff.mp he).1
  rw [h.length] at hi
  have hd := List.getElem?_eq_getElem hi
  exact ⟨_, hd, h.same hd he⟩

theorem Reassigned.eventIndices (h : Reassigned t u) (p : ℕ) :
    u.eventIndices p = t.eventIndices p := by
  rw [RfscTraceBuilder.eventIndices, RfscTraceBuilder.eventIndices, h.threads]

/-- The event before in the thread, as `findProcessEvent` finds it. -/
theorem Reassigned.poPredecessor (h : Reassigned t u) (hr : Recorded t) {i k : ℕ} {e : Event}
    (he : u.events[i]? = some e) (hk : u.poPredecessor e = some k) :
    k < i ∧ (∃ d, u.events[k]? = some d ∧ d.iid.pid = e.iid.pid) ∧
      ∀ j d, u.events[j]? = some d → k < j → j < i → d.iid.pid ≠ e.iid.pid := by
  obtain ⟨d, hd, hiid, -⟩ := h.exists_event he
  rw [RfscTraceBuilder.poPredecessor] at hk
  split at hk
  · cases hk
  rw [findProcessEvent, h.eventIndices, ← findProcessEvent, hiid] at hk
  obtain ⟨hlt, ⟨c, hc, hpid⟩, hbetween⟩ := hr.predecessor hd hk
  have hk' : k < u.events.length := by
    rw [h.length]
    exact (List.getElem?_eq_some_iff.mp hc).1
  have hc' := List.getElem?_eq_getElem hk'
  refine ⟨hlt, ⟨_, hc', ?_⟩, ?_⟩
  · rw [(h.same hc hc').1, hpid, hiid]
  · intro j b hb hkj hji hpid'
    obtain ⟨b', hb', hbiid, -⟩ := h.exists_event hb
    rw [hbiid, hiid] at hpid'
    exact hbetween j b' hb' hkj hji hpid'

theorem length_causalPast (decisionDepth : ℕ → ℤ) (decision : ℤ) :
    (u.causalPast decisionDepth decision).length = u.events.length := by
  simp [causalPast]

/-- What a kept event depends on is kept. -/
def KeptClosed (s : RfscTraceBuilder) (keep : List Bool) : Prop :=
  ∀ i j, Kept keep i → j ∈ s.pastOf i → Kept keep j

theorem Reassigned.pastOf_lt (h : Reassigned t u) (hr : Recorded t) {i j : ℕ}
    (hj : j ∈ u.pastOf i) : j < u.events.length := by
  rw [RfscTraceBuilder.pastOf] at hj
  cases he : u.events[i]? with
  | none =>
      rw [he] at hj
      cases hj
  | some e =>
      rw [he, List.mem_append, List.mem_append, Option.mem_toList, Option.mem_toList] at hj
      obtain ⟨d, hd, hiid, hafter⟩ := h.exists_event he
      have hi := (List.getElem?_eq_some_iff.mp he).1
      rcases hj with (hj | hj) | hj
      · exact h.source_lt he (Option.join_eq_some_iff.mp hj)
      · rw [hafter] at hj
        exact (hr.numbered.happensAfter_lt hd j hj).trans hi
      · exact (h.poPredecessor hr he hj).1.trans hi

theorem Reassigned.keptClosed (h : Reassigned t u) (hr : Recorded t) (decisionDepth : ℕ → ℤ)
    (decision : ℤ) : KeptClosed u (u.causalPast decisionDepth decision) := by
  intro i j hi hj
  have hjlt := h.pastOf_lt hr hj
  have hwalk : PostOrder.Visited u.pastOf (List.range u.events.length)
      (u.decidedEvents decisionDepth decision) PostOrder.Walk.start
      (PostOrder.visitAll u.pastOf (u.events.length + 1) PostOrder.Walk.start
        (u.decidedEvents decisionDepth decision)) :=
    PostOrder.visitAll_visited (fun y _ z hz => List.mem_range.mpr (h.pastOf_lt hr hz))
      (fun r hroot => (List.mem_filter.mp hroot).1) (by simp)
  have hmem : ∀ {k}, k < u.events.length → (Kept (u.causalPast decisionDepth decision) k ↔
      k ∈ (PostOrder.visitAll u.pastOf (u.events.length + 1) PostOrder.Walk.start
        (u.decidedEvents decisionDepth decision)).marked) := by
    intro k hk
    simp [Kept, causalPast, List.getD_eq_getElem?_getD, hk]
  rw [hmem hjlt]
  rw [hmem (by rw [← length_causalPast decisionDepth decision]; exact hi.lt)] at hi
  exact hwalk.valid.closed i (hwalk.mem_order_iff.mpr hi) j hj

/-! ### The constraints of an event -/

theorem mem_keptEvents {i : ℕ} {e : Event} :
    (i, e) ∈ u.keptEvents keep ↔ u.events[i]? = some e ∧ Kept keep i := by
  rw [keptEvents, List.mem_filterMap]
  constructor
  · rintro ⟨⟨e', i'⟩, hmem, hite⟩
    rw [Option.ite_none_right_eq_some] at hite
    cases hite.2
    exact ⟨List.mk_mem_zipIdx_iff_getElem?.mp hmem, hite.1⟩
  · rintro ⟨he, hkept⟩
    exact ⟨(e, i), List.mk_mem_zipIdx_iff_getElem?.mpr he, if_pos hkept⟩

theorem KeptClosed.of_source (h : KeptClosed u keep) {r w : ℕ} {e : Event} (hr : Kept keep r)
    (he : u.events[r]? = some e) (hw : e.readFrom = some (some w)) : Kept keep w := by
  apply h r w hr
  rw [pastOf, he]
  simp [hw]

theorem KeptClosed.of_happensAfter (h : KeptClosed u keep) {i j : ℕ} {e : Event}
    (hi : Kept keep i) (he : u.events[i]? = some e) (hj : j ∈ e.happensAfter) : Kept keep j := by
  apply h i j hi
  rw [pastOf, he]
  simp [hj]

theorem KeptClosed.of_poPredecessor (h : KeptClosed u keep) {i k : ℕ} {e : Event}
    (hi : Kept keep i) (he : u.events[i]? = some e) (hk : u.poPredecessor e = some k) :
    Kept keep k := by
  apply h i k hi
  rw [pastOf, he]
  simp [hk]

theorem storesTo_lt {j : ℕ} {a : SymAddr} (h : u.storesTo j a = true) : j < u.events.length := by
  obtain ⟨e, he, -⟩ := (Option.any_eq_true _ _).mp h
  exact (List.getElem?_eq_some_iff.mp he).1

theorem mem_storesBefore {r j : ℕ} {a : SymAddr} :
    j ∈ (List.range u.events.length).filter (fun j =>
      keep.getD j false && u.storesTo j a && num j < num r) ↔
      Kept keep j ∧ u.storesTo j a = true ∧ num j < num r := by
  rw [List.mem_filter, List.mem_range, Bool.and_eq_true, Bool.and_eq_true, decide_eq_true_eq,
    and_assoc]
  constructor
  · exact fun h => h.2
  · exact fun h => ⟨storesTo_lt h.2.1, h⟩

/-- A read of the initial value comes before all writes. -/
theorem sourceIn_eq_none_iff {r : ℕ} {a : SymAddr} (hinj : Set.InjOn num {i | Kept keep i})
    (hr : Kept keep r) : u.sourceIn keep num r a = none ↔
      ∀ j, j ≠ r → Kept keep j → u.storesTo j a = true → num r < num j := by
  rw [sourceIn, List.argmax_eq_none]
  constructor
  · intro hnil j hne hj hstore
    have hnot : ¬ num j < num r := by
      intro hlt
      have hmem := mem_storesBefore.mpr ⟨hj, hstore, hlt⟩
      rw [hnil] at hmem
      cases hmem
    have hnum : num j ≠ num r := fun heq => hne (hinj hj hr heq)
    omega
  · intro hall
    rw [List.eq_nil_iff_forall_not_mem]
    intro j hmem
    obtain ⟨hj, hstore, hlt⟩ := mem_storesBefore.mp hmem
    have hne : j ≠ r := by
      rintro rfl
      exact Nat.lt_irrefl _ hlt
    have hlt' := hall j hne hj hstore
    omega

/-- A read comes after its source, with no other write between. -/
theorem sourceIn_eq_some_iff {r w : ℕ} {a : SymAddr} (hinj : Set.InjOn num {i | Kept keep i})
    (hr : Kept keep r) (hw : Kept keep w) (hstore : u.storesTo w a = true) :
    u.sourceIn keep num r a = some w ↔ num w < num r ∧
      ∀ j, j ≠ w → j ≠ r → Kept keep j → u.storesTo j a = true → num j < num w ∨ num r < num j := by
  rw [sourceIn]
  constructor
  · intro hmax
    have hlt := (mem_storesBefore.mp (List.argmax_mem hmax)).2.2
    refine ⟨hlt, fun j hjw hjr hj hstore' => ?_⟩
    have hnumw : num j ≠ num w := fun heq => hjw (hinj hj hw heq)
    have hnumr : num j ≠ num r := fun heq => hjr (hinj hj hr heq)
    by_cases hbefore : num j < num r
    · have hle := List.le_of_mem_argmax (mem_storesBefore.mpr ⟨hj, hstore', hbefore⟩) hmax
      left
      omega
    · right
      omega
  · rintro ⟨hlt, hothers⟩
    have hmem := mem_storesBefore.mpr ⟨hw, hstore, hlt⟩
    cases hmax : ((List.range u.events.length).filter fun j =>
        keep.getD j false && u.storesTo j a && num j < num r).argmax num with
    | none =>
        rw [List.argmax_eq_none] at hmax
        rw [hmax] at hmem
        cases hmem
    | some m =>
        have hle := List.le_of_mem_argmax hmem hmax
        obtain ⟨hm, hstore', hlt'⟩ := mem_storesBefore.mp (List.argmax_mem hmax)
        by_cases hmw : m = w
        · rw [hmw]
        · have hmr : m ≠ r := by
            rintro rfl
            exact Nat.lt_irrefl _ hlt'
          rcases hothers m hmw hmr hm hstore' with h | h
          · omega
          · omega

/-- The constraints for a read say that it reads from its source. -/
theorem sourceConstraints_iff {writes : List ℕ} {r : ℕ} {a : SymAddr} {source : Option ℕ}
    (hinj : Set.InjOn num {i | Kept keep i}) (hr : Kept keep r)
    (hwrites : ∀ j, j ∈ writes ↔ u.storesTo j a = true)
    (hsource : ∀ w, source = some w → Kept keep w ∧ u.storesTo w a = true) :
    (∀ c ∈ sourceConstraints keep writes r source, c.holds (solverModel keep num)) ↔
      u.sourceIn keep num r a = source := by
  cases source with
  | none =>
      rw [sourceIn_eq_none_iff hinj hr, sourceConstraints]
      constructor
      · intro hall j hne hj hstore
        have hmem : j ∈ writes.filter fun j => j ≠ r && keep.getD j false := by
          rw [List.mem_filter, Bool.and_eq_true, decide_eq_true_eq]
          exact ⟨(hwrites j).mpr hstore, hne, hj⟩
        have hedge := hall _ (List.mem_map_of_mem hmem)
        rw [SatConstraint.holds, solverModel_formulaVar hr, solverModel_formulaVar hj] at hedge
        exact hedge
      · intro hall c hc
        obtain ⟨j, hmem, rfl⟩ := List.mem_map.mp hc
        rw [List.mem_filter, Bool.and_eq_true, decide_eq_true_eq] at hmem
        obtain ⟨hin, hne, hj⟩ := hmem
        rw [SatConstraint.holds, solverModel_formulaVar hr, solverModel_formulaVar hj]
        exact hall j hne hj ((hwrites j).mp hin)
  | some w =>
      obtain ⟨hw, hstore⟩ := hsource w rfl
      rw [sourceIn_eq_some_iff hinj hr hw hstore, sourceConstraints, List.forall_mem_cons]
      refine and_congr ?_ ?_
      · rw [SatConstraint.holds, solverModel_formulaVar hw, solverModel_formulaVar hr]
      · constructor
        · intro hall j hjw hjr hj hstore'
          have hmem : j ∈ writes.filter fun j => j ≠ w && j ≠ r && keep.getD j false := by
            rw [List.mem_filter, Bool.and_eq_true, Bool.and_eq_true, decide_eq_true_eq,
              decide_eq_true_eq]
            exact ⟨(hwrites j).mpr hstore', ⟨hjw, hjr⟩, hj⟩
          have hedge := hall _ (List.mem_map_of_mem hmem)
          rw [SatConstraint.holds, solverModel_formulaVar hr, solverModel_formulaVar hj,
            solverModel_formulaVar hw] at hedge
          exact hedge
        · intro hall c hc
          obtain ⟨j, hmem, rfl⟩ := List.mem_map.mp hc
          rw [List.mem_filter, Bool.and_eq_true, Bool.and_eq_true, decide_eq_true_eq,
            decide_eq_true_eq] at hmem
          obtain ⟨hin, ⟨hjw, hjr⟩, hj⟩ := hmem
          rw [SatConstraint.holds, solverModel_formulaVar hr, solverModel_formulaVar hj,
            solverModel_formulaVar hw]
          exact hall j hjw hjr hj ((hwrites j).mp hin)

/-- The order of the events of a thread. -/
theorem Reassigned.lt_iff (h : Reassigned t u) (hr : Recorded t) {i j : ℕ} {d e : Event}
    (hd : u.events[i]? = some d) (he : u.events[j]? = some e) (hpid : d.iid.pid = e.iid.pid) :
    i < j ↔ d.iid.index < e.iid.index := by
  obtain ⟨d', hd', hdiid, -⟩ := h.exists_event hd
  obtain ⟨e', he', heiid, -⟩ := h.exists_event he
  rw [hdiid, heiid] at hpid ⊢
  exact hr.numbered.lt_iff hd' he' hpid

theorem Reassigned.exists_poPredecessor (h : Reassigned t u) (hr : Recorded t) (hrange : InRange t)
    {j : ℕ} {e : Event} (he : u.events[j]? = some e) (hindex : 1 < e.iid.index) :
    ∃ k, u.poPredecessor e = some k := by
  obtain ⟨e', he', hiid, -⟩ := h.exists_event he
  have hle := (hrange j e' he').2
  rw [hiid] at hindex
  rw [RfscTraceBuilder.poPredecessor, hiid, if_neg (by omega), findProcessEvent, h.eventIndices,
    ← findProcessEvent]
  apply Option.isSome_iff_exists.mp
  rw [findProcessEvent_isSome (by omega)]
  omega

/-- The edges from predecessors give the program order of the kept events. -/
theorem Reassigned.programOrder (h : Reassigned t u) (hr : Recorded t) (hrange : InRange t)
    (hclosed : KeptClosed u keep)
    (hedges : ∀ {i e k}, Kept keep i → u.events[i]? = some e → u.poPredecessor e = some k →
      num k < num i) {i j : ℕ} {d e : Event} (hj : Kept keep j) (hd : u.events[i]? = some d)
    (he : u.events[j]? = some e) (hpid : d.iid.pid = e.iid.pid)
    (hlt : d.iid.index < e.iid.index) : num i < num j := by
  induction j using Nat.strong_induction_on generalizing e with
  | _ j ih =>
      have hij := (h.lt_iff hr hd he hpid).mpr hlt
      have hpos : 0 < d.iid.index := by
        obtain ⟨d', hd', hiid, -⟩ := h.exists_event hd
        rw [hiid]
        exact hr.numbered.index_pos hd'
      obtain ⟨k, hk⟩ := h.exists_poPredecessor hr hrange he (by omega)
      obtain ⟨hkj, ⟨c, hc, hcpid⟩, hbetween⟩ := h.poPredecessor hr he hk
      have hnum := hedges hj he hk
      rcases Nat.lt_trichotomy i k with hik | rfl | hki
      · have hpid' := hpid.trans hcpid.symm
        have hindex := (h.lt_iff hr hd hc hpid').mp hik
        exact (ih k hkj (hclosed.of_poPredecessor hj he hk) hc hpid' hindex).trans hnum
      · exact hnum
      · exact absurd hpid (hbetween i d hd hki hij)

/-! ### Main result -/

/-- The constraints of the formula. -/
theorem outputFormula_mem (writesByAddress : SymAddr → List ℕ) (hreads : ReadsStores u keep) :
    ∃ formula, u.outputFormula writesByAddress keep = some formula ∧
      ∀ c, c ∈ formula ↔ ∃ i e, Kept keep i ∧ u.events[i]? = some e ∧
        (c ∈ u.poConstraints keep i e ∨ c ∈ afterConstraints keep i e ∨
          ∃ ml source, getAddr e = some ml ∧ e.readFrom = some source ∧
            c ∈ sourceConstraints keep (writesByAddress ml.addr) i source) := by
  have hsome : ∀ p ∈ u.keptEvents keep,
      (readConstraints writesByAddress keep p.1 p.2).isSome = true := by
    rintro ⟨i, e⟩ hp
    obtain ⟨he, hkept⟩ := mem_keptEvents.mp hp
    rw [readConstraints]
    cases hread : e.readFrom with
    | none => rfl
    | some source =>
        obtain ⟨ml, hml, -⟩ := hreads hkept he hread
        rw [hml]
        rfl
  obtain ⟨reads, hmap, hmem⟩ := FoldInvariant.mapM_eq_some_of_forall _ _ hsome
  refine ⟨_, by rw [outputFormula, hmap]; rfl, fun c => ?_⟩
  rw [List.mem_append, List.mem_append, List.mem_flatMap, List.mem_flatten, List.mem_flatMap]
  constructor
  · rintro ((⟨⟨i, e⟩, hp, hc⟩ | ⟨list, hlist, hc⟩) | ⟨⟨i, e⟩, hp, hc⟩)
    · obtain ⟨he, hkept⟩ := mem_keptEvents.mp hp
      exact ⟨i, e, hkept, he, .inl hc⟩
    · obtain ⟨⟨i, e⟩, hp, hlist⟩ := (hmem list).mp hlist
      obtain ⟨he, hkept⟩ := mem_keptEvents.mp hp
      refine ⟨i, e, hkept, he, .inr (.inr ?_)⟩
      rw [readConstraints] at hlist
      cases hread : e.readFrom with
      | none =>
          rw [hread] at hlist
          cases hlist
          cases hc
      | some source =>
          rw [hread, Option.map_eq_some_iff] at hlist
          obtain ⟨ml, hml, rfl⟩ := hlist
          exact ⟨ml, source, hml, rfl, hc⟩
    · obtain ⟨he, hkept⟩ := mem_keptEvents.mp hp
      exact ⟨i, e, hkept, he, .inr (.inl hc)⟩
  · rintro ⟨i, e, hkept, he, hc | hc | ⟨ml, source, hml, hread, hc⟩⟩
    · exact .inl (.inl ⟨(i, e), mem_keptEvents.mpr ⟨he, hkept⟩, hc⟩)
    · exact .inr ⟨(i, e), mem_keptEvents.mpr ⟨he, hkept⟩, hc⟩
    · refine .inl (.inr ⟨_, (hmem _).mpr ⟨(i, e), mem_keptEvents.mpr ⟨he, hkept⟩, ?_⟩, hc⟩)
      rw [readConstraints, hread, hml]
      rfl

/-- The constraints of the formula are satisfied by exactly the numberings of the kept events that
are consistent. -/
theorem Reassigned.outputFormula_iff (h : Reassigned t u) (hr : Recorded t) (hrange : InRange t)
    (hspawn : ∀ {i j : ℕ} {e : Event}, u.events[i]? = some e → e.iid.index = 1 →
      u.spawnEvent e.iid.pid = some j → j ∈ e.happensAfter)
    {writesByAddress : SymAddr → List ℕ} (hclosed : KeptClosed u keep)
    (hwrites : ListsStores u writesByAddress) (hreads : ReadsStores u keep)
    {formula : List SatConstraint} (hformula : u.outputFormula writesByAddress keep = some formula)
    (hinj : Set.InjOn num {i | Kept keep i}) :
    (∀ c ∈ formula, c.holds (solverModel keep num)) ↔ Consistent u keep num := by
  obtain ⟨formula', hformula', hmem⟩ := outputFormula_mem writesByAddress hreads
  rw [hformula', Option.some.injEq] at hformula
  subst hformula
  have hsources : ∀ {r e ml source}, Kept keep r → u.events[r]? = some e → getAddr e = some ml →
      e.readFrom = some source →
      ((∀ c ∈ sourceConstraints keep (writesByAddress ml.addr) r source,
        c.holds (solverModel keep num)) ↔ u.sourceIn keep num r ml.addr = source) := by
    intro r e ml source hkept he hml hread
    refine sourceConstraints_iff hinj hkept (hwrites ml.addr) fun w hw => ?_
    subst hw
    obtain ⟨ml', hml', hstores⟩ := hreads hkept he hread
    rw [hml, Option.some.injEq] at hml'
    subst hml'
    exact ⟨hclosed.of_source hkept he hread, (hstores w rfl).2⟩
  constructor
  · intro hall
    have hafter : ∀ {i j e}, Kept keep i → u.events[i]? = some e → j ∈ e.happensAfter →
        num j < num i := by
      intro i j e hkept he hj
      have hedge := hall _ ((hmem _).mpr ⟨i, e, hkept, he, .inr (.inl (List.mem_map_of_mem hj))⟩)
      rwa [SatConstraint.holds, solverModel_formulaVar (hclosed.of_happensAfter hkept he hj),
        solverModel_formulaVar hkept] at hedge
    refine ⟨?_, hafter, ?_, ?_⟩
    · intro i j d e _ hj hd he hpid hlt
      refine h.programOrder hr hrange hclosed ?_ hj hd he hpid hlt
      intro i e k hkept he hk
      have hedge := hall _ ((hmem _).mpr ⟨i, e, hkept, he, .inl (List.mem_map_of_mem
        (Option.mem_toList.mpr hk))⟩)
      rwa [SatConstraint.holds, solverModel_formulaVar (hclosed.of_poPredecessor hkept he hk),
        solverModel_formulaVar hkept] at hedge
    · intro i j e hkept he hindex hj
      exact hafter hkept he (hspawn he hindex hj)
    · intro r e ml source hkept he hml hread
      rw [← hsources hkept he hml hread]
      intro c hc
      exact hall c ((hmem c).mpr ⟨r, e, hkept, he, .inr (.inr ⟨ml, source, hml, hread, hc⟩)⟩)
  · intro hconsistent c hc
    obtain ⟨i, e, hkept, he, hc | hc | ⟨ml, source, hml, hread, hc⟩⟩ := (hmem c).mp hc
    · obtain ⟨k, hk, rfl⟩ := List.mem_map.mp hc
      rw [Option.mem_toList] at hk
      have hkeptk := hclosed.of_poPredecessor hkept he hk
      obtain ⟨hki, ⟨d, hd, hpid⟩, -⟩ := h.poPredecessor hr he hk
      rw [SatConstraint.holds, solverModel_formulaVar hkeptk, solverModel_formulaVar hkept]
      exact hconsistent.programOrder hkeptk hkept hd he hpid ((h.lt_iff hr hd he hpid).mp hki)
    · obtain ⟨j, hj, rfl⟩ := List.mem_map.mp hc
      rw [SatConstraint.holds, solverModel_formulaVar (hclosed.of_happensAfter hkept he hj),
        solverModel_formulaVar hkept]
      exact hconsistent.happensAfter hkept he hj
    · exact (hsources hkept he hml hread).mpr (hconsistent.reads hkept he hml hread) c hc

/-- For every execution, every assignment of sources and every set of events kept for the decisions
up to a depth, the formula is satisfied by exactly the total orders of the kept events that extend
the orders that cannot be changed and in which every read reads from its source. -/
theorem outputFormula_exact {maxSearchDepth : Option ℕ} {leaf : Leaf} {below : List ClockRef}
    (hexecution : Execution maxSearchDepth leaf s)
    (hclocks : s.computeVclocks = some (t, below)) (h : Reassigned t u)
    {writesByAddress : SymAddr → List ℕ} (hwrites : ListsStores u writesByAddress)
    {decisionDepth : ℕ → ℤ} {decision : ℤ}
    (hreads : ReadsStores u (u.causalPast decisionDepth decision)) :
    ∃ formula, u.outputFormula writesByAddress (u.causalPast decisionDepth decision) = some formula ∧
      ∀ num, Set.InjOn num {i | Kept (u.causalPast decisionDepth decision) i} →
        ((∀ c ∈ formula, c.holds (solverModel (u.causalPast decisionDepth decision) num)) ↔
          Consistent u (u.causalPast decisionDepth decision) num) := by
  have hrs := hexecution.recorded
  have hr := hrs.computeVclocks_recorded hclocks
  have hranges : InRange s := hrs.computeVclocks_isSome_iff.mp (by rw [hclocks]; rfl)
  obtain ⟨successors, hforward⟩ := (hrs.computeVclocks_spec hclocks).forward
  have hrange : InRange t := by
    intro j e' he'
    obtain ⟨e, he, hclocked⟩ := hforward.clocked_of he'
    rw [InRangeAt, hclocked.iid, lastEventIndex, hforward.eventIndices, hforward.threads]
    exact hranges j e he
  have hspawn : ∀ {i j : ℕ} {e : Event}, u.events[i]? = some e → e.iid.index = 1 →
      u.spawnEvent e.iid.pid = some j → j ∈ e.happensAfter := by
    intro i j e he hindex hj
    obtain ⟨d, hd, hiid, hafter⟩ := h.exists_event he
    obtain ⟨c, hc, hclocked⟩ := hforward.clocked_of hd
    rw [hafter, hclocked.happensAfter]
    rw [spawnEvent, h.threads, hforward.threads, ← spawnEvent, hiid, hclocked.iid] at hj
    rw [hiid, hclocked.iid] at hindex
    exact .inr ⟨by omega, hj⟩
  obtain ⟨formula, hformula, -⟩ := outputFormula_mem writesByAddress hreads
  refine ⟨formula, hformula, fun num hinj => ?_⟩
  exact h.outputFormula_iff hr hrange hspawn (h.keptClosed hr decisionDepth decision) hwrites hreads
    hformula hinj

/-- The read of the main thread reads the write of the other thread instead. -/
def readLater (t : RfscTraceBuilder) : RfscTraceBuilder :=
  { t with events := t.events.modify 1 fun e => { e with readFrom := some (some 2) } }

theorem reassigned_readLater (hlength : 2 < t.events.length)
    (hsources : ∀ e ∈ t.events, e.readFrom.join.all (· < t.events.length) = true) :
    Reassigned t t.readLater := by
  have hget : ∀ i, t.readLater.events[i]? = (t.events[i]?).map fun e =>
      if 1 = i then { e with readFrom := some (some 2) } else e := by
    intro i
    rw [readLater, List.getElem?_modify]
    cases t.events[i]? with
    | none => rfl
    | some e =>
        by_cases hi : 1 = i
        · simp [hi]
        · simp [hi]
  have hsame : t.readLater.events.length = t.events.length := List.length_modify _ _ _
  refine ⟨rfl, hsame, ?_, ?_⟩
  · intro i d e hd he
    rw [hget, hd, Option.map_some, Option.some.injEq] at he
    subst he
    split
    · exact ⟨rfl, rfl⟩
    · exact ⟨rfl, rfl⟩
  · intro i w e he hw
    rw [hsame]
    rw [hget, Option.map_eq_some_iff] at he
    obtain ⟨d, hd, rfl⟩ := he
    split at hw
    · cases hw
      exact hlength
    · have hall := hsources d (List.mem_of_getElem? hd)
      rw [hw] at hall
      exact of_decide_eq_true hall

/-- The depth of the decision of the read. -/
def readDepth (i : ℕ) : ℤ := if i = 1 then 0 else -1

theorem outputFormula_exact_joined : ∃ t below formula,
    joined.computeVclocks = some (t, below) ∧
    t.readLater.outputFormula t.readLater.writesByAddress (t.readLater.causalPast readDepth 0) =
      some formula ∧
    ∀ num, Set.InjOn num {i | Kept (t.readLater.causalPast readDepth 0) i} →
      ((∀ c ∈ formula, c.holds (solverModel (t.readLater.causalPast readDepth 0) num)) ↔
        Consistent t.readLater (t.readLater.causalPast readDepth 0) num) := by
  obtain ⟨⟨t, below⟩, hclocks⟩ : ∃ r, joined.computeVclocks = some r :=
    Option.isSome_iff_exists.mp (by decide +kernel)
  have hfacts : ∀ r ∈ joined.computeVclocks, 2 < r.1.events.length ∧
      (∀ e ∈ r.1.events, e.readFrom.join.all (· < r.1.events.length) = true) ∧
      ∀ i < r.1.events.length, ∀ e ∈ r.1.readLater.events[i]?, ∀ source ∈ e.readFrom,
        (getAddr e).any (fun ml => source.all fun w =>
          w ≠ i && r.1.readLater.storesTo w ml.addr) = true := by
    decide +kernel
  obtain ⟨hlength, hsources, hstores⟩ := hfacts (t, below) hclocks
  have hreassigned := reassigned_readLater hlength hsources
  have hreads : ReadsStores t.readLater (t.readLater.causalPast readDepth 0) := by
    intro r e source _ he hread
    have hr := (List.getElem?_eq_some_iff.mp he).1
    rw [hreassigned.length] at hr
    obtain ⟨ml, hml, hall⟩ := (Option.any_eq_true _ _).mp (hstores r hr e he source hread)
    refine ⟨ml, hml, ?_⟩
    rintro w rfl
    rw [Option.all_some, Bool.and_eq_true, decide_eq_true_eq] at hall
    exact hall
  obtain ⟨formula, hformula, hiff⟩ := outputFormula_exact execution_joined hclocks hreassigned
    (listsStores_writesByAddress _) hreads
  exact ⟨t, below, formula, hclocks, hformula, hiff⟩

end Nidhugg.RfscTraceBuilder
