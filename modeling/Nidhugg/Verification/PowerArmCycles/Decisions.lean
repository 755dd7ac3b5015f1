import Nidhugg.Library.AssocList
import Nidhugg.Model.PowerArmCycles

/-! # What the two searches decide

`propagation` decides whether `co` and `prop` have a cycle. `no_thin_air` decides it for `hb` if no
event has an edge to itself, and overlooks such edges otherwise. -/

namespace Nidhugg.PowerArmCycles

open CycleSearch Relation

variable {fch : Fetched} {evt : IID} {rel : Relations} {EHB : ExtraHB} {ER : ExtraRel}

/-! ### The relations -/

/-- An edge of `hb`, extended for the new event. -/
inductive HbEdge (fch : Fetched) (evt : IID) (rel : Relations) (EHB : ExtraHB) : IID → IID → Prop
  | stored {a b : IID} (hb : b ≠ evt) (h : a ∈ (getEvt fch b).rel.hb.bwd) : HbEdge fch evt rel EHB a b
  | before {a : IID} (h : a ∈ rel.hb.bwd) : HbEdge fch evt rel EHB a evt
  | after {b : IID} (h : b ∈ rel.hb.fwd) : HbEdge fch evt rel EHB evt b
  | extraI {a b : IID} (ha : a ∈ EHB.I) (hb : b ∈ EHB.afterI) : HbEdge fch evt rel EHB a b
  | extraC {a b : IID} (ha : a ∈ EHB.C) (hb : b ∈ EHB.afterC) : HbEdge fch evt rel EHB a b

/-- `hb` over the committed events and the new event. -/
def Hb (fch : Fetched) (evt : IID) (rel : Relations) (EHB : ExtraHB) (a b : IID) : Prop :=
  HbEdge fch evt rel EHB a b ∧ isNode fch evt a = true ∧ isNode fch evt b = true

/-- The stored edges of `co` and `prop`. -/
def StoredCoProp (fch : Fetched) (evt : IID) (a b : IID) : Prop :=
  a ≠ evt ∧ (b ∈ (getEvt fch a).rel.co.fwd ∨ b ∈ (getEvt fch a).rel.prop.fwd)

/-- An edge of `co` or `prop`, extended for the new event. -/
inductive CoProp (fch : Fetched) (evt : IID) (rel : Relations) (ER : ExtraRel) : IID → IID → Prop
  | stored {a b : IID} (h : StoredCoProp fch evt a b) : CoProp fch evt rel ER a b
  | coBefore {a : IID} (h : a ∈ rel.co.bwd) : CoProp fch evt rel ER a evt
  | coAfter {b : IID} (h : b ∈ rel.co.fwd) : CoProp fch evt rel ER evt b
  | propBefore {a : IID} (h : a ∈ rel.prop.bwd) : CoProp fch evt rel ER a evt
  | propAfter {b : IID} (h : b ∈ rel.prop.fwd) : CoProp fch evt rel ER evt b
  | extra {a b : IID} {bs : List IID} (h : ER.prop.lookup a = some bs) (hb : b ∈ bs) :
      CoProp fch evt rel ER a b

theorem mem_predecessors {a b : IID} : a ∈ predecessors fch evt rel EHB b ↔
    HbEdge fch evt rel EHB a b ∧ isNode fch evt a = true := by
  rw [predecessors, List.mem_filter]
  apply and_congr_left'
  simp only [List.mem_append]
  constructor
  · rintro (((h | h) | h) | h)
    · by_cases hb : b = evt
      · rw [if_pos hb] at h
        exact hb ▸ .before h
      · rw [if_neg hb] at h
        exact .stored hb h
    · split at h
      · rename_i hb
        exact .extraI h hb
      · cases h
    · split at h
      · rename_i hb
        exact .extraC h hb
      · cases h
    · split at h
      · rename_i hb
        rw [List.mem_singleton.mp h]
        exact .after hb
      · cases h
  · intro h
    cases h with
    | stored hb h => exact .inl (.inl (.inl (by rwa [if_neg hb])))
    | before h => exact .inl (.inl (.inl (by rwa [if_pos rfl])))
    | after h => exact .inr (by rw [if_pos h, List.mem_singleton])
    | extraI ha hb => exact .inl (.inl (.inr (by rwa [if_pos hb])))
    | extraC ha hb => exact .inl (.inr (by rwa [if_pos hb]))

theorem mem_successors {a b : IID} : b ∈ successors fch evt rel ER a ↔ CoProp fch evt rel ER a b := by
  simp only [successors, List.mem_append]
  constructor
  · rintro ((((h | h) | h) | h) | h)
    · by_cases ha : a = evt
      · rw [if_pos ha] at h
        exact ha ▸ .coAfter h
      · rw [if_neg ha] at h
        exact .stored ⟨ha, .inl h⟩
    · split at h
      · rename_i ha
        rw [List.mem_singleton.mp h]
        exact .coBefore ha
      · cases h
    · by_cases ha : a = evt
      · rw [if_pos ha] at h
        exact ha ▸ .propAfter h
      · rw [if_neg ha] at h
        exact .stored ⟨ha, .inr h⟩
    · cases hlookup : ER.prop.lookup a with
      | none => simp [hlookup] at h
      | some bs =>
          rw [hlookup, Option.getD_some] at h
          exact .extra hlookup h
    · split at h
      · rename_i ha
        rw [List.mem_singleton.mp h]
        exact .propBefore ha
      · cases h
  · intro h
    cases h with
    | stored h =>
        rw [if_neg h.1, if_neg h.1]
        rcases h.2 with h | h
        · exact .inl (.inl (.inl (.inl h)))
        · exact .inl (.inl (.inr h))
    | coBefore h => exact .inl (.inl (.inl (.inr (by rw [if_pos h, List.mem_singleton]))))
    | coAfter h => exact .inl (.inl (.inl (.inl (by rwa [if_pos rfl]))))
    | propBefore h => exact .inr (by rw [if_pos h, List.mem_singleton])
    | propAfter h => exact .inl (.inl (.inr (by rwa [if_pos rfl])))
    | extra h hb => exact .inl (.inr (by rwa [h, Option.getD_some]))

/-! ### The events -/

theorem mem_iids_of_getEvt_ne {iid : IID} (h : getEvt fch iid ≠ .none) : iid ∈ iids fch := by
  unfold getEvt at h
  by_cases hindex : iid.index = 0
  · rw [if_pos hindex] at h
    exact absurd rfl h
  · rw [if_neg hindex] at h
    cases hevents : fch[iid.pid]? with
    | none => simp [hevents] at h
    | some events =>
        cases hevt : events[iid.index - 1]? with
        | none => simp [hevents, hevt] at h
        | some e =>
            obtain ⟨hlt, -⟩ := List.getElem?_eq_some_iff.mp hevt
            refine List.mem_flatMap.mpr ⟨(events, iid.pid), ?_, ?_⟩
            · exact List.mem_zipIdx_iff_getElem?.mpr hevents
            · refine List.mem_map.mpr ⟨iid.index - 1, List.mem_range.mpr hlt, ?_⟩
              have hsucc : iid.index - 1 + 1 = iid.index := by omega
              rw [hsucc]

theorem mem_iids_of_committed {iid : IID} (h : (getEvt fch iid).committed = true) :
    iid ∈ iids fch := by
  apply mem_iids_of_getEvt_ne
  intro hnone
  rw [hnone] at h
  cases h

/-- A committed event is a root of the search. -/
theorem mem_roots {iid : IID} (h : (getEvt fch iid).committed = true) :
    iid ∈ (iids fch).filter (isNode fch evt) := by
  apply List.mem_filter.mpr
  refine ⟨mem_iids_of_committed h, ?_⟩
  rw [isNode, h, Bool.true_or]

/-! ### No thin air -/

/-- The cycles of entered events are the cycles of `hb` backwards, and the same for a part of the
edges. -/
theorem transGen_predecessors_iff (keep : IID → IID → Prop) {x : IID} :
    TransGen (fun a b => b ∈ predecessors fch evt rel EHB a ∧ keep b a) x x ↔
      TransGen (fun a b => Hb fch evt rel EHB a b ∧ keep a b) x x := by
  constructor
  · intro h
    -- every event on the cycle is a node, as it is entered from another one
    have hnode : isNode fch evt x = true := by
      obtain ⟨y, -, hxy⟩ := TransGen.tail'_iff.mp h
      exact (mem_predecessors.mp hxy.1).2
    have hpath : ∀ y, TransGen (fun a b => b ∈ predecessors fch evt rel EHB a ∧ keep b a) x y →
        TransGen (fun a b => Hb fch evt rel EHB a b ∧ keep a b) y x := by
      intro y hy
      induction hy with
      | single hxy =>
          obtain ⟨hedge, hy⟩ := mem_predecessors.mp hxy.1
          exact .single ⟨⟨hedge, hy, hnode⟩, hxy.2⟩
      | tail hxy hyz ih =>
          obtain ⟨hedge, hz⟩ := mem_predecessors.mp hyz.1
          obtain ⟨w, hw, -⟩ := TransGen.head'_iff.mp ih
          exact .head ⟨⟨hedge, hz, hw.1.2.1⟩, hyz.2⟩ ih
    exact hpath x h
  · intro h
    apply transGen_swap.mp
    refine TransGen.mono (fun a b hab => ?_) _ _ h
    exact ⟨mem_predecessors.mpr ⟨hab.1.1, hab.1.2.1⟩, hab.2⟩

theorem acyclic_predecessors_iff :
    Acyclic (fun a b => b ∈ predecessors fch evt rel EHB a) ↔ Acyclic (Hb fch evt rel EHB) := by
  refine forall_congr' fun x => not_congr ?_
  simpa only [and_true] using transGen_predecessors_iff fun _ _ => True

theorem notMem_predecessors_iff {e : IID} :
    e ∉ predecessors fch evt rel EHB e ↔ ¬ Hb fch evt rel EHB e e := by
  rw [mem_predecessors, Hb, and_self_iff]

/-- The search ends, with an outcome that is correct for the committed events and the new one. -/
theorem noThinAir_ends (fch : Fetched) (evt : IID) (rel : Relations) (EHB : ExtraHB) :
    ∃ fuel, ∀ n, fuel ≤ n → ∃ outcome,
      noThinAir fch evt rel EHB n = some outcome.acyclic ∧
        Correct false (predecessors fch evt rel EHB)
          (.start ((iids fch).filter (isNode fch evt))) outcome := by
  -- all that is entered is among these events
  have huniv : ∀ x ∈ (evt :: (iids fch).filter (isNode fch evt)).toFinset,
      ∀ y ∈ predecessors fch evt rel EHB x,
        y ∈ (evt :: (iids fch).filter (isNode fch evt)).toFinset := by
    intro x _ y hy
    rw [List.mem_toFinset]
    have hnode := (mem_predecessors.mp hy).2
    simp only [isNode, Bool.or_eq_true, decide_eq_true_eq] at hnode
    rcases hnode with hcommitted | rfl
    · exact List.mem_cons_of_mem _ (mem_roots hcommitted)
    · exact List.mem_cons_self
  have hroots : ∀ r ∈ (iids fch).filter (isNode fch evt),
      r ∈ (evt :: (iids fch).filter (isNode fch evt)).toFinset :=
    fun r hr => List.mem_toFinset.mpr (List.mem_cons_of_mem _ hr)
  obtain ⟨fuel, hfuel⟩ := exploreAll_ends huniv hroots
  refine ⟨fuel, fun n hn => ?_⟩
  obtain ⟨outcome, hrun, hcorrect⟩ := hfuel n hn
  exact ⟨outcome, by rw [noThinAir, hrun, Option.map_some], hcorrect⟩

/-- `no_thin_air` returns whether `hb` has no cycle. -/
def NoThinAirDecides (fch : Fetched) (evt : IID) (rel : Relations) (EHB : ExtraHB) : Prop :=
  ∃ fuel, ∀ n, fuel ≤ n → ∃ b, noThinAir fch evt rel EHB n = some b ∧
    (b = true ↔ Acyclic (Hb fch evt rel EHB))

theorem noThinAirDecides_of_no_loop (hloops : ∀ e, ¬ Hb fch evt rel EHB e e) :
    NoThinAirDecides fch evt rel EHB := by
  obtain ⟨fuel, hfuel⟩ := noThinAir_ends fch evt rel EHB
  refine ⟨fuel, fun n hn => ?_⟩
  obtain ⟨outcome, hrun, hcorrect⟩ := hfuel n hn
  refine ⟨outcome.acyclic, hrun, ?_⟩
  rw [← acyclic_predecessors_iff]
  apply hcorrect.acyclic_iff
  · exact .inr fun e => notMem_predecessors_iff.mpr (hloops e)
  · -- a cycle has an event other than the new one, as there are no self-loops
    intro x hx
    by_cases hcommitted : (getEvt fch x).committed = true
    · exact ⟨x, mem_roots hcommitted, hx⟩
    · obtain ⟨y, hxy, hyx⟩ := TransGen.head'_iff.mp hx
      obtain ⟨z, -, hzx⟩ := TransGen.tail'_iff.mp hx
      have hxnode := (mem_predecessors.mp hzx).2
      have hynode := (mem_predecessors.mp hxy).2
      simp only [isNode, hcommitted, Bool.false_or, decide_eq_true_eq] at hxnode
      have hne : y ≠ evt := by
        rintro rfl
        subst hxnode
        exact notMem_predecessors_iff.mpr (hloops x) hxy
      simp only [isNode, hne, decide_false, Bool.or_false] at hynode
      exact ⟨y, mem_roots hynode, .tail' hyx hxy⟩

/-- Without longer cycles it returns true, whether or not there are self-loops. -/
theorem noThinAir_of_acyclic
    (hacyclic : Acyclic fun a b => Hb fch evt rel EHB a b ∧ a ≠ b) :
    ∃ fuel, ∀ n, fuel ≤ n → noThinAir fch evt rel EHB n = some true := by
  obtain ⟨fuel, hfuel⟩ := noThinAir_ends fch evt rel EHB
  refine ⟨fuel, fun n hn => ?_⟩
  obtain ⟨outcome, hrun, hcorrect⟩ := hfuel n hn
  rw [hrun, hcorrect.acyclic_of_acyclic]
  intro x hx
  apply hacyclic x
  apply (transGen_predecessors_iff fun a b => a ≠ b).mp
  refine TransGen.mono (fun a b hab => ?_) _ _ hx
  exact ⟨hab.1, hab.2.resolve_left (by decide)⟩

/-- So a self-loop is overlooked if it is the only kind of cycle. -/
theorem noThinAirDecides_iff_no_loop
    (hacyclic : Acyclic fun a b => Hb fch evt rel EHB a b ∧ a ≠ b) :
    NoThinAirDecides fch evt rel EHB ↔ ∀ e, ¬ Hb fch evt rel EHB e e := by
  refine ⟨fun hdecides e hloop => ?_, noThinAirDecides_of_no_loop⟩
  obtain ⟨fuel, hfuel⟩ := hdecides
  obtain ⟨fuel', hfuel'⟩ := noThinAir_of_acyclic hacyclic
  obtain ⟨b, hb, hiff⟩ := hfuel (max fuel fuel') (le_max_left _ _)
  rw [hfuel' (max fuel fuel') (le_max_right _ _), Option.some.injEq] at hb
  exact hiff.mp hb.symm e (.single hloop)

/-! ### Propagation -/

/-- `propagation` returns whether `co` and `prop` together have no cycle. -/
def PropagationDecides (fch : Fetched) (evt : IID) (rel : Relations) (ER : ExtraRel) : Prop :=
  ∃ fuel, ∀ n, fuel ≤ n → ∃ b, propagation fch evt rel ER n = some b ∧
    (b = true ↔ Acyclic (CoProp fch evt rel ER))

/-- All events that the edges lead to, and those that the search starts from. -/
def mentioned (fch : Fetched) (evt : IID) (rel : Relations) (ER : ExtraRel) : List IID :=
  inits evt ER ++ rel.co.fwd ++ rel.prop.fwd ++ ER.prop.flatMap Prod.snd ++
    (iids fch).flatMap fun e => (getEvt fch e).rel.co.fwd ++ (getEvt fch e).rel.prop.fwd

theorem mem_mentioned_of_coProp {a b : IID} (h : CoProp fch evt rel ER a b) :
    b ∈ mentioned fch evt rel ER := by
  have hevt : evt ∈ inits evt ER := List.mem_append_right _ List.mem_cons_self
  have hstored {c : IID} (hc : c ∈ (getEvt fch a).rel.co.fwd ++ (getEvt fch a).rel.prop.fwd) :
      c ∈ mentioned fch evt rel ER := by
    apply List.mem_append_right
    refine List.mem_flatMap.mpr ⟨a, mem_iids_of_getEvt_ne fun hnone => ?_, hc⟩
    rw [hnone] at hc
    cases hc
  cases h with
  | stored h => exact hstored (List.mem_append.mpr h.2)
  | coBefore | propBefore => simp [mentioned, hevt]
  | coAfter h => simp [mentioned, h]
  | propAfter h => simp [mentioned, h]
  | @extra _ _ bs h hb =>
      have hmem : b ∈ ER.prop.flatMap Prod.snd :=
        List.mem_flatMap.mpr ⟨(a, bs), AssocList.mem_of_lookup h, hb⟩
      simp only [mentioned, List.mem_append, hmem, or_true, true_or]

/-- The search starts from an event of each new edge. -/
theorem mem_inits_of_new {a b : IID} (h : CoProp fch evt rel ER a b)
    (hnew : ¬ StoredCoProp fch evt a b) : a ∈ inits evt ER ∨ b ∈ inits evt ER := by
  have hevt : evt ∈ inits evt ER := List.mem_append_right _ List.mem_cons_self
  cases h with
  | stored h => exact absurd h hnew
  | coBefore | propBefore => exact .inr hevt
  | coAfter | propAfter => exact .inl hevt
  | @extra _ _ bs h hb =>
      left
      apply List.mem_append_left
      exact List.mem_reverse.mpr (List.mem_map.mpr ⟨(a, bs), AssocList.mem_of_lookup h, rfl⟩)

theorem propagationDecides (hstored : Acyclic (StoredCoProp fch evt)) :
    PropagationDecides fch evt rel ER := by
  have huniv : ∀ x ∈ (mentioned fch evt rel ER).toFinset, ∀ y ∈ successors fch evt rel ER x,
      y ∈ (mentioned fch evt rel ER).toFinset := by
    intro x _ y hy
    rw [List.mem_toFinset]
    exact mem_mentioned_of_coProp (mem_successors.mp hy)
  have hinits : ∀ x ∈ inits evt ER, x ∈ (mentioned fch evt rel ER).toFinset := by
    intro x hx
    rw [List.mem_toFinset]
    simp [mentioned, hx]
  obtain ⟨fuel, hfuel⟩ := explore_ends huniv hinits
  refine ⟨fuel, fun n hn => ?_⟩
  obtain ⟨outcome, hrun, hcorrect⟩ := hfuel n hn
  refine ⟨outcome.acyclic, by rw [propagation, hrun, Option.map_some], ?_⟩
  have hedges : (fun a b => b ∈ successors fch evt rel ER a) = CoProp fch evt rel ER := by
    funext a b
    exact propext mem_successors
  have hiff := hcorrect.acyclic_iff (.inl rfl) fun x hx => by
    rw [hedges] at hx ⊢
    exact cycle_through_root hstored (fun a b => mem_inits_of_new) hx
  rwa [hedges] at hiff

/-! ### Both searches -/

/-- What `populate_parameters` passes. The preserved program order leads from the events in `I` and
`C` to the new one and from there to those in `afterI` and `afterC`. -/
structure Passed (fch : Fetched) (evt : IID) (rel : Relations) (EHB : ExtraHB) : Prop where
  stored : ∀ e, e ∉ (getEvt fch e).rel.hb.bwd
  before : evt ∉ rel.hb.bwd
  after : evt ∉ rel.hb.fwd
  sources : ∀ a ∈ EHB.I ++ EHB.C, a.index < evt.index
  targets : ∀ b ∈ EHB.afterI ++ EHB.afterC, evt.index < b.index

theorem Passed.no_loop (h : Passed fch evt rel EHB) (e : IID) : ¬ Hb fch evt rel EHB e e := by
  rintro ⟨hedge, -⟩
  cases hedge with
  | stored _ he => exact h.stored e he
  | before he => exact h.before he
  | after he => exact h.after he
  | extraI ha hb =>
      have hsource := h.sources e (List.mem_append_left _ ha)
      have htarget := h.targets e (List.mem_append_left _ hb)
      omega
  | extraC ha hb =>
      have hsource := h.sources e (List.mem_append_right _ ha)
      have htarget := h.targets e (List.mem_append_right _ hb)
      omega

/-- `propagation` always decides its question. `no_thin_air` does if `hb` has no self-loops, and if it
has no longer cycles it does only then. -/
theorem searches_decide (fch : Fetched) (evt : IID) (rel : Relations) (ER : ExtraRel) :
    ((∀ e, ¬ Hb fch evt rel ER.EHB e e) → NoThinAirDecides fch evt rel ER.EHB) ∧
      (Acyclic (fun a b => Hb fch evt rel ER.EHB a b ∧ a ≠ b) →
        (NoThinAirDecides fch evt rel ER.EHB ↔ ∀ e, ¬ Hb fch evt rel ER.EHB e e)) ∧
      (Acyclic (StoredCoProp fch evt) → PropagationDecides fch evt rel ER) :=
  ⟨noThinAirDecides_of_no_loop, noThinAirDecides_iff_no_loop, propagationDecides⟩

/-- A committed event and one that is fetched. -/
def twoEvents : Fetched := [[{ Event.none with committed := true }], [.none]]

theorem twoEvents_rel (iid : IID) : (getEvt twoEvents iid).rel = Event.none.rel := by
  obtain ⟨pid, index⟩ := iid
  rcases pid with _ | _ | pid <;> rcases index with _ | _ | index <;> rfl

/-- The new event is before and after the other one. -/
theorem searches_decide_cycle :
    let rel : Relations := ⟨⟨[⟨0, 1⟩], []⟩, ⟨[⟨0, 1⟩], [⟨0, 1⟩]⟩, ⟨[], [⟨0, 1⟩]⟩⟩
    NoThinAirDecides twoEvents ⟨1, 1⟩ rel ⟨[], [], [], []⟩ ∧
      PropagationDecides twoEvents ⟨1, 1⟩ rel ⟨⟨[], [], [], []⟩, []⟩ := by
  intro rel
  obtain ⟨hthin, -, hprop⟩ := searches_decide twoEvents ⟨1, 1⟩ rel ⟨⟨[], [], [], []⟩, []⟩
  have hpassed : Passed twoEvents ⟨1, 1⟩ rel ⟨[], [], [], []⟩ := by
    refine ⟨?_, by decide, by decide, by decide, by decide⟩
    intro e he
    rw [twoEvents_rel] at he
    cases he
  refine ⟨hthin hpassed.no_loop, hprop ?_⟩
  intro e hcycle
  obtain ⟨_, ⟨-, hedge⟩, -⟩ := TransGen.head'_iff.mp hcycle
  rw [twoEvents_rel] at hedge
  rcases hedge with hedge | hedge <;> cases hedge

/-- An edge from the new event to itself is overlooked. -/
theorem not_noThinAirDecides_loop : ¬ ∀ fch evt rel EHB, NoThinAirDecides fch evt rel EHB := by
  intro hall
  let rel : Relations := ⟨⟨[], []⟩, ⟨[], [⟨1, 1⟩]⟩, ⟨[], []⟩⟩
  have hself : Hb twoEvents ⟨1, 1⟩ rel ⟨[], [], [], []⟩ ⟨1, 1⟩ ⟨1, 1⟩ :=
    ⟨.before List.mem_cons_self, rfl, rfl⟩
  -- there is no other edge
  have hacyclic : Acyclic fun a b => Hb twoEvents ⟨1, 1⟩ rel ⟨[], [], [], []⟩ a b ∧ a ≠ b := by
    intro x hx
    obtain ⟨y, ⟨⟨hedge, -⟩, hne⟩, -⟩ := TransGen.head'_iff.mp hx
    cases hedge with
    | stored _ h =>
        rw [twoEvents_rel] at h
        cases h
    | before h => exact hne (List.mem_singleton.mp h)
    | after h => cases h
    | extraI ha => cases ha
    | extraC ha => cases ha
  exact (noThinAirDecides_iff_no_loop hacyclic).mp (hall _ _ _ _) _ hself

end Nidhugg.PowerArmCycles
