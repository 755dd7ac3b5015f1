import Nidhugg.Library.FoldInvariant
import Nidhugg.Model.RfscAlternatives

/-! # Recomputations are undone

A recomputation of a compare-exchange changes the kind of one event and one list of stores. Undoing
it restores both, if they are as the recomputation left them. What happens to the sources of events
in between does not matter. -/

namespace Nidhugg.RfscPlan

open RfscTraceBuilder SwapRemove

variable {p q r : RfscPlan}

/-! ### Sources -/

theorem modify_eq_self {α : Type*} {l : List α} {i : ℕ} {a : α} {f : α → α} (ha : l[i]? = some a)
    (hf : f a = a) : l.modify i f = l := by
  apply List.ext_getElem?
  intro k
  rw [List.getElem?_modify]
  by_cases hk : i = k
  · subst hk
    simp [ha, hf]
  · simp [hk]

theorem map_getElem?_modify {α β : Type*} (l : List α) (i k : ℕ) (f : α → α) (g : α → β) :
    (l.modify i f)[k]?.map g = if i = k then l[k]?.map (g ∘ f) else l[k]?.map g := by
  rw [List.getElem?_modify]
  split
  · simp
  · simp

/-- Changes the sources of events. -/
def mapSources (f : ℕ → Option (Option ℕ) → Option (Option ℕ)) (p : RfscPlan) : RfscPlan :=
  { p with
    builder.events := p.builder.events.mapIdx fun k e => { e with readFrom := f k e.readFrom } }

/-- The plan without its results. -/
def core (p : RfscPlan) : RfscPlan := { p with siblings := [], history := [] }

theorem mapSources_id (p : RfscPlan) : p.mapSources (fun _ => id) = p := by
  have hevents : p.builder.events.mapIdx (fun _ e => { e with readFrom := id e.readFrom }) =
      p.builder.events := by
    apply List.ext_getElem?
    intro k
    rw [List.getElem?_mapIdx]
    cases p.builder.events[k]? with
    | none => rfl
    | some e => rfl
  rw [mapSources, hevents]

theorem mapSources_mapSources (f g : ℕ → Option (Option ℕ) → Option (Option ℕ)) (p : RfscPlan) :
    (p.mapSources g).mapSources f = p.mapSources fun k => f k ∘ g k := by
  simp only [mapSources, List.mapIdx_mapIdx]
  rfl

/-- Setting one source changes the sources. -/
theorem setReadFrom_eq_mapSources (p : RfscPlan) (i : ℕ) (source : Option ℕ) :
    p.setReadFrom i source =
      p.mapSources (Function.update (fun _ => id) i fun _ => some source) := by
  have hevents : p.builder.events.modify i (fun e => { e with readFrom := some source }) =
      p.builder.events.mapIdx fun k e => { e with
        readFrom := Function.update (fun _ => id) i (fun _ => some source) k e.readFrom } := by
    apply List.ext_getElem?
    intro k
    rw [List.getElem?_mapIdx, List.getElem?_modify]
    cases p.builder.events[k]? with
    | none => rfl
    | some e =>
        by_cases hk : i = k
        · subst hk
          simp
        · simp [hk, Function.update_of_ne (Ne.symm hk)]
  rw [setReadFrom, modifyEvent, hevents, mapSources]

theorem setReadFrom_self {i : ℕ} {source : Option ℕ} {e : RfscTraceBuilder.Event}
    (he : p.builder.events[i]? = some e) (hsource : e.readFrom = some source) :
    p.setReadFrom i source = p := by
  rw [setReadFrom, modifyEvent, modify_eq_self he (by rw [← hsource])]

theorem setReadFrom_setReadFrom (p : RfscPlan) (i : ℕ) (source source' : Option ℕ) :
    (p.setReadFrom i source).setReadFrom i source' = p.setReadFrom i source' := by
  simp only [setReadFrom, modifyEvent, List.modify_modify_eq]
  rfl

theorem setReadFrom_comm (p : RfscPlan) {i j : ℕ} (hij : i ≠ j) (source source' : Option ℕ) :
    (p.setReadFrom i source).setReadFrom j source' =
      (p.setReadFrom j source').setReadFrom i source := by
  simp only [setReadFrom, modifyEvent]
  rw [List.modify_modify_ne _ _ _ hij]

/-! ### Results -/

@[simp]
theorem core_setReadFrom (p : RfscPlan) (i : ℕ) (source : Option ℕ) :
    (p.setReadFrom i source).core = p.core.setReadFrom i source := rfl

@[simp]
theorem core_constructSibling (o : RfscOracle) (decision : DecisionNode) (changed : List ℕ)
    (p : RfscPlan) : (p.constructSibling o decision changed).core = p.core := by
  rw [constructSibling]
  split
  · rfl
  · rfl

@[simp]
theorem history_constructSibling (o : RfscOracle) (decision : DecisionNode) (changed : List ℕ)
    (p : RfscPlan) : (p.constructSibling o decision changed).history = p.history := by
  rw [constructSibling]
  split
  · rfl
  · rfl

/-- Plans that differ in their results only. -/
theorem eq_of_core (h : p.core = q.core) :
    p = { q with siblings := p.siblings, history := p.history } := by
  have hbuilder := congrArg builder h
  have hdecisions := congrArg decisions h
  have hwrites := congrArg writesByAddress h
  cases p
  cases q
  simp only [core] at hbuilder hdecisions hwrites
  rw [hbuilder, hdecisions, hwrites]

/-! ### Undoing a recomputation -/

/-- What a recomputation does: nothing, or the event is made to succeed or to fail. -/
theorem recomputeCmpxhgSuccess_cases {idx : ℕ} {a : SymAddr} {log : CmpXhgUndoLog}
    (h : p.recomputeCmpxhgSuccess idx a = some (log, q)) :
    (log.kind = .none ∧ q = p) ∨
    ∃ e before pos writes, p.builder.events[idx]? = some e ∧ succeeded? e.sym = some before ∧
      updateWrites idx before (p.writesByAddress a) = some (pos, writes) ∧
      log = ⟨undoKind e.sym before, idx, pos⟩ ∧
      q = (p.setSym idx (withSuccess (!before) e.sym)).setWrites a writes := by
  simp only [recomputeCmpxhgSuccess, Option.bind_eq_bind, Option.bind_eq_some_iff] at h
  obtain ⟨e, he, h⟩ := h
  cases hbefore : succeeded? e.sym with
  | none =>
      rw [hbefore] at h
      cases h
      exact .inl ⟨rfl, rfl⟩
  | some before =>
      simp only [hbefore, Option.bind_eq_some_iff] at h
      obtain ⟨source, -, after, -, h⟩ := h
      split at h
      · cases h
        exact .inl ⟨rfl, rfl⟩
      · rename_i hne
        have hafter : after = !before := Bool.eq_not_of_ne hne
        simp only [Option.bind_eq_some_iff] at h
        obtain ⟨⟨pos, writes⟩, hwrites, h⟩ := h
        cases h
        rw [hafter]
        exact .inr ⟨e, before, pos, writes, he, hbefore, hwrites, rfl, rfl⟩

theorem siblings_of_recompute {idx : ℕ} {a : SymAddr} {log : CmpXhgUndoLog}
    (h : p.recomputeCmpxhgSuccess idx a = some (log, q)) : q.siblings = p.siblings := by
  rcases recomputeCmpxhgSuccess_cases h with ⟨-, rfl⟩ | ⟨e, before, pos, writes, -, -, -, -, rfl⟩
  · rfl
  · rfl

theorem history_of_recompute {idx : ℕ} {a : SymAddr} {log : CmpXhgUndoLog}
    (h : p.recomputeCmpxhgSuccess idx a = some (log, q)) : q.history = p.history := by
  rcases recomputeCmpxhgSuccess_cases h with ⟨-, rfl⟩ | ⟨e, before, pos, writes, -, -, -, -, rfl⟩
  · rfl
  · rfl

/-- The kind of the event is restored. -/
theorem undoSym_withSuccess {sym : SymEv} {before : Bool} (h : succeeded? sym = some before) :
    undoSym (undoKind sym before) (withSuccess (!before) sym) = some sym := by
  cases sym with
  | mutex op addr =>
      cases op with
      | trylock =>
          cases h
          rfl
      | trylockFail =>
          cases h
          rfl
      | init => cases h
      | lock => cases h
      | unlock => cases h
      | delete => cases h
  | cmpXhg addr written expected =>
      cases h
      rfl
  | cmpXhgFail addr written expected =>
      cases h
      rfl
  | _ => cases h

/-- The list of stores is restored. -/
theorem undoWrites_updateWrites {sym : SymEv} {idx pos : ℕ} {before : Bool}
    {writes writes' : List ℕ} (h : updateWrites idx before writes = some (pos, writes')) :
    undoWrites ⟨undoKind sym before, idx, pos⟩ writes' = some writes := by
  cases before with
  | true =>
      have hkind : undoWrites ⟨undoKind sym true, idx, pos⟩ writes' = putBack writes' pos idx := by
        cases sym with
        | _ => rfl
      rw [hkind]
      exact putBack_removeLast h
  | false =>
      cases h
      have hkind : undoWrites ⟨undoKind sym false, idx, writes.length⟩ (writes ++ [idx]) =
          some (writes ++ [idx]).dropLast := by
        cases sym with
        | _ => rfl
      rw [hkind, List.dropLast_concat]

theorem undoKind_ne_none (sym : SymEv) (before : Bool) : undoKind sym before ≠ .none := by
  cases before with
  | true =>
      cases sym with
      | _ => exact fun h => nomatch h
  | false =>
      cases sym with
      | _ => exact fun h => nomatch h

/-- The kind of an event can be restored after the sources have changed. -/
theorem setSym_mapSources_setSym {idx : ℕ} {e : RfscTraceBuilder.Event} (sym : SymEv) (a : SymAddr)
    (writes : List ℕ) (f : ℕ → Option (Option ℕ) → Option (Option ℕ))
    (he : p.builder.events[idx]? = some e) :
    ((((p.setSym idx sym).setWrites a writes).mapSources f).setSym idx e.sym).setWrites a
      (p.writesByAddress a) = p.mapSources f := by
  have hevents : ((p.builder.events.modify idx fun e => { e with sym := sym }).mapIdx
      fun k e => { e with readFrom := f k e.readFrom }).modify idx
      (fun d => { d with sym := e.sym }) =
      p.builder.events.mapIdx fun k e => { e with readFrom := f k e.readFrom } := by
    apply List.ext_getElem?
    intro k
    rw [List.getElem?_modify, List.getElem?_mapIdx, List.getElem?_mapIdx, List.getElem?_modify]
    by_cases hk : idx = k
    · subst hk
      simp [he]
    · simp [hk]
  simp only [setSym, setWrites, modifyEvent, mapSources, hevents, Function.update_idem,
    Function.update_eq_self]

/-- A recomputation can be undone, which restores the plan except for sources that were changed in
between. -/
theorem undo_recompute {idx : ℕ} {a : SymAddr} {log : CmpXhgUndoLog}
    {f : ℕ → Option (Option ℕ) → Option (Option ℕ)}
    (h : p.recomputeCmpxhgSuccess idx a = some (log, q)) (hr : r.core = (q.mapSources f).core) :
    r.undoCmpxhgRecomputation log a =
      some { p.mapSources f with siblings := r.siblings, history := r.history } := by
  rcases recomputeCmpxhgSuccess_cases h with ⟨hnone, rfl⟩ |
    ⟨e, before, pos, writes, he, hbefore, hwrites, rfl, rfl⟩
  · rw [undoCmpxhgRecomputation, if_pos hnone, ← eq_of_core hr]
    rfl
  · let e' : RfscTraceBuilder.Event :=
      { e with sym := withSuccess (!before) e.sym, readFrom := f idx e.readFrom }
    have hevent : r.builder.events[idx]? = some e' := by
      rw [eq_of_core hr]
      simp only [mapSources, setSym, setWrites, modifyEvent, List.getElem?_mapIdx,
        List.getElem?_modify_eq, he, Option.map_eq_map, Option.map_some, e']
    have hlists : r.writesByAddress a = writes := by
      rw [eq_of_core hr]
      simp only [mapSources, setWrites, Function.update_self]
    rw [undoCmpxhgRecomputation, if_neg (undoKind_ne_none _ _)]
    simp only [hevent, hlists, e', undoSym_withSuccess hbefore, undoWrites_updateWrites hwrites,
      Option.bind_eq_bind, Option.bind_some, Option.pure_def, Option.some.injEq]
    rw [← setSym_mapSources_setSym (withSuccess (!before) e.sym) a writes f he, eq_of_core hr]
    rfl

theorem core_of_undo {idx : ℕ} {a : SymAddr} {log : CmpXhgUndoLog} {t : RfscPlan}
    {f : ℕ → Option (Option ℕ) → Option (Option ℕ)}
    (h : p.recomputeCmpxhgSuccess idx a = some (log, q)) (hr : r.core = (q.mapSources f).core)
    (hundo : r.undoCmpxhgRecomputation log a = some t) : t.core = (p.mapSources f).core := by
  cases (undo_recompute h hr).symm.trans hundo
  rfl

theorem history_of_undo {idx : ℕ} {a : SymAddr} {log : CmpXhgUndoLog} {t : RfscPlan}
    {f : ℕ → Option (Option ℕ) → Option (Option ℕ)}
    (h : p.recomputeCmpxhgSuccess idx a = some (log, q)) (hr : r.core = (q.mapSources f).core)
    (hundo : r.undoCmpxhgRecomputation log a = some t) : t.history = r.history := by
  cases (undo_recompute h hr).symm.trans hundo
  rfl

/-! ### Nested recomputations -/

/-- Nested recomputations, and changes of sources between them. -/
inductive Nesting where
  | done
  | setReadFrom (i : ℕ) (source : Option ℕ) (rest : Nesting)
  | recompute (idx : ℕ) (a : SymAddr) (inner rest : Nesting)

/-- Every recomputation is undone after those inside it. -/
def Nesting.perform : Nesting → RfscPlan → Option RfscPlan
  | done, p => some p
  | setReadFrom i source rest, p => rest.perform (p.setReadFrom i source)
  | recompute idx a inner rest, p => do
      let (log, p) ← p.recomputeCmpxhgSuccess idx a
      let p ← inner.perform p
      let p ← p.undoCmpxhgRecomputation log a
      rest.perform p

/-- The changes of sources alone. -/
def Nesting.sources : Nesting → RfscPlan → RfscPlan
  | done, p => p
  | setReadFrom i source rest, p => rest.sources (p.setReadFrom i source)
  | recompute _ _ inner rest, p => rest.sources (inner.sources p)

theorem Nesting.sources_eq_mapSources (n : Nesting) :
    ∃ f, ∀ p : RfscPlan, n.sources p = p.mapSources f := by
  induction n with
  | done => exact ⟨fun _ => id, fun p => (mapSources_id p).symm⟩
  | setReadFrom i source rest ih =>
      obtain ⟨f, hf⟩ := ih
      refine ⟨fun k => f k ∘ Function.update (fun _ => id) i (fun _ => some source) k, fun p => ?_⟩
      rw [Nesting.sources, hf, setReadFrom_eq_mapSources, mapSources_mapSources]
  | recompute idx a inner rest ihinner ihrest =>
      obtain ⟨f, hf⟩ := ihinner
      obtain ⟨g, hg⟩ := ihrest
      refine ⟨fun k => g k ∘ f k, fun p => ?_⟩
      rw [Nesting.sources, hg, hf, mapSources_mapSources]

/-- Nested recomputations have no effect of their own. -/
theorem Nesting.perform_eq {n : Nesting} (h : n.perform p = some q) : q = n.sources p := by
  induction n generalizing p q with
  | done =>
      cases h
      rfl
  | setReadFrom i source rest ih => exact ih h
  | recompute idx a inner rest ihinner ihrest =>
      simp only [Nesting.perform, Option.bind_eq_bind, Option.bind_eq_some_iff] at h
      obtain ⟨⟨log, p'⟩, hrecompute, r, hinner, t, hundo, hrest⟩ := h
      obtain ⟨f, hf⟩ := inner.sources_eq_mapSources
      have hr : r = p'.mapSources f := by rw [ihinner hinner, hf]
      have ht : t = p.mapSources f := by
        rw [undo_recompute hrecompute (congrArg core hr), Option.some.injEq] at hundo
        rw [← hundo, hr]
        simp only [mapSources, siblings_of_recompute hrecompute, history_of_recompute hrecompute]
      rw [ihrest hrest, ht, Nesting.sources, hf]

end Nidhugg.RfscPlan

/-! # Attempts and their side effects

What the attempts of `compute_prefixes` leave behind. An attempt for a load takes everything back
except the source of the load, which the loop resets. A swap leaves a source behind: that of the
second event is set to the first one, whatever it was. -/

namespace Nidhugg.RfscPlan

open RfscTraceBuilder SwapRemove

variable {o : RfscOracle} {p q r t : RfscPlan}

/-! ### Attempts for loads -/

/-- The plans differ in the source of one event, apart from results. -/
structure Returns (i : ℕ) (p q : RfscPlan) : Prop where
  core : ∀ source, (q.setReadFrom i source).core = (p.setReadFrom i source).core
  history : ∀ w ∈ q.history, w ∈ p.history ∨ w = p.writesByAddress

namespace Returns

variable {i : ℕ}

theorem writesByAddress (h : Returns i p q) : q.writesByAddress = p.writesByAddress := by
  have hcore := congrArg RfscPlan.writesByAddress (h.core none)
  exact hcore

theorem of_history (h : ∀ source, (q.setReadFrom i source).core = (p.setReadFrom i source).core)
    (hhistory : q.history = p.history) : Returns i p q :=
  ⟨h, fun _ hw => .inl (hhistory ▸ hw)⟩

theorem refl (i : ℕ) (p : RfscPlan) : Returns i p p := of_history (fun _ => rfl) rfl

theorem trans (h : Returns i p q) (h' : Returns i q r) : Returns i p r := by
  refine ⟨fun source => (h'.core source).trans (h.core source), fun w hw => ?_⟩
  rcases h'.history w hw with hw | hw
  · exact h.history w hw
  · exact .inr (hw.trans h.writesByAddress)

/-- The lists of stores after the attempt are recorded. -/
theorem attempted {attempt : RfscPlan → Option RfscPlan}
    (h : ∀ q, attempt p = some q → Returns i p q) (hq : p.attempted attempt = some q) :
    Returns i p q := by
  rw [RfscPlan.attempted, Option.map_eq_some_iff] at hq
  obtain ⟨q, hattempt, rfl⟩ := hq
  have hreturns := h q hattempt
  refine ⟨hreturns.core, fun w hw => ?_⟩
  rcases List.mem_append.mp hw with hw | hw
  · exact hreturns.history w hw
  · exact .inr ((List.mem_singleton.mp hw).trans hreturns.writesByAddress)

theorem foldlM {α : Type} {f : RfscPlan → α → Option RfscPlan} {xs : List α}
    (hstep : ∀ q x t, x ∈ xs → f q x = some t → Returns i q t) (h : xs.foldlM f p = some q) :
    Returns i p q :=
  FoldInvariant.of_foldlM xs (fun q x t hx hq ht => hq.trans (hstep q x t hx ht)) (refl i p) h

end Returns

theorem tryReadFromPlain_returns {decision : DecisionNode} {a : SymAddr} {i : ℕ}
    {original j : Option ℕ} (h : p.tryReadFromPlain o decision a i original j = some q) :
    Returns i p q := by
  rw [tryReadFromPlain] at h
  split at h
  · simp only [Option.bind_eq_bind, Option.bind_eq_some_iff] at h
    obtain ⟨possible, -, h⟩ := h
    split at h
    · simp only [Option.bind_eq_some_iff] at h
      obtain ⟨⟨log, r⟩, hrecompute, hundo⟩ := h
      have hr : (r.constructSibling o decision [i]).core = (r.mapSources fun _ => id).core := by
        rw [core_constructSibling, mapSources_id]
      have hcore := core_of_undo hrecompute hr hundo
      rw [mapSources_id] at hcore
      refine Returns.of_history (fun source => ?_) ?_
      · rw [core_setReadFrom, hcore, core_setReadFrom, setReadFrom_setReadFrom, core_setReadFrom]
      · rw [history_of_undo hrecompute hr hundo, history_constructSibling,
          history_of_recompute hrecompute]
        rfl
    · cases h
      exact .refl i p
  · cases h
    exact .refl i p

/-- The source of the second event is set to the first one, which it was before. -/
theorem tryReadFromRmw_returns {decision : DecisionNode} {a : SymAddr} {i j : ℕ}
    {original : Option ℕ} (hij : i ≠ j)
    (h : p.tryReadFromRmw o decision a i original j = some q) : Returns i p q := by
  simp only [tryReadFromRmw, Option.bind_eq_bind, Option.bind_eq_some_iff] at h
  obtain ⟨e, he, source, hsource, h⟩ := h
  split at h
  · rename_i hadjacent
    simp only [Option.bind_eq_some_iff] at h
    obtain ⟨possible, -, h⟩ := h
    split at h
    · simp only [Option.bind_eq_some_iff] at h
      obtain ⟨⟨undoj, p₁⟩, hj, ⟨undoi, p₂⟩, hi, p₃, hundoi, hundoj⟩ := h
      obtain ⟨f, hf⟩ : ∃ f, ∀ p : RfscPlan, p.setReadFrom j (some i) = p.mapSources f :=
        ⟨_, fun p => setReadFrom_eq_mapSources p j (some i)⟩
      have h₂ : ((p₂.constructSibling o decision [j, i]).setReadFrom j (some i)).core =
          (p₂.mapSources f).core := by
        rw [core_setReadFrom, core_constructSibling, ← hf, core_setReadFrom]
      have h₃ := core_of_undo hi h₂ hundoi
      have hcore := core_of_undo hj h₃ hundoj
      rw [← hf] at hcore
      refine Returns.of_history (fun source => ?_) ?_
      · -- the source of the second event is as before
        rw [core_setReadFrom, hcore, core_setReadFrom, core_setReadFrom, core_setReadFrom,
          setReadFrom_comm _ hij, setReadFrom_setReadFrom, setReadFrom_setReadFrom,
          core_setReadFrom, ← core_setReadFrom p j,
          setReadFrom_self he (hadjacent.1 ▸ hsource)]
      · rw [history_of_undo hj h₃ hundoj, history_of_undo hi h₂ hundoi]
        change (p₂.constructSibling o decision [j, i]).history = p.history
        rw [history_constructSibling, history_of_recompute hi, history_of_recompute hj]
        rfl
    · cases h
      exact .refl i p
  · cases h
    exact .refl i p

theorem tryReadFromStore_returns {decision : DecisionNode} {a : SymAddr} {i j : ℕ}
    {original : Option ℕ} (hij : i ≠ j)
    (h : p.tryReadFromStore o decision a i original j = some q) : Returns i p q := by
  simp only [tryReadFromStore, Option.bind_eq_bind, Option.bind_eq_some_iff] at h
  obtain ⟨e, -, store, -, h⟩ := h
  split at h
  · exact tryReadFromRmw_returns hij h
  · cases h
    exact .refl i p

theorem tryReadFrom_returns {decision : DecisionNode} {a : SymAddr} {i : ℕ}
    {original j : Option ℕ} (h : p.tryReadFrom o decision a i original j = some q) :
    Returns i p q := by
  rw [tryReadFrom.eq_def] at h
  split at h
  · cases h
    exact .refl i p
  · cases j with
    | none => exact tryReadFromPlain_returns h
    | some j =>
        rename_i hne
        simp only at h
        split at h
        · exact tryReadFromStore_returns (fun hij => hne (.inr (congrArg some hij.symm))) h
        · exact tryReadFromPlain_returns h

theorem exploreThread_returns {below : List ClockRef} {decision : DecisionNode} {a : SymAddr}
    {i thread : ℕ} {original : Option ℕ}
    (h : p.exploreThread o below decision a i original thread = some q) : Returns i p q := by
  simp only [exploreThread, Option.bind_eq_bind, Option.bind_eq_some_iff] at h
  obtain ⟨e, -, range, -, h⟩ := h
  exact Returns.foldlM (fun _ _ _ _ => Returns.attempted fun _ => tryReadFrom_returns) h

theorem exploreFailed_returns {decision : DecisionNode} {a : SymAddr} {i : ℕ}
    {original : Option ℕ} (h : p.exploreFailed o decision a i original = some q) :
    Returns i p q := by
  rw [exploreFailed] at h
  split at h
  · refine Returns.foldlM (fun q j t _ ht => ?_) h
    split at ht
    · rename_i hij
      exact Returns.attempted (fun _ => tryReadFromStore_returns hij.ne) ht
    · cases ht
      exact .refl i q
  · cases h
    exact .refl i p

/-- The attempts for a load leave nothing behind. -/
theorem exploreLoad_core {below : List ClockRef} {i : ℕ} {e : RfscTraceBuilder.Event}
    (he : p.builder.events[i]? = some e) (h : p.exploreLoad o below i e = some q) :
    q.core = p.core ∧ ∀ w ∈ q.history, w ∈ p.history ∨ w = p.writesByAddress := by
  simp only [exploreLoad, Option.bind_eq_bind, Option.bind_eq_some_iff] at h
  obtain ⟨ml, -, original, horiginal, decision, -, p₁, h₁, p₂, h₂, p₃, h₃, h⟩ := h
  cases h
  have hthreads : Returns i p p₁ := Returns.foldlM (fun _ _ _ _ => exploreThread_returns) h₁
  have hinit : Returns i p₁ p₂ := Returns.attempted (fun _ => tryReadFrom_returns) h₂
  have hreturns := (hthreads.trans hinit).trans (exploreFailed_returns h₃)
  refine ⟨?_, hreturns.history⟩
  rw [hreturns.core original, setReadFrom_self he horiginal]

/-! ### Attempts for operations on mutexes -/

theorem decisionSwap_eq_some_iff {i j : ℕ} :
    p.decisionSwap i j = some q ↔
      ∃ decisions, swap p.decisions i j = some decisions ∧
        { p with decisions := decisions } = q := by
  rw [decisionSwap, Option.map_eq_some_iff]

/-- Swapping decisions again has no effect but that they are as before. -/
theorem decisionSwap_again {i j : ℕ} (h : p.decisionSwap i j = some q)
    (hr : r.decisions = q.decisions) (h' : r.decisionSwap i j = some t) :
    t = { r with decisions := p.decisions } := by
  obtain ⟨decisions, hswap, rfl⟩ := decisionSwap_eq_some_iff.mp h
  obtain ⟨decisions', hswap', rfl⟩ := decisionSwap_eq_some_iff.mp h'
  rw [hr, swap_swap hswap, Option.some.injEq] at hswap'
  rw [hswap']

@[simp]
theorem decisions_constructSibling (o : RfscOracle) (decision : DecisionNode) (changed : List ℕ)
    (p : RfscPlan) : (p.constructSibling o decision changed).decisions = p.decisions := by
  rw [constructSibling]
  split
  · rfl
  · rfl

/-- Whether two events are swapped. -/
def swapsEvents (o : RfscOracle) (attempt : RfscAttempt) (i j : ℕ) (s : RfscTraceBuilder) : Bool :=
  o.tryAllocUnf attempt && s.canSwapByVclocks i j = some true

/-- The sources that are left behind. -/
def resetSources (resets : List (ℕ × ℕ)) (p : RfscPlan) : RfscPlan :=
  resets.foldl (fun p reset => p.setReadFrom reset.1 (some reset.2)) p

theorem core_resetSources (resets : List (ℕ × ℕ)) (p : RfscPlan) :
    (p.resetSources resets).core = p.core.resetSources resets := by
  induction resets generalizing p with
  | nil => rfl
  | cons reset resets ih => exact ih _

/-- An attempted swap leaves the source of the second event behind. -/
theorem exchange_core {attempt : RfscAttempt} {i j reset : ℕ}
    (h : p.exchange o attempt i j reset = some q) :
    q.core = (p.resetSources
      (if swapsEvents o attempt i j p.builder then [(j, reset)] else [])).core ∧
      q.history = p.history := by
  simp only [exchange, Option.bind_eq_bind, Option.bind_eq_some_iff] at h
  obtain ⟨e, -, source, -, decision, -, h⟩ := h
  split at h
  · rename_i hfresh
    simp only [Option.bind_eq_some_iff] at h
    obtain ⟨possible, hpossible, h⟩ := h
    rw [swapsEvents, hfresh, hpossible]
    split at h
    · rename_i hpossible
      subst hpossible
      simp only [Option.bind_eq_some_iff] at h
      obtain ⟨r, hswap, h⟩ := h
      have hdecisions : ((r.constructSibling o decision [j]).setReadFrom j (some reset)).decisions =
          r.decisions := decisions_constructSibling o decision [j] r
      have hq := decisionSwap_again hswap hdecisions h
      obtain ⟨decisions, -, rfl⟩ := decisionSwap_eq_some_iff.mp hswap
      subst hq
      refine ⟨?_, history_constructSibling o decision [j] _⟩
      have hr := core_constructSibling o decision [j]
        { p.setReadFrom j source with decisions := decisions }
      rw [eq_of_core hr]
      have hreset := congrArg core (setReadFrom_setReadFrom p j source (some reset))
      exact hreset
    · rename_i hpossible
      rw [Bool.not_eq_true] at hpossible
      subst hpossible
      cases h
      exact ⟨rfl, rfl⟩
  · rename_i hknown
    rw [Bool.not_eq_true] at hknown
    rw [swapsEvents, hknown]
    cases h
    exact ⟨rfl, rfl⟩

/-- The clock of an event is the only change. -/
theorem computeAboveClock_events {s u : RfscTraceBuilder} {i : ℕ} {last : Option ℕ}
    (h : s.computeAboveClock i = some (last, u)) :
    ∃ e, u = { s with events := s.events.set i e } := by
  simp only [computeAboveClock, Option.bind_eq_bind, Option.bind_eq_some_iff] at h
  obtain ⟨e, -, h⟩ := h
  split at h
  · simp only [Option.bind_eq_some_iff] at h
    obtain ⟨previous, -, d, -, r, -, clock, -, h⟩ := h
    cases h
    exact ⟨_, rfl⟩
  · simp only [Option.bind_eq_some_iff] at h
    obtain ⟨t, -, h⟩ := h
    split at h
    · simp only [Option.bind_eq_some_iff] at h
      obtain ⟨r, -, clock, -, h⟩ := h
      cases h
      exact ⟨_, rfl⟩
    · simp only [Option.bind_eq_some_iff] at h
      obtain ⟨happensAfter, -, r, -, clock, -, h⟩ := h
      cases h
      exact ⟨_, rfl⟩

/-- The plan with the event of a blocked thread. -/
def withBlocked (jp : ℕ) (e : RfscTraceBuilder.Event) (p : RfscPlan) : RfscPlan :=
  { p with
    builder := { p.builder with
      threads := p.builder.threads.modify jp fun t =>
        { t with eventIndices := t.eventIndices ++ [p.builder.scheduled] }
      events := p.builder.events ++ [e]
      scheduled := p.builder.scheduled + 1 }
    decisions := p.decisions ++ [none] }

theorem pushBlocked_eq {jp : ℕ} {sym : SymEv}
    (hcomplete : p.builder.scheduled = p.builder.events.length)
    (h : p.pushBlocked jp sym = some q) : ∃ e, q = p.withBlocked jp e := by
  simp only [pushBlocked, Option.bind_eq_bind, Option.bind_eq_some_iff] at h
  obtain ⟨s, hpush, ⟨last, u⟩, hclock, h⟩ := h
  rw [pushIndex] at hpush
  split at hpush
  · cases hpush
    obtain ⟨e, rfl⟩ := computeAboveClock_events hclock
    cases h
    refine ⟨e, ?_⟩
    simp only [withBlocked, modifyThread, prefixIdx, Nat.add_sub_cancel]
    rw [hcomplete, List.set_append_right _ _ le_rfl, Nat.sub_self, List.set_cons_zero]
  · cases hpush

theorem popBlocked_withBlocked (p : RfscPlan) (jp : ℕ) (e : RfscTraceBuilder.Event) :
    (p.withBlocked jp e).popBlocked jp = p := by
  have hthreads : (p.builder.threads.modify jp fun t =>
      { t with eventIndices := t.eventIndices ++ [p.builder.scheduled] }).modify jp
        (fun t => { t with eventIndices := t.eventIndices.dropLast }) = p.builder.threads := by
    rw [List.modify_modify_eq]
    conv_rhs => rw [← List.modify_id jp p.builder.threads]
    congr 1
    funext t
    simp
  simp only [popBlocked, withBlocked, hthreads, List.dropLast_concat, Nat.add_sub_cancel]

theorem setPinned_setPinned {i : ℕ} {e : RfscTraceBuilder.Event}
    (he : p.builder.events[i]? = some e) (hpinned : e.pinned = false) :
    (p.setPinned i true).setPinned i false = p := by
  simp only [setPinned, modifyEvent]
  rw [List.modify_modify_eq, modify_eq_self he (by simp [← hpinned])]

theorem replaceLock_core {decision : DecisionNode} {source : Option ℕ} {i j : ℕ}
    {e : RfscTraceBuilder.Event} (hij : i ≠ j) (he : p.builder.events[i]? = some e)
    (hpinned : e.pinned = false)
    (h : p.replaceLock o decision source i j = some q) :
    q.core = (p.setReadFrom j source).core ∧ q.history = p.history := by
  simp only [replaceLock, Option.bind_eq_bind, Option.bind_eq_some_iff] at h
  obtain ⟨r, hswap, t, hswap', h⟩ := h
  cases h
  have hdecisions : ((r.setPinned i true).constructSibling o decision [j]).decisions =
      r.decisions := decisions_constructSibling o decision [j] (r.setPinned i true)
  have ht := decisionSwap_again hswap hdecisions hswap'
  obtain ⟨decisions, -, rfl⟩ := decisionSwap_eq_some_iff.mp hswap
  subst ht
  refine ⟨?_, history_constructSibling o decision [j] _⟩
  rw [eq_of_core (core_constructSibling o decision [j] _)]
  have he' : (p.setReadFrom j source).builder.events[i]? = some e := by
    rw [setReadFrom, modifyEvent, List.getElem?_modify_ne _ _ (Ne.symm hij), he]
  have hunpinned := congrArg core (setPinned_setPinned he' hpinned)
  exact hunpinned

theorem setReadFrom_withBlocked {jp : ℕ} {e : RfscTraceBuilder.Event} {source : Option ℕ}
    (hcomplete : p.builder.scheduled = p.builder.events.length) :
    (p.withBlocked jp e).setReadFrom p.builder.scheduled source =
      p.withBlocked jp { e with readFrom := some source } := by
  have hevents : (p.builder.events ++ [e]).modify p.builder.events.length
      (fun e => { e with readFrom := some source }) =
      p.builder.events ++ [{ e with readFrom := some source }] := by
    apply List.ext_getElem?
    intro k
    rw [List.getElem?_modify, List.getElem?_append, List.getElem?_append]
    grind
  simp only [setReadFrom, modifyEvent, withBlocked, hcomplete, hevents]

/-- The attempt with a blocked thread leaves nothing behind. -/
theorem trySwapBlocked_core {i jp : ℕ} {sym : SymEv} {e : RfscTraceBuilder.Event}
    (hcomplete : p.builder.scheduled = p.builder.events.length)
    (he : p.builder.events[i]? = some e) (hpinned : e.pinned = false)
    (h : p.trySwapBlocked o i jp sym = some q) : q.core = p.core ∧ q.history = p.history := by
  simp only [trySwapBlocked, Option.bind_eq_bind, Option.bind_eq_some_iff] at h
  obtain ⟨d, -, source, -, decision, -, h⟩ := h
  split at h
  · simp only [Option.bind_eq_some_iff] at h
    obtain ⟨r, hpush, possible, -, h⟩ := h
    obtain ⟨b, rfl⟩ := pushBlocked_eq hcomplete hpush
    split at h
    · simp only [Option.bind_eq_some_iff] at h
      obtain ⟨t, hreplace, h⟩ := h
      cases h
      have hi : i < p.builder.events.length := (List.getElem?_eq_some_iff.mp he).1
      have he' : (p.withBlocked jp b).builder.events[i]? = some e := by
        rw [withBlocked, List.getElem?_append_left hi, he]
      obtain ⟨hcore, hhistory⟩ := replaceLock_core (by omega) he' hpinned hreplace
      rw [setReadFrom_withBlocked hcomplete] at hcore
      refine ⟨?_, hhistory⟩
      have hpop := congrArg core
        (popBlocked_withBlocked p jp { b with readFrom := some source })
      rw [eq_of_core hcore]
      exact hpop
    · simp only [Option.bind_some] at h
      cases h
      rw [popBlocked_withBlocked]
      exact ⟨rfl, rfl⟩
  · cases h
    exact ⟨rfl, rfl⟩

end Nidhugg.RfscPlan
