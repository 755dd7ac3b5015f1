import Nidhugg.Verification.SaturatedGraph.Layout

/-! # What one iteration of the saturation loop does -/

namespace Nidhugg.SaturatedGraph

/-- The locals of an iteration on `id` after the newly visible writes `shown` have been
handled: from-read edges into a store, coherence edges into the source of a load. -/
structure Visited (g : SaturatedGraph) (id : ℕ) (e : Event) (shown : ℕ → Prop) (v : Visit) :
    Prop where
  graph : Extends g v.graph
    (fun a b => b = id ∧ e.isStore = true ∧ a ≠ id ∧ ∃ w, shown w ∧ a ∈ (g.events w).readers)
    (fun _ => False)
  newIn : v.newIn = true ↔
    e.isStore = true ∧ ∃ a w, shown w ∧ a ∈ (g.events w).readers ∧ a ≠ id
  newEdges : ∀ a b, (a, b) ∈ v.newEdges ↔
    e.isLoad = true ∧ e.readFrom = some b ∧ shown a ∧ a ≠ b
  source : e.isLoad = true → (∃ w, shown w) → e.readFrom ≠ none

theorem Visited.start {g : SaturatedGraph} (hq : QueueOk g) (id : ℕ) (e : Event) :
    Visited g id e (fun _ => False) ⟨g, false, []⟩ where
  graph := (Extends.refl hq).congr (by simp) (by simp)
  newIn := by simp
  newEdges := by simp
  source := by simp

theorem Visited.congr {g : SaturatedGraph} {id : ℕ} {e : Event} {shown shown' : ℕ → Prop}
    {v : Visit} (h : Visited g id e shown v) (hs : ∀ w, shown w ↔ shown' w) :
    Visited g id e shown' v := by
  have heq : shown = shown' := funext fun w => propext (hs w)
  exact heq ▸ h

/-- The from-read loop pushes an edge from every reader but the event itself. -/
theorem addFromReads_spec (id : ℕ) (readers : List ℕ) {v : Visit} (hq : QueueOk v.graph) :
    Extends v.graph (addFromReads id readers v).graph
        (fun a b => b = id ∧ a ∈ readers ∧ a ≠ id) (fun _ => False) ∧
      ((addFromReads id readers v).newIn = true ↔
        v.newIn = true ∨ ∃ a ∈ readers, a ≠ id) ∧
      (addFromReads id readers v).newEdges = v.newEdges := by
  induction readers generalizing v with
  | nil => exact ⟨(Extends.refl hq).congr (by simp) (by simp), by simp [addFromReads], rfl⟩
  | cons r readers ih =>
      by_cases hr : r = id
      · have hstep : addFromReads id (r :: readers) v = addFromReads id readers v := by
          simp [addFromReads, hr]
        obtain ⟨hx, hin, hedges⟩ := ih hq
        rw [hstep]
        refine ⟨hx.congr ?_ (by simp), ?_, hedges⟩
        · intro a b
          simp only [List.mem_cons]
          constructor
          · rintro ⟨hb, ha, hne⟩
            exact ⟨hb, .inr ha, hne⟩
          · rintro ⟨hb, ha | ha, hne⟩
            · exact absurd (ha.trans hr) hne
            · exact ⟨hb, ha, hne⟩
        · rw [hin]
          simp [hr]
      · set v' : Visit :=
          { v with graph := (v.graph.pushIn id r).pushOut r id, newIn := true } with hv'
        have hstep : addFromReads id (r :: readers) v = addFromReads id readers v' := by
          simp [addFromReads, hr, hv']
        have hpush := pushIn_pushOut_extends hq r id
        obtain ⟨hx, hin, hedges⟩ := ih (v := v') hpush.queueOk
        rw [hstep]
        refine ⟨(hpush.trans hx).congr ?_ (by simp), ?_, hedges⟩
        · intro a b
          simp only [List.mem_cons]
          constructor
          · rintro (⟨rfl, rfl⟩ | ⟨rfl, ha, hne⟩)
            · exact ⟨rfl, .inl rfl, hr⟩
            · exact ⟨rfl, .inr ha, hne⟩
          · rintro ⟨rfl, rfl | ha, hne⟩
            · exact .inl ⟨rfl, rfl⟩
            · exact .inr ⟨rfl, ha, hne⟩
        · rw [hin]
          simp [hv', hr]

/-- The effect of one process's turn. A turn stops the loop only when a load of the initial
value is shown a write. -/
theorem visitProc_spec {g : SaturatedGraph} {id : ℕ} {e : Event} {oldVc vc : VClock}
    {shown : ℕ → Prop} {v : Visit} (hv : Visited g id e shown v) {p : ℕ} {o : Option ℕ}
    (ho : g.newlyVisibleWrite id e.addr oldVc vc p = .ok o) :
    (∃ v', visitProc id e oldVc vc v p = .ok (true, v') ∧
        Visited g id e (fun w => shown w ∨ o = some w) v') ∨
      (∃ v' w, visitProc id e oldVc vc v p = .ok (false, v') ∧ o = some w ∧
        e.isLoad = true ∧ e.readFrom = none ∧
        Extends g v'.graph (fun a b => b = id ∧ e.isStore = true ∧ a ≠ id ∧
          ∃ w, (shown w ∨ o = some w) ∧ a ∈ (g.events w).readers) (fun _ => False)) := by
  have ho' : v.graph.newlyVisibleWrite id e.addr oldVc vc p = .ok o := by
    rw [newlyVisibleWrite_congr hv.graph.layout, ho]
  cases o with
  | none =>
      refine .inl ⟨v, ?_, hv.congr (by simp)⟩
      simp [visitProc, ho', Bind.bind, Except.bind, Pure.pure, Except.pure]
  | some pe =>
      set v₁ := if e.isStore then addFromReads id (v.graph.events pe).readers v else v with hv₁
      -- the store part
      have hstore : Extends g v₁.graph (fun a b => b = id ∧ e.isStore = true ∧ a ≠ id ∧
            ∃ w, (shown w ∨ some pe = some w) ∧ a ∈ (g.events w).readers) (fun _ => False) ∧
          (v₁.newIn = true ↔ e.isStore = true ∧
            ∃ a w, (shown w ∨ some pe = some w) ∧ a ∈ (g.events w).readers ∧ a ≠ id) ∧
          v₁.newEdges = v.newEdges := by
        by_cases hs : e.isStore = true
        · obtain ⟨hx, hin, hedges⟩ :=
            addFromReads_spec id (v.graph.events pe).readers hv.graph.queueOk
          rw [hv.graph.layout.events] at hx hin hedges
          rw [hv₁, if_pos hs, hv.graph.layout.events]
          refine ⟨(hv.graph.trans hx).congr ?_ (by simp), ?_, hedges⟩
          · intro a b
            constructor
            · rintro (⟨hb, -, hne, w, hw, ha⟩ | ⟨hb, ha, hne⟩)
              · exact ⟨hb, hs, hne, w, .inl hw, ha⟩
              · exact ⟨hb, hs, hne, pe, .inr rfl, ha⟩
            · rintro ⟨hb, -, hne, w, hw | hw, ha⟩
              · exact .inl ⟨hb, hs, hne, w, hw, ha⟩
              · cases hw
                exact .inr ⟨hb, ha, hne⟩
          · rw [hin, hv.newIn]
            constructor
            · rintro (⟨-, a, w, hw, ha, hne⟩ | ⟨a, ha, hne⟩)
              · exact ⟨hs, a, w, .inl hw, ha, hne⟩
              · exact ⟨hs, a, pe, .inr rfl, ha, hne⟩
            · rintro ⟨-, a, w, hw | hw, ha, hne⟩
              · exact .inl ⟨hs, a, w, hw, ha, hne⟩
              · cases hw
                exact .inr ⟨a, ha, hne⟩
        · rw [hv₁, if_neg hs]
          refine ⟨hv.graph.congr ?_ (by simp), ?_, rfl⟩
          · intro a b
            simp [hs]
          · rw [hv.newIn]
            simp [hs]
      obtain ⟨hgraph, hnewIn, hnewEdges⟩ := hstore
      -- the load part
      by_cases hl : e.isLoad = true
      · cases hrf : e.readFrom with
        | none =>
            refine .inr ⟨v₁, pe, ?_, rfl, hl, rfl, hgraph⟩
            simp [visitProc, ho', Bind.bind, Except.bind, Pure.pure, Except.pure, hl, hrf, hv₁]
        | some rf =>
            by_cases hpe : pe = rf
            · refine .inl ⟨v₁, ?_, hgraph, hnewIn, ?_, ?_⟩
              · simp [visitProc, ho', Bind.bind, Except.bind, Pure.pure, Except.pure, hl, hrf,
                  hpe, hv₁]
              · intro a b
                rw [hnewEdges, hv.newEdges, hrf]
                constructor
                · rintro ⟨hl, hb, ha, hne⟩
                  exact ⟨hl, hb, .inl ha, hne⟩
                · rintro ⟨hl, hb, ha | ha, hne⟩
                  · exact ⟨hl, hb, ha, hne⟩
                  · cases ha
                    cases hb
                    exact absurd hpe hne
              · simp [hrf]
            · refine .inl ⟨{ v₁ with newEdges := v₁.newEdges ++ [(pe, rf)] }, ?_, hgraph,
                hnewIn, ?_, ?_⟩
              · simp [visitProc, ho', Bind.bind, Except.bind, Pure.pure, Except.pure, hl, hrf,
                  hpe, hv₁]
              · intro a b
                simp only [List.mem_append, hnewEdges, hv.newEdges, hrf, List.mem_singleton,
                  Prod.mk.injEq]
                constructor
                · rintro (⟨hl, hb, ha, hne⟩ | ⟨rfl, rfl⟩)
                  · exact ⟨hl, hb, .inl ha, hne⟩
                  · exact ⟨hl, rfl, .inr rfl, hpe⟩
                · rintro ⟨hl, hb, ha | ha, hne⟩
                  · exact .inl ⟨hl, hb, ha, hne⟩
                  · cases ha
                    cases hb
                    exact .inr ⟨rfl, rfl⟩
              · simp [hrf]
      · refine .inl ⟨v₁, ?_, hgraph, hnewIn, ?_, ?_⟩
        · simp [visitProc, ho', Bind.bind, Except.bind, Pure.pure, Except.pure, hl, hv₁]
        · intro a b
          rw [hnewEdges, hv.newEdges]
          simp [hl]
        · intro hl'
          exact absurd hl' hl

/-- The effect of all processes' turns. -/
theorem visitProcs_spec {g : SaturatedGraph} {id : ℕ} {e : Event} {oldVc vc : VClock}
    (pids : List ℕ) :
    ∀ {shown : ℕ → Prop} {v : Visit}, Visited g id e shown v →
      (∀ p ∈ pids, ∃ o, g.newlyVisibleWrite id e.addr oldVc vc p = .ok o) →
      (∃ v', visitProcs id e oldVc vc pids v = .ok (true, v') ∧
          Visited g id e (fun w => shown w ∨
            ∃ p ∈ pids, g.newlyVisibleWrite id e.addr oldVc vc p = .ok (some w)) v') ∨
        (∃ v', visitProcs id e oldVc vc pids v = .ok (false, v') ∧
          e.isLoad = true ∧ e.readFrom = none ∧
          (∃ p ∈ pids, ∃ w, g.newlyVisibleWrite id e.addr oldVc vc p = .ok (some w)) ∧
          ∃ shown' : ℕ → Prop,
            (∀ w, shown' w → shown w ∨
              ∃ p ∈ pids, g.newlyVisibleWrite id e.addr oldVc vc p = .ok (some w)) ∧
            Extends g v'.graph (fun a b => b = id ∧ e.isStore = true ∧ a ≠ id ∧
              ∃ w, shown' w ∧ a ∈ (g.events w).readers) (fun _ => False)) := by
  induction pids with
  | nil =>
      intro shown v hv _
      exact .inl ⟨v, rfl, hv.congr (by simp)⟩
  | cons p pids ih =>
      intro shown v hv hok
      obtain ⟨o, ho⟩ := hok p (by simp)
      rcases visitProc_spec hv ho with ⟨v₁, hrun, hv₁⟩ | ⟨v₁, w, hrun, how, hl, hrf, hx⟩
      · have hrest : visitProcs id e oldVc vc (p :: pids) v =
            visitProcs id e oldVc vc pids v₁ := by
          simp [visitProcs, hrun, Bind.bind, Except.bind]
        rw [hrest]
        rcases ih hv₁ (fun q hq => hok q (by simp [hq])) with
          ⟨v', hrun', hv'⟩ | ⟨v', hrun', hl, hrf, ⟨q, hq, w, hw⟩, shown', hsub, hx⟩
        · refine .inl ⟨v', hrun', hv'.congr ?_⟩
          intro w
          simp only [List.mem_cons, exists_eq_or_imp, ho, Except.ok.injEq, or_assoc]
        · refine .inr ⟨v', hrun', hl, hrf, ⟨q, by simp [hq], w, hw⟩, shown', ?_, hx⟩
          intro w hw
          rcases hsub w hw with (hs | hs) | ⟨q, hq, hs⟩
          · exact .inl hs
          · exact .inr ⟨p, by simp, by rw [ho, hs]⟩
          · exact .inr ⟨q, by simp [hq], hs⟩
      · refine .inr ⟨v₁, ?_, hl, hrf, ⟨p, by simp, w, by rw [ho, how]⟩, _, ?_, hx⟩
        · simp [visitProcs, hrun, Bind.bind, Except.bind, Pure.pure, Except.pure]
        · rintro w' (hs | hs)
          · exact .inl hs
          · exact .inr ⟨p, by simp, by rw [ho, hs]⟩

/-- The writes that the iteration on `id` finds newly visible. -/
def NewlyVisible (g : SaturatedGraph) (id w : ℕ) : Prop :=
  ∃ p, LastVisible g id (g.recomputeVc (g.events id) (g.ins id)) p w ∧
    (g.vclocks id).get p < (g.events w).iid.index

/-- The edges that the iteration on `id` adds. -/
def stepEdge (g : SaturatedGraph) (id a b : ℕ) : Prop :=
  (b = id ∧ (g.events id).isStore = true ∧ a ≠ id ∧
      ∃ w, NewlyVisible g id w ∧ a ∈ (g.events w).readers) ∨
    ((g.events id).isLoad = true ∧ (g.events id).readFrom = some b ∧ NewlyVisible g id a ∧
      a ≠ b)

/-- The end of an iteration: clocks, edges and queue of the graph it leaves. -/
structure Stepped (g : SaturatedGraph) (id : ℕ) (g' : SaturatedGraph) : Prop where
  layout : SameLayout g g'
  saturatedUntil : g'.saturatedUntil = g.saturatedUntil
  vclocks : g'.vclocks =
    Function.update g.vclocks id (g.recomputeVc (g.events id) (g.ins id))
  mem_ins : ∀ a b, a ∈ g'.ins b ↔ a ∈ g.ins b ∨ stepEdge g id a b
  mem_outs : ∀ a b, b ∈ g'.outs a ↔ b ∈ g.outs a ∨ stepEdge g id a b
  queue_mono : ∀ x ∈ g.wqQueue, x ∈ g'.wqQueue
  queue_source : ∀ x ∈ g'.wqQueue, x ∈ g.wqQueue ∨ x ∈ (g.events id).readers ∨
    x ∈ g.outs id ∨ ∃ a, stepEdge g id a x
  queue_readers : (g.events id).isStore = true → ∀ x ∈ (g.events id).readers, x ∈ g'.wqQueue
  queue_outs : ∀ x ∈ g.outs id, x ∈ g'.wqQueue
  queue_edge : ∀ a b, stepEdge g id a b → b ∈ g'.wqQueue
  queueOk : QueueOk g'
  source : (g.events id).isLoad = true → (∃ w, NewlyVisible g id w) →
    (g.events id).readFrom ≠ none

theorem finishVisit_stepped {g : SaturatedGraph} {id : ℕ} {v : Visit}
    (hv : Visited g id (g.events id) (NewlyVisible g id) v) :
    Stepped g id (finishVisit id (g.events id) (g.recomputeVc (g.events id) (g.ins id)) v) := by
  set e := g.events id with he
  set vc := g.recomputeVc e (g.ins id) with hvc
  have hsuc := addSuccessorsToWq_extends hv.graph.queueOk id e
  set g₁ := v.graph.addSuccessorsToWq id e with hg₁
  set g₂ : SaturatedGraph := { g₁ with vclocks := Function.update g₁.vclocks id vc } with hg₂
  have hq₂ : QueueOk g₂ := ⟨hsuc.queueOk.nodup, hsuc.queueOk.set_iff⟩
  set g₃ := if v.newIn then g₂.wqAddFirst id else g₂ with hg₃
  have hfirst : Extends g₂ g₃ (fun _ _ => False) (fun x => v.newIn = true ∧ x = id) := by
    by_cases hn : v.newIn = true
    · rw [hg₃, if_pos hn]
      exact (wqAddFirst_extends hq₂ id).congr (by simp) (by simp [hn])
    · rw [hg₃, if_neg hn]
      exact (Extends.refl hq₂).congr (by simp) (by simp [hn])
  have hfin := addEdges_extends hfirst.queueOk v.newEdges
  have hrun : finishVisit id e vc v = g₃.addEdges v.newEdges := rfl
  rw [hrun]
  -- `g₂` differs from `g₁` in one clock only
  have hlay₂ : SameLayout g₁ g₂ := ⟨rfl, rfl, rfl, rfl, rfl, rfl, rfl, rfl⟩
  have hedge : ∀ a b, stepEdge g id a b ↔
      (b = id ∧ e.isStore = true ∧ a ≠ id ∧
        ∃ w, NewlyVisible g id w ∧ a ∈ (g.events w).readers) ∨ (a, b) ∈ v.newEdges := by
    intro a b
    rw [hv.newEdges, stepEdge, ← he]
  have hqueue : ∀ x, x ∈ (g₃.addEdges v.newEdges).wqQueue ↔
      x ∈ g.wqQueue ∨ ((e.isStore = true ∧ x ∈ e.readers) ∨ x ∈ v.graph.outs id) ∨
        (v.newIn = true ∧ x = id) ∨ ∃ a, (a, x) ∈ v.newEdges := by
    intro x
    rw [hfin.mem_queue, hfirst.mem_queue]
    have : x ∈ g₂.wqQueue ↔ x ∈ g.wqQueue ∨
        ((e.isStore = true ∧ x ∈ e.readers) ∨ x ∈ v.graph.outs id) := by
      rw [show g₂.wqQueue = g₁.wqQueue from rfl, hsuc.mem_queue, hv.graph.mem_queue]
      simp
    rw [this]
    simp only [or_assoc]
  have houts : ∀ x, x ∈ v.graph.outs id ↔ x ∈ g.outs id := by
    intro x
    rw [hv.graph.mem_outs]
    constructor
    · rintro (hx | ⟨-, -, hne, -⟩)
      · exact hx
      · exact absurd rfl hne
    · exact .inl
  refine ⟨hv.graph.layout.trans (hsuc.layout.trans (hlay₂.trans (hfirst.layout.trans hfin.layout))),
    ?_, ?_, ?_, ?_, ?_, ?_, ?_, ?_, ?_, hfin.queueOk, hv.source⟩
  · rw [hfin.saturatedUntil, hfirst.saturatedUntil, show g₂.saturatedUntil = g₁.saturatedUntil
      from rfl, hsuc.saturatedUntil, hv.graph.saturatedUntil]
  · rw [hfin.vclocks, hfirst.vclocks, show g₂.vclocks = Function.update g₁.vclocks id vc from rfl,
      hsuc.vclocks, hv.graph.vclocks]
  · intro a b
    rw [hfin.mem_ins, hfirst.mem_ins, show g₂.ins = g₁.ins from rfl, hsuc.mem_ins,
      hv.graph.mem_ins, hedge]
    simp only [or_false, or_assoc]
  · intro a b
    rw [hfin.mem_outs, hfirst.mem_outs, show g₂.outs = g₁.outs from rfl, hsuc.mem_outs,
      hv.graph.mem_outs, hedge]
    simp only [or_false, or_assoc]
  · intro x hx
    exact (hqueue x).mpr (.inl hx)
  · intro x hx
    rcases (hqueue x).mp hx with hx | (⟨-, hx⟩ | hx) | ⟨hn, rfl⟩ | ⟨a, ha⟩
    · exact .inl hx
    · exact .inr (.inl hx)
    · exact .inr (.inr (.inl ((houts x).mp hx)))
    · obtain ⟨hs, a, w, hw, ha, hne⟩ := hv.newIn.mp hn
      exact .inr (.inr (.inr ⟨a, (hedge a x).mpr (.inl ⟨rfl, hs, hne, w, hw, ha⟩)⟩))
    · exact .inr (.inr (.inr ⟨a, (hedge a x).mpr (.inr ha)⟩))
  · intro hs x hx
    exact (hqueue x).mpr (.inr (.inl (.inl ⟨hs, hx⟩)))
  · intro x hx
    exact (hqueue x).mpr (.inr (.inl (.inr ((houts x).mpr hx))))
  · intro a b hab
    rcases (hedge a b).mp hab with ⟨rfl, hs, hne, w, hw, ha⟩ | hab
    · exact (hqueue _).mpr (.inr (.inr (.inl ⟨hv.newIn.mpr ⟨hs, a, w, hw, ha, hne⟩, rfl⟩)))
    · exact (hqueue b).mpr (.inr (.inr (.inr ⟨a, hab⟩)))

/-- One iteration finds a cycle, leaves a settled clock alone, or raises the clock of the
popped event and adds the edges that the newly visible writes force. -/
theorem saturateOne_cases {g : SaturatedGraph} (h : Layout g) (hq : QueueOk g) {id : ℕ}
    (hmono : ∀ p, (g.vclocks id).get p ≤ (g.recomputeVc (g.events id) (g.ins id)).get p)
    (hlen : ∀ p, (g.recomputeVc (g.events id) (g.ins id)).get p ≤ (g.eventsByPid p).length) :
    (∃ g', g.saturateOne id = .ok (false, g') ∧
        ((∃ a ∈ preds (g.events id) (g.ins id), ∀ p, (g.vclocks a).get p =
            (g.recomputeVc (g.events id) (g.ins id)).get p) ∨
          ((g.events id).isLoad = true ∧ (g.events id).readFrom = none ∧
            ∃ w, NewlyVisible g id w)) ∧
        ∃ edge, Extends g g' edge (fun _ => False) ∧ ∀ a b, edge a b → b = id ∧
          ∃ w, NewlyVisible g id w ∧ a ∈ (g.events w).readers) ∨
      (g.saturateOne id = .ok (true, g) ∧
        (¬ ∃ a ∈ preds (g.events id) (g.ins id), ∀ p, (g.vclocks a).get p =
            (g.recomputeVc (g.events id) (g.ins id)).get p) ∧
        ∀ p, (g.recomputeVc (g.events id) (g.ins id)).get p = (g.vclocks id).get p) ∨
      (∃ g', g.saturateOne id = .ok (true, g') ∧
        (¬ ∃ a ∈ preds (g.events id) (g.ins id), ∀ p, (g.vclocks a).get p =
            (g.recomputeVc (g.events id) (g.ins id)).get p) ∧
        (∃ p, (g.vclocks id).get p < (g.recomputeVc (g.events id) (g.ins id)).get p) ∧
        Stepped g id g') := by
  set e := g.events id with he
  set vc := g.recomputeVc e (g.ins id) with hvc
  set oldVc := g.vclocks id with hold
  have hnew : ∀ p, ∃ o, g.newlyVisibleWrite id e.addr oldVc vc p = .ok o ∧
      ∀ w, o = some w ↔ LastVisible g id vc p w ∧ oldVc.get p < (g.events w).iid.index :=
    fun p => h.newlyVisibleWrite_spec id (hmono p) (hlen p)
  have hshown : ∀ p w, g.newlyVisibleWrite id e.addr oldVc vc p = .ok (some w) ↔
      LastVisible g id vc p w ∧ oldVc.get p < (g.events w).iid.index := by
    intro p w
    obtain ⟨o, ho, hspec⟩ := hnew p
    rw [ho, Except.ok.injEq]
    exact hspec w
  by_cases hcyc : g.isInCycle e (g.ins id) vc = true
  · refine .inl ⟨g, ?_, .inl (isInCycle_iff.mp hcyc), _, .refl hq, by simp⟩
    simp [saturateOne, ← he, ← hvc, hcyc, Pure.pure, Except.pure]
  · have hncyc : ¬ ∃ a ∈ preds e (g.ins id), ∀ p, (g.vclocks a).get p = vc.get p :=
      fun hc => hcyc (isInCycle_iff.mpr hc)
    by_cases heq : vc.eq oldVc = true
    · refine .inr (.inl ⟨?_, hncyc, (VClock.eq_iff vc oldVc).mp heq⟩)
      simp [saturateOne, ← he, ← hvc, ← hold, hcyc, heq, Pure.pure, Except.pure]
    · have hgrow : ∃ p, oldVc.get p < vc.get p := by
        by_contra hno
        refine heq ((VClock.eq_iff vc oldVc).mpr fun p => ?_)
        exact le_antisymm (Nat.le_of_not_lt fun hlt => hno ⟨p, hlt⟩) (hmono p)
      set pids := if e.isLoad || e.isStore then List.range vc.sizeUb else [] with hpids
      have hvisit := visitProcs_spec pids (Visited.start hq id e)
        (fun p _ => ⟨_, (hnew p).choose_spec.1⟩)
      -- a shown write belongs to a process within the clock's vector
      have hrange : ∀ p w, LastVisible g id vc p w → p < vc.sizeUb := by
        intro p w hw
        apply VClock.lt_sizeUb_of_get_pos
        obtain ⟨hws, -⟩ := (h.mem_writes _ _ w).mp hw.1
        exact (h.get_index hws).1.trans_le hw.2.2.1
      rcases hvisit with ⟨v, hrun, hv⟩ | ⟨v, hrun, hl, hrf, ⟨p, -, w, hw⟩, shown, hsub, hx⟩
      · refine .inr (.inr ⟨finishVisit id e vc v, ?_, hncyc, hgrow, ?_⟩)
        · simp only [saturateOne, ← he, ← hvc, ← hold, hcyc, heq, Pure.pure, Except.pure,
            Bind.bind, Except.bind, ← hpids, hrun, if_false, if_true, Bool.false_eq_true]
        · by_cases hls : (e.isLoad || e.isStore) = true
          · apply finishVisit_stepped
            refine hv.congr ?_
            intro w
            simp only [false_or, hpids, hls, if_true, List.mem_range, hshown]
            constructor
            · rintro ⟨p, -, hw⟩
              exact ⟨p, hw⟩
            · rintro ⟨p, hw⟩
              exact ⟨p, hrange p w hw.1, hw⟩
          · -- an event without memory access reacts to no write
            have hl : e.isLoad = false := by
              cases hl : e.isLoad <;> simp_all
            have hs : e.isStore = false := by
              cases hs : e.isStore <;> simp_all
            have hv' : Visited g id e (NewlyVisible g id) v := by
              refine ⟨hv.graph.congr ?_ (by simp), ?_, ?_, ?_⟩
              · intro a b
                simp [hs]
              · rw [hv.newIn]
                simp [hs]
              · intro a b
                rw [hv.newEdges]
                simp [hl]
              · simp [hl]
            exact finishVisit_stepped hv'
      · refine .inl ⟨v.graph, ?_, .inr ⟨hl, hrf, w, p, (hshown p w).mp hw⟩, _, hx, ?_⟩
        · simp only [saturateOne, ← he, ← hvc, ← hold, hcyc, heq, Pure.pure, Except.pure,
            Bind.bind, Except.bind, ← hpids, hrun, if_false, Bool.false_eq_true]
        · rintro a b ⟨hb, -, -, w, hw, ha⟩
          obtain ⟨p, -, hw⟩ := (hsub w hw).resolve_left not_false
          exact ⟨hb, w, ⟨p, (hshown p w).mp hw⟩, ha⟩

end Nidhugg.SaturatedGraph
