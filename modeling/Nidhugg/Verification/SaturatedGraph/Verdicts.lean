import Nidhugg.Verification.SaturatedGraph.Runs

/-! # Graphs after any verdict

A graph on which `saturate` has failed can be extended and saturated again. Its tables and edge
vectors still agree, and its clocks lag behind the clocks of the predecessors. -/

namespace Nidhugg.SaturatedGraph

open Relation

variable {g g' g₀ g₁ : SaturatedGraph} {id : ℕ}

namespace Kept

/-- New edges within the graph keep everything. -/
theorem of_extends {edge : ℕ → ℕ → Prop} {queued : ℕ → Prop} (h : Kept g)
    (hx : Extends g g' edge queued) (hedge : ∀ a b, edge a b → a < g.size ∧ b < g.size)
    (hqueued : ∀ x, queued x → x < g.size) : Kept g' where
  layout := h.layout.of_same hx.layout
  links := h.links.of_edges hx.layout hx.mem_ins hx.mem_outs hedge
  queueOk := hx.queueOk
  queue_lt := by
    intro x hxq
    rw [hx.layout.size]
    exact ((hx.mem_queue x).mp hxq).elim (h.queue_lt x) (hqueued x)
  clock_le := by
    intro b hb p
    rw [hx.layout.size] at hb
    rw [hx.vclocks]
    refine (h.clock_le b hb p).trans ?_
    rw [nextVc, nextVc, hx.layout.events]
    refine recomputeVc_mono (fun a ha => (hx.mem_ins a b).mpr (.inl ha)) (fun a q => ?_) p
    rw [hx.vclocks]
  clock_le_length := by
    rw [hx.layout.size, hx.layout.eventsByPid, hx.vclocks]
    exact h.clock_le_length

/-! ### Adding events and edges -/

theorem withEvent {s : EventSpec} {readFrom : Option ℕ} {origIn : List ℕ} (h : Kept g)
    (ha : Accepts g s readFrom origIn) : Kept (g.withEvent s readFrom) where
  layout := h.layout.withEvent ha
  links := h.links.withEvent h.layout
  queueOk := ⟨h.queueOk.nodup, h.queueOk.set_iff⟩
  queue_lt := fun x hx => Nat.lt_succ_of_lt (h.queue_lt x hx)
  clock_le := by
    intro b hb p
    cases Nat.lt_succ_iff_lt_or_eq.mp hb with
    | inr hb =>
        rw [hb, withEvent_clock_new]
        exact Nat.zero_le _
    | inl hb =>
        have hnext : ((g.withEvent s readFrom).nextVc b).get p = (g.nextVc b).get p :=
          nextVc_congr (withEvent_old g s readFrom hb).1.iid (fun a => withEvent_preds hb)
            (fun a ha => withEvent_vclocks (h.layout.edge_lt h.links ⟨hb, ha⟩).1) p
        rw [withEvent_vclocks hb, hnext]
        exact h.clock_le b hb p
  clock_le_length := by
    intro b hb p
    cases Nat.lt_succ_iff_lt_or_eq.mp hb with
    | inr hb =>
        rw [hb, withEvent_clock_new]
        exact Nat.zero_le _
    | inl hb =>
        rw [withEvent_vclocks hb, withEvent_eventsByPid]
        refine (h.clock_le_length b hb p).trans ?_
        split
        · rw [List.length_append]
          exact Nat.le_add_right _ _
        · exact Nat.le_refl _

theorem addResolved {s : EventSpec} {readFrom : Option ℕ} {origIn : List ℕ} (h : Kept g)
    (ha : Accepts g s readFrom origIn) : Kept (g.addResolved s readFrom origIn) := by
  have hself : g.size < (g.withEvent s readFrom).size := Nat.lt_succ_self _
  have hfirst : ∀ {x p f}, (p, f) ∈ g.writesByAddress x → f < (g.withEvent s readFrom).size :=
    fun hf => Nat.lt_succ_of_lt
      ((h.layout.mem_writes _ _ _).mp (h.layout.first_mem _ _ _ hf)).1
  refine (h.withEvent ha).of_extends (addResolved_extends h.queueOk s readFrom origIn) ?_ ?_
  · intro a b hab
    rcases hab with ⟨rfl, hin⟩ | ⟨-, rfl, p, hf⟩ | ⟨-, rfl, hr⟩
    · exact ⟨Nat.lt_succ_of_lt ((ha.mem_origIn a).mp hin).1, hself⟩
    · exact ⟨hself, hfirst hf⟩
    · exact ⟨Nat.lt_succ_of_lt ((h.layout.mem_readsFromInit _ a).mp hr).1, hself⟩
  · intro x hx
    rcases hx with rfl | ⟨-, p, hf⟩
    · exact hself
    · exact hfirst hf

theorem addEdge {x y : IID} (h : Kept g) (hrun : g.addEdge x y = some g') :
    Kept g' ∧ SameLayout g g' := by
  obtain ⟨a, ha, hrun⟩ := Option.bind_eq_some_iff.mp hrun
  obtain ⟨b, hb, hrun⟩ := Option.bind_eq_some_iff.mp hrun
  cases hrun
  have hx := addEdgeInternal_extends h.queueOk a b
  have has := ((h.layout.extid_iff x a).mp ha).1
  have hbs := ((h.layout.extid_iff y b).mp hb).1
  refine ⟨h.of_extends hx (fun c d hcd => ?_) (fun c hc => hc ▸ hbs), hx.layout⟩
  rw [hcd.1, hcd.2]
  exact ⟨has, hbs⟩

/-! ### Saturation -/

/-- Reverse saturation breaks its assertion on a tangled graph and returns on every other one. -/
theorem reverseSaturate (h : Kept g) :
    (Tangled g ∧ g.reverseSaturate = .error .zeroIndex) ∨
      (¬Tangled g ∧ ∃ g', g.reverseSaturate = .ok g' ∧ Kept g' ∧ SameLayout g g') := by
  rcases reverseSaturate_cases h.layout h.links h.queueOk with hfault | ⟨htangled, g₁, hrun, hx⟩
  · exact .inl hfault
  have hlt : ∀ a b, (∃ w ∈ g.reverseCareSet, missedEdge g w a b) → a < g.size ∧ b < g.size := by
    intro a b ⟨w, hw, hab⟩
    exact missedEdge_lt h.layout (careSet_lt h.layout h.links hw) hab
  have h₁ : Kept g₁ := h.of_extends hx hlt fun x ⟨w, hw, a, hax⟩ => (hlt a x ⟨w, hw, hax⟩).2
  have hsame : SameLayout g₁ { g₁ with saturatedUntil := g₁.size } :=
    ⟨rfl, rfl, rfl, rfl, rfl, rfl, rfl, rfl⟩
  refine .inr ⟨htangled, _, hrun, ?_, hx.layout.trans hsame⟩
  exact ⟨h₁.layout.of_same hsame, ⟨h₁.links.ins_lt, h₁.links.in_out, h₁.links.po_out,
    h₁.links.out_in⟩, ⟨h₁.queueOk.nodup, h₁.queueOk.set_iff⟩, h₁.queue_lt, h₁.clock_le,
    h₁.clock_le_length⟩

theorem pop (h : Kept g) (hpop : g.wqPop = some (id, g')) :
    Kept g' ∧ SameLayout g g' ∧ id < g'.size ∧ g'.work < g.work := by
  obtain ⟨rest, hq, rfl, hqueue⟩ := wqPop_cases h.queueOk hpop
  have hid : id < g.size := h.queue_lt id (by simp [hq])
  have hsame : SameLayout g
      { g with wqQueue := rest, wqSet := Function.update g.wqSet id false } :=
    ⟨rfl, rfl, rfl, rfl, rfl, rfl, rfl, rfl⟩
  refine ⟨⟨h.layout.of_same hsame, ⟨h.links.ins_lt, h.links.in_out, h.links.po_out,
    h.links.out_in⟩, hqueue, fun y hy => h.queue_lt y (by simp [hq, hy]), h.clock_le,
    h.clock_le_length⟩, hsame, hid, ?_⟩
  simp [work, clockSum, hq]

/-- The edges that an iteration adds stay within the graph. -/
theorem stepEdge_lt (h : Kept g) (hid : id < g.size) {a b : ℕ} (hab : stepEdge g id a b) :
    a < g.size ∧ b < g.size := by
  have hvisible : ∀ {w}, NewlyVisible g id w → w < g.size := fun ⟨p, hw, _⟩ =>
    ((h.layout.mem_writes _ _ _).mp hw.1).1
  cases hab with
  | inl hread =>
      obtain ⟨rfl, -, -, w, hw, ha⟩ := hread
      exact ⟨((h.layout.mem_readers w (hvisible hw) a).mp ha).1, hid⟩
  | inr hcoherence =>
      obtain ⟨-, hrf, ha, -⟩ := hcoherence
      exact ⟨hvisible ha, (h.layout.readFrom_spec id hid b hrf).1.trans hid⟩

theorem step (h : Kept g) (hid : id < g.size) (hst : Stepped g id g') : Kept g' := by
  have hnew : g'.vclocks id = g.nextVc id := by
    rw [hst.vclocks, Function.update_self]
    rfl
  have hold : ∀ {b}, b ≠ id → g'.vclocks b = g.vclocks b := by
    intro b hb
    rw [hst.vclocks, Function.update_of_ne hb]
  refine ⟨h.layout.of_same hst.layout, h.links.of_edges hst.layout hst.mem_ins hst.mem_outs
    fun a b hab => h.stepEdge_lt hid hab, hst.queueOk, ?_, ?_, ?_⟩
  · intro x hx
    rw [hst.layout.size]
    rcases hst.queue_source x hx with hx | hx | hx | ⟨a, hax⟩
    · exact h.queue_lt x hx
    · exact ((h.layout.mem_readers id hid x).mp hx).1
    · exact (h.links.out_in id x hx).2.1
    · exact (h.stepEdge_lt hid hax).2
  · intro b hb p
    rw [hst.layout.size] at hb
    refine le_trans ?_ (h.nextVc_mono hid hst b p)
    by_cases hbid : b = id
    · rw [hbid, hnew]
    · rw [hold hbid]
      exact h.clock_le b hb p
  · intro b hb p
    rw [hst.layout.size] at hb
    rw [hst.layout.eventsByPid]
    by_cases hbid : b = id
    · rw [hbid, hnew]
      exact h.nextVc_le_length hid p
    · rw [hold hbid]
      exact h.clock_le_length b hb p

/-- One iteration returns and keeps everything, also when it finds a cycle after it has added
edges. If it finds none, less work is left. -/
theorem iterate (h : Kept g) (hpop : g.wqPop = some (id, g₀)) :
    ∃ acyclic g', g₀.saturateOne id = .ok (acyclic, g') ∧ Kept g' ∧ SameLayout g g' ∧
      (acyclic = true → g'.work < g.work) := by
  obtain ⟨h₀, hs, hid, hwork⟩ := h.pop hpop
  rcases saturateOne_cases h₀.layout h₀.queueOk (h₀.clock_le id hid) (h₀.nextVc_le_length hid) with
    ⟨g', hrun, -, edge, hx, hedge⟩ | ⟨hrun, -⟩ | ⟨g', hrun, -, hgrow, hst⟩
  · refine ⟨false, g', hrun, h₀.of_extends hx (fun a b hab => ?_) (fun _ hx => hx.elim),
      hs.trans hx.layout, fun h => Bool.noConfusion h⟩
    obtain ⟨rfl, w, ⟨p, hw, -⟩, ha⟩ := hedge a b hab
    have hws := ((h₀.layout.mem_writes _ _ _).mp hw.1).1
    exact ⟨((h₀.layout.mem_readers w hws a).mp ha).1, hid⟩
  · exact ⟨true, g₀, hrun, h₀, hs, fun _ => hwork⟩
  · have h' := h₀.step hid hst
    exact ⟨true, g', hrun, h', hs.trans hst.layout, fun _ =>
      (work_lt_of_clockSum_lt h' hst.layout (h₀.clockSum_lt hid hst hgrow)).trans hwork⟩

/-- The loop returns within its fuel. -/
theorem saturateLoop (fuel : ℕ) (h : Kept g) (hfuel : g.work < fuel) :
    ∃ acyclic g', g.saturateLoop fuel = .ok (acyclic, g') ∧ Kept g' ∧ SameLayout g g' := by
  induction fuel generalizing g with
  | zero => exact absurd hfuel (Nat.not_lt_zero _)
  | succ fuel ih =>
      cases hpop : g.wqPop with
      | none =>
          refine ⟨true, g, ?_, h, .refl g⟩
          simp [SaturatedGraph.saturateLoop, hpop, (wqPop_none h.queueOk hpop).2]
      | some popped =>
          obtain ⟨id, g₀⟩ := popped
          obtain ⟨acyclic, g', hrun, h', hs, hwork⟩ := h.iterate hpop
          cases acyclic with
          | false =>
              refine ⟨false, g', ?_, h', hs⟩
              simp [SaturatedGraph.saturateLoop, hpop, hrun, Bind.bind, Except.bind, Pure.pure,
                Except.pure]
          | true =>
              have hlt := hwork rfl
              obtain ⟨acyclic, g'', hrest, h'', hs'⟩ := ih h' (by omega)
              refine ⟨acyclic, g'', ?_, h'', hs.trans hs'⟩
              simpa [SaturatedGraph.saturateLoop, hpop, hrun, Bind.bind, Except.bind] using hrest

/-- `saturate` breaks an assertion on a tangled graph and returns on every other one. -/
theorem saturate (h : Kept g) :
    (Tangled g ∧ g.saturate = .error .zeroIndex) ∨
      (¬Tangled g ∧ ∃ acyclic g', g.saturate = .ok (acyclic, g') ∧ Kept g' ∧
        SameLayout g g') := by
  rcases h.reverseSaturate with ⟨htangled, hrun⟩ | ⟨htangled, g₁, hrun, h₁, hs₁⟩
  · refine .inl ⟨htangled, ?_⟩
    simp only [SaturatedGraph.saturate, hrun, Bind.bind, Except.bind]
  · obtain ⟨acyclic, g', hloop, h', hs'⟩ := h₁.saturateLoop g₁.fuel h₁.work_lt_fuel
    refine .inr ⟨htangled, acyclic, g', ?_, h', hs₁.trans hs'⟩
    simp only [SaturatedGraph.saturate, hrun, Bind.bind, Except.bind, hloop]

end Kept

/-! ## Runs that go on after any verdict -/

/-- Performs a call. A run ends only where an assertion breaks. -/
def proceed (g : SaturatedGraph) : Call → Option SaturatedGraph
  | .addEvent s => g.addEvent s
  | .addEdge x y => g.addEdge x y
  | .saturate => g.saturate.toOption.map Prod.snd

def proceedAll (calls : List Call) : Option SaturatedGraph := calls.foldlM proceed empty

/-- What a run keeps: the agreement of the tables and the record of the added events. -/
structure Tracked (specs : List EventSpec) (g : SaturatedGraph) : Prop where
  kept : Kept g
  represents : Represents specs g

theorem tracked_empty : Tracked [] empty := ⟨invariant_empty.kept, represents_empty⟩

theorem Tracked.proceed {specs : List EventSpec} {c : Call} (h : Tracked specs g)
    (hv : c.Valid specs) (hrun : g.proceed c = some g') : Tracked (specs ++ c.specs) g' := by
  cases c with
  | addEvent s =>
      have hcall := h.represents.validCall h.kept.layout hv.1 hv.2
      obtain ⟨origIn, hadd, hacc⟩ := hcall.addEvent h.kept.layout
      obtain rfl : g.addResolved s (s.readFrom.bind g.extidToId) origIn = g' :=
        Option.some.inj (hadd.symm.trans hrun)
      exact ⟨h.kept.addResolved hacc,
        h.represents.addResolved h.kept.layout h.kept.queueOk hcall origIn⟩
  | addEdge x y =>
      obtain ⟨hkept, hs⟩ := h.kept.addEdge hrun
      exact ⟨hkept, by simpa [Call.specs] using h.represents.of_same hs⟩
  | saturate =>
      rcases h.kept.saturate with ⟨-, herr⟩ | ⟨-, acyclic, g₁, hok, hkept, hs⟩
      · rw [SaturatedGraph.proceed, herr] at hrun
        cases hrun
      · rw [SaturatedGraph.proceed, hok] at hrun
        cases hrun
        exact ⟨hkept, by simpa [Call.specs] using h.represents.of_same hs⟩

theorem Tracked.proceedAll {calls : List Call} {specs : List EventSpec} (h : Tracked specs g)
    (hv : ValidFrom specs calls) (hrun : calls.foldlM SaturatedGraph.proceed g = some g') :
    Kept g' := by
  induction calls generalizing specs g with
  | nil =>
      cases hrun
      exact h.kept
  | cons c calls ih =>
      rw [List.foldlM_cons] at hrun
      obtain ⟨g₁, hc, hrest⟩ := Option.bind_eq_some_iff.mp hrun
      exact ih (h.proceed hv.1 hc) hv.2 hrest

theorem kept_of_proceedAll {calls : List Call} (hv : ValidCalls calls)
    (hrun : proceedAll calls = some g) : Kept g :=
  tracked_empty.proceedAll hv hrun

/-! ## Termination and growth of the clocks -/

/-- The states of the graph at the head of the work loop. -/
def Iterates : SaturatedGraph → SaturatedGraph → Prop :=
  ReflTransGen fun g g' => ∃ id g₀, g.wqPop = some (id, g₀) ∧ g₀.saturateOne id = .ok (true, g')

theorem Kept.iterates (h : Kept g) (hrun : Iterates g g') : Kept g' := by
  induction hrun with
  | refl => exact h
  | tail _ hturn ih =>
      obtain ⟨id, g₀, hpop, hone⟩ := hturn
      obtain ⟨acyclic, g₁, hone', h₁, -⟩ := ih.iterate hpop
      rw [hone] at hone'
      cases hone'
      exact h₁

/-- `saturate` returns, and at every iteration no entry of the recomputed clock is smaller than the
stored one. -/
structure SaturatesUpwards (g : SaturatedGraph) : Prop where
  returns : ∃ acyclic g', g.saturate = .ok (acyclic, g')
  grows : ∀ g₀ g₁ g₂ id, g.reverseSaturate = .ok g₀ → Iterates g₀ g₁ →
    g₁.wqPop = some (id, g₂) → ∀ p,
      (g₂.vclocks id).get p ≤ (g₂.recomputeVc (g₂.events id) (g₂.ins id)).get p

/-- After any calls and any verdicts, `saturate` returns exactly if no two events below an old write
that a new event reads reach each other. -/
theorem saturatesUpwards_iff {calls : List Call} (hv : ValidCalls calls)
    (hrun : proceedAll calls = some g) : SaturatesUpwards g ↔ ¬Tangled g := by
  have h := kept_of_proceedAll hv hrun
  constructor
  · intro hup htangled
    obtain ⟨acyclic, g', hok⟩ := hup.returns
    rcases h.saturate with ⟨-, herr⟩ | ⟨hnot, -⟩
    · rw [herr] at hok
      cases hok
    · exact hnot htangled
  · intro hnot
    rcases h.saturate with ⟨htangled, -⟩ | ⟨-, acyclic, g', hok, -⟩
    · exact absurd htangled hnot
    · refine ⟨⟨acyclic, g', hok⟩, fun g₀ g₁ g₂ id hreverse hiterates hpop => ?_⟩
      rcases h.reverseSaturate with ⟨htangled, -⟩ | ⟨-, g₃, hreverse', h₃, -⟩
      · exact absurd htangled hnot
      · rw [hreverse] at hreverse'
        cases hreverse'
        obtain ⟨h₂, -, hid, -⟩ := (h₃.iterates hiterates).pop hpop
        exact h₂.clock_le id hid

/-- Two stores with edges in both directions, a failed saturation, and one more event. -/
def cyclicStores : List Call :=
  [.addEvent ⟨0, ⟨0, 1⟩, .store, ⟨.global 0, 0⟩, none, []⟩,
    .addEvent ⟨1, ⟨1, 1⟩, .store, ⟨.global 0, 0⟩, none, []⟩,
    .addEdge ⟨0, 1⟩ ⟨1, 1⟩, .addEdge ⟨1, 1⟩ ⟨0, 1⟩, .saturate,
    .addEvent ⟨0, ⟨0, 2⟩, .load, ⟨.global 0, 0⟩, none, []⟩]

theorem saturatesUpwards_iff_cyclicStores :
    ∃ g, proceedAll cyclicStores = some g ∧ (SaturatesUpwards g ↔ ¬Tangled g) :=
  ⟨_, rfl, saturatesUpwards_iff (by decide : ValidCalls cyclicStores) rfl⟩

/-- A store and, after a saturation, a read of the store that is ordered before it. -/
def readBeforeStore : List Call :=
  [.addEvent ⟨0, ⟨0, 1⟩, .store, ⟨.global 0, 0⟩, none, []⟩, .saturate,
    .addEvent ⟨1, ⟨1, 1⟩, .load, ⟨.global 0, 0⟩, some ⟨0, 1⟩, []⟩,
    .addEdge ⟨1, 1⟩ ⟨0, 1⟩]

theorem not_saturatesUpwards_readBeforeStore : ValidCalls readBeforeStore ∧
    ∃ g, proceedAll readBeforeStore = some g ∧ g.saturate = .error .zeroIndex ∧
      ¬SaturatesUpwards g := by
  refine ⟨by decide, _, rfl, rfl, fun hup => ?_⟩
  obtain ⟨acyclic, g', hok⟩ := hup.returns
  cases hok

/-! ## Bookkeeping -/

/-- The assertions of `check_graph_consistency`, the two directions of every edge, and the marks of
the work queue. -/
structure Bookkeeping (g : SaturatedGraph) : Prop where
  check : g.checkGraphConsistency = true
  in_out : ∀ b < g.size, ∀ a ∈ g.ins b, a < g.size ∧ b ∈ g.outs a
  out_in : ∀ a b, b ∈ g.outs a → a < g.size ∧ b < g.size ∧
    (a ∈ g.ins b ∨ (g.events b).poPredecessor = some a)
  readers_iff : ∀ w < g.size, ∀ r,
    r ∈ (g.events w).readers ↔ r < g.size ∧ (g.events r).readFrom = some w
  flag_iff : ∀ id, g.wqSet id = true ↔ id ∈ g.wqQueue
  queue_nodup : g.wqQueue.Nodup
  queue_lt : ∀ id ∈ g.wqQueue, id < g.size

theorem Kept.checkEvent (h : Kept g) (hid : id < g.size) : g.checkEvent id = true := by
  have hin : (g.ins id).all (fun i => (g.outs i).any (· = id)) = true := by
    simp only [List.all_eq_true, List.any_eq_true, decide_eq_true_eq, exists_eq_right]
    exact fun a ha => h.links.in_out id hid a ha
  have hout : (g.outs id).all
      (fun o => (g.ins o).any (· = id) || (g.events o).poPredecessor = some id) = true := by
    simp only [List.all_eq_true, List.any_eq_true, decide_eq_true_eq, exists_eq_right,
      Bool.or_eq_true]
    exact fun b hb => (h.links.out_in id b hb).2.2
  have hreaders : (g.events id).readers.all
      (fun r => (g.events r).isLoad && (g.events r).readFrom = some id) = true := by
    simp only [List.all_eq_true, Bool.and_eq_true, decide_eq_true_eq]
    intro r hr
    obtain ⟨hrs, hrf⟩ := (h.layout.mem_readers id hid r).mp hr
    exact ⟨(h.layout.readFrom_spec r hrs id hrf).2.1, hrf⟩
  have hsource : ∀ w, (g.events id).readFrom = some w → (g.events w).isStore = true ∧
      (g.events w).addr = (g.events id).addr ∧ id ∈ (g.events w).readers := by
    intro w hw
    obtain ⟨hlt, -, hs, haddr⟩ := h.layout.readFrom_spec id hid w hw
    exact ⟨hs, haddr, (h.layout.mem_readers w (hlt.trans hid) id).mpr ⟨hid, hw⟩⟩
  have hpo : ∀ a, (g.events id).poPredecessor = some a → id ∈ g.outs a := h.links.po_out id hid
  rw [SaturatedGraph.checkEvent, hin, hout, hreaders, Bool.or_true, Bool.and_true, Bool.and_true,
    Bool.true_and, Bool.and_eq_true]
  constructor
  · cases hrf : (g.events id).readFrom with
    | none => rfl
    | some w => simpa [and_assoc] using hsource w hrf
  · cases hpred : (g.events id).poPredecessor with
    | none => rfl
    | some a => simpa using hpo a hpred

theorem Kept.bookkeeping (h : Kept g) : Bookkeeping g where
  check := List.all_eq_true.mpr fun _ hid => h.checkEvent (List.mem_range.mp hid)
  in_out := fun b hb a ha => ⟨h.links.ins_lt b hb a ha, h.links.in_out b hb a ha⟩
  out_in := h.links.out_in
  readers_iff := h.layout.mem_readers
  flag_iff := h.queueOk.set_iff
  queue_nodup := h.queueOk.nodup
  queue_lt := h.queue_lt

/-- The bookkeeping is right after any calls and any verdicts. -/
theorem proceedAll_bookkeeping {calls : List Call} (hv : ValidCalls calls)
    (hrun : proceedAll calls = some g) : Bookkeeping g :=
  (kept_of_proceedAll hv hrun).bookkeeping

theorem proceedAll_bookkeeping_readsAround : ∃ g, proceedAll
    (orderedStores ++ [.addEdge ⟨2, 1⟩ ⟨1, 1⟩, .saturate, .saturate]) = some g ∧ Bookkeeping g :=
  ⟨_, rfl, proceedAll_bookkeeping (by decide : ValidCalls
    (orderedStores ++ [.addEdge ⟨2, 1⟩ ⟨1, 1⟩, .saturate, .saturate])) rfl⟩

end Nidhugg.SaturatedGraph
