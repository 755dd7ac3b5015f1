import Nidhugg.Verification.SaturatedGraph.Step
import Nidhugg.Library.ReadsFrom

/-! # The saturation invariant

Every edge of the graph is forced by the reads-from choice, clocks never run ahead of the
edges, and what a clock already shows has been acted upon. One iteration keeps all of
this; an event outside the queue has a settled clock. -/

namespace Nidhugg.SaturatedGraph

open Relation ReadsFrom

/-- The reads-from choice of a graph. Besides program order its fixed order has the edges
`given` between external identifiers. -/
def choice (g : SaturatedGraph) (given : IID → IID → Prop) : Choice ℕ SymAddr where
  mem i := i < g.size
  order a b := a < g.size ∧ b < g.size ∧
    ((g.events b).poPredecessor = some a ∨ given (g.events a).extId (g.events b).extId)
  load i := (g.events i).isLoad = true
  store i := (g.events i).isStore = true
  addr i := (g.events i).addr
  rf i := (g.events i).readFrom

theorem choice_of_same {g g' : SaturatedGraph} (hs : SameLayout g g')
    (given : IID → IID → Prop) : choice g' given = choice g given := by
  simp only [choice, hs.size, hs.events]

/-- A larger fixed order forces more. -/
theorem forced_of_given {g : SaturatedGraph} {given given' : IID → IID → Prop}
    (hgiven : ∀ x y, given x y → given' x y) {a b : ℕ} (hab : Forced (choice g given) a b) :
    Forced (choice g given') a b := by
  refine Forced.mono ?_ ?_ ?_ ?_ ?_ ?_ hab
  · rintro a b ⟨ha, hb, hor⟩
    exact ⟨ha, hb, hor.imp_right (hgiven _ _)⟩
  · exact id
  · exact fun _ => id
  · exact fun _ => id
  · exact fun _ => rfl
  · exact fun _ => rfl

/-- The clock that an event would get from its predecessors now. -/
def nextVc (g : SaturatedGraph) (b : ℕ) : VClock := g.recomputeVc (g.events b) (g.ins b)

/-- What holds whether or not an event has just been popped. -/
structure Core (given : IID → IID → Prop) (g : SaturatedGraph) : Prop where
  layout : Layout g
  links : Links g
  queueOk : QueueOk g
  queue_lt : ∀ x ∈ g.wqQueue, x < g.size
  saturated_le : g.saturatedUntil ≤ g.size
  given_known : ∀ x y, given x y → g.hasEvent x = true ∧ g.hasEvent y = true
  given_in : ∀ a < g.size, ∀ b < g.size,
    given (g.events a).extId (g.events b).extId → a ∈ g.ins b
  ins_forced : ∀ b < g.size, ∀ a ∈ g.ins b, Forced (choice g given) a b
  clock_le : ∀ b < g.size, ∀ p, (g.vclocks b).get p ≤ (g.nextVc b).get p
  clock_reach : ∀ b < g.size, ∀ p, 0 < (g.vclocks b).get p →
    ∃ a < g.size, (g.events a).iid.pid = p ∧ (g.events a).iid.index = (g.vclocks b).get p ∧
      ReflTransGen (Edge g) a b
  clock_old : ∀ a < g.size, ∀ b < g.size,
    (g.events a).iid.index ≤ (g.vclocks b).get (g.events a).iid.pid → a < g.saturatedUntil
  fresh_clock : ∀ b < g.size, g.saturatedUntil ≤ b → ∀ p, (g.vclocks b).get p = 0
  closed_store : ∀ b < g.size, (g.events b).isStore = true → ∀ p w,
    LastVisible g b (g.vclocks b) p w → ∀ r ∈ (g.events w).readers, r < g.saturatedUntil →
      r ≠ b → TransGen (Edge g) r b
  closed_load : ∀ b < g.size, (g.events b).isLoad = true → ∀ p w,
    LastVisible g b (g.vclocks b) p w →
      ∃ s, (g.events b).readFrom = some s ∧ (w = s ∨ TransGen (Edge g) w s)

/-- What every call keeps, whatever the verdict of a saturation is: tables and edge vectors agree,
and clocks lag behind the clocks of the predecessors. -/
structure Kept (g : SaturatedGraph) : Prop where
  layout : Layout g
  links : Links g
  queueOk : QueueOk g
  queue_lt : ∀ x ∈ g.wqQueue, x < g.size
  clock_le : ∀ b < g.size, ∀ p, (g.vclocks b).get p ≤ (g.nextVc b).get p
  clock_le_length : ∀ b < g.size, ∀ p, (g.vclocks b).get p ≤ (g.eventsByPid p).length

/-- The clock of `b` is up to date and differs from the clock of every predecessor. -/
structure Settled (g : SaturatedGraph) (b : ℕ) : Prop where
  clock_eq : ∀ p, (g.vclocks b).get p = (g.nextVc b).get p
  pred_ne : ∀ a, Edge g a b → ∃ p, (g.vclocks a).get p ≠ (g.vclocks b).get p

/-- The reads of the initial value precede the first write of every process. -/
def InitLinked (g : SaturatedGraph) : Prop :=
  ∀ x p f r, (p, f) ∈ g.writesByAddress x → r ∈ g.readsFromInit x → f = r ∨ r ∈ g.ins f

theorem InitLinked.mono {g g' : SaturatedGraph} (h : InitLinked g) (hs : SameLayout g g')
    (hins : ∀ a b, a ∈ g.ins b → a ∈ g'.ins b) : InitLinked g' := by
  intro x p f r hf hr
  rw [hs.writesByAddress] at hf
  rw [hs.readsFromInit] at hr
  exact (h x p f r hf hr).imp_right (hins r f)

/-- The invariant between two iterations. -/
structure Invariant (given : IID → IID → Prop) (g : SaturatedGraph) : Prop
    extends Core given g where
  init_in : InitLinked g
  settled : ∀ b < g.size, b ∉ g.wqQueue → Settled g b

/-- Recomputed clocks depend on the predecessors of an event and on their clocks only. -/
theorem nextVc_congr {g g' : SaturatedGraph} {b : ℕ}
    (hiid : (g'.events b).iid = (g.events b).iid)
    (hpreds : ∀ a, a ∈ preds (g'.events b) (g'.ins b) ↔ a ∈ preds (g.events b) (g.ins b))
    (hclock : ∀ a ∈ preds (g.events b) (g.ins b), g'.vclocks a = g.vclocks a) (p : ℕ) :
    (g'.nextVc b).get p = (g.nextVc b).get p := by
  have hinit : (initialVc (g'.events b)).get p = (initialVc (g.events b)).get p := by
    rw [get_initialVc, get_initialVc, hiid]
  unfold nextVc
  apply le_antisymm
  · rcases get_recomputeVc_cases g' (g'.events b) (g'.ins b) p with heq | ⟨a, ha, heq⟩
    · rw [heq, hinit]
      exact initialVc_le_recomputeVc g (g.events b) (g.ins b) p
    · rw [heq, hclock a ((hpreds a).mp ha)]
      exact vclock_le_recomputeVc ((hpreds a).mp ha) p
  · rcases get_recomputeVc_cases g (g.events b) (g.ins b) p with heq | ⟨a, ha, heq⟩
    · rw [heq, ← hinit]
      exact initialVc_le_recomputeVc g' (g'.events b) (g'.ins b) p
    · rw [heq, ← hclock a ha]
      exact vclock_le_recomputeVc ((hpreds a).mpr ha) p

/-- The recomputed clock shows no more events than a process has. -/
theorem Kept.nextVc_le_length {g : SaturatedGraph} (h : Kept g) {b : ℕ} (hb : b < g.size) (p : ℕ) :
    (g.nextVc b).get p ≤ (g.eventsByPid p).length := by
  rw [nextVc]
  cases get_recomputeVc_cases g (g.events b) (g.ins b) p with
  | inl heq =>
      rw [heq, get_initialVc]
      by_cases hp : p = (g.events b).iid.pid
      · rw [if_pos hp, hp]
        exact h.layout.index_le_length hb
      · rw [if_neg hp]
        exact Nat.zero_le _
  | inr hpred =>
      obtain ⟨a, ha, heq⟩ := hpred
      rw [heq]
      exact h.clock_le_length a (h.layout.edge_lt h.links ⟨hb, ha⟩).1 p

theorem Settled.congr {g g' : SaturatedGraph} {b : ℕ} (h : Settled g b) (hb : b < g.size)
    (hiid : (g'.events b).iid = (g.events b).iid)
    (hpreds : ∀ a, a ∈ preds (g'.events b) (g'.ins b) ↔ a ∈ preds (g.events b) (g.ins b))
    (hclock : ∀ a ∈ preds (g.events b) (g.ins b), g'.vclocks a = g.vclocks a)
    (hself : g'.vclocks b = g.vclocks b) : Settled g' b where
  clock_eq p := by
    rw [hself, nextVc_congr hiid hpreds hclock, h.clock_eq]
  pred_ne a hab := by
    have ha := (hpreds a).mp hab.2
    rw [hself, hclock a ha]
    exact h.pred_ne a ⟨hb, ha⟩

section Facts

variable {given : IID → IID → Prop} {g : SaturatedGraph} (h : Core given g)
include h

theorem Core.edge_forced {a b : ℕ} (hab : Edge g a b) : Forced (choice g given) a b := by
  obtain ⟨ha, hb⟩ := h.layout.edge_lt h.links hab
  rcases mem_preds.mp hab.2 with hpo | hrf | hin
  · exact .order ⟨ha, hb, .inl hpo⟩
  · exact .readFrom ⟨hb, (h.layout.readFrom_spec b hb a hrf).2.1, hrf⟩
  · exact h.ins_forced b hb a hin

theorem Core.reach_forced {a b : ℕ} (hab : TransGen (Edge g) a b) :
    Forced (choice g given) a b := by
  induction hab with
  | single hab => exact h.edge_forced hab
  | tail _ hbc ih => exact ih.trans (h.edge_forced hbc)

/-- A recomputed entry is the index of an event that reaches the event. -/
theorem Core.nextVc_reach {b : ℕ} (hb : b < g.size) {p : ℕ}
    (hpos : 0 < (g.nextVc b).get p) :
    ∃ a < g.size, (g.events a).iid.pid = p ∧ (g.events a).iid.index = (g.nextVc b).get p ∧
      ReflTransGen (Edge g) a b := by
  unfold nextVc at hpos ⊢
  rcases get_recomputeVc_cases g (g.events b) (g.ins b) p with heq | ⟨a, ha, heq⟩
  · rw [heq, get_initialVc] at hpos ⊢
    split at hpos
    · rename_i hp
      rw [if_pos hp]
      exact ⟨b, hb, hp.symm, rfl, .refl⟩
    · exact absurd hpos (Nat.lt_irrefl 0)
  · rw [heq] at hpos ⊢
    have hab : Edge g a b := ⟨hb, ha⟩
    obtain ⟨c, hc, hcp, hci, hreach⟩ :=
      h.clock_reach a (h.layout.edge_lt h.links hab).1 p hpos
    exact ⟨c, hc, hcp, hci, hreach.tail hab⟩

theorem Core.nextVc_le_length {b : ℕ} (hb : b < g.size) (p : ℕ) :
    (g.nextVc b).get p ≤ (g.eventsByPid p).length := by
  rcases Nat.eq_zero_or_pos ((g.nextVc b).get p) with hz | hpos
  · omega
  · obtain ⟨a, ha, hap, hai, -⟩ := h.nextVc_reach hb hpos
    have := h.layout.index_le_length ha
    rwa [hap, hai] at this

theorem Core.kept : Kept g :=
  ⟨h.layout, h.links, h.queueOk, h.queue_lt, h.clock_le,
    fun b hb p => (h.clock_le b hb p).trans (h.nextVc_le_length hb p)⟩

/-- What a recomputed clock shows reaches the event. -/
theorem Core.shown_reach {b w : ℕ} (hb : b < g.size) (hw : w < g.size) (hne : w ≠ b)
    (hidx : (g.events w).iid.index ≤ (g.nextVc b).get (g.events w).iid.pid) :
    TransGen (Edge g) w b := by
  have hpos := (h.layout.get_index hw).1
  obtain ⟨a, ha, hap, hai, hreach⟩ := h.nextVc_reach hb (hpos.trans_le hidx)
  have hle : w ≤ a := (h.layout.le_iff_index_le hw ha hap.symm).mpr (by omega)
  rcases Nat.eq_or_lt_of_le hle with rfl | hlt
  · rcases reflTransGen_iff_eq_or_transGen.mp hreach with heq | htrans
    · exact absurd heq.symm hne
    · exact htrans
  · exact (h.layout.po_reaches hw ha hap.symm hlt).trans_left hreach

theorem Core.lastVisible_reach {b : ℕ} (hb : b < g.size) {p w : ℕ}
    (hw : LastVisible g b (g.nextVc b) p w) : TransGen (Edge g) w b := by
  obtain ⟨hmem, hne, hidx, -⟩ := hw
  obtain ⟨hws, rfl, -, -⟩ := (h.layout.mem_writes _ _ w).mp hmem
  exact h.shown_reach hb hws hne hidx

end Facts

/-! ## Verdicts -/

/-- A predecessor whose clock equals the recomputed clock closes a cycle. -/
theorem Core.cycle_of_equal_clock {given : IID → IID → Prop} {g : SaturatedGraph}
    (h : Core given g) {a b : ℕ} (hab : Edge g a b)
    (heq : ∀ p, (g.vclocks a).get p = (g.nextVc b).get p) : TransGen (Edge g) b b := by
  obtain ⟨ha, hb⟩ := h.layout.edge_lt h.links hab
  have hidx : (g.events b).iid.index ≤ (g.vclocks a).get (g.events b).iid.pid := by
    rw [heq]
    exact index_le_recomputeVc g (g.events b) (g.ins b)
  have hpos := (h.layout.get_index hb).1
  obtain ⟨c, hc, hcp, hci, hreach⟩ := h.clock_reach a ha _ (hpos.trans_le hidx)
  have hle : b ≤ c := (h.layout.le_iff_index_le hb hc hcp.symm).mpr (by omega)
  rcases Nat.eq_or_lt_of_le hle with rfl | hlt
  · exact .tail' hreach hab
  · exact ((h.layout.po_reaches hb hc hcp.symm hlt).trans_left hreach).tail hab

/-- A load of the initial value that is shown a write closes a cycle. -/
theorem Core.cycle_of_shown_init {given : IID → IID → Prop} {g : SaturatedGraph}
    (h : Core given g) {b : ℕ} (hb : b < g.size) (hl : (g.events b).isLoad = true)
    (hrf : (g.events b).readFrom = none) {p w : ℕ} (hw : LastVisible g b (g.nextVc b) p w) :
    Forced (choice g given) b b := by
  have hwb := h.reach_forced (h.lastVisible_reach hb hw)
  obtain ⟨hmem, hne, -, -⟩ := hw
  obtain ⟨hws, -, hst, haddr⟩ := (h.layout.mem_writes _ _ w).mp hmem
  exact (Forced.fromInit ⟨hb, hl, hrf⟩ ⟨hws, hst, haddr⟩ hne).trans hwb

/-! ## One iteration -/

theorem Edge.of_stepped {g g' : SaturatedGraph} {id : ℕ} (hst : Stepped g id g') {a b : ℕ}
    (hab : Edge g a b) : Edge g' a b := by
  refine ⟨by rw [hst.layout.size]; exact hab.1, ?_⟩
  have hmem := mem_preds.mp hab.2
  rw [mem_preds, hst.layout.events, hst.mem_ins]
  tauto

theorem edge_of_stepEdge {g g' : SaturatedGraph} {id : ℕ} (hst : Stepped g id g') {a b : ℕ}
    (hb : b < g.size) (hab : stepEdge g id a b) : Edge g' a b := by
  refine ⟨by rw [hst.layout.size]; exact hb, ?_⟩
  rw [mem_preds, hst.mem_ins]
  exact .inr (.inr (.inr hab))

/-- The edges that an iteration adds are forced and stay inside the graph. -/
theorem Core.stepEdge_forced {given : IID → IID → Prop} {g : SaturatedGraph}
    (h : Core given g) {id : ℕ} (hid : id < g.size) {a b : ℕ} (hab : stepEdge g id a b) :
    a < g.size ∧ b < g.size ∧ Forced (choice g given) a b := by
  rcases hab with ⟨rfl, hs, hne, w, ⟨p, hw, -⟩, ha⟩ | ⟨hl, hrf, ⟨p, hw, -⟩, hne⟩
  · have hwb := h.reach_forced (h.lastVisible_reach hid hw)
    obtain ⟨hmem, hwne, -, -⟩ := hw
    obtain ⟨hws, -, -, haddr⟩ := (h.layout.mem_writes _ _ w).mp hmem
    obtain ⟨has, harf⟩ := (h.layout.mem_readers w hws a).mp ha
    obtain ⟨-, hal, -, haw⟩ := h.layout.readFrom_spec a has w harf
    refine ⟨has, hid, .fromRead (w := w) ⟨has, hal, harf⟩ ⟨hid, hs, ?_⟩ ?_ ?_ hwb⟩
    · exact haddr.symm.trans haw
    · exact hwne.symm
    · exact hne.symm
  · have hwb := h.reach_forced (h.lastVisible_reach hid hw)
    obtain ⟨hmem, hwne, -, -⟩ := hw
    obtain ⟨hws, -, hst, haddr⟩ := (h.layout.mem_writes _ _ a).mp hmem
    have hbs := (h.layout.readFrom_spec id hid b hrf).1.trans hid
    exact ⟨hws, hbs, .coherence ⟨hid, hl, hrf⟩ ⟨hws, hst, haddr⟩ hne hwne hwb⟩

/-- What a raised clock shows last was shown before or is newly visible. -/
theorem Core.lastVisible_step {given : IID → IID → Prop} {g : SaturatedGraph}
    (h : Core given g) {id : ℕ} (hid : id < g.size) {p w : ℕ}
    (hw : LastVisible g id (g.nextVc id) p w) :
    LastVisible g id (g.vclocks id) p w ∨ NewlyVisible g id w := by
  by_cases hold : (g.events w).iid.index ≤ (g.vclocks id).get p
  · left
    obtain ⟨hmem, hne, -, hmax⟩ := hw
    exact ⟨hmem, hne, hold, fun w' hw' hne' hidx' =>
      hmax w' hw' hne' (hidx'.trans (h.clock_le id hid p))⟩
  · exact .inr ⟨p, hw, Nat.lt_of_not_le hold⟩

theorem Kept.vclocks_mono {g g' : SaturatedGraph} {id : ℕ} (h : Kept g) (hid : id < g.size)
    (hst : Stepped g id g') (a p : ℕ) : (g.vclocks a).get p ≤ (g'.vclocks a).get p := by
  rw [hst.vclocks]
  by_cases ha : a = id
  · subst ha
    rw [Function.update_self]
    exact h.clock_le a hid p
  · rw [Function.update_of_ne ha]

theorem Kept.nextVc_mono {g g' : SaturatedGraph} {id : ℕ} (h : Kept g) (hid : id < g.size)
    (hst : Stepped g id g') (b p : ℕ) : (g.nextVc b).get p ≤ (g'.nextVc b).get p := by
  unfold nextVc
  rw [hst.layout.events]
  refine recomputeVc_mono (fun a ha => (hst.mem_ins a b).mpr (.inl ha)) ?_ p
  exact fun a p => h.vclocks_mono hid hst a p

/-- One iteration keeps the invariant. -/
theorem Core.step {given : IID → IID → Prop} {g g' : SaturatedGraph} {id : ℕ}
    (h : Core given g) (hid : id < g.size) (hsat : g.saturatedUntil = g.size)
    (hst : Stepped g id g') : Core given g' := by
  have hs := hst.layout
  have hclock : ∀ b p, b ≠ id → (g'.vclocks b).get p = (g.vclocks b).get p := by
    intro b p hb
    rw [hst.vclocks, Function.update_of_ne hb]
  have hclockId : g'.vclocks id = g.nextVc id := by
    rw [hst.vclocks, Function.update_self]
    rfl
  have hreach : ∀ {a b}, TransGen (Edge g) a b → TransGen (Edge g') a b :=
    fun hab => TransGen.mono (fun _ _ => Edge.of_stepped hst) _ _ hab
  have hreach' : ∀ {a b}, ReflTransGen (Edge g) a b → ReflTransGen (Edge g') a b :=
    fun hab => ReflTransGen.mono (fun _ _ => Edge.of_stepped hst) _ _ hab
  have hlinks : Links g' := by
    refine h.links.of_edges hs hst.mem_ins hst.mem_outs fun a b hab => ?_
    exact ⟨(h.stepEdge_forced hid hab).1, (h.stepEdge_forced hid hab).2.1⟩
  have hnext : ∀ b p, (g.nextVc b).get p ≤ (g'.nextVc b).get p := h.kept.nextVc_mono hid hst
  constructor
  case layout => exact h.layout.of_same hs
  case links => exact hlinks
  case queueOk => exact hst.queueOk
  case queue_lt =>
    intro x hx
    rw [hs.size]
    rcases hst.queue_source x hx with hx | hx | hx | ⟨a, hx⟩
    · exact h.queue_lt x hx
    · exact ((h.layout.mem_readers id hid x).mp hx).1
    · exact (h.links.out_in id x hx).2.1
    · exact (h.stepEdge_forced hid hx).2.1
  case saturated_le => rw [hst.saturatedUntil, hs.size]; exact h.saturated_le
  case given_known =>
    simp only [hasEvent, hs.extidToId]
    exact h.given_known
  case given_in =>
    intro a ha b hb hg
    rw [hs.size] at ha hb
    rw [hs.events] at hg
    exact (hst.mem_ins a b).mpr (.inl (h.given_in a ha b hb hg))
  case ins_forced =>
    intro b hb a ha
    rw [hs.size] at hb
    rw [choice_of_same hs]
    rcases (hst.mem_ins a b).mp ha with ha | ha
    · exact h.ins_forced b hb a ha
    · exact (h.stepEdge_forced hid ha).2.2
  case clock_le =>
    intro b hb p
    rw [hs.size] at hb
    by_cases hbid : b = id
    · subst hbid
      rw [hclockId]
      exact hnext b p
    · rw [hclock b p hbid]
      exact (h.clock_le b hb p).trans (hnext b p)
  case clock_reach =>
    intro b hb p hpos
    rw [hs.size] at hb
    rw [hs.size, hs.events]
    by_cases hbid : b = id
    · subst hbid
      rw [hclockId] at hpos ⊢
      obtain ⟨a, ha, hap, hai, hab⟩ := h.nextVc_reach hb hpos
      exact ⟨a, ha, hap, hai, hreach' hab⟩
    · rw [hclock b p hbid] at hpos ⊢
      obtain ⟨a, ha, hap, hai, hab⟩ := h.clock_reach b hb p hpos
      exact ⟨a, ha, hap, hai, hreach' hab⟩
  case clock_old =>
    intro a ha b hb _
    rw [hst.saturatedUntil, hsat, ← hs.size]
    exact ha
  case fresh_clock =>
    intro b hb hge
    rw [hst.saturatedUntil, hsat, ← hs.size] at hge
    omega
  case closed_store =>
    intro b hb hstore p w hw r hr hrsat hne
    rw [hs.size] at hb
    rw [hs.events] at hstore hr
    rw [hst.saturatedUntil] at hrsat
    have hw' := hw.of_same hs.symm
    by_cases hbid : b = id
    · subst hbid
      rw [hclockId] at hw'
      rcases h.lastVisible_step hb hw' with hold | hnew
      · exact hreach (h.closed_store b hb hstore p w hold r hr hrsat hne)
      · exact .single (edge_of_stepEdge hst hb (.inl ⟨rfl, hstore, hne, w, hnew, hr⟩))
    · rw [hst.vclocks, Function.update_of_ne hbid] at hw'
      exact hreach (h.closed_store b hb hstore p w hw' r hr hrsat hne)
  case closed_load =>
    intro b hb hload p w hw
    rw [hs.size] at hb
    rw [hs.events] at hload ⊢
    have hw' := hw.of_same hs.symm
    have hlift : (∃ s, (g.events b).readFrom = some s ∧ (w = s ∨ TransGen (Edge g) w s)) →
        ∃ s, (g.events b).readFrom = some s ∧ (w = s ∨ TransGen (Edge g') w s) := by
      rintro ⟨s, hrf, hws⟩
      exact ⟨s, hrf, hws.imp_right hreach⟩
    by_cases hbid : b = id
    · subst hbid
      rw [hclockId] at hw'
      rcases h.lastVisible_step hb hw' with hold | hnew
      · exact hlift (h.closed_load b hb hload p w hold)
      · obtain ⟨s, hrf⟩ := Option.ne_none_iff_exists'.mp (hst.source hload ⟨w, hnew⟩)
        refine ⟨s, hrf, ?_⟩
        by_cases hws : w = s
        · exact .inl hws
        · have hsize := (h.layout.readFrom_spec b hb s hrf).1.trans hb
          exact .inr (.single (edge_of_stepEdge hst hsize (.inr ⟨hload, hrf, hnew, hws⟩)))
    · rw [hst.vclocks, Function.update_of_ne hbid] at hw'
      exact hlift (h.closed_load b hb hload p w hw')

/-- A step reaches the settled clock of an event only through the queue: the events that
stay outside it keep their predecessors and the clocks of these. -/
theorem Core.settled_step {given : IID → IID → Prop} {g g' : SaturatedGraph} {id : ℕ}
    (h : Core given g) (hid : id < g.size) (hst : Stepped g id g')
    (hncyc : ¬ ∃ a ∈ preds (g.events id) (g.ins id), ∀ p, (g.vclocks a).get p =
      (g.recomputeVc (g.events id) (g.ins id)).get p)
    (hset : ∀ b < g.size, b ≠ id → b ∉ g.wqQueue → Settled g b) :
    ∀ b < g'.size, b ∉ g'.wqQueue → Settled g' b := by
  intro b hb hbq
  rw [hst.layout.size] at hb
  have hins : ∀ a, a ∈ g'.ins b ↔ a ∈ g.ins b := by
    intro a
    rw [hst.mem_ins]
    exact or_iff_left fun hab => hbq (hst.queue_edge a b hab)
  have hpreds : ∀ a, a ∈ preds (g'.events b) (g'.ins b) ↔ a ∈ preds (g.events b) (g.ins b) := by
    intro a
    rw [mem_preds, mem_preds, hst.layout.events, hins]
  -- the event whose clock changed is no predecessor of an unqueued event
  have hnotid : id ∉ preds (g.events b) (g.ins b) := by
    intro hmem
    apply hbq
    rcases mem_preds.mp hmem with hpo | hrf | hin
    · exact hst.queue_outs b (h.links.po_out b hb id hpo)
    · obtain ⟨-, -, hs, -⟩ := h.layout.readFrom_spec b hb id hrf
      exact hst.queue_readers hs b ((h.layout.mem_readers id hid b).mpr ⟨hb, hrf⟩)
    · exact hst.queue_outs b (h.links.in_out b hb id hin)
  have hclock : ∀ a ∈ preds (g.events b) (g.ins b), g'.vclocks a = g.vclocks a := by
    intro a ha
    rw [hst.vclocks, Function.update_of_ne]
    rintro rfl
    exact hnotid ha
  have hiid : (g'.events b).iid = (g.events b).iid := by rw [hst.layout.events]
  by_cases hbid : b = id
  · subst hbid
    have hval : g'.vclocks b = g.nextVc b := by
      rw [hst.vclocks, Function.update_self]
      rfl
    refine ⟨fun p => by rw [hval, nextVc_congr hiid hpreds hclock], fun a hab => ?_⟩
    have ha := (hpreds a).mp hab.2
    by_contra hno
    push Not at hno
    refine hncyc ⟨a, ha, fun p => ?_⟩
    have := hno p
    rwa [hclock a ha, hval] at this
  · refine (hset b hb hbid fun hq => hbq (hst.queue_mono b hq)).congr hb hiid hpreds hclock ?_
    rw [hst.vclocks, Function.update_of_ne hbid]

/-! ## Adding forced edges -/

section Extends

variable {given given' : IID → IID → Prop} {g g' : SaturatedGraph} {edge : ℕ → ℕ → Prop}
  {queued : ℕ → Prop} (hx : Extends g g' edge queued)
include hx

theorem Edge.of_extends {a b : ℕ} (hab : Edge g a b) : Edge g' a b := by
  refine ⟨by rw [hx.layout.size]; exact hab.1, ?_⟩
  have hmem := mem_preds.mp hab.2
  rw [mem_preds, hx.layout.events, hx.mem_ins]
  tauto

/-- Edges that a choice with more fixed order forces keep the invariant. -/
theorem Core.of_extends (h : Core given g) (hgiven : ∀ x y, given x y → given' x y)
    (hknown : ∀ x y, given' x y → g.hasEvent x = true ∧ g.hasEvent y = true)
    (hnew : ∀ a < g.size, ∀ b < g.size, given' (g.events a).extId (g.events b).extId →
      given (g.events a).extId (g.events b).extId ∨ edge a b)
    (hedge : ∀ a b, edge a b → a < g.size ∧ b < g.size ∧ Forced (choice g given') a b)
    (hqueued : ∀ x, queued x → x < g.size) : Core given' g' := by
  have hs := hx.layout
  have hreach : ∀ {a b}, TransGen (Edge g) a b → TransGen (Edge g') a b :=
    fun hab => TransGen.mono (fun _ _ => Edge.of_extends hx) _ _ hab
  have hlast : ∀ {b p w}, LastVisible g' b (g'.vclocks b) p w →
      LastVisible g b (g.vclocks b) p w := by
    intro b p w hw
    rw [hx.vclocks] at hw
    exact hw.of_same hs.symm
  constructor
  case layout => exact h.layout.of_same hs
  case links =>
    exact h.links.of_edges hs hx.mem_ins hx.mem_outs fun a b hab =>
      ⟨(hedge a b hab).1, (hedge a b hab).2.1⟩
  case queueOk => exact hx.queueOk
  case queue_lt =>
    intro x hxq
    rw [hs.size]
    exact ((hx.mem_queue x).mp hxq).elim (h.queue_lt x) (hqueued x)
  case saturated_le => rw [hx.saturatedUntil, hs.size]; exact h.saturated_le
  case given_known =>
    simp only [hasEvent, hs.extidToId]
    exact hknown
  case given_in =>
    intro a ha b hb hg
    rw [hs.size] at ha hb
    rw [hs.events] at hg
    exact (hx.mem_ins a b).mpr ((hnew a ha b hb hg).imp_left (h.given_in a ha b hb))
  case ins_forced =>
    intro b hb a ha
    rw [hs.size] at hb
    rw [choice_of_same hs]
    rcases (hx.mem_ins a b).mp ha with ha | ha
    · exact forced_of_given hgiven (h.ins_forced b hb a ha)
    · exact (hedge a b ha).2.2
  case clock_le =>
    intro b hb p
    rw [hs.size] at hb
    rw [hx.vclocks]
    refine (h.clock_le b hb p).trans ?_
    unfold nextVc
    rw [hs.events]
    refine recomputeVc_mono (fun a ha => (hx.mem_ins a b).mpr (.inl ha)) ?_ p
    intro a q
    rw [hx.vclocks]
  case clock_reach =>
    intro b hb p hpos
    rw [hs.size] at hb
    rw [hx.vclocks] at hpos ⊢
    rw [hs.size, hs.events]
    obtain ⟨a, ha, hap, hai, hab⟩ := h.clock_reach b hb p hpos
    exact ⟨a, ha, hap, hai, ReflTransGen.mono (fun _ _ => Edge.of_extends hx) _ _ hab⟩
  case clock_old =>
    rw [hs.size, hs.events, hx.vclocks, hx.saturatedUntil]
    exact h.clock_old
  case fresh_clock =>
    rw [hs.size, hx.vclocks, hx.saturatedUntil]
    exact h.fresh_clock
  case closed_store =>
    intro b hb hstore p w hw r hr hrsat hne
    rw [hs.size] at hb
    rw [hs.events] at hstore hr
    rw [hx.saturatedUntil] at hrsat
    exact hreach (h.closed_store b hb hstore p w (hlast hw) r hr hrsat hne)
  case closed_load =>
    intro b hb hload p w hw
    rw [hs.size] at hb
    rw [hs.events] at hload ⊢
    obtain ⟨s, hrf, hws⟩ := h.closed_load b hb hload p w (hlast hw)
    exact ⟨s, hrf, hws.imp_right hreach⟩

/-- An event without new incoming edges stays settled. -/
theorem Settled.of_extends {b : ℕ} (h : Settled g b) (hb : b < g.size)
    (hedge : ∀ a, ¬ edge a b) : Settled g' b := by
  refine h.congr hb (by rw [hx.layout.events]) ?_ (fun a _ => by rw [hx.vclocks])
    (by rw [hx.vclocks])
  intro a
  rw [mem_preds, mem_preds, hx.layout.events, hx.mem_ins, or_iff_left (hedge a)]

end Extends

end Nidhugg.SaturatedGraph
