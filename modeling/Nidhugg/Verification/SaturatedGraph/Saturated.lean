import Mathlib.Algebra.Order.BigOperators.Group.Finset
import Mathlib.Data.Finset.Max
import Nidhugg.Verification.SaturatedGraph.Invariant

/-! # Runs of the saturation loop

The loop ends within its fuel, never faults, finds a cycle only when the reads-from choice
forces one, and otherwise leaves an empty queue behind. -/

namespace Nidhugg.SaturatedGraph

open Relation ReadsFrom

/-! ## Termination -/

/-- The sum of all clock entries. -/
def clockSum (g : SaturatedGraph) : ℕ :=
  ∑ b ∈ Finset.range g.size, ∑ p ∈ Finset.range g.numPids, (g.vclocks b).get p

/-- What is left to do: clock entries that can still grow, then queue entries. -/
def work (g : SaturatedGraph) : ℕ :=
  (g.size * g.numPids * g.size - g.clockSum) * (g.size + 1) + g.wqQueue.length

theorem Layout.length_le_size {g : SaturatedGraph} (h : Layout g) (p : ℕ) :
    (g.eventsByPid p).length ≤ g.size := by
  have hnodup : (g.eventsByPid p).Nodup := (h.eventsByPid_sorted p).imp fun hlt => hlt.ne
  have hsub : g.eventsByPid p ⊆ List.range g.size := by
    intro i hi
    exact List.mem_range.mpr ((h.mem_eventsByPid p i).mp hi).1
  simpa using (hnodup.subperm hsub).length_le

theorem Kept.clock_le_size {g : SaturatedGraph} (h : Kept g) {b : ℕ} (hb : b < g.size) (p : ℕ) :
    (g.vclocks b).get p ≤ g.size :=
  (h.clock_le_length b hb p).trans (h.layout.length_le_size p)

theorem Kept.clockSum_le {g : SaturatedGraph} (h : Kept g) :
    g.clockSum ≤ g.size * g.numPids * g.size := by
  have hrow : ∀ b ∈ Finset.range g.size,
      ∑ p ∈ Finset.range g.numPids, (g.vclocks b).get p ≤ g.numPids * g.size := by
    intro b hb
    have := Finset.sum_le_card_nsmul (Finset.range g.numPids) (fun p => (g.vclocks b).get p)
      g.size fun p _ => h.clock_le_size (Finset.mem_range.mp hb) p
    simpa using this
  have := Finset.sum_le_card_nsmul (Finset.range g.size) _ _ hrow
  simpa [clockSum, Nat.mul_assoc] using this

theorem Kept.queue_length_le {g : SaturatedGraph} (h : Kept g) : g.wqQueue.length ≤ g.size := by
  have hsub : g.wqQueue ⊆ List.range g.size := fun x hx => List.mem_range.mpr (h.queue_lt x hx)
  simpa using (h.queueOk.nodup.subperm hsub).length_le

/-- Only the entries of known processes are not zero. -/
theorem Kept.lt_numPids {g : SaturatedGraph} (h : Kept g) {b p : ℕ} (hb : b < g.size)
    (hpos : 0 < (g.nextVc b).get p) : p < g.numPids := by
  have hlen := hpos.trans_le (h.nextVc_le_length hb p)
  obtain ⟨a, ha, hap, -⟩ := h.layout.exists_of_index hlen le_rfl
  rw [← hap]
  exact h.layout.pid_lt a ha

/-- A clock entry that grows belongs to a known process. -/
theorem Kept.clockSum_lt {g g' : SaturatedGraph} {id : ℕ} (h : Kept g) (hid : id < g.size)
    (hst : Stepped g id g') (hgrow : ∃ p, (g.vclocks id).get p < (g.nextVc id).get p) :
    g.clockSum < g'.clockSum := by
  obtain ⟨p, hp⟩ := hgrow
  have hval : g'.vclocks id = g.nextVc id := by
    rw [hst.vclocks, Function.update_self]
    rfl
  have hpn : p < g.numPids := h.lt_numPids hid (Nat.zero_lt_of_lt hp)
  unfold clockSum
  rw [hst.layout.size, hst.layout.numPids]
  refine Finset.sum_lt_sum ?_ ⟨id, Finset.mem_range.mpr hid, ?_⟩
  · intro b _
    exact Finset.sum_le_sum fun p _ => h.vclocks_mono hid hst b p
  · refine Finset.sum_lt_sum (fun p _ => h.vclocks_mono hid hst id p) ?_
    exact ⟨p, Finset.mem_range.mpr hpn, by rwa [hval]⟩

theorem work_lt_of_clockSum_lt {g g' : SaturatedGraph} (h' : Kept g') (hs : SameLayout g g')
    (hlt : g.clockSum < g'.clockSum) : g'.work < g.work := by
  have hsum := h'.clockSum_le
  have hlen := h'.queue_length_le
  unfold work
  rw [hs.size, hs.numPids] at *
  have hstep : (g.size * g.numPids * g.size - g'.clockSum) + 1 ≤
      g.size * g.numPids * g.size - g.clockSum := by omega
  have hmul := Nat.mul_le_mul_right (g.size + 1) hstep
  rw [Nat.add_mul, Nat.one_mul] at hmul
  omega

theorem Kept.work_lt_fuel {g : SaturatedGraph} (h : Kept g) : g.work < g.fuel := by
  have hlen := h.queue_length_le
  unfold work fuel
  have hmul := Nat.mul_le_mul_right (g.size + 1)
    (Nat.sub_le (g.size * g.numPids * g.size) g.clockSum)
  rw [Nat.add_mul, Nat.one_mul]
  omega

/-! ## One turn of the loop -/

/-- Popping takes the first event off the queue and clears its mark. -/
theorem wqPop_cases {g g' : SaturatedGraph} {id : ℕ} (hq : QueueOk g)
    (hpop : g.wqPop = some (id, g')) : ∃ rest, g.wqQueue = id :: rest ∧
      g' = { g with wqQueue := rest, wqSet := Function.update g.wqSet id false } ∧
      QueueOk g' := by
  unfold wqPop at hpop
  split at hpop
  · exact absurd hpop (by simp)
  · rename_i x rest hqueue
    obtain ⟨rfl, rfl⟩ : x = id ∧
        { g with wqQueue := rest, wqSet := Function.update g.wqSet x false } = g' := by
      simpa using hpop
    have hnodup := hq.nodup
    rw [hqueue, List.nodup_cons] at hnodup
    refine ⟨rest, hqueue, rfl, hnodup.2, fun y => ?_⟩
    by_cases hy : y = x
    · subst hy
      simpa using hnodup.1
    · have := hq.set_iff y
      rw [hqueue, List.mem_cons] at this
      simpa [hy] using this

/-- Clearing the marks changes nothing once the queue is empty. -/
theorem wqPop_none {g : SaturatedGraph} (hq : QueueOk g) (hpop : g.wqPop = none) :
    g.wqQueue = [] ∧ { g with wqSet := fun _ => false } = g := by
  have hqueue : g.wqQueue = [] := by
    unfold wqPop at hpop
    split at hpop
    · assumption
    · exact absurd hpop (by simp)
  refine ⟨hqueue, ?_⟩
  have hset : g.wqSet = fun _ => false := by
    funext x
    have := hq.set_iff x
    simpa [hqueue] using this
  cases g
  simp_all

/-- Popping an event keeps everything but the claim that the event is settled. -/
theorem Invariant.pop {given : IID → IID → Prop} {g g' : SaturatedGraph}
    (h : Invariant given g) {id : ℕ} (hpop : g.wqPop = some (id, g')) :
    Core given g' ∧ SameLayout g g' ∧ id < g'.size ∧ g'.saturatedUntil = g.saturatedUntil ∧
      g'.work < g.work ∧ InitLinked g' ∧
      ∀ b < g'.size, b ≠ id → b ∉ g'.wqQueue → Settled g' b := by
  obtain ⟨rest, hq, rfl, hqueue⟩ := wqPop_cases h.queueOk hpop
  have hx : id < g.size := h.queue_lt id (by simp [hq])
  refine ⟨?_, ⟨rfl, rfl, rfl, rfl, rfl, rfl, rfl, rfl⟩, hx, rfl, ?_, h.init_in, ?_⟩
  · exact ⟨h.layout.of_same ⟨rfl, rfl, rfl, rfl, rfl, rfl, rfl, rfl⟩,
      ⟨h.links.ins_lt, h.links.in_out, h.links.po_out, h.links.out_in⟩,
      hqueue, fun y hy => h.queue_lt y (by simp [hq, hy]), h.saturated_le, h.given_known,
      h.given_in, h.ins_forced, h.clock_le, h.clock_reach, h.clock_old, h.fresh_clock,
      h.closed_store, h.closed_load⟩
  · simp [work, clockSum, hq]
  · intro b hb hne hbq
    have hset := h.settled b hb (by simpa [hq, hne] using hbq)
    exact ⟨hset.clock_eq, hset.pred_ne⟩

/-- One iteration finds a forced cycle or keeps the invariant with less work left. -/
theorem Invariant.iterate {given : IID → IID → Prop} {g g₀ : SaturatedGraph}
    (h : Invariant given g) (hsat : g.saturatedUntil = g.size) {id : ℕ}
    (hpop : g.wqPop = some (id, g₀)) :
    (∃ g', g₀.saturateOne id = .ok (false, g') ∧ ∃ e, Forced (choice g given) e e) ∨
      (∃ g', g₀.saturateOne id = .ok (true, g') ∧ Invariant given g' ∧ SameLayout g g' ∧
        g'.saturatedUntil = g.saturatedUntil ∧ g'.work < g.work) := by
  obtain ⟨hcore, hs, hid, hsu, hwork, hinit, hset⟩ := h.pop hpop
  rw [← choice_of_same hs]
  rcases saturateOne_cases hcore.layout hcore.queueOk (hcore.clock_le id hid)
      (hcore.nextVc_le_length hid) with
    ⟨g', hrun, hcyc, -⟩ | ⟨hrun, hncyc, heq⟩ | ⟨g', hrun, hncyc, hgrow, hst⟩
  · left
    refine ⟨g', hrun, id, ?_⟩
    rcases hcyc with ⟨a, ha, heq⟩ | ⟨hl, hrf, w, p, hw, -⟩
    · exact hcore.reach_forced (hcore.cycle_of_equal_clock ⟨hid, ha⟩ heq)
    · exact hcore.cycle_of_shown_init hid hl hrf hw
  · right
    refine ⟨g₀, hrun, ⟨hcore, hinit, ?_⟩, hs, hsu, hwork⟩
    intro b hb hbq
    by_cases hbid : b = id
    · subst hbid
      refine ⟨fun p => (heq p).symm, fun a hab => ?_⟩
      by_contra hno
      push Not at hno
      exact hncyc ⟨a, hab.2, fun p => (hno p).trans (heq p).symm⟩
    · exact hset b hb hbid hbq
  · right
    have hsat₀ : g₀.saturatedUntil = g₀.size := by rw [hsu, hsat, hs.size]
    have hcore' := hcore.step hid hsat₀ hst
    have hinit' := hinit.mono hst.layout fun a b ha => (hst.mem_ins a b).mpr (.inl ha)
    refine ⟨g', hrun, ⟨hcore', hinit', hcore.settled_step hid hst hncyc hset⟩,
      hs.trans hst.layout, hst.saturatedUntil.trans hsu, ?_⟩
    exact (work_lt_of_clockSum_lt hcore'.kept hst.layout (hcore.kept.clockSum_lt hid hst hgrow)).trans hwork

/-- A run of the loop finds a forced cycle or ends with an empty queue. -/
theorem Invariant.saturateLoop {given : IID → IID → Prop} (fuel : ℕ) {g : SaturatedGraph}
    (h : Invariant given g) (hsat : g.saturatedUntil = g.size) (hfuel : g.work < fuel) :
    (∃ g', g.saturateLoop fuel = .ok (false, g') ∧ ∃ e, Forced (choice g given) e e) ∨
      (∃ g', g.saturateLoop fuel = .ok (true, g') ∧ Invariant given g' ∧ SameLayout g g' ∧
        g'.saturatedUntil = g.saturatedUntil ∧ g'.wqQueue = []) := by
  induction fuel generalizing g with
  | zero => exact absurd hfuel (Nat.not_lt_zero _)
  | succ fuel ih =>
      cases hpop : g.wqPop with
      | none =>
          obtain ⟨hq, hg⟩ := wqPop_none h.queueOk hpop
          refine .inr ⟨g, ?_, h, .refl g, rfl, hq⟩
          simp [SaturatedGraph.saturateLoop, hpop, hg]
      | some popped =>
          obtain ⟨id, g₀⟩ := popped
          rcases h.iterate hsat hpop with ⟨g', hrun, hcyc⟩ | ⟨g', hrun, h', hs, hsu, hwork⟩
          · refine .inl ⟨g', ?_, hcyc⟩
            simp [SaturatedGraph.saturateLoop, hpop, hrun, Bind.bind, Except.bind, Pure.pure,
              Except.pure]
          · have hrest : g.saturateLoop (fuel + 1) = g'.saturateLoop fuel := by
              simp [SaturatedGraph.saturateLoop, hpop, hrun, Bind.bind, Except.bind]
            rw [hrest, ← choice_of_same hs]
            have hsat' : g'.saturatedUntil = g'.size := by rw [hsu, hsat, hs.size]
            rcases ih h' hsat' (by omega) with hcyc | ⟨g'', hrun', h'', hs', hsu', hq⟩
            · exact .inl hcyc
            · exact .inr ⟨g'', hrun', h'', hs.trans hs', hsu'.trans hsu, hq⟩

end Nidhugg.SaturatedGraph

/-! # Saturated graphs

When the queue is empty the graph is acyclic, its clocks are exact and its edges are
closed under the from-read and coherence rules, so that reachability and the forced order
coincide. -/

namespace Nidhugg.SaturatedGraph

open Relation ReadsFrom

/-- A graph that `saturate` has accepted. -/
structure Saturated (given : IID → IID → Prop) (g : SaturatedGraph) : Prop
    extends Invariant given g where
  queue_nil : g.wqQueue = []
  saturated_all : g.saturatedUntil = g.size

theorem exists_lastVisible {g : SaturatedGraph} (h : Layout g) {b : ℕ} {c : VClock} {p w : ℕ}
    (hw : w ∈ g.writesByProcessAndAddress p (g.events b).addr) (hne : w ≠ b)
    (hidx : (g.events w).iid.index ≤ c.get p) : ∃ w', LastVisible g b c p w' ∧ w ≤ w' := by
  -- the greatest write among those that the clock shows
  set shown := (Finset.range g.size).filter fun x =>
    x ∈ g.writesByProcessAndAddress p (g.events b).addr ∧ x ≠ b ∧
      (g.events x).iid.index ≤ c.get p with hshown
  have hmem : ∀ {x}, x ∈ g.writesByProcessAndAddress p (g.events b).addr → x ≠ b →
      (g.events x).iid.index ≤ c.get p → x ∈ shown := by
    intro x hx hxb hxi
    rw [hshown, Finset.mem_filter, Finset.mem_range]
    exact ⟨((h.mem_writes _ _ x).mp hx).1, hx, hxb, hxi⟩
  have hw' := hmem hw hne hidx
  obtain ⟨m, hm, hmax⟩ := shown.exists_max_image id ⟨w, hw'⟩
  obtain ⟨-, hm₁, hm₂, hm₃⟩ := Finset.mem_filter.mp hm
  refine ⟨m, ⟨hm₁, hm₂, hm₃, fun x hx hxb hxi => hmax x (hmem hx hxb hxi)⟩, hmax w hw'⟩

section Saturated

variable {given : IID → IID → Prop} {g : SaturatedGraph} (h : Saturated given g)
include h

theorem Saturated.settled_all {b : ℕ} (hb : b < g.size) : Settled g b :=
  h.settled b hb (by simp [h.queue_nil])

theorem Saturated.clock_lt_of_edge {a b : ℕ} (hab : Edge g a b) :
    (∀ p, (g.vclocks a).get p ≤ (g.vclocks b).get p) ∧
      ∃ p, (g.vclocks a).get p < (g.vclocks b).get p := by
  have hset := h.settled_all hab.1
  have hle : ∀ p, (g.vclocks a).get p ≤ (g.vclocks b).get p := by
    intro p
    rw [hset.clock_eq]
    exact vclock_le_recomputeVc hab.2 p
  obtain ⟨p, hp⟩ := hset.pred_ne a hab
  exact ⟨hle, p, lt_of_le_of_ne (hle p) hp⟩

/-- Clocks grow strictly along paths. -/
theorem Saturated.clock_lt {a b : ℕ} (hab : TransGen (Edge g) a b) :
    (∀ p, (g.vclocks a).get p ≤ (g.vclocks b).get p) ∧
      ∃ p, (g.vclocks a).get p < (g.vclocks b).get p := by
  induction hab with
  | single hab => exact h.clock_lt_of_edge hab
  | tail _ hbc ih =>
      obtain ⟨hle, p, hp⟩ := ih
      have hle' := (h.clock_lt_of_edge hbc).1
      exact ⟨fun q => (hle q).trans (hle' q), p, hp.trans_le (hle' p)⟩

theorem Saturated.acyclic (e : ℕ) : ¬ TransGen (Edge g) e e := by
  intro hcyc
  obtain ⟨-, p, hp⟩ := h.clock_lt hcyc
  exact Nat.lt_irrefl _ hp

theorem Saturated.index_le_clock {a b : ℕ} (ha : a < g.size)
    (hab : ReflTransGen (Edge g) a b) :
    (g.events a).iid.index ≤ (g.vclocks b).get (g.events a).iid.pid := by
  have hself : (g.events a).iid.index ≤ (g.vclocks a).get (g.events a).iid.pid := by
    rw [(h.settled_all ha).clock_eq]
    exact index_le_recomputeVc g (g.events a) (g.ins a)
  rcases reflTransGen_iff_eq_or_transGen.mp hab with rfl | htrans
  · exact hself
  · exact hself.trans ((h.clock_lt htrans).1 _)

/-- The clock of an event tells exactly which events reach it. -/
theorem Saturated.reaches_iff {a b : ℕ} (ha : a < g.size) (hb : b < g.size) :
    ReflTransGen (Edge g) a b ↔
      (g.events a).iid.index ≤ (g.vclocks b).get (g.events a).iid.pid := by
  refine ⟨h.index_le_clock ha, fun hle => ?_⟩
  have hpos := (h.layout.get_index ha).1
  obtain ⟨c, hc, hcp, hci, hreach⟩ := h.clock_reach b hb _ (hpos.trans_le hle)
  have hac : a ≤ c := (h.layout.le_iff_index_le ha hc hcp.symm).mpr (by omega)
  rcases Nat.eq_or_lt_of_le hac with rfl | hlt
  · exact hreach
  · exact (h.layout.po_reaches ha hc hcp.symm hlt).to_reflTransGen.trans hreach

/-- An entry of an event's clock is the largest index of an event of the process that
reaches it, or zero when there is none. -/
theorem Saturated.clock_exact {b : ℕ} (hb : b < g.size) (p : ℕ) :
    (∀ a < g.size, (g.events a).iid.pid = p → ReflTransGen (Edge g) a b →
        (g.events a).iid.index ≤ (g.vclocks b).get p) ∧
      ((∃ a < g.size, (g.events a).iid.pid = p ∧ ReflTransGen (Edge g) a b ∧
          (g.events a).iid.index = (g.vclocks b).get p) ∨
        ((g.vclocks b).get p = 0 ∧
          ∀ a < g.size, (g.events a).iid.pid = p → ¬ ReflTransGen (Edge g) a b)) := by
  have hle : ∀ a < g.size, (g.events a).iid.pid = p → ReflTransGen (Edge g) a b →
      (g.events a).iid.index ≤ (g.vclocks b).get p := by
    intro a ha hap hab
    have := h.index_le_clock ha hab
    rwa [hap] at this
  refine ⟨hle, ?_⟩
  rcases Nat.eq_zero_or_pos ((g.vclocks b).get p) with hz | hpos
  · refine .inr ⟨hz, fun a ha hap hab => ?_⟩
    have := hle a ha hap hab
    have := (h.layout.get_index ha).1
    omega
  · obtain ⟨a, ha, hap, hai, hab⟩ := h.clock_reach b hb p hpos
    exact .inl ⟨a, ha, hap, hab, hai⟩

/-- A write that reaches an event of the same address lies below the write of its process
that the event is shown last. -/
theorem Saturated.exists_shown {w b : ℕ} (hw : w < g.size) (hs : (g.events w).isStore = true)
    (haddr : (g.events w).addr = (g.events b).addr) (hwb : TransGen (Edge g) w b) :
    ∃ w', LastVisible g b (g.vclocks b) (g.events w).iid.pid w' ∧ w ≤ w' := by
  refine exists_lastVisible h.layout ((h.layout.mem_writes _ _ w).mpr ⟨hw, rfl, hs, haddr⟩) ?_
    (h.index_le_clock hw hwb.to_reflTransGen)
  rintro rfl
  exact h.acyclic w hwb

/-- A write of the shown process is a program-order predecessor of the shown write or that
write itself. -/
theorem Saturated.shown_reaches {w w' b : ℕ} {c : VClock} (hw : w < g.size)
    (hw' : LastVisible g b c (g.events w).iid.pid w') (hle : w ≤ w') :
    w = w' ∨ TransGen (Edge g) w w' := by
  obtain ⟨hws, hwp, -, -⟩ := (h.layout.mem_writes _ _ w').mp hw'.1
  rcases Nat.eq_or_lt_of_le hle with heq | hlt
  · exact .inl heq
  · exact .inr (h.layout.po_reaches hw hws hwp.symm hlt)

/-- The from-read rule within the process of the source. -/
theorem Saturated.fromRead_po {w r : ℕ} (hr : r ∈ (g.events w).readers) (hw : w < g.size) :
    ∀ b, w < b → b < g.size → (g.events b).isStore = true →
      (g.events b).addr = (g.events w).addr → (g.events b).iid.pid = (g.events w).iid.pid →
      r = b ∨ TransGen (Edge g) r b := by
  intro b
  induction b using Nat.strong_induction_on with
  | _ b ih =>
      intro hlt hb hs haddr hpid
      by_cases hrb : r = b
      · exact .inl hrb
      right
      have hwb := h.layout.po_reaches hw hb hpid.symm hlt
      obtain ⟨hrs, hrf⟩ := (h.layout.mem_readers w hw r).mp hr
      obtain ⟨-, -, hws, -⟩ := h.layout.readFrom_spec r hrs w hrf
      obtain ⟨v, hv, hle⟩ := h.exists_shown hw hws haddr.symm hwb
      obtain ⟨hvs, hvp, hvst, hvaddr⟩ := (h.layout.mem_writes _ _ v).mp hv.1
      -- the shown write comes before `b`, or `b` would reach itself
      have hvb : v < b := by
        have hreach : ReflTransGen (Edge g) v b :=
          (h.reaches_iff hvs hb).mpr (by rw [hvp]; exact hv.2.2.1)
        rcases Nat.lt_trichotomy v b with hlt | heq | hgt
        · exact hlt
        · exact absurd heq hv.2.1
        · exact absurd ((h.layout.po_reaches hb hvs (hpid.trans hvp.symm) hgt).trans_left hreach)
            (h.acyclic b)
      rcases Nat.eq_or_lt_of_le hle with rfl | hwv
      · exact h.closed_store b hb hs _ w hv r hr (by rw [h.saturated_all]; exact hrs) hrb
      · have hvb' := h.layout.po_reaches hvs hb (hvp.trans hpid.symm) hvb
        rcases ih v hvb hwv hvs hvst (hvaddr.trans haddr) hvp with rfl | hrv
        · exact hvb'
        · exact hrv.trans hvb'

/-- Reachability is closed under the rules that generate the forced order. -/
theorem Saturated.closed : Closed (choice g given) (TransGen (Edge g)) where
  order := by
    rintro a b ⟨ha, hb, hpo | hgiven⟩
    · exact .single ⟨hb, mem_preds.mpr (.inl hpo)⟩
    · exact .single ⟨hb, mem_preds.mpr (.inr (.inr (h.given_in a ha b hb hgiven)))⟩
  readFrom := by
    rintro w r ⟨hr, -, hrf⟩
    exact .single ⟨hr, mem_preds.mpr (.inr (.inl hrf))⟩
  trans := fun hab hbc => hab.trans hbc
  fromInit := by
    rintro r w ⟨hr, hl, hrf⟩ ⟨hw, hs, haddr⟩ hne
    have hwmem := (h.layout.mem_writes (g.events w).iid.pid (g.events r).addr w).mpr
      ⟨hw, rfl, hs, haddr⟩
    obtain ⟨f, hfw, hf⟩ := h.layout.exists_first _ _ w hwmem
    obtain ⟨hfs, hfp, -, -⟩ := (h.layout.mem_writes _ _ f).mp (h.layout.first_mem _ _ f hf)
    have hpo : f = w ∨ TransGen (Edge g) f w := by
      rcases Nat.eq_or_lt_of_le hfw with heq | hlt
      · exact .inl heq
      · exact .inr (h.layout.po_reaches hfs hw hfp hlt)
    have hrmem := (h.layout.mem_readsFromInit (g.events r).addr r).mpr ⟨hr, hl, hrf, rfl⟩
    rcases h.init_in _ _ f r hf hrmem with rfl | hin
    · exact hpo.resolve_left (fun heq => hne heq.symm)
    · have hrf' : Edge g r f := ⟨hfs, mem_preds.mpr (.inr (.inr hin))⟩
      rcases hpo with rfl | hfw'
      · exact .single hrf'
      · exact .head hrf' hfw'
  fromRead := by
    rintro w r w' ⟨hr, hl, hrf⟩ ⟨hw', hs', haddr'⟩ hne hner hww'
    obtain ⟨hlt, -, hws, hwaddr⟩ := h.layout.readFrom_spec r hr w hrf
    have hw : w < g.size := hlt.trans hr
    have hmem := (h.layout.mem_readers w hw r).mpr ⟨hr, hrf⟩
    have haddr : (g.events w).addr = (g.events w').addr := hwaddr.trans haddr'.symm
    obtain ⟨v, hv, hle⟩ := h.exists_shown hw hws haddr hww'
    obtain ⟨hvs, hvp, hvst, hvaddr⟩ := (h.layout.mem_writes _ _ v).mp hv.1
    rcases Nat.eq_or_lt_of_le hle with rfl | hwv
    · exact h.closed_store w' hw' hs' _ w hv r hmem (by rw [h.saturated_all]; exact hr)
        (Ne.symm hner)
    · have hreach : ReflTransGen (Edge g) v w' :=
        (h.reaches_iff hvs hw').mpr (by rw [hvp]; exact hv.2.2.1)
      have hvw' : TransGen (Edge g) v w' := by
        rcases reflTransGen_iff_eq_or_transGen.mp hreach with heq | htrans
        · exact absurd heq.symm hv.2.1
        · exact htrans
      rcases h.fromRead_po hmem hw v hwv hvs hvst (hvaddr.trans haddr.symm) hvp with rfl | hrv
      · exact hvw'
      · exact hrv.trans hvw'
  coherence := by
    rintro w r w' ⟨hr, hl, hrf⟩ ⟨hw', hs', haddr'⟩ hne hner hw'r
    obtain ⟨v, hv, hle⟩ := h.exists_shown hw' hs' haddr' hw'r
    obtain ⟨s, hs, hvs⟩ := h.closed_load r hr hl _ v hv
    obtain rfl : w = s := Option.some.inj (hrf.symm.trans hs)
    rcases h.shown_reaches hw' hv hle with rfl | hw'v
    · exact hvs.resolve_left hne
    · rcases hvs with rfl | hvw
      · exact hw'v
      · exact hw'v.trans hvw

theorem Saturated.reach_iff_forced {a b : ℕ} :
    TransGen (Edge g) a b ↔ Forced (choice g given) a b :=
  ⟨h.reach_forced, h.closed.of_forced⟩

theorem Saturated.not_forced_self (e : ℕ) : ¬ Forced (choice g given) e e :=
  fun hcyc => h.acyclic e (h.reach_iff_forced.mpr hcyc)

end Saturated

/-- The forced order alone determines the clocks of a saturated graph. -/
theorem Saturated.clock_unique {given : IID → IID → Prop} {g g' : SaturatedGraph}
    (h : Saturated given g) (h' : Saturated given g') (hs : SameLayout g g') {b : ℕ}
    (hb : b < g.size) (p : ℕ) : (g.vclocks b).get p = (g'.vclocks b).get p := by
  have hreach : ∀ {a}, ReflTransGen (Edge g) a b ↔ ReflTransGen (Edge g') a b := by
    intro a
    rw [reflTransGen_iff_eq_or_transGen, reflTransGen_iff_eq_or_transGen, h.reach_iff_forced,
      h'.reach_iff_forced, choice_of_same hs]
  have hb' : b < g'.size := by rw [hs.size]; exact hb
  obtain ⟨hle, hex⟩ := h.clock_exact hb p
  obtain ⟨hle', hex'⟩ := h'.clock_exact hb' p
  rw [hs.events, hs.size] at hle' hex'
  apply le_antisymm
  · rcases hex with ⟨a, ha, hap, hab, hai⟩ | ⟨hz, -⟩
    · rw [← hai]
      exact hle' a ha hap (hreach.mp hab)
    · omega
  · rcases hex' with ⟨a, ha, hap, hab, hai⟩ | ⟨hz, -⟩
    · rw [← hai]
      exact hle a ha hap (hreach.mpr hab)
    · omega

end Nidhugg.SaturatedGraph
