import Nidhugg.Verification.SaturatedGraph.Reverse
import Mathlib.Data.Finset.Max

/-! # When reverse saturation succeeds

Reverse saturation breaks an assertion exactly when two events below an old write that a
new event reads reach each other. Otherwise it restores the saturation invariant for the
new readers. -/

namespace Nidhugg.SaturatedGraph

open Relation ReadsFrom PostOrder

/-! ## Spreading zeros -/

/-- Every entry of the clock is zero. -/
def AllZero (c : ClockRef) : Prop := ∀ p, c.getD p 0 = 0

theorem computeBelow_allZero (g : SaturatedGraph) (top : VClock) (below : ℕ → ClockRef)
    {id z : ℕ} (hz : z ∈ g.succs id) (hne : z ≠ id) (hzero : AllZero (below z)) :
    AllZero (g.computeBelow top below id id) := by
  obtain ⟨hlen, hk⟩ := computeBelow_spec g top below id
  intro p
  by_cases hp : p < g.numPids
  · by_contra hpos
    have := ((hk p hp 1).mp (by omega)).2 z hz hne
    rw [hzero p] at this
    omega
  · rw [List.getD_eq_getElem?_getD, List.getElem?_eq_none (by omega)]
    rfl

/-- The graph has been extended while the events of `g` stayed the same. -/
structure Grown (g g' : SaturatedGraph) : Prop where
  layout : SameLayout g g'
  saturatedUntil : g'.saturatedUntil = g.saturatedUntil
  outs_mono : ∀ a b, b ∈ g.outs a → b ∈ g'.outs a
  queueOk : QueueOk g'

theorem Extends.grown {g g' : SaturatedGraph} {edge : ℕ → ℕ → Prop} {queued : ℕ → Prop}
    (h : Extends g g' edge queued) : Grown g g' :=
  ⟨h.layout, h.saturatedUntil, fun a b hb => (h.mem_outs a b).mpr (.inl hb), h.queueOk⟩

theorem Grown.refl {g : SaturatedGraph} (hq : QueueOk g) : Grown g g :=
  ⟨.refl g, rfl, fun _ _ hb => hb, hq⟩

theorem Grown.trans {g g' g'' : SaturatedGraph} (h : Grown g g') (h' : Grown g' g'') :
    Grown g g'' :=
  ⟨h.layout.trans h'.layout, h'.saturatedUntil.trans h.saturatedUntil,
    fun a b hb => h'.outs_mono a b (h.outs_mono a b hb), h'.queueOk⟩

theorem Grown.mem_succs {g g' : SaturatedGraph} (h : Grown g g') {a b : ℕ}
    (hb : b ∈ g.succs a) : b ∈ g'.succs a := by
  simp only [succs, poSuccessor, List.mem_append, h.layout.events, h.layout.eventsByPid] at hb ⊢
  exact hb.imp_right (h.outs_mono a b)

theorem Grown.newOut_eq {g g' : SaturatedGraph} (h : Grown g g') (w : ℕ) :
    g'.newOut w = g.newOut w := by
  simp only [newOut, h.layout.events, h.saturatedUntil]

theorem reverseProc_result {g : SaturatedGraph} (hq : QueueOk g) (id : ℕ) (addr : SymAddr)
    (c : ClockRef) (out : List ℕ) (p : ℕ) :
    reverseProc id addr c out g p = .error .zeroIndex ∨
      ∃ g', reverseProc id addr c out g p = .ok g' ∧ Grown g g' ∧ c.getD p 0 ≠ 0 := by
  by_cases hz : c.getD p 0 = 0
  · left
    simp only [reverseProc, firstVisibleWrite, maybeGetProcessEvent, hz, if_true, Bind.bind,
      Except.bind]
  · right
    have hlook : ∃ o, g.firstVisibleWrite id addr c p = .ok o := by
      unfold firstVisibleWrite maybeGetProcessEvent
      rw [if_neg hz]
      cases (g.eventsByPid p)[c.getD p 0 - 1]? with
      | none => exact ⟨none, rfl⟩
      | some fv =>
          simp only [Bind.bind, Except.bind, Pure.pure, Except.pure]
          split <;> exact ⟨_, rfl⟩
    obtain ⟨o, ho⟩ := hlook
    cases o with
    | none =>
        refine ⟨g, ?_, .refl hq, hz⟩
        simp [reverseProc, ho, Bind.bind, Except.bind, Pure.pure, Except.pure]
    | some pe =>
        refine ⟨_, ?_, (addReaderEdges_extends hq pe out).grown, hz⟩
        simp [reverseProc, ho, Bind.bind, Except.bind, Pure.pure, Except.pure]

theorem reverseProcs_result (id : ℕ) (addr : SymAddr) (c : ClockRef) (out pids : List ℕ) :
    ∀ {g : SaturatedGraph}, QueueOk g →
      pids.foldlM (reverseProc id addr c out) g = .error .zeroIndex ∨
        ∃ g', pids.foldlM (reverseProc id addr c out) g = .ok g' ∧ Grown g g' ∧
          ∀ p ∈ pids, c.getD p 0 ≠ 0 := by
  induction pids with
  | nil => exact fun hq => .inr ⟨_, rfl, .refl hq, by simp⟩
  | cons p pids ih =>
      intro g hq
      rcases reverseProc_result hq id addr c out p with herr | ⟨g₁, hrun, hg₁, hpos⟩
      · left
        simp [List.foldlM_cons, herr, Bind.bind, Except.bind]
      · rcases ih hg₁.queueOk with herr | ⟨g₂, hrun₂, hg₂, hpos₂⟩
        · left
          simp [List.foldlM_cons, hrun, herr, Bind.bind, Except.bind]
        · right
          refine ⟨g₂, by simp [List.foldlM_cons, hrun, hrun₂, Bind.bind, Except.bind],
            hg₁.trans hg₂, ?_⟩
          intro q hq
          rcases List.mem_cons.mp hq with rfl | hq
          · exact hpos
          · exact hpos₂ q hq

theorem reverseOne_result {g : SaturatedGraph} (hq : QueueOk g) (top : VClock)
    (below : ℕ → ClockRef) (id : ℕ) :
    reverseOne top (g, below) id = .error .zeroIndex ∨
      ∃ g', reverseOne top (g, below) id = .ok (g', g.computeBelow top below id) ∧ Grown g g' ∧
        (g.newOut id ≠ [] → ∀ p < g.numPids,
          (g.computeBelow top below id id).getD p 0 ≠ 0) := by
  by_cases hempty : (g.newOut id).isEmpty = true
  · refine .inr ⟨g, ?_, .refl hq, fun hne => absurd (List.isEmpty_iff.mp hempty) hne⟩
    simp only [reverseOne, hempty, if_true, Pure.pure, Except.pure]
  · rcases reverseProcs_result id (g.events id).addr (g.computeBelow top below id id)
      (g.newOut id) (List.range g.numPids) hq with herr | ⟨g', hrun, hg', hpos⟩
    · left
      simp only [reverseOne, hempty, if_false, herr, Bind.bind, Except.bind, Bool.false_eq_true]
    · refine .inr ⟨g', ?_, hg', fun _ p hp => hpos p (List.mem_range.mpr hp)⟩
      simp only [reverseOne, hempty, if_false, hrun, Bind.bind, Except.bind, Pure.pure,
        Except.pure, Bool.false_eq_true]

/-- What a completed run of the reverse loop says about the events it has handled. -/
structure Handled (g : SaturatedGraph) (order : List ℕ) (below below' : ℕ → ClockRef) :
    Prop where
  unchanged : ∀ y ∉ order, below' y = below y
  spreads : ∀ l₁ x l₂, order = l₁ ++ x :: l₂ → ∀ z ∈ g.succs x, z ≠ x →
    (z ∈ l₁ → AllZero (below' z)) → (z ∉ l₁ → AllZero (below z)) → AllZero (below' x)
  nonzero : ∀ x ∈ order, g.newOut x ≠ [] → ∀ p < g.numPids, (below' x).getD p 0 ≠ 0

theorem reverse_result (g : SaturatedGraph) (top : VClock) (order : List ℕ) :
    ∀ (g₁ : SaturatedGraph) (below : ℕ → ClockRef), Grown g g₁ → order.Nodup →
      order.foldlM (reverseOne top) (g₁, below) = .error .zeroIndex ∨
        ∃ s', order.foldlM (reverseOne top) (g₁, below) = .ok s' ∧
          Handled g order below s'.2 := by
  induction order with
  | nil =>
      intro g₁ below _ _
      exact .inr ⟨(g₁, below), rfl, fun _ _ => rfl, by simp, by simp⟩
  | cons id order ih =>
      intro g₁ below hg₁ hnodup
      obtain ⟨hid, hnodup'⟩ := List.nodup_cons.mp hnodup
      rcases reverseOne_result hg₁.queueOk top below id with herr | ⟨g₂, hrun, hg₂, hpos⟩
      · left
        simp [List.foldlM_cons, herr, Bind.bind, Except.bind]
      rcases ih g₂ (g₁.computeBelow top below id) (hg₁.trans hg₂) hnodup' with
        herr | ⟨s', hrun', hs'⟩
      · left
        simp [List.foldlM_cons, hrun, herr, Bind.bind, Except.bind]
      right
      refine ⟨s', by simp [List.foldlM_cons, hrun, hrun', Bind.bind, Except.bind], ?_, ?_, ?_⟩
      · intro y hy
        rw [List.mem_cons, not_or] at hy
        rw [hs'.unchanged y hy.2, computeBelow_of_ne _ _ _ hy.1]
      · intro l₁ x l₂ hsplit z hz hne hin hout
        cases l₁ with
        | nil =>
            obtain ⟨rfl, rfl⟩ : id = x ∧ order = l₂ := by simpa using hsplit
            rw [hs'.unchanged id hid]
            exact computeBelow_allZero g₁ top below (hg₁.mem_succs hz) hne (hout (by simp))
        | cons y l₁ =>
            obtain ⟨rfl, hsplit'⟩ : id = y ∧ order = l₁ ++ x :: l₂ := by simpa using hsplit
            refine hs'.spreads l₁ x l₂ hsplit' z hz hne (fun hzl => hin (by simp [hzl])) ?_
            intro hzl
            by_cases hzid : z = id
            · subst hzid
              rw [← hs'.unchanged z hid]
              exact hin (by simp)
            · rw [computeBelow_of_ne _ _ _ hzid]
              exact hout (by simp [hzid, hzl])
      · intro x hx hnew p hp
        rcases List.mem_cons.mp hx with rfl | hx
        · rw [hs'.unchanged x hid]
          exact hpos (by rwa [hg₁.newOut_eq]) p (by rwa [hg₁.layout.numPids])
        · exact hs'.nonzero x hx hnew p hp

/-! ## The care set -/

theorem mem_careRoots {g : SaturatedGraph} {w : ℕ} :
    w ∈ g.careRoots ↔ w < g.saturatedUntil ∧ ∃ r, g.saturatedUntil ≤ r ∧ r < g.size ∧
      (g.events r).isLoad = true ∧ (g.events r).readFrom = some w := by
  unfold careRoots
  rw [List.mem_filterMap]
  constructor
  · rintro ⟨r, hr, hval⟩
    split at hval
    · rename_i hcond
      split at hval
      · rename_i v hrf
        split at hval
        · rename_i hv
          obtain rfl : v = w := Option.some.inj hval
          simp only [Bool.and_eq_true, decide_eq_true_eq] at hcond
          exact ⟨hv, r, hcond.1, List.mem_range.mp hr, hcond.2, hrf⟩
        · exact absurd hval (by simp)
      · exact absurd hval (by simp)
    · exact absurd hval (by simp)
  · rintro ⟨hw, r, hge, hr, hl, hrf⟩
    exact ⟨r, List.mem_range.mpr hr, by simp [hge, hl, hrf, hw]⟩

/-- Two different events below an old write that a new event reads reach each other. -/
def Tangled (g : SaturatedGraph) : Prop :=
  ∃ w r x y, w < g.saturatedUntil ∧ g.saturatedUntil ≤ r ∧ r < g.size ∧
    (g.events r).readFrom = some w ∧ ReflTransGen (Edge g) w x ∧
    ReflTransGen (Edge g) x y ∧ ReflTransGen (Edge g) y x ∧ x ≠ y

theorem Layout.mem_careRoots {g : SaturatedGraph} (h : Layout g) {w : ℕ} :
    w ∈ g.careRoots ↔ w < g.saturatedUntil ∧ ∃ r, g.saturatedUntil ≤ r ∧ r < g.size ∧
      (g.events r).readFrom = some w := by
  rw [SaturatedGraph.mem_careRoots]
  refine and_congr_right fun _ => exists_congr fun r => ?_
  constructor
  · rintro ⟨hge, hr, -, hrf⟩
    exact ⟨hge, hr, hrf⟩
  · rintro ⟨hge, hr, hrf⟩
    exact ⟨hge, hr, (h.readFrom_spec r hr w hrf).2.1, hrf⟩

section Care

variable {g : SaturatedGraph} (h : Layout g) (hl : Links g)
include h hl

theorem careSet_emitted : Emitted g.succs g.careRoots g.reverseCareSet := by
  have hsat : ∀ w ∈ g.careRoots, w < g.size := by
    intro w hw
    obtain ⟨-, r, -, hr, hrf⟩ := h.mem_careRoots.mp hw
    exact (h.readFrom_spec r hr w hrf).1.trans hr
  have huniv : ∀ y ∈ List.range g.size, ∀ z ∈ g.succs y, z ∈ List.range g.size := by
    intro y hy z hz
    exact List.mem_range.mpr ((h.mem_succs hl (List.mem_range.mp hy)).mp hz).1
  have hroots : ∀ w ∈ g.careRoots, w ∈ List.range g.size :=
    fun w hw => List.mem_range.mpr (hsat w hw)
  exact visitAll_emitted huniv hroots (by simp)

theorem reach_iff_edges {a b : ℕ} (ha : a < g.size) :
    ReflTransGen (Step g.succs) a b ↔ ReflTransGen (Edge g) a b := by
  constructor
  · intro hab
    have : b < g.size ∧ ReflTransGen (Edge g) a b := by
      induction hab with
      | refl => exact ⟨ha, .refl⟩
      | tail _ hbc ih =>
          have hedge := (h.mem_succs hl ih.1).mp hbc
          exact ⟨hedge.1, ih.2.tail hedge⟩
    exact this.2
  · intro hab
    have : b < g.size ∧ ReflTransGen (Step g.succs) a b := by
      induction hab with
      | refl => exact ⟨ha, .refl⟩
      | tail _ hbc ih => exact ⟨hbc.1, ih.2.tail ((h.mem_succs hl ih.1).mpr hbc)⟩
    exact this.2

theorem careSet_lt {x : ℕ} (hx : x ∈ g.reverseCareSet) : x < g.size := by
  have hem := careSet_emitted h hl
  obtain ⟨w, hw, hwx⟩ := hem.reached hx
  obtain ⟨-, r, -, hr, hrf⟩ := h.mem_careRoots.mp hw
  have hws := (h.readFrom_spec r hr w hrf).1.trans hr
  rcases ReflTransGen.cases_tail ((reach_iff_edges h hl hws).mp hwx) with rfl | ⟨c, -, hcx⟩
  · exact hws
  · exact hcx.1

/-- The care set is in reverse topological order exactly when nothing below its roots is
tangled. -/
theorem successorsFirst_iff_not_tangled :
    SuccessorsFirst g.succs g.reverseCareSet ↔ ¬ Tangled g := by
  have hem := careSet_emitted h hl
  rw [hem.successorsFirst_iff]
  constructor
  · rintro hacyc ⟨w, r, x, y, hw, hge, hr, hrf, hwx, hxy, hyx, hne⟩
    have hwmem := hem.roots_mem w (h.mem_careRoots.mpr ⟨hw, r, hge, hr, hrf⟩)
    have hws := careSet_lt h hl hwmem
    have hx : x ∈ g.reverseCareSet := hem.closed hwmem ((reach_iff_edges h hl hws).mpr hwx)
    have hxs := careSet_lt h hl hx
    have hxy' := (reach_iff_edges h hl hxs).mpr hxy
    have hys := careSet_lt h hl (hem.closed hx hxy')
    exact hne (hacyc x hx y hxy' ((reach_iff_edges h hl hys).mpr hyx))
  · intro hnot x hx y hxy hyx
    by_contra hne
    obtain ⟨w, hw, hwx⟩ := hem.reached hx
    have hws := careSet_lt h hl (hem.roots_mem w hw)
    have hxs := careSet_lt h hl hx
    have hys := careSet_lt h hl (hem.closed hx hxy)
    obtain ⟨hwsat, r, hge, hr, hrf⟩ := h.mem_careRoots.mp hw
    exact hnot ⟨w, r, x, y, hwsat, hge, hr, hrf, (reach_iff_edges h hl hws).mp hwx,
      (reach_iff_edges h hl hxs).mp hxy, (reach_iff_edges h hl hys).mp hyx, hne⟩

/-- On a tangled care set some clock is read before it has been computed, and its zeros
reach the root of the walk. -/
theorem reverse_faults (hq : QueueOk g) (htangled : Tangled g) :
    g.reverseCareSet.foldlM (reverseOne g.top) (g, fun _ => List.replicate g.numPids 0) =
      .error .zeroIndex := by
  have hem := careSet_emitted h hl
  rcases reverse_result g g.top g.reverseCareSet g (fun _ => List.replicate g.numPids 0)
      (.refl hq) hem.nodup with herr | ⟨s', -, hs'⟩
  · exact herr
  exfalso
  have hstart : ∀ z : ℕ, AllZero ((fun _ => List.replicate g.numPids 0 : ℕ → ClockRef) z) := by
    intro z p
    simp only [List.getD_eq_getElem?_getD, List.getElem?_replicate]
    split <;> rfl
  have hbad : ∃ u ∈ g.reverseCareSet, AllZero (s'.2 u) := by
    by_contra hno
    push Not at hno
    refine (successorsFirst_iff_not_tangled h hl).mp ?_ htangled
    intro l₁ y l₂ hsplit z hz hne
    by_contra hzl
    exact hno y (by rw [hsplit]; simp) (hs'.spreads l₁ y l₂ hsplit z hz hne
      (fun hin => absurd hin hzl) (fun _ => hstart z))
  obtain ⟨u, hu, hzero⟩ := hbad
  obtain ⟨w, hw, hwu⟩ := hem.descends u hu
  have hspread : ∀ a, ReflTransGen (Descends g.succs g.reverseCareSet) a u →
      AllZero (s'.2 a) := by
    intro a hau
    induction hau using ReflTransGen.head_induction_on with
    | refl => exact hzero
    | @head a c hac _ ih =>
        obtain ⟨hstep, l₁, l₂, hsplit, hc⟩ := hac
        have hne : c ≠ a := by
          rintro rfl
          have hnodup := hem.nodup
          rw [hsplit] at hnodup
          exact (List.nodup_append.mp hnodup).2.2 c hc c (by simp) rfl
        exact hs'.spreads l₁ a l₂ hsplit c hstep hne (fun _ => ih) (fun hout => absurd hc hout)
  -- the root is a store with a new reader, so its clock has been looked up
  obtain ⟨hwsat, r, hge, hr, hrf⟩ := h.mem_careRoots.mp hw
  have hwmem := hem.roots_mem w hw
  have hws := careSet_lt h hl hwmem
  have hrnew : r ∈ g.newOut w := (mem_newOut h hws).mpr ⟨hr, hrf, hge⟩
  exact hs'.nonzero w hwmem (List.ne_nil_of_mem hrnew) (g.events w).iid.pid (h.pid_lt w hws)
    (hspread w hwu _)

end Care

/-! ## The invariant after reverse saturation -/

theorem exists_firstBelow {g : SaturatedGraph} (h : Layout g) {w b : ℕ}
    (hb : b ∈ g.writesByProcessAndAddress (g.events b).iid.pid (g.events w).addr) (hne : b ≠ w)
    (hwb : ReflTransGen (Edge g) w b) :
    ∃ pe ≤ b, FirstBelow g w (g.events b).iid.pid pe := by
  classical
  set below := (Finset.range g.size).filter fun x =>
    x ∈ g.writesByProcessAndAddress (g.events b).iid.pid (g.events w).addr ∧ x ≠ w ∧
      ReflTransGen (Edge g) w x with hbelow
  have hmem : ∀ {x}, x ∈ g.writesByProcessAndAddress (g.events b).iid.pid (g.events w).addr →
      x ≠ w → ReflTransGen (Edge g) w x → x ∈ below := by
    intro x hx hxw hwx
    rw [hbelow, Finset.mem_filter, Finset.mem_range]
    exact ⟨((h.mem_writes _ _ x).mp hx).1, hx, hxw, hwx⟩
  obtain ⟨m, hm, hmin⟩ := below.exists_min_image id ⟨b, hmem hb hne hwb⟩
  obtain ⟨-, hm₁, hm₂, hm₃⟩ := Finset.mem_filter.mp hm
  exact ⟨m, hmin b (hmem hb hne hwb), hm₁, hm₂, hm₃,
    fun x hx hxw hwx => hmin x (hmem hx hxw hwx)⟩

theorem Core.missedEdge_forced {given : IID → IID → Prop} {g : SaturatedGraph}
    (h : Core given g) {w a b : ℕ} (hw : w < g.size) (hab : missedEdge g w a b) :
    a < g.size ∧ b < g.size ∧ Forced (choice g given) a b := by
  obtain ⟨ha, hne, p, -, hmem, hbw, hwb, -⟩ := hab
  obtain ⟨has, harf, -⟩ := (mem_newOut h.layout hw).mp ha
  obtain ⟨-, hal, -, haddr⟩ := h.layout.readFrom_spec a has w harf
  obtain ⟨hbs, -, hst, hbaddr⟩ := (h.layout.mem_writes _ _ b).mp hmem
  have htrans : TransGen (Edge g) w b := by
    rcases reflTransGen_iff_eq_or_transGen.mp hwb with heq | htrans
    · exact absurd heq hbw
    · exact htrans
  exact ⟨has, hbs, .fromRead ⟨has, hal, harf⟩ ⟨hbs, hst, hbaddr.trans haddr⟩ hbw hne.symm
    (h.reach_forced htrans)⟩

/-- A graph that has the from-read edges of its new readers satisfies the invariant for
all readers. -/
theorem Invariant.extend_readers {given : IID → IID → Prop} {g : SaturatedGraph}
    (h : Invariant given g)
    (hnew : ∀ w < g.saturatedUntil, ∀ r ∈ g.newOut w, ∀ b < g.size,
      (g.events b).isStore = true → (g.events b).addr = (g.events w).addr → b ≠ w → r ≠ b →
      (g.events w).iid.index ≤ (g.vclocks b).get (g.events w).iid.pid →
      TransGen (Edge g) r b) :
    Invariant given { g with saturatedUntil := g.size } where
  layout := h.layout.of_same ⟨rfl, rfl, rfl, rfl, rfl, rfl, rfl, rfl⟩
  links := ⟨h.links.ins_lt, h.links.in_out, h.links.po_out, h.links.out_in⟩
  queueOk := ⟨h.queueOk.nodup, h.queueOk.set_iff⟩
  queue_lt := h.queue_lt
  saturated_le := le_rfl
  given_known := h.given_known
  given_in := h.given_in
  ins_forced := h.ins_forced
  clock_le := h.clock_le
  clock_reach := h.clock_reach
  clock_old := fun a ha _ _ _ => ha
  fresh_clock := fun b hb hge => absurd hb (Nat.not_lt.mpr hge)
  closed_store := by
    intro b hb hs p w hw r hr hrs hne
    by_cases hold : r < g.saturatedUntil
    · exact h.closed_store b hb hs p w hw r hr hold hne
    · obtain ⟨hmem, hwb, hidx, -⟩ := hw
      obtain ⟨hws, rfl, hwst, haddr⟩ := (h.layout.mem_writes _ _ w).mp hmem
      have hwsat := h.clock_old w hws b hb hidx
      obtain ⟨hrsize, hrf⟩ := (h.layout.mem_readers w hws r).mp hr
      have hrnew : r ∈ g.newOut w :=
        (mem_newOut h.layout hws).mpr ⟨hrsize, hrf, Nat.le_of_not_lt hold⟩
      exact hnew w hwsat r hrnew b hb hs haddr.symm hwb.symm hne hidx
  closed_load := h.closed_load
  init_in := h.init_in
  settled := fun b hb hq => ⟨(h.settled b hb hq).clock_eq, (h.settled b hb hq).pred_ne⟩

/-- Reverse saturation breaks its assertion on a tangled graph and adds the missed edges to every
other graph. -/
theorem reverseSaturate_cases {g : SaturatedGraph} (h : Layout g) (hl : Links g)
    (hq : QueueOk g) :
    (Tangled g ∧ g.reverseSaturate = .error .zeroIndex) ∨
      (¬ Tangled g ∧ ∃ g₁, g.reverseSaturate = .ok { g₁ with saturatedUntil := g₁.size } ∧
        Extends g g₁ (fun a b => ∃ w ∈ g.reverseCareSet, missedEdge g w a b)
          (fun x => ∃ w ∈ g.reverseCareSet, ∃ a, missedEdge g w a x)) := by
  by_cases hcond : g.saturatedUntil ≠ 0 ∧ g.saturatedUntil ≠ g.size
  · by_cases htangled : Tangled g
    · refine .inl ⟨htangled, ?_⟩
      simp only [SaturatedGraph.reverseSaturate, if_pos hcond,
        reverse_faults h hl hq htangled, Bind.bind, Except.bind]
    · right
      have hfirst := (successorsFirst_iff_not_tangled h hl).mpr htangled
      have hem := careSet_emitted h hl
      have hstart : Reversed g [] (g, fun _ => List.replicate g.numPids 0) :=
        ⟨(Extends.refl hq).congr (by simp) (by simp), by simp⟩
      obtain ⟨⟨g₁, below⟩, hrun, hrev⟩ := Reversed.foldlM h hl g.reverseCareSet [] _
        (by simpa using hem.nodup) (by simpa using fun x hx => careSet_lt h hl hx)
        (by simpa using hfirst) hstart
      refine ⟨htangled, g₁, ?_, by simpa using hrev.edges⟩
      simp only [SaturatedGraph.reverseSaturate, if_pos hcond, hrun, Bind.bind, Except.bind,
        Pure.pure, Except.pure]
  · right
    have hroots : ∀ w, w ∉ g.careRoots := by
      intro w hw
      obtain ⟨hwsat, r, hge, hr, -⟩ := h.mem_careRoots.mp hw
      exact hcond ⟨by omega, by omega⟩
    have hcare : ∀ x, x ∉ g.reverseCareSet := by
      intro x hx
      obtain ⟨w, hw, -⟩ := (careSet_emitted h hl).reached hx
      exact hroots w hw
    refine ⟨?_, g, ?_, (Extends.refl hq).congr (by simp [hcare]) (by simp [hcare])⟩
    · rintro ⟨w, r, -, -, hw, hge, hr, hrf, -⟩
      exact hroots w (h.mem_careRoots.mpr ⟨hw, r, hge, hr, hrf⟩)
    · simp only [SaturatedGraph.reverseSaturate, if_neg hcond, Bind.bind, Except.bind,
        Pure.pure, Except.pure]

theorem missedEdge_lt {g : SaturatedGraph} (h : Layout g) {w a b : ℕ} (hw : w < g.size)
    (hab : missedEdge g w a b) : a < g.size ∧ b < g.size := by
  obtain ⟨ha, -, p, -, hmem, -⟩ := hab
  exact ⟨((mem_newOut h hw).mp ha).1, ((h.mem_writes _ _ b).mp hmem).1⟩

/-- Reverse saturation breaks its assertion on a tangled graph and restores the invariant
on every other graph. -/
theorem Invariant.reverseSaturate {given : IID → IID → Prop} {g : SaturatedGraph}
    (h : Invariant given g) :
    (Tangled g ∧ g.reverseSaturate = .error .zeroIndex) ∨
      (¬ Tangled g ∧ ∃ g', g.reverseSaturate = .ok g' ∧ Invariant given g' ∧ SameLayout g g' ∧
        g'.saturatedUntil = g'.size) := by
  have hem := careSet_emitted h.layout h.links
  rcases reverseSaturate_cases h.layout h.links h.queueOk with hfault | ⟨htangled, g₁, hrun, hx⟩
  · exact .inl hfault
  right
  have hforced : ∀ a b, (∃ w ∈ g.reverseCareSet, missedEdge g w a b) →
      a < g.size ∧ b < g.size ∧ Forced (choice g given) a b := by
    rintro a b ⟨w, hw, hab⟩
    exact h.toCore.missedEdge_forced (careSet_lt h.layout h.links hw) hab
  have h₁ : Invariant given g₁ := by
    refine ⟨h.toCore.of_extends hx (fun _ _ hg => hg) h.given_known
      (fun _ _ _ _ hg => .inl hg) hforced ?_, ?_, ?_⟩
    · rintro x ⟨w, hw, a, hax⟩
      exact (hforced a x ⟨w, hw, hax⟩).2.1
    · exact h.init_in.mono hx.layout fun a b ha => (hx.mem_ins a b).mpr (.inl ha)
    · intro b hb hbq
      rw [hx.layout.size] at hb
      rw [hx.mem_queue, not_or] at hbq
      refine (h.settled b hb hbq.1).of_extends hx hb ?_
      rintro a ⟨w, hw, hab⟩
      exact hbq.2 ⟨w, hw, a, hab⟩
  refine ⟨htangled, _, hrun, h₁.extend_readers ?_,
    hx.layout.trans ⟨rfl, rfl, rfl, rfl, rfl, rfl, rfl, rfl⟩, rfl⟩
  rw [hx.layout.size, hx.layout.events, hx.vclocks, hx.saturatedUntil]
  intro w hwsat r hr b hb hs haddr hbw hrb hidx
  rw [hx.grown.newOut_eq] at hr
  have hws : w < g.size := lt_of_lt_of_le hwsat h.saturated_le
  have hwb := h.toCore.shown_reach hb hws hbw.symm (hidx.trans (h.clock_le b hb _))
  have hbmem := (h.layout.mem_writes _ (g.events w).addr b).mpr ⟨hb, rfl, hs, haddr⟩
  obtain ⟨pe, hle, hpe⟩ := exists_firstBelow h.layout hbmem hbw hwb.to_reflTransGen
  obtain ⟨hps, hpp, -, -⟩ := (h.layout.mem_writes _ _ pe).mp hpe.1
  have hpo : pe = b ∨ TransGen (Edge g₁) pe b := by
    rcases Nat.eq_or_lt_of_le hle with heq | hlt
    · exact .inl heq
    · exact .inr (TransGen.mono (fun _ _ => Edge.of_extends hx) _ _
        (h.layout.po_reaches hps hb hpp hlt))
  by_cases hrpe : r = pe
  · subst hrpe
    exact hpo.resolve_left hrb
  · obtain ⟨hrs, hrf, hge⟩ := (mem_newOut h.layout hws).mp hr
    have hroot : w ∈ g.careRoots := h.layout.mem_careRoots.mpr ⟨hwsat, r, hge, hrs, hrf⟩
    have hmissed : missedEdge g w r pe := ⟨hr, hrpe, _, h.layout.pid_lt b hb, hpe⟩
    have hedge : Edge g₁ r pe := by
      refine ⟨by rw [hx.layout.size]; exact hps, mem_preds.mpr (.inr (.inr ?_))⟩
      exact (hx.mem_ins r pe).mpr (.inr ⟨w, hem.roots_mem w hroot, hmissed⟩)
    rcases hpo with rfl | hpo
    · exact .single hedge
    · exact .head hedge hpo

end Nidhugg.SaturatedGraph
