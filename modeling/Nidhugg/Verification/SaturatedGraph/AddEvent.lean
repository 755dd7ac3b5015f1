import Nidhugg.Library.FoldInvariant
import Nidhugg.Verification.SaturatedGraph.NewEvent
import Nidhugg.Verification.SaturatedGraph.Invariant

/-! # Adding events and edges

A new event keeps the saturation invariant: old clocks show what they showed before, and
the edges that come with the event are forced. So is an edge that the caller adds. -/

namespace Nidhugg.SaturatedGraph

open Relation ReadsFrom

section Preservation

variable {given : IID → IID → Prop} {g : SaturatedGraph} {s : EventSpec}
  {readFrom : Option ℕ} {origIn : List ℕ}

theorem withEvent_preds {a b : ℕ} (hb : b < g.size) :
    a ∈ preds ((g.withEvent s readFrom).events b) ((g.withEvent s readFrom).ins b) ↔
      a ∈ preds (g.events b) (g.ins b) := by
  have hold := (withEvent_old g s readFrom hb).1
  have hins : (g.withEvent s readFrom).ins b = g.ins b := by
    simp [withEvent, withWrite, withReader, addProgramOrder, hb.ne]
  rw [mem_preds, mem_preds, hold.poPredecessor, hold.readFrom, hins]

theorem withEvent_vclocks {b : ℕ} (hb : b < g.size) :
    (g.withEvent s readFrom).vclocks b = g.vclocks b := by
  simp [withEvent, withWrite, withReader, addProgramOrder, hb.ne]

theorem withEvent_clock_new (p : ℕ) :
    ((g.withEvent s readFrom).vclocks g.size).get p = 0 := by
  simp [withEvent, VClock.get_empty]

theorem Edge.withEvent {a b : ℕ} (hab : Edge g a b) : Edge (g.withEvent s readFrom) a b :=
  ⟨Nat.lt_succ_of_lt hab.1, (withEvent_preds hab.1).mpr hab.2⟩

theorem Core.nextVc_withEvent (h : Core given g) {b : ℕ} (hb : b < g.size) (p : ℕ) :
    ((g.withEvent s readFrom).nextVc b).get p = (g.nextVc b).get p := by
  refine nextVc_congr (withEvent_old g s readFrom hb).1.iid
    (fun a => withEvent_preds hb) (fun a ha => ?_) p
  exact withEvent_vclocks (h.layout.edge_lt h.links ⟨hb, ha⟩).1

theorem forced_withEvent {a b : ℕ} (hab : Forced (choice g given) a b) :
    Forced (choice (g.withEvent s readFrom) given) a b := by
  have hold : ∀ {i}, i < g.size →
      SameButReaders (g.events i) ((g.withEvent s readFrom).events i) :=
    fun hi => (withEvent_old g s readFrom hi).1
  refine Forced.mono ?_ ?_ ?_ ?_ ?_ ?_ hab
  · rintro a b ⟨ha, hb, hor⟩
    refine ⟨Nat.lt_succ_of_lt ha, Nat.lt_succ_of_lt hb, ?_⟩
    rwa [(hold hb).poPredecessor, (hold ha).extId, (hold hb).extId]
  · exact fun hi => Nat.lt_succ_of_lt hi
  · exact fun hi hs => (hold hi).isStore.trans hs
  · exact fun hi hl => (hold hi).isLoad.trans hl
  · exact fun hi => (hold hi).addr
  · exact fun hi => (hold hi).readFrom

/-- What an old clock shows last does not change. -/
theorem Core.lastVisible_withEvent (h : Core given g) {b p w : ℕ} (hb : b < g.size)
    (hw : LastVisible (g.withEvent s readFrom) b (g.vclocks b) p w) :
    LastVisible g b (g.vclocks b) p w := by
  have haddr : ((g.withEvent s readFrom).events b).addr = (g.events b).addr :=
    (withEvent_old g s readFrom hb).1.addr
  obtain ⟨hmem, hne, hidx, hmax⟩ := hw
  rw [haddr, withEvent_writes] at hmem
  have hle : (g.vclocks b).get p ≤ (g.eventsByPid p).length :=
    (h.clock_le b hb p).trans (h.nextVc_le_length hb p)
  have hmem' : w ∈ g.writesByProcessAndAddress p (g.events b).addr := by
    split at hmem
    · rename_i hc
      rcases List.mem_append.mp hmem with hmem | hmem
      · exact hmem
      · rw [List.mem_singleton.mp hmem, withEvent_new, h.layout.newEvent_index] at hidx
        rw [hc.2.1] at hle hidx
        omega
    · exact hmem
  have hws := ((h.layout.mem_writes _ _ w).mp hmem').1
  rw [(withEvent_old g s readFrom hws).1.iid] at hidx
  refine ⟨hmem', hne, hidx, fun w' hw' hne' hidx' => ?_⟩
  have hws' := ((h.layout.mem_writes _ _ w').mp hw').1
  refine hmax w' ?_ hne' ?_
  · rw [haddr, withEvent_writes]
    split
    · exact List.mem_append.mpr (.inl hw')
    · exact hw'
  · rw [(withEvent_old g s readFrom hws').1.iid]
    exact hidx'

theorem withEvent_mem_outs {a b : ℕ} :
    b ∈ (g.withEvent s readFrom).outs a ↔ b ∈ g.outs a ∨
      ((g.eventsByPid s.pid).getLast? = some a ∧ b = g.size) := by
  have hrun : (g.withEvent s readFrom).outs = (g.eventsByPid s.pid).getLast?.elim g.outs fun p =>
      Function.update g.outs p (g.outs p ++ [g.size]) := by
    cases hlast : (g.eventsByPid s.pid).getLast? with
    | none => simp [SaturatedGraph.withEvent, addProgramOrder, withReader, withWrite, hlast]
    | some p => simp [SaturatedGraph.withEvent, addProgramOrder, withReader, withWrite, hlast]
  rw [hrun]
  cases hlast : (g.eventsByPid s.pid).getLast? with
  | none => simp
  | some p =>
      by_cases hp : a = p
      · subst hp
        simp
      · simp [hp, Ne.symm hp]

theorem Links.withEvent (h : Links g) (hlay : Layout g) : Links (g.withEvent s readFrom) := by
  have hlt : ∀ {i}, i < (g.withEvent s readFrom).size → i < g.size ∨ i = g.size :=
    fun hi => Nat.lt_succ_iff_lt_or_eq.mp hi
  have hins : ∀ {b}, b < g.size → (g.withEvent s readFrom).ins b = g.ins b := by
    intro b hb
    simp [SaturatedGraph.withEvent, withWrite, withReader, addProgramOrder, hb.ne]
  have hinsNew : (g.withEvent s readFrom).ins g.size = [] := by
    simp [SaturatedGraph.withEvent, withWrite, withReader, addProgramOrder]
  have hnew := withEvent_new g s readFrom
  constructor
  case ins_lt =>
    intro b hb a ha
    rcases hlt hb with hb | rfl
    · rw [hins hb] at ha
      exact Nat.lt_succ_of_lt (h.ins_lt b hb a ha)
    · rw [hinsNew] at ha
      exact absurd ha (by simp)
  case in_out =>
    intro b hb a ha
    rcases hlt hb with hb | rfl
    · rw [hins hb] at ha
      exact withEvent_mem_outs.mpr (.inl (h.in_out b hb a ha))
    · rw [hinsNew] at ha
      exact absurd ha (by simp)
  case po_out =>
    intro b hb a ha
    rcases hlt hb with hb | rfl
    · rw [(withEvent_old g s readFrom hb).1.poPredecessor] at ha
      exact withEvent_mem_outs.mpr (.inl (h.po_out b hb a ha))
    · rw [hnew] at ha
      exact withEvent_mem_outs.mpr (.inr ⟨ha, rfl⟩)
  case out_in =>
    intro a b hb
    rcases withEvent_mem_outs.mp hb with hb | ⟨hlast, rfl⟩
    · obtain ⟨ha, hb, hor⟩ := h.out_in a b hb
      rw [hins hb, (withEvent_old g s readFrom hb).1.poPredecessor]
      exact ⟨Nat.lt_succ_of_lt ha, Nat.lt_succ_of_lt hb, hor⟩
    · refine ⟨Nat.lt_succ_of_lt (hlay.getLast?_index.mp hlast).1, Nat.lt_succ_self _, .inr ?_⟩
      rw [hnew]
      exact hlast

theorem withEvent_not_lastVisible (h : Layout (g.withEvent s readFrom)) {p w : ℕ} :
    ¬ LastVisible (g.withEvent s readFrom) g.size
      ((g.withEvent s readFrom).vclocks g.size) p w := by
  rintro ⟨hmem, -, hidx, -⟩
  have hws := ((h.mem_writes _ _ w).mp hmem).1
  rw [withEvent_clock_new] at hidx
  exact absurd (h.get_index hws).1 (Nat.not_lt.mpr hidx)

theorem Core.withEvent (h : Core given g) (ha : Accepts g s readFrom origIn) :
    Core given (g.withEvent s readFrom) := by
  have hold : ∀ {i}, i < g.size →
      SameButReaders (g.events i) ((g.withEvent s readFrom).events i) :=
    fun hi => (withEvent_old g s readFrom hi).1
  have hlt : ∀ {i}, i < (g.withEvent s readFrom).size → i < g.size ∨ i = g.size :=
    fun hi => Nat.lt_succ_iff_lt_or_eq.mp hi
  have hnew := withEvent_new g s readFrom
  have hlay := h.layout.withEvent ha
  have hreach : ∀ {a b}, TransGen (Edge g) a b → TransGen (Edge (g.withEvent s readFrom)) a b :=
    fun hab => TransGen.mono (fun _ _ => Edge.withEvent) _ _ hab
  constructor
  case layout => exact hlay
  case links => exact h.links.withEvent h.layout
  case queueOk => exact ⟨h.queueOk.nodup, h.queueOk.set_iff⟩
  case queue_lt => exact fun x hx => Nat.lt_succ_of_lt (h.queue_lt x hx)
  case saturated_le => exact Nat.le_succ_of_le h.saturated_le
  case given_known =>
    intro x y hxy
    have hkeep : ∀ z, g.hasEvent z = true → (g.withEvent s readFrom).hasEvent z = true := by
      intro z hz
      by_cases hzs : z = s.extId
      · simp [hasEvent, SaturatedGraph.withEvent, withWrite, withReader, addProgramOrder, hzs]
      · simpa [hasEvent, SaturatedGraph.withEvent, withWrite, withReader, addProgramOrder, hzs]
          using hz
    exact ⟨hkeep x (h.given_known x y hxy).1, hkeep y (h.given_known x y hxy).2⟩
  case given_in =>
    intro a has b hbs hg
    have hknown := h.given_known _ _ hg
    -- the identifier of the new event is fresh, so no given edge mentions it
    have hne : ∀ {i}, i < (g.withEvent s readFrom).size →
        g.hasEvent ((g.withEvent s readFrom).events i).extId = true → i < g.size := by
      intro i hi hk
      rcases hlt hi with hi | rfl
      · exact hi
      · rw [hnew] at hk
        have hfresh : g.hasEvent (g.newEvent s readFrom).extId = false := by
          simp [hasEvent, newEvent, ha.fresh]
        rw [hfresh] at hk
        exact absurd hk (by simp)
    have ha' := hne has hknown.1
    have hb' := hne hbs hknown.2
    rw [(hold ha').extId, (hold hb').extId] at hg
    simpa [SaturatedGraph.withEvent, withWrite, withReader, addProgramOrder, hb'.ne]
      using h.given_in a ha' b hb' hg
  case ins_forced =>
    intro b hb a hab
    rcases hlt hb with hb | rfl
    · have hab' : a ∈ g.ins b := by
        simpa [SaturatedGraph.withEvent, withWrite, withReader, addProgramOrder, hb.ne] using hab
      exact forced_withEvent (h.ins_forced b hb a hab')
    · simp [SaturatedGraph.withEvent, withWrite, withReader, addProgramOrder] at hab
  case clock_le =>
    intro b hb p
    rcases hlt hb with hb | rfl
    · rw [withEvent_vclocks hb, h.nextVc_withEvent hb]
      exact h.clock_le b hb p
    · rw [withEvent_clock_new]
      exact Nat.zero_le _
  case clock_reach =>
    intro b hb p hpos
    rcases hlt hb with hb | rfl
    · rw [withEvent_vclocks hb] at hpos ⊢
      obtain ⟨a, has, hap, hai, hab⟩ := h.clock_reach b hb p hpos
      refine ⟨a, Nat.lt_succ_of_lt has, ?_, ?_, ?_⟩
      · rw [(hold has).iid, hap]
      · rw [(hold has).iid, hai]
      · exact ReflTransGen.mono (fun _ _ => Edge.withEvent) _ _ hab
    · rw [withEvent_clock_new] at hpos
      exact absurd hpos (Nat.lt_irrefl 0)
  case clock_old =>
    intro a has b hbs hidx
    have hpos := (hlay.get_index has).1
    rcases hlt hbs with hb | rfl
    · rw [withEvent_vclocks hb] at hidx
      rcases hlt has with ha' | rfl
      · rw [(hold ha').iid] at hidx
        exact h.clock_old a ha' b hb hidx
      · rw [hnew, h.layout.newEvent_index] at hidx
        have := (h.clock_le b hb s.pid).trans (h.nextVc_le_length hb s.pid)
        have hpid : (g.newEvent s readFrom).iid.pid = s.pid := rfl
        rw [hpid] at hidx
        omega
    · rw [withEvent_clock_new] at hidx
      omega
  case fresh_clock =>
    intro b hb hge p
    rcases hlt hb with hb | rfl
    · rw [withEvent_vclocks hb]
      exact h.fresh_clock b hb hge p
    · exact withEvent_clock_new p
  case closed_store =>
    intro b hb hstore p w hw r hr hrsat hne
    rcases hlt hb with hb | rfl
    · rw [withEvent_vclocks hb] at hw
      rw [(hold hb).isStore] at hstore
      have hw' := h.lastVisible_withEvent hb hw
      have hws := ((h.layout.mem_writes _ _ w).mp hw'.1).1
      rcases ((withEvent_old g s readFrom hws).2 r).mp hr with hr | ⟨-, rfl⟩
      · exact hreach (h.closed_store b hb hstore p w hw' r hr hrsat hne)
      · exact absurd hrsat (Nat.not_lt.mpr h.saturated_le)
    · exact absurd hw (withEvent_not_lastVisible hlay)
  case closed_load =>
    intro b hb hload p w hw
    rcases hlt hb with hb | rfl
    · rw [withEvent_vclocks hb] at hw
      rw [(hold hb).isLoad] at hload
      rw [(hold hb).readFrom]
      obtain ⟨v, hrf, hwv⟩ := h.closed_load b hb hload p w (h.lastVisible_withEvent hb hw)
      exact ⟨v, hrf, hwv.imp_right hreach⟩
    · exact absurd hw (withEvent_not_lastVisible hlay)

/-- The edges that come with a new event are forced by the extended choice. -/
theorem Core.newEdge_forced (h : Core given g) (ha : Accepts g s readFrom origIn)
    {given' : IID → IID → Prop} (hgiven : ∀ x ∈ s.happensAfter, given' x s.extId)
    {a b : ℕ} (hab : newEdge g s readFrom origIn a b) :
    a < (g.withEvent s readFrom).size ∧ b < (g.withEvent s readFrom).size ∧
      Forced (choice (g.withEvent s readFrom) given') a b := by
  have hlay := h.layout.withEvent ha
  have hold : ∀ {i}, i < g.size →
      SameButReaders (g.events i) ((g.withEvent s readFrom).events i) :=
    fun hi => (withEvent_old g s readFrom hi).1
  have hnew := withEvent_new g s readFrom
  have hself : g.size < (g.withEvent s readFrom).size := Nat.lt_succ_self _
  rcases hab with ⟨rfl, hao⟩ | ⟨⟨hrf, hl⟩, rfl, p, hb⟩ | ⟨hfirst, rfl, har⟩
  · obtain ⟨has, hext⟩ := (ha.mem_origIn a).mp hao
    have has' : a < (g.withEvent s readFrom).size := Nat.lt_succ_of_lt has
    refine ⟨has', hself, .order ⟨has', hself, .inr ?_⟩⟩
    rw [(hold has).extId, hnew]
    exact hgiven _ hext
  · obtain ⟨hbs, -, hst, haddr⟩ := (h.layout.mem_writes _ _ b).mp (h.layout.first_mem _ _ b hb)
    refine ⟨hself, Nat.lt_succ_of_lt hbs, .fromInit ⟨hself, ?_, ?_⟩ ⟨Nat.lt_succ_of_lt hbs, ?_, ?_⟩
      hbs.ne⟩
    · exact (congrArg Event.isLoad hnew).trans hl
    · exact (congrArg Event.readFrom hnew).trans hrf
    · exact (hold hbs).isStore.trans hst
    · exact ((hold hbs).addr.trans haddr).trans (congrArg Event.addr hnew).symm
  · obtain ⟨has, hl, hrf, haddr⟩ := (h.layout.mem_readsFromInit _ a).mp har
    have hs : s.kind.isStore = true := by
      simp only [isFirstWrite, Bool.and_eq_true] at hfirst
      exact hfirst.1
    have has' : a < (g.withEvent s readFrom).size := Nat.lt_succ_of_lt has
    refine ⟨has', hself, .fromInit ⟨has', ?_, ?_⟩ ⟨hself, ?_, ?_⟩ has.ne'⟩
    · exact (hold has).isLoad.trans hl
    · exact (hold has).readFrom.trans hrf
    · exact (congrArg Event.isStore hnew).trans hs
    · exact (congrArg Event.addr hnew).trans ((hold has).addr.trans haddr).symm

/-- The given edges after an event has been added. -/
def givenWith (given : IID → IID → Prop) (s : EventSpec) (x y : IID) : Prop :=
  given x y ∨ (y = s.extId ∧ x ∈ s.happensAfter)

theorem Invariant.addResolved (h : Invariant given g) (ha : Accepts g s readFrom origIn) :
    Invariant (givenWith given s) (g.addResolved s readFrom origIn) := by
  have hx := addResolved_extends h.queueOk s readFrom origIn
  have hbase := h.toCore.withEvent ha
  have hself : g.size < (g.withEvent s readFrom).size := Nat.lt_succ_self _
  have hnew := withEvent_new g s readFrom
  have hnewId : ∀ {i}, i < (g.withEvent s readFrom).size →
      ((g.withEvent s readFrom).events i).extId = s.extId → i = g.size := by
    intro i hi hext
    have h₁ := (hbase.layout.extid_iff s.extId i).mpr ⟨hi, hext⟩
    have h₂ := (hbase.layout.extid_iff s.extId g.size).mpr ⟨hself, by rw [hnew]; rfl⟩
    exact Option.some.inj (h₁.symm.trans h₂)
  have hfirst : ∀ {x p f}, (p, f) ∈ g.writesByAddress x → f < g.size := fun hf =>
    ((h.layout.mem_writes _ _ _).mp (h.layout.first_mem _ _ _ hf)).1
  refine ⟨hbase.of_extends hx (fun x y hxy => .inl hxy) ?_ ?_ ?_ ?_, ?_, ?_⟩
  · -- every given edge is between known events
    have hknown : ∀ z, g.hasEvent z = true → (g.withEvent s readFrom).hasEvent z = true := by
      intro z hz
      by_cases hzs : z = s.extId
      · simp [hasEvent, SaturatedGraph.withEvent, withWrite, withReader, addProgramOrder, hzs]
      · simpa [hasEvent, SaturatedGraph.withEvent, withWrite, withReader, addProgramOrder, hzs]
          using hz
    rintro x y (hxy | ⟨rfl, hxs⟩)
    · exact hbase.given_known x y hxy
    · refine ⟨hknown x (ha.after_known x hxs), ?_⟩
      simp [hasEvent, SaturatedGraph.withEvent, withWrite, withReader, addProgramOrder]
  · rintro a has b hbs (hg | ⟨hb, hxa⟩)
    · exact .inl hg
    · have hba := hnewId hbs hb
      rcases Nat.lt_succ_iff_lt_or_eq.mp has with has | rfl
      · rw [(withEvent_old g s readFrom has).1.extId] at hxa
        exact .inr (.inl ⟨hba, (ha.mem_origIn a).mpr ⟨has, hxa⟩⟩)
      · rw [hnew] at hxa
        have := ha.after_known _ hxa
        simp [hasEvent, newEvent, ha.fresh] at this
  · exact fun a b hab => h.toCore.newEdge_forced ha (fun x hxs => .inr ⟨rfl, hxs⟩) hab
  · rintro x (rfl | ⟨-, p, hp⟩)
    · exact hself
    · exact Nat.lt_succ_of_lt (hfirst hp)
  · -- reads of the initial value and first writes
    intro x p f r hf hr
    rw [hx.layout.writesByAddress, withEvent_mem_first] at hf
    rw [hx.layout.readsFromInit, withEvent_mem_readsFromInit] at hr
    rw [hx.mem_ins]
    rcases hf with hf | ⟨hisf, rfl, rfl, rfl⟩
    · rcases hr with hr | ⟨hri, rfl, rfl⟩
      · refine (h.init_in x p f r hf hr).imp_right fun hin => .inl ?_
        simpa [SaturatedGraph.withEvent, withWrite, withReader, addProgramOrder, (hfirst hf).ne]
          using hin
      · exact .inr (.inr (.inr (.inl ⟨hri, rfl, p, hf⟩)))
    · rcases hr with hr | ⟨hri, -, rfl⟩
      · exact .inr (.inr (.inr (.inr ⟨hisf, rfl, hr⟩)))
      · exact .inl rfl
  · intro b hb hbq
    rw [hx.layout.size] at hb
    rw [hx.mem_queue] at hbq
    push Not at hbq
    obtain ⟨hbq, hbne, hbinit⟩ := hbq
    have hbs : b < g.size := (Nat.lt_succ_iff_lt_or_eq.mp hb).resolve_right hbne
    have hset := h.settled b hbs hbq
    have hset' : Settled (g.withEvent s readFrom) b :=
      hset.congr hbs (withEvent_old g s readFrom hbs).1.iid (fun a => withEvent_preds hbs)
        (fun a hab => withEvent_vclocks (h.layout.edge_lt h.links ⟨hbs, hab⟩).1)
        (withEvent_vclocks hbs)
    refine hset'.of_extends hx hb ?_
    rintro a (⟨rfl, -⟩ | ⟨hri, rfl, p, hp⟩ | ⟨-, rfl, -⟩)
    · exact hbne rfl
    · exact hbinit hri p hp
    · exact hbne rfl

end Preservation

/-! ## Calls with external identifiers -/

/-- What the callers of `add_event` guarantee, in terms of external identifiers. -/
structure ValidCall (g : SaturatedGraph) (s : EventSpec) : Prop where
  fresh : g.hasEvent s.extId = false
  source : ∀ r, s.readFrom = some r → s.kind.isLoad = true ∧ ∃ w, g.extidToId r = some w ∧
    (g.events w).isStore = true ∧ (g.events w).addr = s.addr
  after : ∀ x ∈ s.happensAfter, g.hasEvent x = true

/-- A valid call succeeds, with its identifiers resolved in the graph. -/
theorem ValidCall.addEvent {g : SaturatedGraph} {s : EventSpec} (hv : ValidCall g s)
    (hl : Layout g) :
    ∃ origIn, g.addEvent s = some (g.addResolved s (s.readFrom.bind g.extidToId) origIn) ∧
      Accepts g s (s.readFrom.bind g.extidToId) origIn := by
  have hfresh : g.extidToId s.extId = none := by
    simpa [hasEvent] using hv.fresh
  have hlookup : ∀ x, g.hasEvent x = true →
      Function.update g.extidToId s.extId (some g.size) x = g.extidToId x := by
    intro x hx
    apply Function.update_of_ne
    rintro rfl
    simp [hasEvent, hfresh] at hx
  obtain ⟨origIn, hmap, hmem⟩ := FoldInvariant.mapM_eq_some_of_forall
    (Function.update g.extidToId s.extId (some g.size)) s.happensAfter fun x hx => by
      rw [hlookup x (hv.after x hx)]
      exact hv.after x hx
  refine ⟨origIn, ?_, hfresh, ?_, hv.after, ?_⟩
  · unfold SaturatedGraph.addEvent
    cases hr : s.readFrom with
    | none => simp [hmap]
    | some r =>
        obtain ⟨-, w, hw, -⟩ := hv.source r hr
        have hrw := hlookup r (by simp [hasEvent, hw])
        simp [hmap, hrw, hw]
  · intro w hw
    obtain ⟨r, hr, hrw⟩ := Option.bind_eq_some_iff.mp hw
    obtain ⟨hload, w', hw', hs, haddr⟩ := hv.source r hr
    obtain rfl : w = w' := Option.some.inj (hrw.symm.trans hw')
    exact ⟨((hl.extid_iff r w).mp hw').1, hload, hs, haddr⟩
  · intro a
    rw [hmem]
    constructor
    · rintro ⟨x, hx, hxa⟩
      rw [hlookup x (hv.after x hx)] at hxa
      obtain ⟨has, rfl⟩ := (hl.extid_iff x a).mp hxa
      exact ⟨has, hx⟩
    · rintro ⟨has, hext⟩
      refine ⟨_, hext, ?_⟩
      rw [hlookup _ (hv.after _ hext)]
      exact (hl.extid_iff _ a).mpr ⟨has, rfl⟩

/-- An explicit edge between known events is a forced edge of the extended choice. -/
theorem Invariant.addEdge {given : IID → IID → Prop} {g g' : SaturatedGraph} {x y : IID}
    (h : Invariant given g) (hrun : g.addEdge x y = some g') :
    Invariant (fun a b => given a b ∨ (a = x ∧ b = y)) g' ∧ SameLayout g g' ∧
      g'.saturatedUntil = g.saturatedUntil := by
  obtain ⟨f, hf, t, ht, rfl⟩ : ∃ f, g.extidToId x = some f ∧ ∃ t, g.extidToId y = some t ∧
      g.addEdgeInternal f t = g' := by
    simpa [SaturatedGraph.addEdge, Option.bind_eq_some_iff] using hrun
  obtain ⟨hfs, hfx⟩ := (h.layout.extid_iff x f).mp hf
  obtain ⟨hts, hty⟩ := (h.layout.extid_iff y t).mp ht
  have hx := addEdgeInternal_extends h.queueOk f t
  have hknown : ∀ {z i}, g.extidToId z = some i → g.hasEvent z = true := by
    intro z i hz
    simp [hasEvent, hz]
  refine ⟨⟨h.toCore.of_extends hx (fun _ _ hg => .inl hg) ?_ ?_ ?_ ?_, ?_, ?_⟩, hx.layout,
    hx.saturatedUntil⟩
  · rintro a b (hg | ⟨rfl, rfl⟩)
    · exact h.given_known a b hg
    · exact ⟨hknown hf, hknown ht⟩
  · rintro a ha b hb (hg | ⟨hax, hby⟩)
    · exact .inl hg
    · right
      have h₁ := (h.layout.extid_iff x a).mpr ⟨ha, hax⟩
      have h₂ := (h.layout.extid_iff y b).mpr ⟨hb, hby⟩
      exact ⟨Option.some.inj (h₁.symm.trans hf), Option.some.inj (h₂.symm.trans ht)⟩
  · rintro a b ⟨rfl, rfl⟩
    exact ⟨hfs, hts, .order ⟨hfs, hts, .inr (.inr ⟨hfx, hty⟩)⟩⟩
  · rintro z rfl
    exact hts
  · exact h.init_in.mono hx.layout fun a b ha => (hx.mem_ins a b).mpr (.inl ha)
  · intro b hb hbq
    rw [hx.layout.size] at hb
    rw [hx.mem_queue] at hbq
    push Not at hbq
    refine (h.settled b hb hbq.1).of_extends hx hb ?_
    rintro a ⟨-, rfl⟩
    exact hbq.2 rfl

end Nidhugg.SaturatedGraph
