import Nidhugg.Model.SaturatedGraph
import Nidhugg.Verification.VClock.LatticeLaws

/-! # Edge insertion, the work queue and recomputed clocks

Saturation changes a graph only by adding edges, queueing events and raising clocks.
`Extends` says this once for every helper of the saturation loop. -/

namespace Nidhugg.SaturatedGraph

/-! ## Graphs that differ in their edges and their queue -/

/-- The part of a graph that only `add_event` changes. -/
structure SameLayout (g g' : SaturatedGraph) : Prop where
  size : g'.size = g.size
  extidToId : g'.extidToId = g.extidToId
  events : g'.events = g.events
  writesByAddress : g'.writesByAddress = g.writesByAddress
  readsFromInit : g'.readsFromInit = g.readsFromInit
  numPids : g'.numPids = g.numPids
  eventsByPid : g'.eventsByPid = g.eventsByPid
  writesByProcessAndAddress : g'.writesByProcessAndAddress = g.writesByProcessAndAddress

theorem SameLayout.refl (g : SaturatedGraph) : SameLayout g g :=
  ⟨rfl, rfl, rfl, rfl, rfl, rfl, rfl, rfl⟩

theorem SameLayout.trans {g g' g'' : SaturatedGraph} (h : SameLayout g g')
    (h' : SameLayout g' g'') : SameLayout g g'' :=
  ⟨h'.size.trans h.size, h'.extidToId.trans h.extidToId, h'.events.trans h.events,
    h'.writesByAddress.trans h.writesByAddress, h'.readsFromInit.trans h.readsFromInit,
    h'.numPids.trans h.numPids, h'.eventsByPid.trans h.eventsByPid,
    h'.writesByProcessAndAddress.trans h.writesByProcessAndAddress⟩

theorem SameLayout.symm {g g' : SaturatedGraph} (h : SameLayout g g') : SameLayout g' g :=
  ⟨h.size.symm, h.extidToId.symm, h.events.symm, h.writesByAddress.symm,
    h.readsFromInit.symm, h.numPids.symm, h.eventsByPid.symm,
    h.writesByProcessAndAddress.symm⟩

/-- The queue holds every marked event once and nothing else. -/
structure QueueOk (g : SaturatedGraph) : Prop where
  nodup : g.wqQueue.Nodup
  set_iff : ∀ id, g.wqSet id = true ↔ id ∈ g.wqQueue

/-- `g'` is `g` with the edges `edge` and the queue entries `queued` added. -/
structure Extends (g g' : SaturatedGraph) (edge : ℕ → ℕ → Prop) (queued : ℕ → Prop) :
    Prop where
  layout : SameLayout g g'
  vclocks : g'.vclocks = g.vclocks
  saturatedUntil : g'.saturatedUntil = g.saturatedUntil
  mem_ins : ∀ a b, a ∈ g'.ins b ↔ a ∈ g.ins b ∨ edge a b
  mem_outs : ∀ a b, b ∈ g'.outs a ↔ b ∈ g.outs a ∨ edge a b
  mem_queue : ∀ id, id ∈ g'.wqQueue ↔ id ∈ g.wqQueue ∨ queued id
  queueOk : QueueOk g'

theorem Extends.refl {g : SaturatedGraph} (hq : QueueOk g) :
    Extends g g (fun _ _ => False) (fun _ => False) :=
  ⟨.refl g, rfl, rfl, by simp, by simp, by simp, hq⟩

theorem Extends.trans {g g' g'' : SaturatedGraph} {edge edge' : ℕ → ℕ → Prop}
    {queued queued' : ℕ → Prop} (h : Extends g g' edge queued)
    (h' : Extends g' g'' edge' queued') :
    Extends g g'' (fun a b => edge a b ∨ edge' a b) (fun id => queued id ∨ queued' id) where
  layout := h.layout.trans h'.layout
  vclocks := h'.vclocks.trans h.vclocks
  saturatedUntil := h'.saturatedUntil.trans h.saturatedUntil
  mem_ins a b := by rw [h'.mem_ins, h.mem_ins, or_assoc]
  mem_outs a b := by rw [h'.mem_outs, h.mem_outs, or_assoc]
  mem_queue id := by rw [h'.mem_queue, h.mem_queue, or_assoc]
  queueOk := h'.queueOk

theorem Extends.congr {g g' : SaturatedGraph} {edge edge' : ℕ → ℕ → Prop}
    {queued queued' : ℕ → Prop} (h : Extends g g' edge queued)
    (hedge : ∀ a b, edge a b ↔ edge' a b) (hqueued : ∀ id, queued id ↔ queued' id) :
    Extends g g' edge' queued' :=
  ⟨h.layout, h.vclocks, h.saturatedUntil,
    fun a b => by rw [h.mem_ins, hedge], fun a b => by rw [h.mem_outs, hedge],
    fun id => by rw [h.mem_queue, hqueued], h.queueOk⟩

/-- A loop whose body extends the graph extends it by everything its turns add. -/
theorem Extends.foldl {α : Type*} {f : SaturatedGraph → α → SaturatedGraph}
    {edge : α → ℕ → ℕ → Prop} {queued : α → ℕ → Prop}
    (hf : ∀ g x, QueueOk g → Extends g (f g x) (edge x) (queued x)) :
    ∀ (xs : List α) {g : SaturatedGraph}, QueueOk g →
      Extends g (xs.foldl f g) (fun a b => ∃ x ∈ xs, edge x a b)
        (fun id => ∃ x ∈ xs, queued x id) := by
  intro xs
  induction xs with
  | nil =>
      intro g hq
      exact (Extends.refl hq).congr (by simp) (by simp)
  | cons x xs ih =>
      intro g hq
      have hx := hf g x hq
      exact (hx.trans (ih hx.queueOk)).congr (by simp) (by simp)

theorem wqAdd_extends {g : SaturatedGraph} (hq : QueueOk g) (id : ℕ) :
    Extends g (g.wqAdd id) (fun _ _ => False) (· = id) := by
  unfold wqAdd
  by_cases hset : g.wqSet id = true
  · have hmem := (hq.set_iff id).mp hset
    rw [if_pos hset]
    refine ⟨.refl g, rfl, rfl, by simp, by simp, ?_, hq⟩
    intro x
    constructor
    · exact .inl
    · rintro (hx | rfl)
      · exact hx
      · exact hmem
  · have hmem : id ∉ g.wqQueue := fun h => hset ((hq.set_iff id).mpr h)
    rw [if_neg hset]
    refine ⟨⟨rfl, rfl, rfl, rfl, rfl, rfl, rfl, rfl⟩, rfl, rfl, by simp, by simp,
      by simp, ?_, ?_⟩
    · exact List.nodup_append.mpr ⟨hq.nodup, by simp, by
        intro a ha b hb hab
        simp only [List.mem_singleton] at hb
        subst hab hb
        exact hmem ha⟩
    · intro x
      by_cases hx : x = id
      · simp [hx]
      · simp [hq.set_iff, hx]

theorem wqAddFirst_extends {g : SaturatedGraph} (hq : QueueOk g) (id : ℕ) :
    Extends g (g.wqAddFirst id) (fun _ _ => False) (· = id) := by
  unfold wqAddFirst
  by_cases hset : g.wqSet id = true
  · have hmem := (hq.set_iff id).mp hset
    rw [if_pos hset]
    refine ⟨.refl g, rfl, rfl, by simp, by simp, ?_, hq⟩
    intro x
    constructor
    · exact .inl
    · rintro (hx | rfl)
      · exact hx
      · exact hmem
  · have hmem : id ∉ g.wqQueue := fun h => hset ((hq.set_iff id).mpr h)
    rw [if_neg hset]
    refine ⟨⟨rfl, rfl, rfl, rfl, rfl, rfl, rfl, rfl⟩, rfl, rfl, by simp, by simp,
      by simp [or_comm], ?_, ?_⟩
    · exact List.nodup_cons.mpr ⟨hmem, hq.nodup⟩
    · intro x
      by_cases hx : x = id
      · simp [hx]
      · simp [hq.set_iff, hx]

/-- Pushing an edge on both of its edge vectors. -/
theorem pushIn_pushOut_extends {g : SaturatedGraph} (hq : QueueOk g) (src dst : ℕ) :
    Extends g ((g.pushIn dst src).pushOut src dst) (fun a b => a = src ∧ b = dst)
      (fun _ => False) := by
  refine ⟨⟨rfl, rfl, rfl, rfl, rfl, rfl, rfl, rfl⟩, rfl, rfl, ?_, ?_, by simp [pushIn, pushOut],
    ⟨hq.nodup, hq.set_iff⟩⟩
  · intro a b
    by_cases hb : b = dst
    · simp [pushIn, pushOut, hb]
    · simp [pushIn, pushOut, hb]
  · intro a b
    by_cases ha : a = src
    · simp [pushIn, pushOut, ha]
    · simp [pushIn, pushOut, ha]

theorem pushOut_pushIn_comm (g : SaturatedGraph) (src dst : ℕ) :
    (g.pushOut src dst).pushIn dst src = (g.pushIn dst src).pushOut src dst := rfl

theorem addEdgeInternal_extends {g : SaturatedGraph} (hq : QueueOk g) (src dst : ℕ) :
    Extends g (g.addEdgeInternal src dst) (fun a b => a = src ∧ b = dst) (· = dst) := by
  have hedge := pushIn_pushOut_extends hq src dst
  rw [addEdgeInternal, pushOut_pushIn_comm]
  exact (hedge.trans (wqAdd_extends hedge.queueOk dst)).congr (by simp) (by simp)

theorem addEdges_extends {g : SaturatedGraph} (hq : QueueOk g) (edges : List (ℕ × ℕ)) :
    Extends g (g.addEdges edges) (fun a b => (a, b) ∈ edges)
      (fun id => ∃ a, (a, id) ∈ edges) := by
  refine (Extends.foldl (fun g e hq => addEdgeInternal_extends hq e.1 e.2) edges hq).congr ?_ ?_
  · intro a b
    constructor
    · rintro ⟨e, he, rfl, rfl⟩
      exact he
    · intro h
      exact ⟨(a, b), h, rfl, rfl⟩
  · intro id
    constructor
    · rintro ⟨e, he, rfl⟩
      exact ⟨e.1, he⟩
    · rintro ⟨a, ha⟩
      exact ⟨(a, id), ha, rfl⟩

theorem wqAdd_foldl_extends {g : SaturatedGraph} (hq : QueueOk g) (ids : List ℕ) :
    Extends g (ids.foldl wqAdd g) (fun _ _ => False) (· ∈ ids) :=
  (Extends.foldl (fun _ id hq => wqAdd_extends hq id) ids hq).congr (by simp) (by simp)

theorem addSuccessorsToWq_extends {g : SaturatedGraph} (hq : QueueOk g) (id : ℕ) (e : Event) :
    Extends g (g.addSuccessorsToWq id e) (fun _ _ => False)
      (fun x => (e.isStore = true ∧ x ∈ e.readers) ∨ x ∈ g.outs id) := by
  refine (wqAdd_foldl_extends hq _).congr (by simp) ?_
  intro x
  cases e.isStore <;> simp

/-! ## Recomputed clocks -/

/-- An edge of the graph: program order, reads-from or an entry of `ins`. -/
def Edge (g : SaturatedGraph) (a b : ℕ) : Prop :=
  b < g.size ∧ a ∈ preds (g.events b) (g.ins b)

theorem mem_preds {e : Event} {ins : List ℕ} {a : ℕ} :
    a ∈ preds e ins ↔ e.poPredecessor = some a ∨ e.readFrom = some a ∨ a ∈ ins := by
  simp [preds, Option.mem_toList]

theorem get_initialVc (e : Event) (p : ℕ) :
    (initialVc e).get p = if p = e.iid.pid then e.iid.index else 0 := by
  simp [initialVc, VClock.get_set]

private theorem get_foldl_addAssign (f : ℕ → VClock) (ids : List ℕ) (c : VClock) (p : ℕ) :
    ((ids.foldl (fun vc id => vc.addAssign (f id)) c).get p =
        c.get p ∨ ∃ a ∈ ids, (ids.foldl (fun vc id => vc.addAssign (f id)) c).get p = (f a).get p) ∧
      c.get p ≤ (ids.foldl (fun vc id => vc.addAssign (f id)) c).get p ∧
      ∀ a ∈ ids, (f a).get p ≤ (ids.foldl (fun vc id => vc.addAssign (f id)) c).get p := by
  induction ids generalizing c with
  | nil => simp
  | cons x ids ih =>
      obtain ⟨hval, hle, hall⟩ := ih (c.addAssign (f x))
      simp only [List.foldl_cons]
      rw [VClock.get_addAssign] at hval hle
      refine ⟨?_, (le_max_left _ _).trans hle, ?_⟩
      · rcases hval with hval | ⟨a, ha, hval⟩
        · rcases le_total (c.get p) ((f x).get p) with h | h
          · right
            exact ⟨x, by simp, by rw [hval, max_eq_right h]⟩
          · left
            rw [hval, max_eq_left h]
        · right
          exact ⟨a, by simp [ha], hval⟩
      · intro a ha
        rcases List.mem_cons.mp ha with rfl | ha
        · exact (le_max_right _ _).trans hle
        · exact hall a ha

/-- A recomputed entry comes from the event itself or from one of its predecessors. -/
theorem get_recomputeVc_cases (g : SaturatedGraph) (e : Event) (ins : List ℕ) (p : ℕ) :
    (g.recomputeVc e ins).get p = (initialVc e).get p ∨
      ∃ a ∈ preds e ins, (g.recomputeVc e ins).get p = (g.vclocks a).get p :=
  (get_foldl_addAssign g.vclocks (preds e ins) (initialVc e) p).1

theorem initialVc_le_recomputeVc (g : SaturatedGraph) (e : Event) (ins : List ℕ) (p : ℕ) :
    (initialVc e).get p ≤ (g.recomputeVc e ins).get p :=
  (get_foldl_addAssign g.vclocks (preds e ins) (initialVc e) p).2.1

theorem index_le_recomputeVc (g : SaturatedGraph) (e : Event) (ins : List ℕ) :
    e.iid.index ≤ (g.recomputeVc e ins).get e.iid.pid := by
  have h := initialVc_le_recomputeVc g e ins e.iid.pid
  rwa [get_initialVc, if_pos rfl] at h

theorem vclock_le_recomputeVc {g : SaturatedGraph} {e : Event} {ins : List ℕ} {a : ℕ}
    (ha : a ∈ preds e ins) (p : ℕ) :
    (g.vclocks a).get p ≤ (g.recomputeVc e ins).get p :=
  (get_foldl_addAssign g.vclocks (preds e ins) (initialVc e) p).2.2 a ha

/-- Raising clocks and adding edges raises every recomputed clock. -/
theorem recomputeVc_mono {g g' : SaturatedGraph} {e : Event} {ins ins' : List ℕ}
    (hins : ∀ a ∈ ins, a ∈ ins')
    (hvc : ∀ a p, (g.vclocks a).get p ≤ (g'.vclocks a).get p) (p : ℕ) :
    (g.recomputeVc e ins).get p ≤ (g'.recomputeVc e ins').get p := by
  rcases get_recomputeVc_cases g e ins p with h | ⟨a, ha, h⟩
  · rw [h]
    exact initialVc_le_recomputeVc g' e ins' p
  · rw [h]
    have ha' : a ∈ preds e ins' := by
      rw [mem_preds] at ha ⊢
      rcases ha with ha | ha | ha
      · exact .inl ha
      · exact .inr (.inl ha)
      · exact .inr (.inr (hins a ha))
    exact (hvc a p).trans (vclock_le_recomputeVc ha' p)

theorem isInCycle_iff {g : SaturatedGraph} {e : Event} {ins : List ℕ} {vc : VClock} :
    g.isInCycle e ins vc = true ↔ ∃ a ∈ preds e ins, ∀ p, (g.vclocks a).get p = vc.get p := by
  simp only [isInCycle, List.any_eq_true, VClock.eq_iff]

end Nidhugg.SaturatedGraph

/-! # Well-formed event graphs

The bookkeeping that `add_event` maintains, and what the lookups of the saturation loop
return on a graph that keeps it. -/

namespace Nidhugg.SaturatedGraph

open Relation SortedSearch

/-- The tables of a graph agree with its events. -/
structure Layout (g : SaturatedGraph) : Prop where
  mem_eventsByPid : ∀ p i, i ∈ g.eventsByPid p ↔ i < g.size ∧ (g.events i).iid.pid = p
  eventsByPid_sorted : ∀ p, (g.eventsByPid p).Pairwise (· < ·)
  index_of_get : ∀ p k i, (g.eventsByPid p)[k]? = some i → (g.events i).iid.index = k + 1
  po_iff : ∀ i < g.size, ∀ a, (g.events i).poPredecessor = some a ↔
    a < g.size ∧ (g.events a).iid.pid = (g.events i).iid.pid ∧
      (g.events a).iid.index + 1 = (g.events i).iid.index
  pid_lt : ∀ i < g.size, (g.events i).iid.pid < g.numPids
  mem_writes : ∀ p x i, i ∈ g.writesByProcessAndAddress p x ↔
    i < g.size ∧ (g.events i).iid.pid = p ∧ (g.events i).isStore = true ∧
      (g.events i).addr = x
  writes_sorted : ∀ p x, (g.writesByProcessAndAddress p x).Pairwise (· < ·)
  mem_readers : ∀ w < g.size, ∀ r, r ∈ (g.events w).readers ↔
    r < g.size ∧ (g.events r).readFrom = some w
  readFrom_spec : ∀ r < g.size, ∀ w, (g.events r).readFrom = some w →
    w < r ∧ (g.events r).isLoad = true ∧ (g.events w).isStore = true ∧
      (g.events w).addr = (g.events r).addr
  first_mem : ∀ x p f, (p, f) ∈ g.writesByAddress x → f ∈ g.writesByProcessAndAddress p x
  exists_first : ∀ x p w, w ∈ g.writesByProcessAndAddress p x →
    ∃ f ≤ w, (p, f) ∈ g.writesByAddress x
  mem_readsFromInit : ∀ x r, r ∈ g.readsFromInit x ↔
    r < g.size ∧ (g.events r).isLoad = true ∧ (g.events r).readFrom = none ∧
      (g.events r).addr = x
  extid_iff : ∀ x i, g.extidToId x = some i ↔ i < g.size ∧ (g.events i).extId = x

/-- The edge vectors of a graph agree with each other. -/
structure Links (g : SaturatedGraph) : Prop where
  ins_lt : ∀ b < g.size, ∀ a ∈ g.ins b, a < g.size
  in_out : ∀ b < g.size, ∀ a ∈ g.ins b, b ∈ g.outs a
  po_out : ∀ b < g.size, ∀ a, (g.events b).poPredecessor = some a → b ∈ g.outs a
  out_in : ∀ a b, b ∈ g.outs a → a < g.size ∧ b < g.size ∧
    (a ∈ g.ins b ∨ (g.events b).poPredecessor = some a)

theorem Layout.of_same {g g' : SaturatedGraph} (h : Layout g) (hs : SameLayout g g') :
    Layout g' := by
  obtain ⟨h₁, h₂, h₃, h₄, h₅, h₆, h₇, h₈⟩ := hs
  obtain ⟨_, _, _, _, _, _, _, _, _, _, _, _, _⟩ := h
  constructor <;> simp only [h₁, h₂, h₃, h₄, h₅, h₆, h₇, h₈] <;> assumption

/-- Adding edges inside the graph on both edge vectors keeps the links. -/
theorem Links.of_edges {g g' : SaturatedGraph} {edge : ℕ → ℕ → Prop} (h : Links g)
    (hs : SameLayout g g') (hins : ∀ a b, a ∈ g'.ins b ↔ a ∈ g.ins b ∨ edge a b)
    (houts : ∀ a b, b ∈ g'.outs a ↔ b ∈ g.outs a ∨ edge a b)
    (hedge : ∀ a b, edge a b → a < g.size ∧ b < g.size) : Links g' where
  ins_lt b hb a ha := by
    rw [hs.size] at *
    rcases (hins a b).mp ha with ha | ha
    · exact h.ins_lt b hb a ha
    · exact (hedge a b ha).1
  in_out b hb a ha := by
    rw [hs.size] at hb
    rw [houts]
    rcases (hins a b).mp ha with ha | ha
    · exact .inl (h.in_out b hb a ha)
    · exact .inr ha
  po_out b hb a ha := by
    rw [hs.size] at hb
    rw [hs.events] at ha
    exact (houts a b).mpr (.inl (h.po_out b hb a ha))
  out_in a b hb := by
    rw [hs.size, hs.events, hins]
    rcases (houts a b).mp hb with hb | hb
    · obtain ⟨ha, hb, hor⟩ := h.out_in a b hb
      refine ⟨ha, hb, ?_⟩
      rcases hor with hin | hpo
      · exact .inl (.inl hin)
      · exact .inr hpo
    · exact ⟨(hedge a b hb).1, (hedge a b hb).2, .inl (.inr hb)⟩

section Indices

variable {g : SaturatedGraph} (h : Layout g)
include h

/-! ## Process indices -/

theorem Layout.get_index {i : ℕ} (hi : i < g.size) :
    0 < (g.events i).iid.index ∧
      (g.eventsByPid (g.events i).iid.pid)[(g.events i).iid.index - 1]? = some i := by
  have hmem : i ∈ g.eventsByPid (g.events i).iid.pid := (h.mem_eventsByPid _ i).mpr ⟨hi, rfl⟩
  obtain ⟨k, hk⟩ := List.mem_iff_getElem?.mp hmem
  have hidx := h.index_of_get _ k i hk
  rw [hidx]
  exact ⟨Nat.succ_pos k, by simpa using hk⟩

theorem Layout.index_le_length {i : ℕ} (hi : i < g.size) :
    (g.events i).iid.index ≤ (g.eventsByPid (g.events i).iid.pid).length := by
  obtain ⟨hpos, hget⟩ := h.get_index hi
  obtain ⟨hlt, _⟩ := List.getElem?_eq_some_iff.mp hget
  omega

theorem Layout.exists_of_index {p k : ℕ} (hk : 0 < k) (hle : k ≤ (g.eventsByPid p).length) :
    ∃ i < g.size, (g.events i).iid.pid = p ∧ (g.events i).iid.index = k ∧
      (g.eventsByPid p)[k - 1]? = some i := by
  have hlt : k - 1 < (g.eventsByPid p).length := by omega
  have hget : (g.eventsByPid p)[k - 1]? = some (g.eventsByPid p)[k - 1] :=
    List.getElem?_eq_getElem hlt
  obtain ⟨hsize, hpid⟩ := (h.mem_eventsByPid p _).mp (List.getElem_mem hlt)
  refine ⟨_, hsize, hpid, ?_, hget⟩
  rw [h.index_of_get p _ _ hget]
  omega

theorem Layout.index_inj {i j : ℕ} (hi : i < g.size) (hj : j < g.size)
    (hpid : (g.events i).iid.pid = (g.events j).iid.pid)
    (hidx : (g.events i).iid.index = (g.events j).iid.index) : i = j := by
  have h₁ := (h.get_index hi).2
  have h₂ := (h.get_index hj).2
  rw [hpid, hidx, h₂] at h₁
  exact (Option.some.inj h₁).symm

/-- Within a process, identifiers and indices grow together. -/
theorem Layout.lt_iff_index_lt {i j : ℕ} (hi : i < g.size) (hj : j < g.size)
    (hpid : (g.events i).iid.pid = (g.events j).iid.pid) :
    i < j ↔ (g.events i).iid.index < (g.events j).iid.index := by
  have hmono : ∀ {a b : ℕ}, a < g.size → b < g.size →
      (g.events a).iid.pid = (g.events b).iid.pid →
      (g.events a).iid.index < (g.events b).iid.index → a < b := by
    intro a b ha hb hp hlt
    obtain ⟨hpa, hga⟩ := h.get_index ha
    obtain ⟨hpb, hgb⟩ := h.get_index hb
    rw [hp] at hga
    obtain ⟨hla, hea⟩ := List.getElem?_eq_some_iff.mp hga
    obtain ⟨hlb, heb⟩ := List.getElem?_eq_some_iff.mp hgb
    have := List.pairwise_iff_getElem.mp (h.eventsByPid_sorted (g.events b).iid.pid)
      _ _ hla hlb (by omega)
    rwa [hea, heb] at this
  constructor
  · intro hlt
    rcases Nat.lt_trichotomy (g.events i).iid.index (g.events j).iid.index with hc | hc | hc
    · exact hc
    · exact absurd (h.index_inj hi hj hpid hc) hlt.ne
    · exact absurd (hmono hj hi hpid.symm hc) (Nat.lt_asymm hlt)
  · exact hmono hi hj hpid

theorem Layout.le_iff_index_le {i j : ℕ} (hi : i < g.size) (hj : j < g.size)
    (hpid : (g.events i).iid.pid = (g.events j).iid.pid) :
    i ≤ j ↔ (g.events i).iid.index ≤ (g.events j).iid.index := by
  have := h.lt_iff_index_lt hj hi hpid.symm
  omega

/-- Program order is a chain of edges. -/
theorem Layout.po_reaches {a b : ℕ} (ha : a < g.size) (hb : b < g.size)
    (hpid : (g.events a).iid.pid = (g.events b).iid.pid) (hlt : a < b) :
    TransGen (Edge g) a b := by
  rw [h.lt_iff_index_lt ha hb hpid] at hlt
  generalize hn : (g.events b).iid.index = n at hlt
  induction n generalizing b with
  | zero => omega
  | succ n ih =>
      obtain ⟨hpos, -⟩ := h.get_index ha
      obtain ⟨c, hc, hcp, hci, -⟩ := h.exists_of_index (p := (g.events b).iid.pid) (k := n)
        (by omega) (by have := h.index_le_length hb; omega)
      have hpo : (g.events b).poPredecessor = some c :=
        (h.po_iff b hb c).mpr ⟨hc, hcp, by omega⟩
      have hedge : Edge g c b := ⟨hb, mem_preds.mpr (.inl hpo)⟩
      rcases Nat.lt_or_ge (g.events a).iid.index n with hlt' | hge
      · exact (ih hc (hpid.trans hcp.symm) hci hlt').tail hedge
      · have hac : a = c := h.index_inj ha hc (hpid.trans hcp.symm) (by omega)
        rw [hac]
        exact .single hedge

/-! ## Edges stay inside the graph -/

theorem Layout.edge_lt (hl : Links g) {a b : ℕ} (hab : Edge g a b) :
    a < g.size ∧ b < g.size := by
  obtain ⟨hb, hmem⟩ := hab
  refine ⟨?_, hb⟩
  rcases mem_preds.mp hmem with hpo | hrf | hin
  · exact ((h.po_iff b hb a).mp hpo).1
  · exact (h.readFrom_spec b hb a hrf).1.trans hb
  · exact hl.ins_lt b hb a hin

/-- The program-order successor found by binary search has the event as its
predecessor. -/
theorem Layout.poSuccessor_spec {a b : ℕ} (ha : a < g.size)
    (hb : g.poSuccessor a (g.events a) = some b) :
    b < g.size ∧ (g.events b).poPredecessor = some a := by
  unfold poSuccessor at hb
  simp only at hb
  split at hb
  · exact absurd hb (by simp)
  · set l := g.eventsByPid (g.events a).iid.pid with hl
    have hsort : l.Pairwise (· < ·) := h.eventsByPid_sorted _
    obtain ⟨hlen, hget⟩ := List.getElem?_eq_some_iff.mp hb
    have hbl : b ∈ l := by rw [← hget]; exact List.getElem_mem hlen
    obtain ⟨hbs, hbp⟩ := (h.mem_eventsByPid _ b).mp hbl
    have hnle : a < b := by
      by_contra hle
      have hmem : b ∈ l.take (upperBound l a) :=
        (mem_take_upperBound hsort a b).mpr ⟨hbl, Nat.le_of_not_lt hle⟩
      obtain ⟨k, hk, hkb⟩ := List.mem_take_iff_getElem.mp hmem
      have := List.pairwise_iff_getElem.mp hsort k (upperBound l a) (by omega) hlen (by omega)
      rw [hkb, hget] at this
      exact Nat.lt_irrefl _ this
    refine ⟨hbs, (h.po_iff b hbs a).mpr ⟨ha, hbp.symm, ?_⟩⟩
    have hidx := (h.lt_iff_index_lt ha hbs hbp.symm).mp hnle
    by_contra hne
    -- an event strictly between `a` and `b` would be found first
    obtain ⟨c, hcs, hcp, hci, hcg⟩ := h.exists_of_index (p := (g.events a).iid.pid)
      (k := (g.events a).iid.index + 1) (by omega)
      (by have := h.index_le_length hbs; rw [hbp] at this; omega)
    have hac : a < c := (h.lt_iff_index_lt ha hcs hcp.symm).mpr (by omega)
    have hcb : c < b := (h.lt_iff_index_lt hcs hbs (hcp.trans hbp.symm)).mpr (by omega)
    have hcl : c ∈ l := (h.mem_eventsByPid _ c).mpr ⟨hcs, hcp⟩
    have hcn : c ∉ l.take (upperBound l a) := by
      rw [mem_take_upperBound hsort]
      exact fun hc => absurd hc.2 (not_le_of_gt hac)
    obtain ⟨k, hk, hkc⟩ := List.getElem_of_mem hcl
    have hku : upperBound l a ≤ k := by
      by_contra hlt
      exact hcn (List.mem_take_iff_getElem.mpr ⟨k, by omega, hkc⟩)
    rcases Nat.eq_or_lt_of_le hku with heq | hlt
    · subst heq
      exact hcb.ne (hkc.symm.trans hget)
    · have := List.pairwise_iff_getElem.mp hsort _ _ hlen hk hlt
      rw [hkc, hget] at this
      exact Nat.lt_asymm hcb this

/-- The program-order, reads-from and out edges that `foreach_succ` follows are the edges
of the graph. -/
theorem Layout.mem_succs (hl : Links g) {a b : ℕ} (ha : a < g.size) :
    b ∈ g.succs a ↔ Edge g a b := by
  simp only [succs, List.mem_append]
  constructor
  · rintro ((hb | hb) | hb)
    · obtain ⟨hbs, hpo⟩ := h.poSuccessor_spec ha (Option.mem_toList.mp hb)
      exact ⟨hbs, mem_preds.mpr (.inl hpo)⟩
    · obtain ⟨hbs, hrf⟩ := (h.mem_readers a ha b).mp hb
      exact ⟨hbs, mem_preds.mpr (.inr (.inl hrf))⟩
    · obtain ⟨_, hbs, hin | hpo⟩ := hl.out_in a b hb
      · exact ⟨hbs, mem_preds.mpr (.inr (.inr hin))⟩
      · exact ⟨hbs, mem_preds.mpr (.inl hpo)⟩
  · rintro ⟨hbs, hmem⟩
    rcases mem_preds.mp hmem with hpo | hrf | hin
    · exact .inr (hl.po_out b hbs a hpo)
    · exact .inl (.inr ((h.mem_readers a ha b).mpr ⟨hbs, hrf⟩))
    · exact .inr (hl.in_out b hbs a hin)

end Indices

/-! ## The write a clock shows last -/

/-- `w` is the last write of `p` to the address of `id` that the clock `c` shows, not
counting `id` itself. -/
def LastVisible (g : SaturatedGraph) (id : ℕ) (c : VClock) (p : ℕ) (w : ℕ) : Prop :=
  w ∈ g.writesByProcessAndAddress p (g.events id).addr ∧ w ≠ id ∧
    (g.events w).iid.index ≤ c.get p ∧
    ∀ w' ∈ g.writesByProcessAndAddress p (g.events id).addr, w' ≠ id →
      (g.events w').iid.index ≤ c.get p → w' ≤ w

theorem LastVisible.of_same {g g' : SaturatedGraph} (hs : SameLayout g g') {id : ℕ}
    {c : VClock} {p : ℕ} {w : ℕ} (h : LastVisible g id c p w) : LastVisible g' id c p w := by
  simpa only [LastVisible, hs.events, hs.writesByProcessAndAddress] using h

/-- On a well-formed graph the lookups of the saturation loop never fault, and they find
the last visible write exactly when the old clock did not show it yet. -/
theorem Layout.newlyVisibleWrite_spec {g : SaturatedGraph} (h : Layout g) (id : ℕ)
    {oldVc vc : VClock} {p : ℕ} (hmono : oldVc.get p ≤ vc.get p)
    (hlen : vc.get p ≤ (g.eventsByPid p).length) :
    ∃ o, g.newlyVisibleWrite id (g.events id).addr oldVc vc p = .ok o ∧
      ∀ w, o = some w ↔ LastVisible g id vc p w ∧ oldVc.get p < (g.events w).iid.index := by
  unfold newlyVisibleWrite
  by_cases heq : oldVc.get p = vc.get p
  · refine ⟨none, by simp [heq]; rfl, ?_⟩
    intro w
    simp only [reduceCtorEq, false_iff, not_and]
    intro hw hlt
    have := hw.2.2.1
    omega
  · obtain ⟨lv, hlvs, hlvp, hlvi, hlvg⟩ :=
      h.exists_of_index (p := p) (k := vc.get p) (by omega) hlen
    have hget : g.getProcessEvent p (vc.get p) = .ok lv := by
      unfold getProcessEvent
      rw [if_neg (by omega), hlvg]
    set writes := g.writesByProcessAndAddress p (g.events id).addr with hwrites
    have hsort : writes.Pairwise (· < ·) := h.writes_sorted _ _
    set shown := writes.take (upperBound writes lv) with hshown
    have hshownSort : shown.Pairwise (· < ·) := hsort.sublist (List.take_sublist _ _)
    -- the events up to `lv` are those with an index up to the clock entry
    have hmem : ∀ w, w ∈ shown ↔ w ∈ writes ∧ (g.events w).iid.index ≤ vc.get p := by
      intro w
      rw [hshown, mem_take_upperBound hsort]
      refine and_congr_right fun hw => ?_
      obtain ⟨hws, hwp, -, -⟩ := (h.mem_writes _ _ w).mp hw
      rw [h.le_iff_index_le hws hlvs (hwp.trans hlvp.symm), hlvi]
    have hlast : ∀ w, (if shown.getLast? = some id then shown.dropLast else shown).getLast? =
        some w ↔ LastVisible g id vc p w := by
      intro w
      rw [getLast?_skip_eq_some_iff hshownSort, LastVisible, ← hwrites, hmem]
      constructor
      · rintro ⟨⟨hw, hidx⟩, hne, hmax⟩
        exact ⟨hw, hne, hidx, fun w' hw' hne' hidx' => hmax w' ((hmem w').mpr ⟨hw', hidx'⟩) hne'⟩
      · rintro ⟨hw, hne, hidx, hmax⟩
        exact ⟨⟨hw, hidx⟩, hne, fun w' hw' hne' =>
          hmax w' ((hmem w').mp hw').1 hne' ((hmem w').mp hw').2⟩
    simp only [heq, if_false, hget, Bind.bind, Except.bind, Pure.pure, Except.pure]
    rw [← hshown]
    cases ho : (if shown.getLast? = some id then shown.dropLast else shown).getLast? with
    | none =>
        refine ⟨none, rfl, ?_⟩
        intro w
        simp only [reduceCtorEq, false_iff, not_and]
        intro hw
        rw [← hlast, ho] at hw
        exact absurd hw (by simp)
    | some pe =>
        have hpe := (hlast pe).mp ho
        by_cases hold : (g.events pe).iid.index ≤ oldVc.get p
        · refine ⟨none, by simp only [hold, if_true], ?_⟩
          intro w
          simp only [reduceCtorEq, false_iff, not_and]
          intro hw
          rw [← hlast, ho] at hw
          cases hw
          omega
        · refine ⟨some pe, by simp only [hold, if_false], ?_⟩
          intro w
          constructor
          · intro hw
            cases hw
            exact ⟨hpe, by omega⟩
          · rintro ⟨hw, -⟩
            rw [← hlast, ho] at hw
            exact hw

theorem newlyVisibleWrite_congr {g g' : SaturatedGraph} (hs : SameLayout g g') (id : ℕ)
    (addr : SymAddr) (oldVc vc : VClock) (p : ℕ) :
    g'.newlyVisibleWrite id addr oldVc vc p = g.newlyVisibleWrite id addr oldVc vc p := by
  simp only [newlyVisibleWrite, getProcessEvent, hs.events, hs.eventsByPid,
    hs.writesByProcessAndAddress]

end Nidhugg.SaturatedGraph
