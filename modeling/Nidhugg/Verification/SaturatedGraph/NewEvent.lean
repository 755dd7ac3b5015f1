import Nidhugg.Verification.SaturatedGraph.Layout

/-! # The tables of a new event

`add_event` enters the new event in the tables of the graph and adds the edges that come
with it. The tables stay well formed. -/

namespace Nidhugg.SaturatedGraph


def withReader (g : SaturatedGraph) (readFrom : Option ℕ) (id : ℕ) : SaturatedGraph :=
  { g with
    events := match readFrom with
      | some w => Function.update g.events w
          { g.events w with readers := (g.events w).readers ++ [id] }
      | none => g.events }

def isFirstWrite (g : SaturatedGraph) (s : EventSpec) : Bool :=
  s.kind.isStore && !(g.writesByAddress s.addr).any (·.1 = s.pid)

def withWrite (g : SaturatedGraph) (id : ℕ) (s : EventSpec) : SaturatedGraph :=
  { g with
    writesByAddress :=
      if g.isFirstWrite s then
        Function.update g.writesByAddress s.addr (g.writesByAddress s.addr ++ [(s.pid, id)])
      else g.writesByAddress
    writesByProcessAndAddress :=
      if s.kind.isStore then
        Function.update g.writesByProcessAndAddress s.pid
          (Function.update (g.writesByProcessAndAddress s.pid) s.addr
            (g.writesByProcessAndAddress s.pid s.addr ++ [id]))
      else g.writesByProcessAndAddress }

/-- The graph with a new event in its tables but without the new event's edges. -/
def withEvent (g : SaturatedGraph) (s : EventSpec) (readFrom : Option ℕ) : SaturatedGraph :=
  let id := g.size
  let e := g.newEvent s readFrom
  let g := { g with extidToId := Function.update g.extidToId s.extId (some id) }
  let g := ((g.addProgramOrder s.pid id []).withReader readFrom id).withWrite id s
  { g with
    size := id + 1
    events := Function.update g.events id e
    readsFromInit :=
      if readFrom.isNone && s.kind.isLoad then
        Function.update g.readsFromInit s.addr (g.readsFromInit s.addr ++ [id])
      else g.readsFromInit
    vclocks := Function.update g.vclocks id VClock.empty }

/-- The new event is a load of the initial value. -/
def readsInit (s : EventSpec) (readFrom : Option ℕ) : Prop :=
  readFrom = none ∧ s.kind.isLoad = true

/-- The edges that come with a new event: from its explicit predecessors, from a load of
the initial value to the first writes and from such loads to a first write. -/
def newEdge (g : SaturatedGraph) (s : EventSpec) (readFrom : Option ℕ) (origIn : List ℕ)
    (a b : ℕ) : Prop :=
  (b = g.size ∧ a ∈ origIn) ∨
    (readsInit s readFrom ∧ a = g.size ∧ ∃ p, (p, b) ∈ g.writesByAddress s.addr) ∨
    (g.isFirstWrite s = true ∧ b = g.size ∧ a ∈ g.readsFromInit s.addr)

theorem addInitRead_extends {g : SaturatedGraph} (hq : QueueOk g) (id : ℕ) (addr : SymAddr) :
    Extends g (g.addInitRead id addr)
      (fun a b => a = id ∧ ∃ p, (p, b) ∈ g.writesByAddress addr)
      (fun x => ∃ p, (p, x) ∈ g.writesByAddress addr) := by
  have hrun : g.addInitRead id addr =
      (g.writesByAddress addr).foldl (fun g p => g.addEdgeInternal id p.2) g := rfl
  rw [hrun]
  refine (Extends.foldl (fun g p hq => addEdgeInternal_extends hq id p.2) _ hq).congr ?_ ?_
  · intro a b
    constructor
    · rintro ⟨⟨p, _⟩, hp, rfl, rfl⟩
      exact ⟨rfl, p, hp⟩
    · rintro ⟨rfl, p, hp⟩
      exact ⟨(p, b), hp, rfl, rfl⟩
  · intro x
    constructor
    · rintro ⟨⟨p, _⟩, hp, rfl⟩
      exact ⟨p, hp⟩
    · rintro ⟨p, hp⟩
      exact ⟨(p, x), hp, rfl⟩

theorem addSource_extends {g : SaturatedGraph} (hq : QueueOk g) (id : ℕ) (s : EventSpec)
    (readFrom : Option ℕ) :
    Extends (g.withReader readFrom id) (g.addSource id s readFrom)
      (fun a b => readsInit s readFrom ∧ a = id ∧ ∃ p, (p, b) ∈ g.writesByAddress s.addr)
      (fun x => readsInit s readFrom ∧ ∃ p, (p, x) ∈ g.writesByAddress s.addr) := by
  cases readFrom with
  | some w =>
      have hq' : QueueOk (g.addReader w id) := ⟨hq.nodup, hq.set_iff⟩
      exact (Extends.refl hq').congr (by simp [readsInit]) (by simp [readsInit])
  | none =>
      by_cases hl : s.kind.isLoad = true
      · simp only [withReader, addSource, hl, if_true]
        exact (addInitRead_extends hq id s.addr).congr (by simp [readsInit, hl])
          (by simp [readsInit, hl])
      · simp only [withReader, addSource, hl]
        exact (Extends.refl hq).congr (by simp [readsInit, hl]) (by simp [readsInit, hl])

theorem withWrite_sameLayout {g g' : SaturatedGraph} (h : SameLayout g g') (id : ℕ)
    (s : EventSpec) : SameLayout (g.withWrite id s) (g'.withWrite id s) := by
  have hfirst : g'.isFirstWrite s = g.isFirstWrite s := by
    simp only [isFirstWrite, h.writesByAddress]
  refine ⟨h.size, h.extidToId, h.events, ?_, h.readsFromInit, h.numPids, h.eventsByPid, ?_⟩
  · simp only [withWrite]
    rw [hfirst, h.writesByAddress]
  · simp only [withWrite]
    rw [h.writesByProcessAndAddress]

theorem addWrite_extends {g : SaturatedGraph} (hq : QueueOk g) (id : ℕ) (s : EventSpec) :
    Extends (g.withWrite id s) (g.addWrite id s)
      (fun a b => g.isFirstWrite s = true ∧ b = id ∧ a ∈ g.readsFromInit s.addr)
      (fun _ => False) := by
  have hq' : QueueOk (g.withWrite id s) := ⟨hq.nodup, hq.set_iff⟩
  by_cases hs : s.kind.isStore = true
  · by_cases hany : (g.writesByAddress s.addr).any (·.1 = s.pid) = true
    · have hfirst : g.isFirstWrite s = false := by simp only [isFirstWrite, hany]; simp
      have hrun : g.addWrite id s = g.withWrite id s := by
        simp only [addWrite, hs, if_true, addFirstWrite, hany, withWrite, hfirst, if_false,
          recordWrite, Bool.false_eq_true]
      rw [hrun]
      exact (Extends.refl hq').congr (by simp [hfirst]) (by simp)
    · rw [Bool.not_eq_true] at hany
      have hfirst : g.isFirstWrite s = true := by
        simp only [isFirstWrite, hs, hany]
        rfl
      have hx := Extends.foldl (fun g r hq => pushIn_pushOut_extends hq r id)
        (g.readsFromInit s.addr) hq
      simp only [addWrite, hs, if_true, addFirstWrite, hany, if_false, Bool.false_eq_true]
      set g' := (g.readsFromInit s.addr).foldl (fun g r => (g.pushIn id r).pushOut r id) g with hg'
      obtain ⟨hlay, hvc, hsat, hins, houts, hqueue, hqok⟩ := hx
      refine ⟨?_, hvc, hsat, fun a b => (hins a b).trans ?_, fun a b => (houts a b).trans ?_,
        fun x => (hqueue x).trans ?_, ⟨hqok.nodup, hqok.set_iff⟩⟩
      · obtain ⟨h₁, h₂, h₃, h₄, h₅, h₆, h₇, h₈⟩ := hlay
        constructor <;> simp only [withWrite, recordWrite, hfirst, hs, if_true, h₁, h₂, h₃, h₄,
          h₅, h₆, h₇, h₈]
      · simp [withWrite, hfirst, and_comm]
      · simp [withWrite, hfirst, and_comm]
      · simp [withWrite]
  · have hfirst : g.isFirstWrite s = false := by simp [isFirstWrite, hs]
    have hrun : g.addWrite id s = g.withWrite id s := by
      simp only [addWrite, hs, withWrite, hfirst, Bool.false_eq_true, if_false]
    rw [hrun]
    exact (Extends.refl hq').congr (by simp [hfirst]) (by simp)

/-- The closing loop of `add_event` mirrors the in-edges of the new event. -/
theorem addOuts_spec (ids : List ℕ) (id : ℕ) (g : SaturatedGraph) :
    ∃ outs, ids.foldl (fun g after => g.pushOut after id) g = { g with outs := outs } ∧
      ∀ a b, b ∈ outs a ↔ b ∈ g.outs a ∨ (b = id ∧ a ∈ ids) := by
  induction ids generalizing g with
  | nil => exact ⟨g.outs, rfl, by simp⟩
  | cons x ids ih =>
      obtain ⟨outs, hrun, hmem⟩ := ih (g.pushOut x id)
      refine ⟨outs, hrun, fun a b => ?_⟩
      rw [hmem]
      by_cases ha : a = x
      · subst ha
        simp [pushOut]
        tauto
      · simp [pushOut, ha]

/-- `add_event` is the new event's table entries followed by its edges. -/
theorem addResolved_extends {g : SaturatedGraph} (hq : QueueOk g) (s : EventSpec)
    (readFrom : Option ℕ) (origIn : List ℕ) :
    Extends (g.withEvent s readFrom) (g.addResolved s readFrom origIn)
      (newEdge g s readFrom origIn)
      (fun x => x = g.size ∨
        readsInit s readFrom ∧ ∃ p, (p, x) ∈ g.writesByAddress s.addr) := by
  set g₁ := { g with extidToId := Function.update g.extidToId s.extId (some g.size) }.addProgramOrder
    s.pid g.size origIn with hg₁
  have hq₁ : QueueOk g₁ := ⟨hq.nodup, hq.set_iff⟩
  have hx₂ := addSource_extends hq₁ g.size s readFrom
  set g₂ := g₁.addSource g.size s readFrom with hg₂
  have hx₃ := addWrite_extends hx₂.queueOk g.size s
  set g₃ := g₂.addWrite g.size s with hg₃
  obtain ⟨outs, houts, hmem⟩ := addOuts_spec (g₃.ins g.size) g.size g₃
  have hlay : SameLayout ((g₁.withReader readFrom g.size).withWrite g.size s) g₃ :=
    (withWrite_sameLayout hx₂.layout g.size s).trans hx₃.layout
  have hwrites : g₂.writesByAddress = g.writesByAddress := hx₂.layout.writesByAddress
  have hinits : g₂.readsFromInit = g.readsFromInit := hx₂.layout.readsFromInit
  have hfirstw : g₂.isFirstWrite s = g.isFirstWrite s := by
    simp only [isFirstWrite, hwrites]
  -- the event's record and its clock are entered after its edges
  set g₅ : SaturatedGraph := { g₃ with
    outs := outs
    size := g.size + 1
    events := Function.update g₃.events g.size (g.newEvent s readFrom)
    readsFromInit :=
      if readFrom.isNone && s.kind.isLoad then
        Function.update g₃.readsFromInit s.addr (g₃.readsFromInit s.addr ++ [g.size])
      else g₃.readsFromInit
    vclocks := Function.update g₃.vclocks g.size VClock.empty } with hg₅
  have hrun : g.addResolved s readFrom origIn = g₅.wqAdd g.size := by
    simp only [addResolved, ← hg₁, ← hg₂, ← hg₃, addOuts, houts, hg₅]
  have hins : ∀ a b, a ∈ g₃.ins b ↔
      a ∈ (g.withEvent s readFrom).ins b ∨ newEdge g s readFrom origIn a b := by
    intro a b
    rw [hx₃.mem_ins, show (g₂.withWrite g.size s).ins = g₂.ins from rfl, hx₂.mem_ins, hfirstw,
      hinits]
    have hbase : a ∈ g₁.ins b ↔ a ∈ (g.withEvent s readFrom).ins b ∨ (b = g.size ∧ a ∈ origIn) := by
      by_cases hb : b = g.size
      · subst hb
        simp [hg₁, withEvent, withWrite, withReader, addProgramOrder]
      · simp [hg₁, withEvent, withWrite, withReader, addProgramOrder, hb]
    rw [show (g₁.withReader readFrom g.size).ins = g₁.ins from rfl, hbase]
    simp only [newEdge, or_assoc]
    rfl
  have hqueue₅ : QueueOk g₅ := ⟨hx₃.queueOk.nodup, hx₃.queueOk.set_iff⟩
  have hwq := wqAdd_extends hqueue₅ g.size
  rw [hrun]
  refine ⟨SameLayout.trans ?_ hwq.layout, ?_, ?_, fun a b => ?_, fun a b => ?_, fun x => ?_,
    hwq.queueOk⟩
  · refine ⟨rfl, hlay.extidToId, ?_, hlay.writesByAddress, ?_, hlay.numPids, hlay.eventsByPid,
      hlay.writesByProcessAndAddress⟩
    · simp only [hg₅, hlay.events]
      rfl
    · simp only [hg₅, hlay.readsFromInit]
      rfl
  · rw [hwq.vclocks]
    simp only [hg₅, hx₃.vclocks, show (g₂.withWrite g.size s).vclocks = g₂.vclocks from rfl,
      hx₂.vclocks]
    rfl
  · rw [hwq.saturatedUntil]
    exact hx₃.saturatedUntil.trans hx₂.saturatedUntil
  · rw [hwq.mem_ins, or_false]
    exact hins a b
  · have houts₃ : b ∈ g₃.outs a ↔ b ∈ (g.withEvent s readFrom).outs a ∨
        (readsInit s readFrom ∧ a = g.size ∧ ∃ p, (p, b) ∈ g.writesByAddress s.addr) ∨
        (g.isFirstWrite s = true ∧ b = g.size ∧ a ∈ g.readsFromInit s.addr) := by
      rw [hx₃.mem_outs, show (g₂.withWrite g.size s).outs = g₂.outs from rfl, hx₂.mem_outs,
        hfirstw, hinits, or_assoc]
      rfl
    have hself : a ∈ g₃.ins g.size ↔ newEdge g s readFrom origIn a g.size := by
      rw [hins]
      simp [withEvent, withWrite, withReader, addProgramOrder]
    rw [hwq.mem_outs, or_false, show g₅.outs = outs from rfl, hmem, houts₃, hself]
    constructor
    · rintro ((hb | hb) | ⟨rfl, hb⟩)
      · exact .inl hb
      · exact .inr (.inr hb)
      · exact .inr hb
    · rintro (hb | ⟨rfl, ha⟩ | hb)
      · exact .inl (.inl hb)
      · exact .inr ⟨rfl, .inl ⟨rfl, ha⟩⟩
      · exact .inl (.inr hb)
  · rw [hwq.mem_queue, show g₅.wqQueue = g₃.wqQueue from rfl, hx₃.mem_queue, or_false,
      show (g₂.withWrite g.size s).wqQueue = g₂.wqQueue from rfl, hx₂.mem_queue, or_assoc,
      or_comm (b := x = g.size)]
    rfl

/-! ## The tables stay well formed -/

/-- What the callers of `add_event` guarantee: a fresh identifier, known predecessors and,
for a load, a source that is a store to its address. -/
structure Accepts (g : SaturatedGraph) (s : EventSpec) (readFrom : Option ℕ)
    (origIn : List ℕ) : Prop where
  fresh : g.extidToId s.extId = none
  source : ∀ w, readFrom = some w → w < g.size ∧ s.kind.isLoad = true ∧
    (g.events w).isStore = true ∧ (g.events w).addr = s.addr
  after_known : ∀ x ∈ s.happensAfter, g.hasEvent x = true
  mem_origIn : ∀ a, a ∈ origIn ↔ a < g.size ∧ (g.events a).extId ∈ s.happensAfter

theorem withEvent_new (g : SaturatedGraph) (s : EventSpec) (readFrom : Option ℕ) :
    (g.withEvent s readFrom).events g.size = g.newEvent s readFrom := by
  simp [withEvent]

/-- The events differ at most in their readers. -/
structure SameButReaders (e e' : Event) : Prop where
  iid : e'.iid = e.iid
  extId : e'.extId = e.extId
  isLoad : e'.isLoad = e.isLoad
  isStore : e'.isStore = e.isStore
  addr : e'.addr = e.addr
  readFrom : e'.readFrom = e.readFrom
  poPredecessor : e'.poPredecessor = e.poPredecessor

section WithEvent

variable (g : SaturatedGraph) (s : EventSpec) (readFrom : Option ℕ)

/-- An old event can only gain the new event as a reader. -/
theorem withEvent_old {i : ℕ} (hi : i < g.size) :
    SameButReaders (g.events i) ((g.withEvent s readFrom).events i) ∧
      ∀ r, r ∈ ((g.withEvent s readFrom).events i).readers ↔
        r ∈ (g.events i).readers ∨ (readFrom = some i ∧ r = g.size) := by
  have hne : i ≠ g.size := hi.ne
  cases readFrom with
  | none =>
      have heq : (g.withEvent s none).events i = g.events i := by
        simp [withEvent, hne, withWrite, withReader, addProgramOrder]
      rw [heq]
      exact ⟨⟨rfl, rfl, rfl, rfl, rfl, rfl, rfl⟩, by simp⟩
  | some w =>
      by_cases hw : i = w
      · subst hw
        have heq : (g.withEvent s (some i)).events i =
            { g.events i with readers := (g.events i).readers ++ [g.size] } := by
          simp [withEvent, hne, withWrite, withReader, addProgramOrder]
        rw [heq]
        exact ⟨⟨rfl, rfl, rfl, rfl, rfl, rfl, rfl⟩, by simp⟩
      · have heq : (g.withEvent s (some w)).events i = g.events i := by
          simp [withEvent, hne, withWrite, withReader, addProgramOrder, hw]
        rw [heq]
        exact ⟨⟨rfl, rfl, rfl, rfl, rfl, rfl, rfl⟩, by simp [Ne.symm hw]⟩

theorem withEvent_eventsByPid (p : ℕ) :
    (g.withEvent s readFrom).eventsByPid p =
      if p = s.pid then g.eventsByPid p ++ [g.size] else g.eventsByPid p := by
  by_cases hp : p = s.pid
  · subst hp
    simp [withEvent, withWrite, withReader, addProgramOrder]
  · simp [withEvent, withWrite, withReader, addProgramOrder, hp]

theorem withEvent_writes (p : ℕ) (x : SymAddr) :
    (g.withEvent s readFrom).writesByProcessAndAddress p x =
      if s.kind.isStore = true ∧ p = s.pid ∧ x = s.addr then
        g.writesByProcessAndAddress p x ++ [g.size]
      else g.writesByProcessAndAddress p x := by
  by_cases hs : s.kind.isStore = true
  · by_cases hp : p = s.pid
    · subst hp
      by_cases hx : x = s.addr
      · subst hx
        simp [withEvent, withWrite, withReader, addProgramOrder, hs]
      · simp [withEvent, withWrite, withReader, addProgramOrder, hs, hx]
    · simp [withEvent, withWrite, withReader, addProgramOrder, hs, hp]
  · simp [withEvent, withWrite, withReader, addProgramOrder, hs]

theorem withEvent_mem_first (p f : ℕ) (x : SymAddr) :
    (p, f) ∈ (g.withEvent s readFrom).writesByAddress x ↔ (p, f) ∈ g.writesByAddress x ∨
      (g.isFirstWrite s = true ∧ x = s.addr ∧ p = s.pid ∧ f = g.size) := by
  have hrun : (g.withEvent s readFrom).writesByAddress =
      if g.isFirstWrite s then
        Function.update g.writesByAddress s.addr (g.writesByAddress s.addr ++ [(s.pid, g.size)])
      else g.writesByAddress := rfl
  rw [hrun]
  by_cases hf : g.isFirstWrite s = true
  · by_cases hx : x = s.addr
    · subst hx
      simp [hf]
    · simp [hf, hx]
  · simp [hf]

theorem withEvent_mem_readsFromInit (r : ℕ) (x : SymAddr) :
    r ∈ (g.withEvent s readFrom).readsFromInit x ↔ r ∈ g.readsFromInit x ∨
      (readsInit s readFrom ∧ x = s.addr ∧ r = g.size) := by
  by_cases hi : readsInit s readFrom
  · obtain ⟨rfl, hl⟩ := hi
    by_cases hx : x = s.addr
    · subst hx
      simp [withEvent, withWrite, withReader, addProgramOrder, readsInit, hl]
    · simp [withEvent, withWrite, withReader, addProgramOrder, readsInit, hl, hx]
  · have hcond : (readFrom.isNone && s.kind.isLoad) = false := by
      rw [← Bool.not_eq_true]
      simpa [readsInit] using hi
    simp [withEvent, withWrite, withReader, addProgramOrder, hi, hcond]

end WithEvent

theorem Layout.getLast?_index {g : SaturatedGraph} (h : Layout g) {p a : ℕ} :
    (g.eventsByPid p).getLast? = some a ↔ a < g.size ∧ (g.events a).iid.pid = p ∧
      (g.events a).iid.index = (g.eventsByPid p).length := by
  rw [List.getLast?_eq_getElem?]
  constructor
  · intro ha
    obtain ⟨hlt, -⟩ := List.getElem?_eq_some_iff.mp ha
    obtain ⟨has, hap⟩ := (h.mem_eventsByPid p a).mp (List.mem_of_getElem? ha)
    refine ⟨has, hap, ?_⟩
    rw [h.index_of_get p _ a ha]
    omega
  · rintro ⟨has, rfl, hidx⟩
    obtain ⟨-, hget⟩ := h.get_index has
    rwa [← hidx]

theorem Layout.newEvent_index {g : SaturatedGraph} (h : Layout g) (s : EventSpec)
    (readFrom : Option ℕ) :
    (g.newEvent s readFrom).iid.index = (g.eventsByPid s.pid).length + 1 := by
  unfold newEvent
  cases hlast : (g.eventsByPid s.pid).getLast? with
  | none => simp [List.getLast?_eq_none_iff.mp hlast]
  | some a => simp [(h.getLast?_index.mp hlast).2.2]

/-! ### The tables with the new event -/

section

variable {g : SaturatedGraph} {s : EventSpec} {readFrom : Option ℕ} {origIn : List ℕ}

/-- An event with a property that does not concern readers is an old one or the new one. -/
theorem withEvent_events_iff (g : SaturatedGraph) (s : EventSpec) (readFrom : Option ℕ)
    (P : Event → Prop) (hP : ∀ {e e'}, SameButReaders e e' → (P e' ↔ P e)) {i : ℕ} :
    i < (g.withEvent s readFrom).size ∧ P ((g.withEvent s readFrom).events i) ↔
      i < g.size ∧ P (g.events i) ∨ P (g.newEvent s readFrom) ∧ i = g.size := by
  constructor
  · rintro ⟨hi, hp⟩
    rcases Nat.lt_succ_iff_lt_or_eq.mp hi with hi | rfl
    · exact .inl ⟨hi, (hP (withEvent_old g s readFrom hi).1).mp hp⟩
    · rw [withEvent_new] at hp
      exact .inr ⟨hp, rfl⟩
  · rintro (⟨hi, hp⟩ | ⟨hp, rfl⟩)
    · exact ⟨Nat.lt_succ_of_lt hi, (hP (withEvent_old g s readFrom hi).1).mpr hp⟩
    · exact ⟨Nat.lt_succ_self _, by rwa [withEvent_new]⟩

theorem mem_ite_concat {c : Prop} [Decidable c] {l : List ℕ} {i n : ℕ} :
    i ∈ (if c then l ++ [n] else l) ↔ i ∈ l ∨ c ∧ i = n := by
  split <;> simp_all

theorem pairwise_ite_concat {c : Prop} [Decidable c] {l : List ℕ} {n : ℕ}
    (hl : l.Pairwise (· < ·)) (hlt : ∀ i ∈ l, i < n) :
    (if c then l ++ [n] else l).Pairwise (· < ·) := by
  split
  · refine List.pairwise_append.mpr ⟨hl, by simp, fun a ha b hb => ?_⟩
    rw [List.mem_singleton.mp hb]
    exact hlt a ha
  · exact hl

theorem Layout.withEvent_index_of_get (h : Layout g) (p k i : ℕ)
    (hk : ((g.withEvent s readFrom).eventsByPid p)[k]? = some i) :
    ((g.withEvent s readFrom).events i).iid.index = k + 1 := by
  rw [withEvent_eventsByPid] at hk
  have hcase : (g.eventsByPid p)[k]? = some i ∨
      (p = s.pid ∧ k = (g.eventsByPid p).length ∧ i = g.size) := by
    split at hk
    · rename_i hp
      rw [List.getElem?_append] at hk
      split at hk
      · exact .inl hk
      · right
        obtain ⟨hlt, hget⟩ := List.getElem?_eq_some_iff.mp hk
        simp only [List.length_singleton] at hlt
        exact ⟨hp, by omega, by simpa using hget.symm⟩
    · exact .inl hk
  rcases hcase with hk | ⟨rfl, rfl, rfl⟩
  · have hi := ((h.mem_eventsByPid p i).mp (List.mem_of_getElem? hk)).1
    rw [(withEvent_old g s readFrom hi).1.iid]
    exact h.index_of_get p k i hk
  · rw [withEvent_new, h.newEvent_index]

/-- The predecessor of the new event is the last event of its process. -/
theorem Layout.newEvent_poPredecessor (h : Layout g) (a : ℕ) :
    (g.newEvent s readFrom).poPredecessor = some a ↔ a < g.size ∧
      (g.events a).iid.pid = s.pid ∧
        (g.events a).iid.index + 1 = (g.newEvent s readFrom).iid.index := by
  rw [show (g.newEvent s readFrom).poPredecessor = (g.eventsByPid s.pid).getLast? from rfl,
    h.getLast?_index, h.newEvent_index]
  omega

theorem Layout.withEvent_po_iff (h : Layout g) (i : ℕ) (hi : i < (g.withEvent s readFrom).size)
    (a : ℕ) : ((g.withEvent s readFrom).events i).poPredecessor = some a ↔
      a < (g.withEvent s readFrom).size ∧ ((g.withEvent s readFrom).events a).iid.pid =
        ((g.withEvent s readFrom).events i).iid.pid ∧
        ((g.withEvent s readFrom).events a).iid.index + 1 =
          ((g.withEvent s readFrom).events i).iid.index := by
  have hpreds := @withEvent_events_iff g s readFrom (fun e =>
    e.iid.pid = ((g.withEvent s readFrom).events i).iid.pid ∧
      e.iid.index + 1 = ((g.withEvent s readFrom).events i).iid.index) (fun h => by rw [h.iid]) a
  rw [hpreds]
  rcases Nat.lt_succ_iff_lt_or_eq.mp hi with hi | rfl
  · have hold := (withEvent_old g s readFrom hi).1
    rw [hold.poPredecessor, hold.iid, h.po_iff i hi]
    refine (or_iff_left ?_).symm
    -- the new event is the last one of its process
    rintro ⟨⟨hpid, hindex⟩, -⟩
    have hle := h.index_le_length hi
    have hlength := h.newEvent_index s readFrom
    rw [← hpid, show (g.newEvent s readFrom).iid.pid = s.pid from rfl] at hle
    omega
  · rw [withEvent_new, h.newEvent_poPredecessor]
    refine (or_iff_left ?_).symm
    rintro ⟨⟨-, hindex⟩, -⟩
    omega

/-- The source of a load is an earlier store to its address. -/
theorem Layout.withEvent_readFrom_spec (h : Layout g) (ha : Accepts g s readFrom origIn) (r : ℕ)
    (hr : r < (g.withEvent s readFrom).size) (w : ℕ)
    (hrf : ((g.withEvent s readFrom).events r).readFrom = some w) :
    w < r ∧ ((g.withEvent s readFrom).events r).isLoad = true ∧
      ((g.withEvent s readFrom).events w).isStore = true ∧
      ((g.withEvent s readFrom).events w).addr = ((g.withEvent s readFrom).events r).addr := by
  rcases Nat.lt_succ_iff_lt_or_eq.mp hr with hr | rfl
  · have hold := (withEvent_old g s readFrom hr).1
    rw [hold.readFrom] at hrf
    obtain ⟨hwr, hl, hs, hx⟩ := h.readFrom_spec r hr w hrf
    have hold' := (withEvent_old g s readFrom (hwr.trans hr)).1
    rw [hold.isLoad, hold.addr, hold'.isStore, hold'.addr]
    exact ⟨hwr, hl, hs, hx⟩
  · rw [withEvent_new] at hrf ⊢
    obtain ⟨hw, hl, hs, hx⟩ := ha.source w hrf
    have hold := (withEvent_old g s readFrom hw).1
    rw [hold.isStore, hold.addr]
    exact ⟨hw, hl, hs, hx⟩

theorem Layout.withEvent_exists_first (h : Layout g) (x : SymAddr) (p w : ℕ)
    (hw : w ∈ (g.withEvent s readFrom).writesByProcessAndAddress p x) :
    ∃ f ≤ w, (p, f) ∈ (g.withEvent s readFrom).writesByAddress x := by
  simp only [withEvent_mem_first]
  rw [withEvent_writes, mem_ite_concat] at hw
  rcases hw with hw | ⟨⟨hs, rfl, rfl⟩, rfl⟩
  · obtain ⟨f, hle, hf⟩ := h.exists_first x p w hw
    exact ⟨f, hle, .inl hf⟩
  · by_cases hfirst : g.isFirstWrite s = true
    · exact ⟨g.size, le_rfl, .inr ⟨hfirst, rfl, rfl, rfl⟩⟩
    · -- an earlier write of the process is already recorded
      simp only [isFirstWrite, hs, Bool.true_and, Bool.not_eq_true', Bool.not_eq_false,
        List.any_eq_true, decide_eq_true_eq] at hfirst
      obtain ⟨⟨q, f⟩, hf, rfl⟩ := hfirst
      have hmem := h.first_mem _ _ f hf
      exact ⟨f, ((h.mem_writes _ _ f).mp hmem).1.le, .inl hf⟩

theorem Layout.withEvent (h : Layout g) (ha : Accepts g s readFrom origIn) :
    Layout (g.withEvent s readFrom) where
  mem_eventsByPid p i := by
    rw [withEvent_events_iff g s readFrom (fun e => e.iid.pid = p) fun h => by rw [h.iid],
      withEvent_eventsByPid, mem_ite_concat, h.mem_eventsByPid]
    exact or_congr_right (and_congr_left' eq_comm)
  eventsByPid_sorted p := by
    rw [withEvent_eventsByPid]
    exact pairwise_ite_concat (h.eventsByPid_sorted p) fun i hi => ((h.mem_eventsByPid p i).mp hi).1
  index_of_get := h.withEvent_index_of_get
  po_iff := h.withEvent_po_iff
  pid_lt i hi := by
    rcases Nat.lt_succ_iff_lt_or_eq.mp hi with hi | rfl
    · rw [(withEvent_old g s readFrom hi).1.iid]
      exact lt_of_lt_of_le (h.pid_lt i hi) (le_max_left _ _)
    · rw [withEvent_new]
      exact lt_of_lt_of_le (Nat.lt_succ_self s.pid) (le_max_right _ _)
  mem_writes p x i := by
    rw [withEvent_events_iff g s readFrom
        (fun e => e.iid.pid = p ∧ e.isStore = true ∧ e.addr = x)
        fun h => by rw [h.iid, h.isStore, h.addr],
      withEvent_writes, mem_ite_concat, h.mem_writes]
    refine or_congr_right (and_congr_left' ⟨?_, ?_⟩)
    · rintro ⟨hs, rfl, rfl⟩
      exact ⟨rfl, hs, rfl⟩
    · rintro ⟨hp, hs, hx⟩
      exact ⟨hs, hp.symm, hx.symm⟩
  writes_sorted p x := by
    rw [withEvent_writes]
    exact pairwise_ite_concat (h.writes_sorted p x) fun i hi => ((h.mem_writes p x i).mp hi).1
  mem_readers w hw r := by
    rw [withEvent_events_iff g s readFrom (fun e => e.readFrom = some w) fun h => by
      rw [h.readFrom]]
    rcases Nat.lt_succ_iff_lt_or_eq.mp hw with hw | rfl
    · rw [(withEvent_old g s readFrom hw).2, h.mem_readers w hw]
      rfl
    · rw [withEvent_new]
      refine iff_of_false (by simp [newEvent]) ?_
      rintro (⟨hr, hrf⟩ | ⟨hrf, -⟩)
      · have hlt := (h.readFrom_spec r hr _ hrf).1
        omega
      · exact (ha.source _ hrf).1.ne rfl
  readFrom_spec := h.withEvent_readFrom_spec ha
  first_mem x p f hf := by
    rw [withEvent_writes, mem_ite_concat]
    rcases (withEvent_mem_first g s readFrom p f x).mp hf with hf | ⟨hfirst, rfl, rfl, rfl⟩
    · exact .inl (h.first_mem x p f hf)
    · simp only [isFirstWrite, Bool.and_eq_true] at hfirst
      exact .inr ⟨⟨hfirst.1, rfl, rfl⟩, rfl⟩
  exists_first := h.withEvent_exists_first
  mem_readsFromInit x r := by
    rw [withEvent_events_iff g s readFrom
        (fun e => e.isLoad = true ∧ e.readFrom = none ∧ e.addr = x)
        fun h => by rw [h.isLoad, h.readFrom, h.addr],
      withEvent_mem_readsFromInit, h.mem_readsFromInit]
    refine or_congr_right ⟨?_, ?_⟩
    · rintro ⟨⟨hrf, hl⟩, rfl, rfl⟩
      exact ⟨⟨hl, hrf, rfl⟩, rfl⟩
    · rintro ⟨⟨hl, hrf, hx⟩, rfl⟩
      exact ⟨⟨hrf, hl⟩, hx.symm, rfl⟩
  extid_iff x i := by
    rw [withEvent_events_iff g s readFrom (fun e => e.extId = x) fun h => by rw [h.extId],
      ← h.extid_iff, show (g.withEvent s readFrom).extidToId =
        Function.update g.extidToId s.extId (some g.size) from rfl]
    have hnew : (g.newEvent s readFrom).extId = s.extId := rfl
    rw [hnew]
    by_cases hx : x = s.extId
    · subst hx
      simp [ha.fresh, eq_comm]
    · simp [Function.update_of_ne hx, Ne.symm hx]

end

end Nidhugg.SaturatedGraph
