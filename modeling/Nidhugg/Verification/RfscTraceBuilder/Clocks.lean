import Nidhugg.Library.Reachability
import Nidhugg.Model.RfscPrefixes
import Nidhugg.Verification.RfscTraceBuilder.Effects
import Nidhugg.Verification.VClock.LatticeLaws

/-! # The clocks of a recorded execution

What `compute_vclocks` computes: its forward loop collects the edges between events, and
its backward loop the least index of each thread that can be reached from an event. -/

namespace Nidhugg.RfscTraceBuilder

open BlockSequence Relation

variable {s t : RfscTraceBuilder}

/-! ### The order of the events of a thread -/

theorem Numbered.index_pos {events : List Event} (h : Numbered events) {j : ℕ} {e : Event}
    (he : events[j]? = some e) : 0 < e.iid.index := by
  rw [h.index_eq he]
  exact Nat.succ_pos _

theorem Numbered.index_add_size_le {events : List Event} (h : Numbered events) {j k : ℕ}
    {d e : Event} (hd : events[j]? = some d) (he : events[k]? = some e) (hjk : j < k)
    (hpid : d.iid.pid = e.iid.pid) : d.iid.index + d.size ≤ e.iid.index := by
  have hle : countOf e.iid.pid (events.take (j + 1)) ≤ countOf e.iid.pid (events.take k) :=
    total_take_le events hjk
  rw [countOf, total_take_succ hd, if_pos hpid] at hle
  rw [h.index_eq hd, h.index_eq he, hpid]
  simp only [countOf] at hle ⊢
  omega

theorem Numbered.lt_iff {events : List Event} (h : Numbered events) {j k : ℕ} {d e : Event}
    (hd : events[j]? = some d) (he : events[k]? = some e) (hpid : d.iid.pid = e.iid.pid) :
    j < k ↔ d.iid.index < e.iid.index := by
  have hdpos := h.size_pos hd
  have hepos := h.size_pos he
  constructor
  · intro hjk
    have hle := h.index_add_size_le hd he hjk hpid
    omega
  · intro hlt
    by_contra hjk
    rcases Nat.eq_or_lt_of_le (Nat.le_of_not_lt hjk) with rfl | hkj
    · rw [hd, Option.some.injEq] at he
      rw [he] at hlt
      exact Nat.lt_irrefl _ hlt
    · have hle := h.index_add_size_le he hd hkj hpid.symm
      omega

/-- The event found for an instruction contains it. -/
theorem Recorded.findProcessEvent (h : Recorded s) {p index k : ℕ}
    (hfind : s.findProcessEvent p index = some k) :
    ∃ d, s.events[k]? = some d ∧ d.iid.pid = p ∧ d.iid.index ≤ index ∧
      index < d.iid.index + d.size := by
  rw [RfscTraceBuilder.findProcessEvent] at hfind
  split at hfind
  · simp at hfind
  case isFalse hpos =>
    have hlt : index - 1 < (s.eventIndices p).length := (List.getElem?_eq_some_iff.mp hfind).1
    have hunit : (unitsOf p s.events)[index - 1]? = some k := by
      obtain ⟨rest, hrest⟩ := h.eventIndices p
      rw [← hrest, List.getElem?_append_left hlt, hfind]
    obtain ⟨j, d, rfl, hd, hpid, hle, hlt⟩ := getElem?_positions.mp hunit
    have hindex := h.numbered.index_eq hd
    rw [hpid, countOf] at hindex
    rw [Nat.zero_add]
    exact ⟨d, hd, hpid, by omega, by omega⟩

theorem findProcessEvent_isSome {p index : ℕ} (hpos : 0 < index) :
    (s.findProcessEvent p index).isSome ↔ index ≤ s.lastEventIndex p := by
  rw [RfscTraceBuilder.findProcessEvent, if_neg (Nat.pos_iff_ne_zero.mp hpos), lastEventIndex]
  simp only [isSome_getElem?, decide_eq_true_eq]
  omega

/-- The event found before another one in its thread. -/
theorem Recorded.predecessor (hr : Recorded s) {i k : ℕ} {e : Event} (he : s.events[i]? = some e)
    (hk : s.findProcessEvent e.iid.pid (e.iid.index - 1) = some k) :
    k < i ∧ (∃ d, s.events[k]? = some d ∧ d.iid.pid = e.iid.pid) ∧
      ∀ j d, s.events[j]? = some d → k < j → j < i → d.iid.pid ≠ e.iid.pid := by
  have hpos := hr.numbered.index_pos he
  obtain ⟨d, hd, hpid, hle, hlt⟩ := hr.findProcessEvent hk
  refine ⟨(hr.numbered.lt_iff hd he hpid).mpr (by omega), ⟨d, hd, hpid⟩, ?_⟩
  intro j d' hd' hkj hji hpid'
  have hafter := hr.numbered.index_add_size_le hd hd' hkj (hpid.trans hpid'.symm)
  have hbefore := (hr.numbered.lt_iff hd' he hpid').mp hji
  omega

theorem Recorded.no_predecessor (hr : Recorded s) {i : ℕ} {e : Event} (he : s.events[i]? = some e)
    (hindex : e.iid.index = 1) :
    ∀ j d, s.events[j]? = some d → j < i → d.iid.pid ≠ e.iid.pid := by
  intro j d hd hji hpid
  have hlt := (hr.numbered.lt_iff hd he hpid).mp hji
  have hpos := hr.numbered.index_pos hd
  omega

/-! ### The forward loop -/

/-- The events that the bookkeeping puts directly before an event. -/
def Direct (s : RfscTraceBuilder) (a b : ℕ) : Prop :=
  ∃ e, s.events[b]? = some e ∧
    ((1 < e.iid.index ∧ s.findProcessEvent e.iid.pid (e.iid.index - 1) = some a) ∨
      a ∈ e.happensAfter ∨ (e.iid.index ≤ 1 ∧ s.spawnEvent e.iid.pid = some a) ∨
      e.readFrom = some (some a))

theorem Recorded.direct_lt (h : Recorded s) {a b : ℕ} (hab : s.Direct a b) :
    a < b ∧ b < s.events.length := by
  obtain ⟨e, he, hedge⟩ := hab
  refine ⟨?_, (List.getElem?_eq_some_iff.mp he).1⟩
  rcases hedge with ⟨hindex, hfind⟩ | hmem | ⟨-, hspawn⟩ | hread
  · obtain ⟨d, hd, hpid, hle, -⟩ := h.findProcessEvent hfind
    exact (h.numbered.lt_iff hd he hpid).mpr (by omega)
  · exact h.numbered.happensAfter_lt he a hmem
  · exact h.spawn_lt hspawn he rfl
  · exact h.numbered.readFrom_lt he a hread

/-- A clock that is below the events after position `j`. -/
def Bounded (s : RfscTraceBuilder) (j : ℕ) (c : VClock) : Prop :=
  ∀ (k : ℕ) (d : Event), s.events[k]? = some d → j < k → c.get d.iid.pid < d.iid.index

theorem Bounded.mono {j k : ℕ} {c : VClock} (h : Bounded s j c) (hjk : j ≤ k) : Bounded s k c :=
  fun k d hd hk => h k d hd (hjk.trans_lt hk)

theorem Bounded.addAssign {j : ℕ} {c d : VClock} (hc : Bounded s j c) (hd : Bounded s j d) :
    Bounded s j (c.addAssign d) := by
  intro k e he hk
  rw [VClock.get_addAssign]
  exact max_lt (hc k e he hk) (hd k e he hk)

theorem Recorded.bounded_empty (h : Recorded s) (j : ℕ) : Bounded s j VClock.empty := by
  intro k d hd _
  rw [VClock.get_empty]
  exact h.numbered.index_pos hd

theorem Recorded.bounded_set (h : Recorded s) {j : ℕ} {e : Event} (he : s.events[j]? = some e)
    {c : VClock} (hc : Bounded s j c) : Bounded s j (c.set e.iid.pid e.iid.index) := by
  intro k d hd hk
  rw [VClock.get_set]
  split
  case isTrue hpid => exact (h.numbered.lt_iff he hd hpid.symm).mp hk
  case isFalse => exact hc k d hd hk

/-- What the forward loop makes of an event. -/
structure Clocked (s : RfscTraceBuilder) (j : ℕ) (e e' : Event) : Prop where
  iid : e'.iid = e.iid
  size : e'.size = e.size
  pinned : e'.pinned = e.pinned
  mayConflict : e'.mayConflict = e.mayConflict
  sym : e'.sym = e.sym
  readFrom : e'.readFrom = e.readFrom
  happensAfter : ∀ a, a ∈ e'.happensAfter ↔
    a ∈ e.happensAfter ∨ (e.iid.index ≤ 1 ∧ s.spawnEvent e.iid.pid = some a)
  bounded : Bounded s j e'.clock
  bounded_above : Bounded s j e'.aboveClock

/-- The state after the first `i` turns of the forward loop. -/
structure Forward (s : RfscTraceBuilder) (i : ℕ) (t : RfscTraceBuilder) (successors : Successors) :
    Prop where
  threads : t.threads = s.threads
  length : t.events.length = s.events.length
  successors_length : successors.length = s.events.length
  later : ∀ {j}, i ≤ j → t.events[j]? = s.events[j]?
  clocked : ∀ {j e}, j < i → s.events[j]? = some e →
    ∃ e', t.events[j]? = some e' ∧ Clocked s j e e'
  successors_iff : ∀ a b, b ∈ successors.getD a [] ↔ b < i ∧ s.Direct a b

/-- The clock of every earlier event is known and bounded. -/
theorem Forward.addClocks {i : ℕ} {successors : Successors} (h : Forward s i t successors)
    (hi : i < s.events.length) {js : List ℕ} (hjs : ∀ j ∈ js, j < i) {c : VClock}
    (hc : Bounded s i c) : ∃ c', t.addClocks c js = some c' ∧ Bounded s i c' := by
  induction js generalizing c with
  | nil => exact ⟨c, rfl, hc⟩
  | cons j js ih =>
      have hj : j < i := hjs j (by simp)
      obtain ⟨e', he', hclocked⟩ := h.clocked hj (List.getElem?_eq_getElem (hj.trans hi))
      obtain ⟨c', hc', hbounded⟩ := ih (fun k hk => hjs k (by simp [hk]))
        (hc.addAssign (hclocked.bounded.mono hj.le))
      refine ⟨c', ?_, hbounded⟩
      rw [RfscTraceBuilder.addClocks, List.foldlM_cons, he']
      exact hc'

theorem Forward.eventIndices {i : ℕ} {successors : Successors} (h : Forward s i t successors)
    (p : ℕ) : t.eventIndices p = s.eventIndices p := by
  rw [RfscTraceBuilder.eventIndices, RfscTraceBuilder.eventIndices, h.threads]

theorem Forward.findProcessEvent {i : ℕ} {successors : Successors} (h : Forward s i t successors)
    (p index : ℕ) : t.findProcessEvent p index = s.findProcessEvent p index := by
  rw [RfscTraceBuilder.findProcessEvent, RfscTraceBuilder.findProcessEvent, h.eventIndices]

theorem mem_addHappensAfter {second first : ℕ} (happensAfter : List ℕ) (h : first < second) :
    ∃ l, addHappensAfter second first happensAfter = some l ∧
      ∀ a, a ∈ l ↔ a ∈ happensAfter ∨ first = a := by
  refine ⟨_, if_pos h, fun a => ?_⟩
  split
  case isTrue hlast =>
    have hmem := List.mem_of_getLast? hlast
    constructor
    · exact .inl
    · rintro (ha | rfl)
      · exact ha
      · exact hmem
  case isFalse =>
    rw [List.mem_append, List.mem_singleton, eq_comm]

/-- The thread of an event exists and has executed the instructions before it. -/
def InRangeAt (s : RfscTraceBuilder) (e : Event) : Prop :=
  e.iid.pid < s.threads.length ∧ e.iid.index ≤ s.lastEventIndex e.iid.pid + 1

/-- The clock, the edges and the predecessor that `compute_above_clock` finds. -/
structure AboveClock (s : RfscTraceBuilder) (i : ℕ) (e : Event) (last : Option ℕ) (c : VClock)
    (happensAfter : List ℕ) : Prop where
  bounded : Bounded s i c
  mem_happensAfter : ∀ a, a ∈ happensAfter ↔
    a ∈ e.happensAfter ∨ (e.iid.index ≤ 1 ∧ s.spawnEvent e.iid.pid = some a)
  last_eq : ∀ a, last = some a ↔
    1 < e.iid.index ∧ s.findProcessEvent e.iid.pid (e.iid.index - 1) = some a

theorem AboveClock.direct {i : ℕ} {e : Event} {last : Option ℕ} {c : VClock} {happensAfter : List ℕ}
    (h : AboveClock s i e last c happensAfter) (he : s.events[i]? = some e) (a : ℕ) :
    s.Direct a i ↔ last = some a ∨ a ∈ happensAfter ∨ e.readFrom = some (some a) := by
  rw [h.last_eq, h.mem_happensAfter]
  constructor
  · rintro ⟨e', he', hedge⟩
    rw [he, Option.some.injEq] at he'
    subst he'
    tauto
  · intro hedge
    exact ⟨e, he, by tauto⟩

theorem Forward.computeAboveClock {i : ℕ} {successors : Successors} {e : Event} (hr : Recorded s)
    (h : Forward s i t successors) (he : s.events[i]? = some e) (hrange : InRangeAt s e) :
    ∃ last c happensAfter, AboveClock s i e last c happensAfter ∧
      t.computeAboveClock i = some (last, { t with
        events := t.events.set i
          { e with clock := c, aboveClock := c, happensAfter := happensAfter } }) := by
  have hi : i < s.events.length := (List.getElem?_eq_some_iff.mp he).1
  have hte : t.events[i]? = some e := (h.later le_rfl).trans he
  -- the rest of the function, from the clock and the edges it starts with
  have hrest : ∀ {last : Option ℕ} {c : VClock} {happensAfter : List ℕ},
      AboveClock s i e last c happensAfter → ∃ c', AboveClock s i e last c' happensAfter ∧
        t.addClocks (c.set e.iid.pid e.iid.index) happensAfter = some c' := by
    intro last c happensAfter habove
    have hlt : ∀ j ∈ happensAfter, j < i := fun j hj =>
      (hr.direct_lt ((habove.direct he j).mpr (.inr (.inl hj)))).1
    obtain ⟨c', hc', hbounded⟩ := h.addClocks hi hlt (hr.bounded_set he habove.bounded)
    exact ⟨c', ⟨hbounded, habove.mem_happensAfter, habove.last_eq⟩, hc'⟩
  by_cases hindex : 1 < e.iid.index
  · have hsome : (s.findProcessEvent e.iid.pid (e.iid.index - 1)).isSome := by
      have hle := hrange.2
      rw [findProcessEvent_isSome (by omega)]
      omega
    obtain ⟨k, hk⟩ := Option.isSome_iff_exists.mp hsome
    have hki : k < i := (hr.direct_lt ⟨e, he, .inl ⟨hindex, hk⟩⟩).1
    obtain ⟨d, hd, hclocked⟩ := h.clocked hki (List.getElem?_eq_getElem (hki.trans hi))
    have habove : AboveClock s i e (some k) d.clock e.happensAfter := by
      constructor
      case bounded => exact hclocked.bounded.mono hki.le
      case mem_happensAfter =>
        intro a
        have hnot : ¬ e.iid.index ≤ 1 := by omega
        simp [hnot]
      case last_eq =>
        intro a
        rw [hk]
        simp [hindex]
    obtain ⟨c', habove', hc'⟩ := hrest habove
    refine ⟨some k, c', e.happensAfter, habove', ?_⟩
    simp only [RfscTraceBuilder.computeAboveClock, hte, h.findProcessEvent, hk, hd, hindex, if_true,
      Option.bind_eq_bind, Option.bind_some, Option.pure_def, hc']
  · obtain ⟨thread, hthread⟩ : ∃ thread, s.threads[e.iid.pid]? = some thread :=
      ⟨_, List.getElem?_eq_getElem hrange.1⟩
    have hspawn : s.spawnEvent e.iid.pid = thread.spawnEvent := by rw [spawnEvent, hthread]; rfl
    have hlast : ∀ a, (none : Option ℕ) = some a ↔
        1 < e.iid.index ∧ s.findProcessEvent e.iid.pid (e.iid.index - 1) = some a := by
      simp [hindex]
    cases hthreadSpawn : thread.spawnEvent with
    | none =>
        have habove : AboveClock s i e none VClock.empty e.happensAfter := by
          refine ⟨hr.bounded_empty i, fun a => ?_, hlast⟩
          simp [hspawn, hthreadSpawn]
        obtain ⟨c', habove', hc'⟩ := hrest habove
        refine ⟨none, c', e.happensAfter, habove', ?_⟩
        simp only [RfscTraceBuilder.computeAboveClock, hte, h.threads, hthread, hthreadSpawn, hindex,
          if_false, Option.bind_eq_bind, Option.bind_some, Option.pure_def, hc']
    | some j =>
        have hji : j < i := hr.spawn_lt (hspawn.trans hthreadSpawn) he rfl
        obtain ⟨l, hl, hmem⟩ := mem_addHappensAfter e.happensAfter hji
        have habove : AboveClock s i e none VClock.empty l := by
          refine ⟨hr.bounded_empty i, fun a => ?_, hlast⟩
          rw [hmem, hspawn, hthreadSpawn, Option.some.injEq]
          have hle : e.iid.index ≤ 1 := by omega
          simp [hle]
        obtain ⟨c', habove', hc'⟩ := hrest habove
        refine ⟨none, c', l, habove', ?_⟩
        simp only [RfscTraceBuilder.computeAboveClock, hte, h.threads, hthread, hthreadSpawn, hindex,
          if_false, Option.bind_eq_bind, Option.bind_some, Option.pure_def, hl, hc']

theorem mem_push {successors : Successors} {j : ℕ} (hj : j < successors.length) (i a b : ℕ) :
    b ∈ (successors.push j i).getD a [] ↔ b ∈ successors.getD a [] ∨ (j = a ∧ b = i) := by
  simp only [Successors.push, List.getD_eq_getElem?_getD, List.getElem?_modify]
  by_cases hja : j = a
  · subst hja
    simp [List.getElem?_eq_getElem hj]
  · simp [hja]

theorem length_push (successors : Successors) (j i : ℕ) :
    (successors.push j i).length = successors.length := by
  simp [Successors.push]

theorem length_pushAll (successors : Successors) (js : List ℕ) (i : ℕ) :
    (js.foldl (fun successors j => Successors.push successors j i) successors).length =
      successors.length := by
  induction js generalizing successors with
  | nil => rfl
  | cons j js ih => rw [List.foldl_cons, ih, length_push]

theorem mem_pushAll {successors : Successors} {js : List ℕ} (hjs : ∀ j ∈ js, j < successors.length)
    (i a b : ℕ) :
    b ∈ (js.foldl (fun successors j => Successors.push successors j i) successors).getD a [] ↔
      b ∈ successors.getD a [] ∨ (a ∈ js ∧ b = i) := by
  induction js generalizing successors with
  | nil => simp
  | cons j js ih =>
      have hj : j < successors.length := hjs j (by simp)
      have hlen := length_push successors j i
      rw [List.foldl_cons, ih (fun k hk => by rw [hlen]; exact hjs k (by simp [hk])), mem_push hj,
        List.mem_cons]
      constructor
      · rintro ((hb | ⟨rfl, rfl⟩) | ⟨ha, rfl⟩)
        · exact .inl hb
        · exact .inr ⟨.inl rfl, rfl⟩
        · exact .inr ⟨.inr ha, rfl⟩
      · rintro (hb | ⟨rfl | ha, rfl⟩)
        · exact .inl (.inl hb)
        · exact .inl (.inr ⟨rfl, rfl⟩)
        · exact .inr ⟨ha, rfl⟩

/-- One turn of the forward loop on an event in range. -/
theorem Forward.computeClock {i : ℕ} {successors : Successors} {e : Event} (hr : Recorded s)
    (h : Forward s i t successors) (he : s.events[i]? = some e) (hrange : InRangeAt s e) :
    ∃ t' successors', t.computeClock successors i = some (t', successors') ∧
      Forward s (i + 1) t' successors' := by
  have hi : i < s.events.length := (List.getElem?_eq_some_iff.mp he).1
  obtain ⟨last, c, happensAfter, habove, hcompute⟩ := h.computeAboveClock hr he hrange
  have hdirect := habove.direct he
  have hlt : ∀ {a}, s.Direct a i → a < successors.length := by
    intro a ha
    rw [h.successors_length]
    exact (hr.direct_lt ha).1.trans hi
  set e' : Event := { e with clock := c, aboveClock := c, happensAfter := happensAfter } with he'
  set pushed : Successors := happensAfter.foldl (fun successors j => Successors.push successors j i)
    (last.toList.foldl (fun successors j => Successors.push successors j i) successors) with hpushed
  have hpushed_length : pushed.length = s.events.length := by
    rw [hpushed, length_pushAll, length_pushAll, h.successors_length]
  have hmem : ∀ a b, b ∈ pushed.getD a [] ↔
      (b < i ∧ s.Direct a b) ∨ ((last = some a ∨ a ∈ happensAfter) ∧ b = i) := by
    intro a b
    rw [hpushed, mem_pushAll, mem_pushAll, h.successors_iff, Option.mem_toList, or_assoc,
      ← or_and_right]
    · intro j hj
      rw [Option.mem_toList] at hj
      exact hlt ((hdirect j).mpr (.inl hj))
    · intro j hj
      rw [length_pushAll]
      exact hlt ((hdirect j).mpr (.inr (.inl hj)))
  have hget : (t.events.set i e')[i]? = some e' := by
    rw [List.getElem?_set_self (by rw [h.length]; exact hi)]
  -- the state after the turn, with whatever event is put in place
  have hforward : ∀ {e'' : Event} {successors' : Successors}, Clocked s i e e'' →
      successors'.length = s.events.length →
      (∀ a b, b ∈ successors'.getD a [] ↔ b < i + 1 ∧ s.Direct a b) →
      Forward s (i + 1) { t with events := t.events.set i e'' } successors' := by
    intro e'' successors' hclocked hlength hsuccessors
    constructor
    case threads => exact h.threads
    case length => simp [h.length]
    case successors_length => exact hlength
    case later =>
      intro j hj
      show (t.events.set i e'')[j]? = _
      rw [List.getElem?_set_ne (by omega)]
      exact h.later (by omega)
    case clocked =>
      intro j d hj hd
      show ∃ d', (t.events.set i e'')[j]? = some d' ∧ _
      rcases Nat.lt_succ_iff_lt_or_eq.mp hj with hj | rfl
      · rw [List.getElem?_set_ne (by omega)]
        exact h.clocked hj hd
      · rw [he, Option.some.injEq] at hd
        rw [← hd, List.getElem?_set_self (by rw [h.length]; exact hi)]
        exact ⟨e'', rfl, hclocked⟩
    case successors_iff => exact hsuccessors
  -- an edge into the current event is one of those just pushed
  have hedge : ∀ a b, (b < i + 1 ∧ s.Direct a b) ↔
      (b < i ∧ s.Direct a b) ∨ (s.Direct a i ∧ b = i) := by
    intro a b
    constructor
    · rintro ⟨hb, hab⟩
      rcases Nat.lt_succ_iff_lt_or_eq.mp hb with hb | rfl
      · exact .inl ⟨hb, hab⟩
      · exact .inr ⟨hab, rfl⟩
    · rintro (⟨hb, hab⟩ | ⟨hab, rfl⟩)
      · exact ⟨by omega, hab⟩
      · exact ⟨by omega, hab⟩
  have hclocked : Clocked s i e e' :=
    ⟨rfl, rfl, rfl, rfl, rfl, rfl, habove.mem_happensAfter, habove.bounded, habove.bounded⟩
  -- without a source the clock is final
  have hnone : (∀ w, e.readFrom ≠ some (some w)) →
      Forward s (i + 1) { t with events := t.events.set i e' } pushed := by
    intro hread
    apply hforward hclocked hpushed_length
    intro a b
    rw [hmem, hedge, hdirect]
    simp [hread]
  rw [RfscTraceBuilder.computeClock, hcompute]
  simp only [Option.bind_eq_bind, Option.bind_some, hget]
  cases hread : e.readFrom with
  | none => exact ⟨_, _, by rw [he', hread]; rfl, hnone (by simp [hread])⟩
  | some source =>
      cases source with
      | none => exact ⟨_, _, by rw [he', hread]; rfl, hnone (by simp [hread])⟩
      | some w =>
          have hwi : s.Direct w i := (hdirect w).mpr (.inr (.inr hread))
          have hw : w < i := (hr.direct_lt hwi).1
          obtain ⟨d, hd, hclockedw⟩ := h.clocked hw (List.getElem?_eq_getElem (hw.trans hi))
          have hdw : (t.events.set i e')[w]? = some d := by rw [List.getElem?_set_ne (by omega), hd]
          have hbounded : Bounded s i (c.addAssign d.clock) :=
            habove.bounded.addAssign (hclockedw.bounded.mono hw.le)
          refine ⟨{ t with events := t.events.set i { e' with clock := c.addAssign d.clock } },
            pushed.push w i, ?_, ?_⟩
          · rw [he', hread]
            simp only [RfscTraceBuilder.addClocks, List.foldlM_cons, List.foldlM_nil, ← hread, ← he',
              hdw, Option.map_some, Option.bind_eq_bind, Option.bind_some, Option.pure_def,
              List.set_set]
            rfl
          · apply hforward
            · exact ⟨rfl, rfl, rfl, rfl, rfl, rfl, habove.mem_happensAfter, hbounded, habove.bounded⟩
            · rw [length_push, hpushed_length]
            · intro a b
              rw [mem_push (by rw [hpushed_length]; exact hw.trans hi), hmem, hedge, hdirect, hread]
              constructor
              · rintro ((hab | ⟨hab, rfl⟩) | ⟨rfl, rfl⟩)
                · exact .inl hab
                · exact .inr ⟨hab.elim .inl fun ha => .inr (.inl ha), rfl⟩
                · exact .inr ⟨.inr (.inr rfl), rfl⟩
              · rintro (hab | ⟨hab | hab | hab, rfl⟩)
                · exact .inl (.inl hab)
                · exact .inl (.inr ⟨.inl hab, rfl⟩)
                · exact .inl (.inr ⟨.inr hab, rfl⟩)
                · exact .inr ⟨by simpa using hab, rfl⟩

/-- A turn of the forward loop looks up the thread of its event. -/
theorem Forward.inRangeAt {i : ℕ} {successors : Successors} {e : Event} (h : Forward s i t successors)
    (he : s.events[i]? = some e) {r : RfscTraceBuilder × Successors}
    (hcompute : t.computeClock successors i = some r) : InRangeAt s e := by
  have hte : t.events[i]? = some e := (h.later le_rfl).trans he
  obtain ⟨r', habove, -⟩ := Option.bind_eq_some_iff.mp hcompute
  simp only [RfscTraceBuilder.computeAboveClock, hte, Option.bind_eq_bind, Option.bind_some] at habove
  split at habove
  case isTrue hindex =>
    obtain ⟨k, hk, -⟩ := Option.bind_eq_some_iff.mp habove
    rw [h.findProcessEvent] at hk
    have hle : e.iid.index - 1 ≤ s.lastEventIndex e.iid.pid :=
      (findProcessEvent_isSome (by omega)).mp (by rw [hk]; rfl)
    refine ⟨?_, by omega⟩
    by_contra hpid
    rw [lastEventIndex, eventIndices_eq_nil (Nat.le_of_not_lt hpid), List.length_nil] at hle
    omega
  case isFalse hindex =>
    obtain ⟨thread, hthread, -⟩ := Option.bind_eq_some_iff.mp habove
    rw [h.threads] at hthread
    exact ⟨(List.getElem?_eq_some_iff.mp hthread).1, by omega⟩

/-- The forward loop of `compute_vclocks` over the first `k` events. -/
def forwardLoop (s : RfscTraceBuilder) (k : ℕ) : Option (RfscTraceBuilder × Successors) :=
  (List.range k).foldlM (fun r i => r.1.computeClock r.2 i) (s, List.replicate s.events.length [])

theorem forwardLoop_succ (s : RfscTraceBuilder) (k : ℕ) :
    s.forwardLoop (k + 1) = (s.forwardLoop k).bind fun r => r.1.computeClock r.2 k := by
  rw [forwardLoop, List.range_succ, List.foldlM_append]
  simp [forwardLoop]

/-- The forward loop is defined on the events in range. -/
theorem Recorded.forwardLoop (hr : Recorded s) {k : ℕ} (hk : k ≤ s.events.length) :
    (∀ r, s.forwardLoop k = some r → Forward s k r.1 r.2) ∧
      ((s.forwardLoop k).isSome ↔
        ∀ j e, j < k → s.events[j]? = some e → InRangeAt s e) := by
  induction k with
  | zero =>
      refine ⟨fun r hr' => ?_, by simp [RfscTraceBuilder.forwardLoop]⟩
      cases hr'
      constructor
      case threads => rfl
      case length => rfl
      case successors_length => simp
      case later => exact fun _ => rfl
      case clocked => exact fun hj => absurd hj (Nat.not_lt_zero _)
      case successors_iff =>
        intro a b
        simp [List.getElem?_replicate]
        split <;> simp
  | succ k ih =>
      obtain ⟨hforward, hdefined⟩ := ih (by omega)
      have hke : s.events[k]? = some s.events[k] := List.getElem?_eq_getElem hk
      rw [forwardLoop_succ]
      cases hloop : s.forwardLoop k with
      | none =>
          rw [hloop, Option.isSome_none] at hdefined
          refine ⟨by simp, ?_⟩
          simp only [Option.bind_none, Option.isSome_none, Bool.false_eq_true, false_iff]
          intro hall
          exact absurd (fun j e hj => hall j e (by omega)) (mt hdefined.mpr Bool.false_ne_true)
      | some r =>
          have hfr := hforward r hloop
          have hall := hdefined.mp (by rw [hloop]; rfl)
          rw [Option.bind_some]
          constructor
          · intro r' hr'
            obtain ⟨t', successors', hcompute, hforward'⟩ :=
              hfr.computeClock hr hke (hfr.inRangeAt hke hr')
            rw [hcompute, Option.some.injEq] at hr'
            rw [← hr']
            exact hforward'
          · constructor
            · intro hsome j e hj he
              obtain ⟨r', hr'⟩ := Option.isSome_iff_exists.mp hsome
              rcases Nat.lt_succ_iff_lt_or_eq.mp hj with hj | rfl
              · exact hall j e hj he
              · exact hfr.inRangeAt he hr'
            · intro hrange
              obtain ⟨t', successors', hcompute, -⟩ :=
                hfr.computeClock hr hke (hrange k _ (Nat.lt_succ_self k) hke)
              rw [hcompute]
              rfl

/-! ### The backward loop -/

/-- The lookups of a thread by an event. -/
theorem lt_foldl_subAssign {below : List ClockRef} {js : List ℕ} {clock : ClockRef} {p : ℕ}
    (hp : p < clock.length) (v : ℕ) :
    v < (js.foldl (fun clock j => ClockRef.subAssign clock (below.getD j [])) clock).getD p 0 ↔
      v < clock.getD p 0 ∧ ∀ j ∈ js, v < (below.getD j []).getD p 0 := by
  induction js generalizing clock with
  | nil => simp
  | cons j js ih =>
      rw [List.foldl_cons, ih (by simpa using hp), ClockRef.getD_subAssign _ _ hp, Nat.lt_min]
      simp [and_assoc]

/-- What the backward loop leaves of the clocks it has not yet computed, and the equation of
those it has. -/
theorem computeBelowClocks_spec (s : RfscTraceBuilder) (successors : Successors) (top : ClockRef)
    {i : ℕ} {below : List ClockRef} (hi : i ≤ below.length) (hevents : i ≤ s.events.length)
    (hsuccessors : ∀ a b, b ∈ successors.getD a [] → a < b)
    (htop : ∀ j < i, below.getD j [] = top) :
    (∀ j, i ≤ j → (s.computeBelowClocks successors i below).getD j [] = below.getD j []) ∧
    ∀ j < i, ∀ e, s.events[j]? = some e → ∀ p < top.length, ∀ v,
      v < ((s.computeBelowClocks successors i below).getD j []).getD p 0 ↔
        (if e.iid.pid = p then v < e.iid.index else v < top.getD p 0) ∧
          ∀ k ∈ successors.getD j [],
            v < ((s.computeBelowClocks successors i below).getD k []).getD p 0 := by
  induction i generalizing below with
  | zero => exact ⟨fun _ _ => rfl, fun j hj => absurd hj (Nat.not_lt_zero j)⟩
  | succ i ih =>
      simp only [computeBelowClocks]
      set clock : ClockRef := (successors.getD i []).foldl
        (fun clock j => ClockRef.subAssign clock (below.getD j []))
        ((below.getD i []).set ((s.events[i]?.map (·.iid.pid)).getD 0)
          ((s.events[i]?.map (·.iid.index)).getD 0)) with hclock
      have hother : ∀ j, i ≠ j → (below.set i clock).getD j [] = below.getD j [] := by
        intro j hj
        simp [List.getElem?_set_ne hj]
      have hself : (below.set i clock).getD i [] = clock := by
        simp [List.getElem?_set_self (show i < below.length by omega)]
      have hlength : i ≤ (below.set i clock).length := by
        rw [List.length_set]
        omega
      obtain ⟨hkept, hspec⟩ := ih hlength (by omega)
        fun j hj => (hother j (by omega)).trans (htop j (by omega))
      generalize s.computeBelowClocks successors i (below.set i clock) = result at hkept hspec ⊢
      constructor
      · intro j hj
        rw [hkept j (by omega), hother j (by omega)]
      · intro j hj e he p hp v
        rcases Nat.lt_succ_iff_lt_or_eq.mp hj with hj | rfl
        · exact hspec j hj e he p hp v
        · rw [hkept j le_rfl, hself, hclock, htop j (by omega), he]
          simp only [Option.map_some, Option.getD_some]
          rw [lt_foldl_subAssign (by simpa using hp)]
          apply and_congr
          · by_cases hpid : e.iid.pid = p
            · subst hpid
              simp [List.getElem?_set_self hp]
            · simp [List.getElem?_set_ne hpid, hpid]
          · apply forall₂_congr
            intro k hk
            have hjk := hsuccessors j k hk
            rw [hkept k hjk.le, hother k (by omega)]

end Nidhugg.RfscTraceBuilder
