import Nidhugg.Library.FoldInvariant
import Nidhugg.Verification.RfscTraceBuilder.Clocks

/-! # Completeness of the candidates for a load

The below clocks tell which events are successors of an event, and every store that a load
could read is handed to `try_read_from`, unless an event that is the last instruction of its
thread is not a successor of all other threads' events. -/

namespace Nidhugg.RfscTraceBuilder

open BlockSequence Relation SortedSearch

variable {s t : RfscTraceBuilder}

/-- Program order, `happens_after` and `read_from`. -/
def Edge (events : List Event) (a b : ℕ) : Prop :=
  ∃ e, events[b]? = some e ∧
    ((∃ d, events[a]? = some d ∧ d.iid.pid = e.iid.pid ∧ d.iid.index < e.iid.index) ∨
      a ∈ e.happensAfter ∨ e.readFrom = some (some a))

/-- An event itself or one that can be reached from it. -/
def Reaches (events : List Event) : ℕ → ℕ → Prop := ReflTransGen (Edge events)

/-- The edges before the clocks are computed. Those from a spawn are not recorded yet. -/
def Before (s : RfscTraceBuilder) (a b : ℕ) : Prop :=
  Edge s.events a b ∨
    ∃ e, s.events[b]? = some e ∧ e.iid.index = 1 ∧ s.spawnEvent e.iid.pid = some a

/-- Two events access the same address. -/
def SameAddr (d e : Event) : Prop := (getAddr d).map SymAddrSize.addr = (getAddr e).map SymAddrSize.addr

/-- What the clocks are for. -/
structure CandidatesComplete (t : RfscTraceBuilder) (below : List ClockRef) : Prop where
  below_iff : ∀ {i j : ℕ} {d e : Event}, t.events[i]? = some d → t.events[j]? = some e →
    (e.iid.index < (below.getD i []).getD e.iid.pid 0 ↔ ¬ Reaches t.events i j)
  candidates : ∀ {i : ℕ} {e : Event}, t.events[i]? = some e → e.pinned = false →
    isLoad e = true → symevIsLockType e.sym = false → ∃ js, t.candidates below i = some js ∧
      ∀ {w : ℕ} {d : Event}, t.events[w]? = some d → isStore d = true → SameAddr d e →
        ¬ Reaches t.events i w →
        (¬ ∃ (w' : ℕ) (d' : Event), t.events[w']? = some d' ∧ isStore d' = true ∧ SameAddr d' e ∧
          d'.iid.pid = d.iid.pid ∧ d.iid.index < d'.iid.index ∧
          e.aboveClock.includes d'.iid = true) → some w ∈ js

/-- The threads of all events exist and have executed the instructions before them. -/
def InRange (s : RfscTraceBuilder) : Prop :=
  ∀ (j : ℕ) (e : Event), s.events[j]? = some e → InRangeAt s e

/-- An event that is not followed by an instruction of its thread comes after every event of
the other threads. -/
def LastReached (s : RfscTraceBuilder) : Prop :=
  ∀ (i j : ℕ) (d e : Event), s.events[i]? = some d → s.events[j]? = some e → d.iid.pid ≠ e.iid.pid →
    s.lastEventIndex e.iid.pid ≤ e.iid.index → ReflTransGen s.Before i j

/-! ### Reachability -/

/-- Program order follows the predecessors. -/
theorem Recorded.transGen_direct (hr : Recorded s) (hrange : InRange s) {a b : ℕ} {d e : Event}
    (hd : s.events[a]? = some d) (he : s.events[b]? = some e) (hpid : d.iid.pid = e.iid.pid)
    (hlt : d.iid.index < e.iid.index) : TransGen s.Direct a b := by
  induction b using Nat.strong_induction_on generalizing e with
  | _ b ih =>
      have hdpos := hr.numbered.index_pos hd
      have hsome : (s.findProcessEvent e.iid.pid (e.iid.index - 1)).isSome := by
        have hle := (hrange b e he).2
        rw [findProcessEvent_isSome (by omega)]
        omega
      obtain ⟨k, hk⟩ := Option.isSome_iff_exists.mp hsome
      have hkb : s.Direct k b := ⟨e, he, .inl ⟨by omega, hk⟩⟩
      obtain ⟨c, hc, hcpid, hcle, hclt⟩ := hr.findProcessEvent hk
      rcases lt_trichotomy a k with hak | rfl | hka
      · have hdc := (hr.numbered.lt_iff hd hc (hpid.trans hcpid.symm)).mp hak
        exact (ih k (hr.direct_lt hkb).1 hc (hpid.trans hcpid.symm) hdc).tail hkb
      · exact .single hkb
      · have hle := hr.numbered.index_add_size_le hc hd hka (hcpid.trans hpid.symm)
        omega

theorem Recorded.before_of_direct (hr : Recorded s) {a b : ℕ} (h : s.Direct a b) : s.Before a b := by
  obtain ⟨e, he, hedge⟩ := h
  rcases hedge with ⟨hindex, hfind⟩ | hmem | ⟨hindex, hspawn⟩ | hread
  · obtain ⟨d, hd, hpid, hle, -⟩ := hr.findProcessEvent hfind
    exact .inl ⟨e, he, .inl ⟨d, hd, hpid, by omega⟩⟩
  · exact .inl ⟨e, he, .inr (.inl hmem)⟩
  · have hpos := hr.numbered.index_pos he
    exact .inr ⟨e, he, by omega, hspawn⟩
  · exact .inl ⟨e, he, .inr (.inr hread)⟩

theorem Recorded.before_lt (hr : Recorded s) {a b : ℕ} (h : s.Before a b) : a < b := by
  rcases h with ⟨e, he, ⟨d, hd, hpid, hlt⟩ | hmem | hread⟩ | ⟨e, he, -, hspawn⟩
  · exact (hr.numbered.lt_iff hd he hpid).mpr hlt
  · exact hr.numbered.happensAfter_lt he a hmem
  · exact hr.numbered.readFrom_lt he a hread
  · exact hr.spawn_lt hspawn he rfl

theorem Recorded.le_of_reaches (hr : Recorded s) {a b : ℕ} (h : ReflTransGen s.Before a b) :
    a ≤ b := by
  induction h with
  | refl => exact le_rfl
  | tail _ hbc ih => exact ih.trans (hr.before_lt hbc).le

theorem Recorded.transGen_direct_of_before (hr : Recorded s) (hrange : InRange s) {a b : ℕ}
    (h : s.Before a b) : TransGen s.Direct a b := by
  rcases h with ⟨e, he, ⟨d, hd, hpid, hlt⟩ | hmem | hread⟩ | ⟨e, he, hindex, hspawn⟩
  · exact hr.transGen_direct hrange hd he hpid hlt
  · exact .single ⟨e, he, .inr (.inl hmem)⟩
  · exact .single ⟨e, he, .inr (.inr (.inr hread))⟩
  · exact .single ⟨e, he, .inr (.inr (.inl ⟨hindex.le, hspawn⟩))⟩

theorem Recorded.reaches_direct_iff (hr : Recorded s) (hrange : InRange s) {a b : ℕ} :
    ReflTransGen s.Direct a b ↔ ReflTransGen s.Before a b := by
  constructor
  · intro h
    induction h with
    | refl => exact .refl
    | tail _ hbc ih => exact ih.tail (hr.before_of_direct hbc)
  · intro h
    induction h with
    | refl => exact .refl
    | tail _ hbc ih => exact ih.trans (hr.transGen_direct_of_before hrange hbc).to_reflTransGen

theorem Forward.clocked_of {successors : Successors} (h : Forward s s.events.length t successors)
    {j : ℕ} {e' : Event} (he' : t.events[j]? = some e') :
    ∃ e, s.events[j]? = some e ∧ Clocked s j e e' := by
  have hj : j < s.events.length := by
    rw [← h.length]
    exact (List.getElem?_eq_some_iff.mp he').1
  obtain ⟨e'', he'', hclocked⟩ := h.clocked hj (List.getElem?_eq_getElem hj)
  rw [he', Option.some.injEq] at he''
  subst he''
  exact ⟨_, List.getElem?_eq_getElem hj, hclocked⟩

theorem Forward.clocked_at {successors : Successors} (h : Forward s s.events.length t successors)
    {j : ℕ} {e : Event} (he : s.events[j]? = some e) :
    ∃ e', t.events[j]? = some e' ∧ Clocked s j e e' :=
  h.clocked (List.getElem?_eq_some_iff.mp he).1 he

/-- The computed edges are those recorded and those from spawns. -/
theorem Forward.edge_iff {successors : Successors} (hr : Recorded s)
    (h : Forward s s.events.length t successors) {a b : ℕ} : Edge t.events a b ↔ s.Before a b := by
  constructor
  · rintro ⟨e', he', hedge⟩
    obtain ⟨e, he, hclocked⟩ := h.clocked_of he'
    rcases hedge with ⟨d', hd', hpid, hlt⟩ | hmem | hread
    · obtain ⟨d, hd, hdclocked⟩ := h.clocked_of hd'
      rw [hdclocked.iid, hclocked.iid] at hpid hlt
      exact .inl ⟨e, he, .inl ⟨d, hd, hpid, hlt⟩⟩
    · rcases (hclocked.happensAfter a).mp hmem with hmem | ⟨hindex, hspawn⟩
      · exact .inl ⟨e, he, .inr (.inl hmem)⟩
      · have hpos := hr.numbered.index_pos he
        exact .inr ⟨e, he, by omega, hspawn⟩
    · rw [hclocked.readFrom] at hread
      exact .inl ⟨e, he, .inr (.inr hread)⟩
  · rintro (⟨e, he, hedge⟩ | ⟨e, he, hindex, hspawn⟩)
    · obtain ⟨e', he', hclocked⟩ := h.clocked_at he
      refine ⟨e', he', ?_⟩
      rcases hedge with ⟨d, hd, hpid, hlt⟩ | hmem | hread
      · obtain ⟨d', hd', hdclocked⟩ := h.clocked_at hd
        rw [← hdclocked.iid, ← hclocked.iid] at hpid hlt
        exact .inl ⟨d', hd', hpid, hlt⟩
      · exact .inr (.inl ((hclocked.happensAfter a).mpr (.inl hmem)))
      · rw [← hclocked.readFrom] at hread
        exact .inr (.inr hread)
    · obtain ⟨e', he', hclocked⟩ := h.clocked_at he
      exact ⟨e', he', .inr (.inl ((hclocked.happensAfter a).mpr (.inr ⟨hindex.le, hspawn⟩)))⟩

theorem Forward.reaches_iff {successors : Successors} (hr : Recorded s)
    (h : Forward s s.events.length t successors) {a b : ℕ} :
    Reaches t.events a b ↔ ReflTransGen s.Before a b := by
  have hsame : Edge t.events = s.Before := by
    funext a b
    exact propext (h.edge_iff hr)
  rw [Reaches, hsame]

/-! ### The below clocks -/

theorem get_top {p : ℕ} (hp : p < s.threads.length) : s.top.get p = s.lastEventIndex p := by
  have hfold : ∀ n, ((List.range n).foldl (fun c p => c.set p (s.lastEventIndex p))
      VClock.empty).get p = if p < n then s.lastEventIndex p else 0 := by
    intro n
    induction n with
    | zero => simp
    | succ n ih =>
        rw [List.range_succ, List.foldl_append, List.foldl_cons, List.foldl_nil, VClock.get_set, ih]
        by_cases hpn : p = n
        · simp [hpn]
        · have hiff : p < n + 1 ↔ p < n := by omega
          simp [hpn, hiff]
  rw [top, hfold, if_pos hp]

/-- What `compute_vclocks` computes. -/
structure VClocksSpec (s t : RfscTraceBuilder) (below : List ClockRef) : Prop where
  forward : ∃ successors, Forward s s.events.length t successors
  lt_below_iff : ∀ {i p : ℕ}, i < s.events.length → p < s.threads.length → ∀ v,
    v < (below.getD i []).getD p 0 ↔ ∀ j, ReflTransGen s.Direct i j →
      ∀ d, s.events[j]? = some d →
        if d.iid.pid = p then v < d.iid.index else v < s.lastEventIndex p

theorem Recorded.computeVclocks_spec (hr : Recorded s) {below : List ClockRef}
    (hcompute : s.computeVclocks = some (t, below)) : VClocksSpec s t below := by
  obtain ⟨⟨u, successors⟩, hloop, hu⟩ := Option.bind_eq_some_iff.mp hcompute
  cases hu
  have hforward := (hr.forwardLoop le_rfl).1 _ hloop
  have hindices : ∀ p, t.lastEventIndex p = s.lastEventIndex p := by
    intro p
    rw [lastEventIndex, lastEventIndex, hforward.eventIndices]
  have hthreads : t.threads.length = s.threads.length := by rw [hforward.threads]
  set top : ClockRef := ClockRef.assign t.threads.length t.top with htop
  have hlength : t.events.length ≤ (List.replicate t.events.length top).length := by simp
  have hinit : ∀ j < t.events.length, (List.replicate t.events.length top).getD j [] = top := by
    intro j hj
    simp [hj]
  have hsuccessors : ∀ a b, b ∈ successors.getD a [] → a < b := fun a b hb =>
    (hr.direct_lt ((hforward.successors_iff a b).mp hb).2).1
  have hspec := (computeBelowClocks_spec t successors top hlength le_rfl hsuccessors hinit).2
  refine ⟨⟨successors, hforward⟩, fun {i p} hi hp v => ?_⟩
  have htop_get : top.getD p 0 = s.lastEventIndex p := by
    rw [htop, ClockRef.getD_assign _ (by rwa [hthreads]), get_top (by rwa [hthreads]), hindices]
  apply Reachability.iff_forall_reachable (fun hab => hr.direct_lt hab) _ hi
  intro j hj
  obtain ⟨e', he', hclocked⟩ := hforward.clocked_at (List.getElem?_eq_getElem hj)
  rw [hspec j (by rw [hforward.length]; exact hj) e' he' p (by rw [htop]; simpa [hthreads] using hp) v,
    htop_get, hclocked.iid]
  apply and_congr
  · simp [List.getElem?_eq_getElem hj]
  · constructor
    · intro hall k hjk
      apply hall
      rw [hforward.successors_iff]
      exact ⟨(hr.direct_lt hjk).2, hjk⟩
    · intro hall k hk
      exact hall k ((hforward.successors_iff j k).mp hk).2

theorem Recorded.computeVclocks_isSome_iff (hr : Recorded s) :
    s.computeVclocks.isSome ↔ InRange s := by
  have hiff := (hr.forwardLoop le_rfl).2
  have hsome : s.computeVclocks.isSome = (s.forwardLoop s.events.length).isSome := by
    rw [computeVclocks, ← RfscTraceBuilder.forwardLoop]
    cases s.forwardLoop s.events.length <;> rfl
  rw [hsome, hiff]
  constructor
  · intro h j e he
    exact h j e (List.getElem?_eq_some_iff.mp he).1 he
  · intro h j e _ he
    exact h j e he

section Computed

variable {below : List ClockRef}

/-- A successor is not below the clock. -/
theorem VClocksSpec.not_lt_of_reaches (hspec : VClocksSpec s t below) (hr : Recorded s)
    (hrange : InRange s) {i j : ℕ} {e : Event} (hi : i < s.events.length) (he : s.events[j]? = some e)
    (hij : ReflTransGen s.Before i j) : ¬ e.iid.index < (below.getD i []).getD e.iid.pid 0 := by
  rw [hspec.lt_below_iff hi (hrange j e he).1]
  intro hall
  have hlt := hall j ((hr.reaches_direct_iff hrange).mpr hij) e he
  rw [if_pos rfl] at hlt
  exact Nat.lt_irrefl _ hlt

/-- Every other event is, if the last events are successors of the other threads. -/
theorem VClocksSpec.lt_of_not_reaches (hspec : VClocksSpec s t below) (hr : Recorded s)
    (hrange : InRange s) (hlast : LastReached s) {i j : ℕ} {e : Event} (hi : i < s.events.length)
    (he : s.events[j]? = some e) (hij : ¬ ReflTransGen s.Before i j) :
    e.iid.index < (below.getD i []).getD e.iid.pid 0 := by
  rw [hspec.lt_below_iff hi (hrange j e he).1]
  intro k hik d hd
  rw [hr.reaches_direct_iff hrange] at hik
  split
  case isTrue hpid =>
    by_contra hle
    apply hij
    rcases Nat.eq_or_lt_of_le (Nat.le_of_not_lt hle) with heq | hlt
    · have hjk : j = k := by
        rcases lt_trichotomy j k with hjk | rfl | hkj
        · have hlt := (hr.numbered.lt_iff he hd hpid.symm).mp hjk
          omega
        · rfl
        · have hlt := (hr.numbered.lt_iff hd he hpid).mp hkj
          omega
      rwa [hjk]
    · exact hik.tail (.inl ⟨e, he, .inl ⟨d, hd, hpid, hlt⟩⟩)
  case isFalse hpid =>
    by_contra hle
    exact hij (hik.trans (hlast k j d e hd he hpid (Nat.le_of_not_lt hle)))

/-- The below clocks hold the number of instructions of a thread of which no successor is
known. -/
theorem VClocksSpec.lastReached (hspec : VClocksSpec s t below) (hrange : InRange s)
    (hall : ∀ {i j : ℕ} {d e : Event}, s.events[i]? = some d → s.events[j]? = some e →
      ¬ ReflTransGen s.Before i j → e.iid.index < (below.getD i []).getD e.iid.pid 0) :
    LastReached s := by
  intro i j d e hd he hpid hle
  by_contra hij
  have hlt := hall hd he hij
  rw [hspec.lt_below_iff (List.getElem?_eq_some_iff.mp hd).1 (hrange j e he).1] at hlt
  have hi := hlt i .refl d hd
  rw [if_neg hpid] at hi
  omega

/-! ### The range of candidates -/

theorem mem_writes {p w : ℕ} {a : SymAddr} :
    w ∈ t.writes p a ↔ ∃ d, t.events[w]? = some d ∧ isStore d = true ∧ d.iid.pid = p ∧
      (getAddr d).map SymAddrSize.addr = some a := by
  rw [writes, List.mem_filter, List.mem_range]
  cases hd : t.events[w]? with
  | none => simp
  | some d =>
      have hw := (List.getElem?_eq_some_iff.mp hd).1
      cases haddr : getAddr d with
      | none => simp [hw, haddr]
      | some ml => simp [hw, haddr, and_assoc]

theorem writes_pairwise (p : ℕ) (a : SymAddr) : (t.writes p a).Pairwise (· < ·) :=
  List.pairwise_lt_range.filter _

/-- The index of the event at a position. -/
def indexAt (t : RfscTraceBuilder) (w : ℕ) : ℕ := (t.events[w]?.map (·.iid.index)).getD 0

/-- A range of stores of one thread, sorted by position and by index. -/
theorem Forward.indices_pairwise {successors : Successors} (hr : Recorded s)
    (h : Forward s s.events.length t successors) (p : ℕ) (a : SymAddr) :
    ((t.writes p a).map t.indexAt).Pairwise (· < ·) := by
  rw [List.pairwise_map]
  apply (writes_pairwise p a).imp_of_mem
  intro v w hv hw hlt
  obtain ⟨c, hc, -, hcp, -⟩ := mem_writes.mp hv
  obtain ⟨d, hd, -, hdp, -⟩ := mem_writes.mp hw
  obtain ⟨c', hc', hcclocked⟩ := h.clocked_of hc
  obtain ⟨d', hd', hdclocked⟩ := h.clocked_of hd
  have hpid : c'.iid.pid = d'.iid.pid := by rw [← hcclocked.iid, ← hdclocked.iid, hcp, hdp]
  simp only [indexAt, hc, hd, Option.map_some, Option.getD_some, hcclocked.iid, hdclocked.iid]
  exact (hr.numbered.lt_iff hc' hd' hpid).mp hlt

/-- The candidates of a thread are defined and contain every visible store. -/
theorem Forward.candidateRange {successors : Successors} (hr : Recorded s)
    (h : Forward s s.events.length t successors) {i : ℕ} {e : Event} (he : t.events[i]? = some e)
    (hbelow : ∀ {j : ℕ} {d : Event}, t.events[j]? = some d →
      (d.iid.index < (below.getD i []).getD d.iid.pid 0 ↔ ¬ Reaches t.events i j))
    (a : SymAddr) (p : ℕ) :
    ∃ js, t.candidateRange (below.getD i []) e a p = some js ∧
      ∀ w ∈ t.writes p a, ¬ Reaches t.events i w →
        (¬ ∃ w' ∈ t.writes p a, t.indexAt w < t.indexAt w' ∧ t.indexAt w' ≤ e.aboveClock.get p) →
        w ∈ js := by
  obtain ⟨e₀, he₀, hclocked⟩ := h.clocked_of he
  have hsorted := h.indices_pairwise hr p a
  set indices := (t.writes p a).map t.indexAt with hindices
  have hget : ∀ {m w : ℕ}, (t.writes p a)[m]? = some w → indices[m]? = some (t.indexAt w) := by
    intro m w hm
    rw [hindices, List.getElem?_map, hm]
    rfl
  have hlength : indices.length = (t.writes p a).length := by rw [hindices, List.length_map]
  -- a store is below the clock of its thread if it is not a successor
  have hstore : ∀ {w}, w ∈ t.writes p a →
      (t.indexAt w < (below.getD i []).getD p 0 ↔ ¬ Reaches t.events i w) := by
    intro w hw
    obtain ⟨d, hd, -, rfl, -⟩ := mem_writes.mp hw
    rw [indexAt, hd]
    exact hbelow hd
  -- a store above the load comes before it
  have habove : ∀ {w}, w ∈ t.writes p a → t.indexAt w ≤ e.aboveClock.get p → w ≤ i := by
    intro w hw hle
    obtain ⟨d, hd, -, rfl, -⟩ := mem_writes.mp hw
    obtain ⟨d₀, hd₀, hdclocked⟩ := h.clocked_of hd
    by_contra hiw
    have hlt := hclocked.bounded_above w d₀ hd₀ (Nat.lt_of_not_le hiw)
    rw [indexAt, hd, Option.map_some, Option.getD_some, hdclocked.iid] at hle
    omega
  set first := upperBound indices (e.aboveClock.get p) with hfirst
  set limit := lowerBound indices ((below.getD i []).getD p 0) with hlimit
  have hle : first ≤ (t.writes p a).length := by
    rw [← hlength]
    exact List.findIdx_le_length
  have hstart : first - 1 ≤ limit := by
    by_contra hlt
    have hx := List.getElem?_eq_getElem (show limit < (t.writes p a).length by omega)
    have hy := List.getElem?_eq_getElem (show first - 1 < (t.writes p a).length by omega)
    have hxr := mt (hstore (List.getElem_mem _)).mpr
      (mt (lt_lowerBound_iff hsorted (hget hx) _).mpr (Nat.lt_irrefl limit))
    have hya := habove (List.getElem_mem _)
      ((lt_upperBound_iff hsorted (hget hy) _).mp (by rw [← hfirst]; omega))
    have hxy := List.pairwise_iff_getElem.mp (writes_pairwise (t := t) p a) limit (first - 1)
      (by omega) (by omega) (by omega)
    have hix := hr.le_of_reaches ((h.reaches_iff hr).mp (not_not.mp hxr))
    omega
  set swap := isStore e && ((t.writes p a)[limit]?.bind (t.events[·]?)).any isLoad
  have hrange : t.candidateRange (below.getD i []) e a p =
      if first - 1 ≤ (if swap then limit + 1 else limit) then
        some (((t.writes p a).take (if swap then limit + 1 else limit)).drop (first - 1))
      else none := rfl
  have hstop : limit ≤ if swap then limit + 1 else limit := by
    split
    · exact Nat.le_succ _
    · exact le_rfl
  rw [hrange, if_pos (hstart.trans hstop)]
  refine ⟨_, rfl, fun w hw hnot hlatest => ?_⟩
  obtain ⟨m, hm⟩ := List.mem_iff_getElem?.mp hw
  have hmlimit : m < limit := (lt_lowerBound_iff hsorted (hget hm) _).mpr ((hstore hw).mpr hnot)
  have hmfirst : first - 1 ≤ m := by
    by_contra hlt
    have hy := List.getElem?_eq_getElem (show first - 1 < (t.writes p a).length by omega)
    refine hlatest ⟨_, List.getElem_mem _, ?_,
      (lt_upperBound_iff hsorted (hget hy) _).mp (by rw [← hfirst]; omega)⟩
    have hmi := hget hm
    have hyi := hget hy
    obtain ⟨hmlt, hmeq⟩ := List.getElem?_eq_some_iff.mp hmi
    obtain ⟨hylt, hyeq⟩ := List.getElem?_eq_some_iff.mp hyi
    rw [← hmeq, ← hyeq]
    exact List.pairwise_iff_getElem.mp hsorted m (first - 1) _ _ (by omega)
  apply List.mem_iff_getElem?.mpr
  refine ⟨m - (first - 1), ?_⟩
  rw [List.getElem?_drop, Nat.add_sub_cancel' hmfirst, List.getElem?_take_of_lt, hm]
  exact hmlimit.trans_le hstop

/-- The clocks decide which stores are candidates. -/
theorem VClocksSpec.candidatesComplete (hspec : VClocksSpec s t below) (hr : Recorded s)
    (hrange : InRange s)
    (hbelow : ∀ {i j : ℕ} {d e : Event}, t.events[i]? = some d → t.events[j]? = some e →
      (e.iid.index < (below.getD i []).getD e.iid.pid 0 ↔ ¬ Reaches t.events i j)) :
    CandidatesComplete t below := by
  obtain ⟨successors, h⟩ := hspec.forward
  refine ⟨hbelow, fun {i e} he hpinned hload hlock => ?_⟩
  obtain ⟨ml, hml⟩ : ∃ ml, getAddr e = some ml := by
    unfold isLoad at hload
    unfold getAddr
    split at hload <;> simp_all [SymEv.addr?, symevIsLockType]
  have hdefined : ∀ p ∈ List.range t.threads.length,
      (t.candidateRange (below.getD i []) e ml.addr p).isSome = true := by
    intro p _
    obtain ⟨js, hjs, -⟩ := h.candidateRange hr he (hbelow he) ml.addr p
    rw [hjs]
    rfl
  obtain ⟨ranges, hranges, hmem⟩ := FoldInvariant.mapM_eq_some_of_forall _ _ hdefined
  refine ⟨ranges.flatten.map some ++ [none], ?_, ?_⟩
  · rw [RfscTraceBuilder.candidates, he]
    simp only [Option.bind_eq_bind, Option.bind_some, hpinned, hlock, hload, hml, hranges,
      Bool.not_true, Bool.or_self, Bool.false_eq_true, if_false]
    rfl
  · intro w d hd hstore haddr hnot hlatest
    rw [SameAddr, hml, Option.map_some] at haddr
    obtain ⟨js, hjs, hcomplete⟩ := h.candidateRange hr he (hbelow he) ml.addr d.iid.pid
    have hpid : d.iid.pid < t.threads.length := by
      obtain ⟨d₀, hd₀, hclocked⟩ := h.clocked_of hd
      rw [hclocked.iid, h.threads]
      exact (hrange w d₀ hd₀).1
    have hw : w ∈ js := by
      apply hcomplete w (mem_writes.mpr ⟨d, hd, hstore, rfl, haddr⟩) hnot
      rintro ⟨w', hw', hlt, hle⟩
      obtain ⟨d', hd', hstore', hpid', haddr'⟩ := mem_writes.mp hw'
      apply hlatest
      refine ⟨w', d', hd', hstore', ?_, hpid', ?_, ?_⟩
      · rw [SameAddr, haddr', hml]
        rfl
      · simpa [indexAt, hd, hd'] using hlt
      · simpa [VClock.includes, indexAt, hd', hpid'] using hle
    have hflat : w ∈ ranges.flatten :=
      List.mem_flatten.mpr ⟨js, (hmem js).mpr ⟨_, List.mem_range.mpr hpid, hjs⟩, hw⟩
    exact List.mem_append_left _ (List.mem_map_of_mem hflat)

end Computed

/-- The clocks do not change what was recorded. -/
theorem Recorded.computeVclocks_recorded {t : RfscTraceBuilder} {below : List ClockRef}
    (hr : Recorded s) (hcompute : s.computeVclocks = some (t, below)) : Recorded t := by
  obtain ⟨successors, hforward⟩ := (hr.computeVclocks_spec hcompute).forward
  have hmap : ∀ {β : Type} (f : Event → β), (∀ {j e e'}, Clocked s j e e' → f e' = f e) →
      t.events.map f = s.events.map f := by
    intro β f hf
    apply List.ext_getElem?
    intro j
    rw [List.getElem?_map, List.getElem?_map]
    cases he : s.events[j]? with
    | none =>
        rw [List.getElem?_eq_none_iff, ← hforward.length, ← List.getElem?_eq_none_iff] at he
        rw [he]
    | some e =>
        obtain ⟨e', he', hclocked⟩ := hforward.clocked_at he
        rw [he', Option.map_some, Option.map_some, hf hclocked]
  have hpids := hmap (fun e : Event => e.iid.pid) fun hclocked => by rw [hclocked.iid]
  have hsizes := hmap Event.size fun hclocked => hclocked.size
  have hspawn : ∀ p, t.spawnEvent p = s.spawnEvent p := by
    intro p
    rw [spawnEvent, spawnEvent, hforward.threads]
  refine ⟨⟨?_, ?_, ?_, ?_⟩, ?_, ?_⟩
  · intro j e' he'
    obtain ⟨e, he, hclocked⟩ := hforward.clocked_of he'
    rw [hclocked.size]
    exact hr.numbered.size_pos he
  · intro j e' he'
    obtain ⟨e, he, hclocked⟩ := hforward.clocked_of he'
    rw [hclocked.iid, hr.numbered.index_eq he]
    congr 1
    apply BlockSequence.total_congr
    · rw [List.map_take, List.map_take, hpids]
    · rw [List.map_take, List.map_take, hsizes]
  · intro j e' he' a ha
    obtain ⟨e, he, hclocked⟩ := hforward.clocked_of he'
    rcases (hclocked.happensAfter a).mp ha with ha | ⟨-, ha⟩
    · exact hr.numbered.happensAfter_lt he a ha
    · exact hr.spawn_lt ha he rfl
  · intro j e' he' a ha
    obtain ⟨e, he, hclocked⟩ := hforward.clocked_of he'
    rw [hclocked.readFrom] at ha
    exact hr.numbered.readFrom_lt he a ha
  · intro p
    rw [hforward.eventIndices, unitsOf, BlockSequence.positions_congr hpids hsizes]
    exact hr.eventIndices p
  · intro p w hw j e' he' hpid
    obtain ⟨e, he, hclocked⟩ := hforward.clocked_of he'
    rw [hclocked.iid] at hpid
    exact hr.spawn_lt ((hspawn p).symm.trans hw) he hpid

/-- Only in such states do the clocks tell exactly the successors. -/
theorem Recorded.lastReached_of_complete (hr : Recorded s) {below : List ClockRef}
    (hcompute : s.computeVclocks = some (t, below)) (hcomplete : CandidatesComplete t below) :
    InRange s ∧ LastReached s := by
  have hrange : InRange s := hr.computeVclocks_isSome_iff.mp (by rw [hcompute]; rfl)
  have hspec := hr.computeVclocks_spec hcompute
  obtain ⟨successors, hforward⟩ := hspec.forward
  refine ⟨hrange, hspec.lastReached hrange fun {i j d e} hd he hij => ?_⟩
  obtain ⟨d', hd', -⟩ := hforward.clocked_at hd
  obtain ⟨e', he', hclocked⟩ := hforward.clocked_at he
  have hiff := hcomplete.below_iff hd' he'
  rw [hclocked.iid, hforward.reaches_iff hr] at hiff
  exact hiff.mpr hij

/-- After an execution the below clocks tell exactly the successors of an event and every store
that a load could read is a candidate if and only if the events are in range and every event
that is the last instruction of its thread comes after all events of the other threads. -/
theorem candidatesComplete_iff {maxSearchDepth : Option ℕ} {leaf : Leaf}
    (h : Execution maxSearchDepth leaf s) :
    (∃ t below, s.computeVclocks = some (t, below) ∧ CandidatesComplete t below) ↔
      InRange s ∧ LastReached s := by
  have hr := h.recorded
  constructor
  · rintro ⟨t, below, hcompute, hcomplete⟩
    exact hr.lastReached_of_complete hcompute hcomplete
  · rintro ⟨hrange, hlast⟩
    obtain ⟨⟨t, below⟩, hcompute⟩ :=
      Option.isSome_iff_exists.mp (hr.computeVclocks_isSome_iff.mpr hrange)
    have hspec := hr.computeVclocks_spec hcompute
    obtain ⟨successors, hforward⟩ := hspec.forward
    refine ⟨t, below, hcompute, hspec.candidatesComplete hr hrange fun {i j d e} hd he => ?_⟩
    obtain ⟨d₀, hd₀, -⟩ := hforward.clocked_of hd
    obtain ⟨e₀, he₀, hclocked⟩ := hforward.clocked_of he
    have hi : i < s.events.length := (List.getElem?_eq_some_iff.mp hd₀).1
    rw [hclocked.iid, hforward.reaches_iff hr]
    constructor
    · intro hlt hij
      exact hspec.not_lt_of_reaches hr hrange hi he₀ hij hlt
    · exact hspec.lt_of_not_reaches hr hrange hlast hi he₀

/-! ### Two executions -/

instance (s : RfscTraceBuilder) (e : Event) : Decidable (InRangeAt s e) :=
  inferInstanceAs (Decidable (_ ∧ _))

/-- The state after the rounds and a last call of `schedule`. -/
def finish (maxSearchDepth : Option ℕ) (leaf : Leaf) (rounds : List Round) : RfscTraceBuilder :=
  (((LabelledRun.run (step maxSearchDepth) (reset leaf) rounds).bind
    (schedule maxSearchDepth)).map Prod.snd).getD (reset leaf)

theorem execution_finish {maxSearchDepth : Option ℕ} {leaf : Leaf} {rounds : List Round}
    (h : ((LabelledRun.run (step maxSearchDepth) (reset leaf) rounds).bind
      (schedule maxSearchDepth)).map Prod.fst = some none) :
    Execution maxSearchDepth leaf (finish maxSearchDepth leaf rounds) := by
  obtain ⟨⟨proc, s⟩, hs, rfl⟩ := Option.map_eq_some_iff.mp h
  obtain ⟨u, hu, hschedule⟩ := Option.bind_eq_some_iff.mp hs
  rw [finish, hs]
  exact ⟨rounds, u, hu, hschedule⟩

/-- Nothing is replayed. -/
def noLeaf : Leaf := ⟨[], by simp⟩

def byteX : SymAddrSize := ⟨⟨SymMBlock.global 0, 0⟩, 1⟩

def mutexM : SymAddrSize := ⟨⟨SymMBlock.global 1, 0⟩, 1⟩

/-- The main thread creates a thread, reads `x` and waits for the thread, which writes `x`. -/
def joined : RfscTraceBuilder := finish none noLeaf
  [⟨.spawn, [], false⟩, ⟨.load byteX, [], false⟩, ⟨.refused none, [], false⟩,
    ⟨.atomicStore byteX none, [], false⟩, ⟨.invisible, [(1, false), (0, true)], false⟩,
    ⟨.join 1, [], false⟩, ⟨.invisible, [(0, false)], false⟩]

theorem execution_joined : Execution none noLeaf joined :=
  execution_finish (by decide +kernel)

theorem candidatesComplete_joined : Execution none noLeaf joined ∧
    ∃ t below, joined.computeVclocks = some (t, below) ∧ CandidatesComplete t below := by
  refine ⟨execution_joined, (candidatesComplete_iff execution_joined).mpr ⟨?_, ?_⟩⟩
  · have hall : ∀ e ∈ joined.events, InRangeAt joined e := by decide +kernel
    exact fun j e he => hall e (List.mem_of_getElem? he)
  · have hall : ∀ e ∈ joined.events, e.iid.index < joined.lastEventIndex e.iid.pid := by
      decide +kernel
    intro i j d e _ he _ hle
    exact absurd (hall e (List.mem_of_getElem? he)) (Nat.not_lt.mpr hle)

/-- The main thread locks `m`, creates a thread, reads `x` and waits for the thread, which writes
`x` and then waits for `m`. -/
def deadlocked : RfscTraceBuilder := finish none noLeaf
  [⟨.mutexLock mutexM, [], false⟩, ⟨.spawn, [], false⟩, ⟨.load byteX, [], false⟩,
    ⟨.refused none, [], false⟩, ⟨.atomicStore byteX none, [], false⟩,
    ⟨.refused (some mutexM.addr), [], false⟩]

theorem execution_deadlocked : Execution none noLeaf deadlocked :=
  execution_finish (by decide +kernel)

/-- The write is the last instruction that its thread executes, and it does not come after the
read. -/
theorem not_lastReached_deadlocked : ¬ LastReached deadlocked := by
  intro hlast
  have hread : ∀ d ∈ deadlocked.events[2]?, d.iid.pid = 0 := by decide +kernel
  have hwrite : ∀ e ∈ deadlocked.events[3]?, e.iid.pid = 1 ∧ 2 ∉ e.happensAfter ∧
      e.readFrom ≠ some (some 2) ∧ deadlocked.spawnEvent 1 ≠ some 2 ∧
      deadlocked.lastEventIndex 1 ≤ e.iid.index := by decide +kernel
  obtain ⟨d, hd⟩ : ∃ d, deadlocked.events[2]? = some d :=
    Option.isSome_iff_exists.mp (by decide +kernel)
  obtain ⟨e, he⟩ : ∃ e, deadlocked.events[3]? = some e :=
    Option.isSome_iff_exists.mp (by decide +kernel)
  have hdpid := hread d hd
  obtain ⟨hpid, hafter, hfrom, hspawn, hle⟩ := hwrite e he
  have hreaches := hlast 2 3 d e hd he (by omega) (by rw [hpid]; exact hle)
  -- The last edge of the path starts at the read itself.
  obtain h | ⟨b, hb, hedge⟩ := hreaches.cases_tail
  · omega
  · have hr := execution_deadlocked.recorded
    have hle := hr.le_of_reaches hb
    have hlt := hr.before_lt hedge
    obtain rfl : b = 2 := by omega
    rcases hedge with ⟨e', he', hedge⟩ | ⟨e', he', -, hspawn'⟩
    · rw [he, Option.some.injEq] at he'
      subst he'
      rcases hedge with ⟨d', hd', hsame, -⟩ | hmem | hread'
      · rw [hd, Option.some.injEq] at hd'
        subst hd'
        omega
      · exact hafter hmem
      · exact hfrom hread'
    · rw [he, Option.some.injEq] at he'
      subst he'
      rw [hpid] at hspawn'
      exact hspawn hspawn'

/-- The write is not handed to `try_read_from` for the read. -/
theorem not_candidatesComplete_deadlocked : Execution none noLeaf deadlocked ∧
    ¬ ∃ t below, deadlocked.computeVclocks = some (t, below) ∧ CandidatesComplete t below := by
  refine ⟨execution_deadlocked, ?_⟩
  rintro ⟨t, below, hcompute, hcomplete⟩
  exact not_lastReached_deadlocked
    (execution_deadlocked.recorded.lastReached_of_complete hcompute hcomplete).2

end Nidhugg.RfscTraceBuilder
