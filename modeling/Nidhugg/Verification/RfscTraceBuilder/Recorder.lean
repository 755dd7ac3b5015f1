import Nidhugg.Library.LabelledRun
import Nidhugg.Verification.RfscTraceBuilder.Layout

/-! # What a recorded execution looks like

In every state of the recorder the positions kept for each thread are those of the
instructions it has executed, and every reference is to an earlier event. -/

namespace Nidhugg.RfscTraceBuilder

open BlockSequence LabelledRun

variable {s t : RfscTraceBuilder}

def spawnEvent (s : RfscTraceBuilder) (p : ℕ) : Option ℕ := s.threads[p]?.bind Thread.spawnEvent

/-! ### Threads -/

theorem eventIndices_eq_nil {p : ℕ} (h : s.threads.length ≤ p) : s.eventIndices p = [] := by
  simp [eventIndices, List.getElem?_eq_none h]

theorem eventIndices_modifyThread (s : RfscTraceBuilder) (p q : ℕ) (f : Thread → Thread)
    (g : List ℕ → List ℕ) (hf : ∀ t, (f t).eventIndices = g t.eventIndices)
    (hp : p < s.threads.length) :
    (s.modifyThread p f).eventIndices q =
      if p = q then g (s.eventIndices q) else s.eventIndices q := by
  simp only [eventIndices, modifyThread, List.getElem?_modify]
  by_cases hpq : p = q
  · subst hpq
    simp [List.getElem?_eq_getElem hp, hf]
  · simp [hpq]

theorem spawnEvent_modifyThread (s : RfscTraceBuilder) (p q : ℕ) {f : Thread → Thread}
    (hf : ∀ t, (f t).spawnEvent = t.spawnEvent) :
    (s.modifyThread p f).spawnEvent q = s.spawnEvent q := by
  simp only [spawnEvent, modifyThread, List.getElem?_modify]
  cases s.threads[q]? with
  | none => rfl
  | some t =>
      by_cases hpq : p = q
      · simp [hpq, hf]
      · simp [hpq]

/-- What `pushIndex` changes. -/
structure Pushed (s : RfscTraceBuilder) (p : ℕ) (t : RfscTraceBuilder) : Prop where
  lt : p < s.threads.length
  length : t.threads.length = s.threads.length
  eventIndices : ∀ q, t.eventIndices q = s.eventIndices q ++ if p = q then [s.prefixIdx] else []
  spawnEvent : ∀ q, t.spawnEvent q = s.spawnEvent q
  rest : t = { s with threads := t.threads }

theorem pushIndex_pushed {p : ℕ} (h : s.pushIndex p = some t) : Pushed s p t := by
  rw [pushIndex] at h
  split at h
  case isTrue hp =>
    obtain rfl := Option.some.inj h
    constructor
    case lt => exact hp
    case length => simp [modifyThread]
    case eventIndices =>
      intro q
      rw [eventIndices_modifyThread s p q _ (· ++ [s.prefixIdx]) (fun _ => rfl) hp]
      split
      · rfl
      · simp
    case spawnEvent => exact fun q => spawnEvent_modifyThread s p q fun _ => rfl
    case rest => rfl
  case isFalse hp => simp at h

/-! ### The invariant -/

/-- A scheduled event that may conflict. -/
def Visible (s : RfscTraceBuilder) (w : ℕ) : Prop :=
  w < s.scheduled ∧ ∃ e, s.events[w]? = some e ∧ e.mayConflict = true

/-- The events that the bookkeeping refers to. -/
structure References (s : RfscTraceBuilder) : Prop where
  mem : ∀ {a w}, s.mem a = some w → s.Visible w
  mutex : ∀ {a w}, (s.getMutex a).lastAccess = some w → s.Visible w
  spawn : ∀ {p w}, s.spawnEvent p = some w → s.Visible w
  spawn_lt : ∀ {p w : ℕ}, s.spawnEvent p = some w →
    ∀ {j : ℕ} {e : Event}, s.events[j]? = some e → e.iid.pid = p → w < j
  pid_lt : ∀ {j : ℕ} {e : Event}, s.events[j]? = some e → j < s.scheduled →
    e.iid.pid < s.threads.length

/-- The executed instructions during replay: all of the earlier events and `r` of the
current one. -/
inductive Played (s : RfscTraceBuilder) : Prop where
  | start : s.scheduled = 0 → (∀ p, s.eventIndices p = []) → Played s
  | within (n : ℕ) (e : Event) (r : ℕ) : s.scheduled = n + 1 → s.events[n]? = some e → 0 < r →
      r ≤ e.size → (∀ p, s.eventIndices p = unitsOf p (s.events.take n) ++
        if e.iid.pid = p then List.replicate r n else []) → Played s

/-- Every event has been executed. -/
structure Complete (s : RfscTraceBuilder) : Prop where
  scheduled : s.scheduled = s.events.length
  eventIndices : ∀ p, s.eventIndices p = unitsOf p s.events

/-- The two events are not merged. -/
def Separate (previous last : Event) : Prop :=
  last.iid.pid = previous.iid.pid → last.mayConflict = true ∨ last.sym.empty = false

/-- Among the events, in reverse order, the last one may be a single new instruction that
will be merged. -/
def Separated : List Event → Prop
  | last :: previous :: rest =>
      Separate previous last ∨ (last.size = 1 ∧ ∀ e ∈ rest.head?, Separate e previous)
  | _ => True

structure Base (s : RfscTraceBuilder) : Prop where
  numbered : Numbered s.events
  references : References s
  unscheduled : ∀ {j : ℕ} {e : Event}, s.events[j]? = some e → s.scheduled ≤ j →
    e.mayConflict = false
  replaying : s.replay = true → Played s ∧ ∀ e ∈ s.events.getLast?, e.sym.empty = false
  recording : s.replay = false → Complete s ∧ Separated s.events.reverse

/-- The current event has no effect yet. -/
def Untouched (s : RfscTraceBuilder) : Prop :=
  s.seenEffect = false → ∀ e ∈ s.curev, e.mayConflict = false

/-- What is left of the invariant when the execution is over. -/
structure Recorded (s : RfscTraceBuilder) : Prop where
  numbered : Numbered s.events
  eventIndices : ∀ p, s.eventIndices p <+: unitsOf p s.events
  spawn_lt : ∀ {p w : ℕ}, s.spawnEvent p = some w →
    ∀ {j : ℕ} {e : Event}, s.events[j]? = some e → e.iid.pid = p → w < j

theorem Complete.played (h : Complete s) (hnumbered : Numbered s.events) : Played s := by
  rcases List.eq_nil_or_concat s.events with hnil | ⟨rest, e, hconcat⟩
  · refine .start ?_ fun p => ?_
    · rw [h.scheduled, hnil]
      rfl
    · rw [h.eventIndices, hnil]
      rfl
  · rw [List.concat_eq_append] at hconcat
    have he : s.events[rest.length]? = some e := by simp [hconcat]
    refine .within rest.length e e.size ?_ he (hnumbered.size_pos he) le_rfl fun p => ?_
    · simp [h.scheduled, hconcat]
    · rw [h.eventIndices, hconcat, unitsOf, positions_concat, List.take_left]

theorem Played.isPrefix (h : Played s) (p : ℕ) : s.eventIndices p <+: unitsOf p s.events := by
  cases h with
  | start _ hnil =>
      rw [hnil]
      exact List.nil_prefix
  | within n e r _ he _ hr hindices =>
      have hn : n < s.events.length := (List.getElem?_eq_some_iff.mp he).1
      have hsplit : s.events = (s.events.take n ++ [e]) ++ s.events.drop (n + 1) := by
        rw [List.append_assoc, List.singleton_append]
        have hdrop := List.drop_eq_getElem_cons hn
        rw [(List.getElem?_eq_some_iff.mp he).2] at hdrop
        rw [← hdrop, List.take_append_drop]
      have hlen : (s.events.take n).length = n := List.length_take_of_le hn.le
      have hunits : unitsOf p s.events = _ := congrArg (unitsOf p) hsplit
      rw [hindices, hunits, unitsOf, unitsOf, positions_append, positions_concat, hlen]
      apply List.IsPrefix.trans _ (List.prefix_append _ _)
      apply (List.prefix_append_right_inj _).mpr
      split
      · exact List.prefix_replicate_iff.mpr (by simpa using hr)
      · exact List.nil_prefix

theorem Base.recorded (h : Base s) : Recorded s := by
  constructor
  case numbered => exact h.numbered
  case spawn_lt => exact h.references.spawn_lt
  case eventIndices =>
    cases hreplay : s.replay with
    | true => exact (h.replaying hreplay).1.isPrefix
    | false => exact ((h.recording hreplay).1.played h.numbered).isPrefix

/-! ### Scheduling -/

/-- Events disappear at the end only if nothing refers to them. -/
theorem References.shrink (h : References s) (hmem : t.mem = s.mem)
    (hmutexes : t.mutexes = s.mutexes) (hlength : t.threads.length = s.threads.length)
    (hspawn : ∀ p, t.spawnEvent p = s.spawnEvent p) (hscheduled : t.scheduled ≤ s.scheduled)
    (hvisible : ∀ w, s.Visible w → t.Visible w)
    (hpid : ∀ (j : ℕ) (e : Event), t.events[j]? = some e →
      ∃ e', s.events[j]? = some e' ∧ e'.iid.pid = e.iid.pid) : References t := by
  constructor
  case mem =>
    intro a w hw
    rw [hmem] at hw
    exact hvisible w (h.mem hw)
  case mutex =>
    intro a w hw
    rw [getMutex, hmutexes] at hw
    exact hvisible w (h.mutex hw)
  case spawn =>
    intro p w hw
    rw [hspawn] at hw
    exact hvisible w (h.spawn hw)
  case spawn_lt =>
    intro p w hw j e he hep
    obtain ⟨e', he', hpe⟩ := hpid j e he
    rw [hspawn] at hw
    exact h.spawn_lt hw he' (hpe.trans hep)
  case pid_lt =>
    intro j e he hj
    obtain ⟨e', he', hpe⟩ := hpid j e he
    rw [hlength, ← hpe]
    exact h.pid_lt he' (hj.trans_le hscheduled)

/-- A state between events: everything executed and the last two events not to be merged. -/
structure Settled (s : RfscTraceBuilder) : Prop where
  numbered : Numbered s.events
  references : References s
  complete : Complete s
  separate : ∀ {last previous : Event} {rest : List Event},
    s.events.reverse = last :: previous :: rest → Separate previous last
  replay : s.replay = false
  cancelled : s.cancelled = false

theorem mergeLast_settled (h : Base s) (hreplay : s.replay = false) (hcancelled : s.cancelled = false)
    (hmerge : s.mergeLast = some t) : Settled t := by
  obtain ⟨hcomplete, hseparated⟩ := h.recording hreplay
  have hkept : (∀ {last previous : Event} {rest : List Event},
      s.events.reverse = last :: previous :: rest → Separate previous last) → Settled s :=
    fun hseparate => ⟨h.numbered, h.references, hcomplete, hseparate, hreplay, hcancelled⟩
  unfold mergeLast at hmerge
  split at hmerge
  case h_1 last previous rest hrev =>
    split at hmerge
    case isTrue hmergeable =>
      obtain ⟨hpid, hlocal⟩ := hmergeable
      split at hmerge
      case isTrue hempty =>
        obtain rfl := Option.some.inj hmerge
        -- the last event is a single instruction
        have hnot : ¬ Separate previous last := by
          intro hsep
          rcases hsep hpid with hconflict | hsym
          · simp [hlocal] at hconflict
          · simp [hempty] at hsym
        rw [hrev] at hseparated
        obtain ⟨hsize, hinner⟩ := hseparated.resolve_left hnot
        have hevents : s.events = rest.reverse ++ [previous] ++ [last] := by
          rw [← List.reverse_reverse s.events, hrev]
          simp
        have hscheduled : s.scheduled = rest.length + 2 := by
          rw [hcomplete.scheduled, hevents]
          simp
        have hlast : s.events[rest.length + 1]? = some last := by simp [hevents]
        have hprevious : s.events[rest.length]? = some previous := by simp [hevents]
        constructor
        case numbered =>
          have hnumbered := h.numbered
          rw [hevents] at hnumbered
          exact hnumbered.append_left.grow_last
        case references =>
          apply h.references.shrink
          case hmem => rfl
          case hmutexes => rfl
          case hlength => simp
          case hspawn => exact fun p => spawnEvent_modifyThread s _ p fun _ => rfl
          case hscheduled => exact Nat.sub_le _ _
          case hvisible =>
            rintro w ⟨hw, e, he, hconflict⟩
            have hne : w ≠ rest.length + 1 := by
              rintro rfl
              rw [hlast, Option.some.injEq] at he
              rw [← he, hlocal] at hconflict
              simp at hconflict
            refine ⟨by show w < s.scheduled - 1; omega, ?_⟩
            by_cases hw' : w = rest.length
            · subst hw'
              rw [hprevious, Option.some.injEq] at he
              exact ⟨{ previous with size := previous.size + 1 }, by simp, by rwa [← he] at hconflict⟩
            · have hlt : w < rest.reverse.length := by
                rw [List.length_reverse]
                omega
              rw [hevents, List.append_assoc, List.getElem?_append_left hlt] at he
              exact ⟨e, by rw [List.getElem?_append_left hlt, he], hconflict⟩
          case hpid =>
            intro j e he
            rcases lt_trichotomy j rest.length with hj | rfl | hj
            · have hlt : j < rest.reverse.length := by rwa [List.length_reverse]
              rw [List.getElem?_append_left hlt] at he
              refine ⟨e, ?_, rfl⟩
              rw [hevents, List.append_assoc, List.getElem?_append_left hlt, he]
            · simp at he
              exact ⟨previous, hprevious, by rw [← he]⟩
            · rw [List.getElem?_eq_none (by simp; omega)] at he
              simp at he
        case complete =>
          constructor
          case scheduled => simp [hscheduled]
          case eventIndices =>
            intro p
            have hlt := h.references.pid_lt hprevious (by omega)
            have hidx : s.prefixIdx - 1 = rest.reverse.length := by
              simp [prefixIdx, hscheduled]
            have hindices := hcomplete.eventIndices p
            rw [hevents, unitsOf, positions_concat, positions_concat] at hindices
            refine (eventIndices_modifyThread s previous.iid.pid p _
              (fun l => l.dropLast ++ [s.prefixIdx - 1]) (fun _ => rfl) hlt).trans ?_
            rw [hindices, unitsOf, positions_concat]
            by_cases hp : previous.iid.pid = p
            · simp [hp, hpid, hsize, hidx, List.replicate_succ']
            · have hp' : ¬ last.iid.pid = p := by rwa [hpid]
              simp [hp, hp']
        case separate =>
          intro last' previous' rest' hrev'
          simp only [List.reverse_append, List.reverse_cons, List.reverse_nil, List.nil_append,
            List.reverse_reverse, List.singleton_append, List.cons.injEq] at hrev'
          obtain ⟨rfl, hrest⟩ := hrev'
          exact hinner previous' (by simp [hrest])
        case replay => exact hreplay
        case cancelled => exact hcancelled
      case isFalse => simp at hmerge
    case isFalse hnot =>
      obtain rfl := Option.some.inj hmerge
      apply hkept
      intro last' previous' rest' hrev' hpid
      rw [hrev] at hrev'
      simp only [List.cons.injEq] at hrev'
      obtain ⟨rfl, rfl, -⟩ := hrev'
      left
      simpa [hpid] using hnot
  case h_2 hshort =>
    obtain rfl := Option.some.inj hmerge
    apply hkept
    intro last previous rest hrev
    exact absurd hrev (hshort last previous rest)

theorem Settled.recorded (h : Settled s) : Recorded s := by
  constructor
  case numbered => exact h.numbered
  case eventIndices => exact (h.complete.played h.numbered).isPrefix
  case spawn_lt => exact h.references.spawn_lt

/-- A state in which the current event is about to be executed. -/
structure Ready (s : RfscTraceBuilder) : Prop where
  base : Base s
  untouched : Untouched s
  scheduled_pos : 0 < s.scheduled
  cancelled : s.cancelled = false
  /-- A new event is added only when the two before it are not merged. -/
  separate : s.replay = false → ∀ {e last previous : Event} {rest : List Event},
    s.events.reverse = e :: last :: previous :: rest → Separate previous last

theorem Settled.ready_new (h : Settled s) {p : ℕ}
    (hpush : { s with seenEffect := false, scheduled := s.scheduled + 1 }.pushIndex p = some t) :
    Ready { t with events := t.events ++ [Event.new ⟨p, t.lastEventIndex p⟩] } := by
  have hpushed := pushIndex_pushed hpush
  have hrest := hpushed.rest
  have hscheduled := h.complete.scheduled
  have hidx : prefixIdx { s with seenEffect := false, scheduled := s.scheduled + 1 } =
      s.events.length := by
    simp [prefixIdx, hscheduled]
  have hindices : ∀ q, t.eventIndices q =
      unitsOf q s.events ++ if p = q then [s.events.length] else [] := by
    intro q
    rw [hpushed.eventIndices, hidx]
    congr 1
    exact h.complete.eventIndices q
  have hcount : t.lastEventIndex p = countOf p s.events + 1 := by
    rw [lastEventIndex, hindices]
    simp
  have hspawn : ∀ q, t.spawnEvent q = s.spawnEvent q := hpushed.spawnEvent
  have hlength : t.threads.length = s.threads.length := hpushed.length
  have hp : p < s.threads.length := hpushed.lt
  generalize ht : t.threads = threads at hrest hlength
  rw [hrest] at hindices hcount hspawn ⊢
  -- an event is an old one or the new one
  have hget : ∀ {j : ℕ} {e : Event}, (s.events ++ [Event.new ⟨p, countOf p s.events + 1⟩])[j]? = some e →
      (s.events[j]? = some e ∧ j < s.scheduled) ∨
        (j = s.scheduled ∧ e = Event.new ⟨p, countOf p s.events + 1⟩) := by
    intro j e he
    rcases lt_trichotomy j s.events.length with hj | rfl | hj
    · rw [List.getElem?_append_left hj] at he
      exact .inl ⟨he, by omega⟩
    · simp at he
      exact .inr ⟨hscheduled.symm, he.symm⟩
    · rw [List.getElem?_eq_none (by simp; omega)] at he
      simp at he
  have hvisible : ∀ w, s.Visible w → w < s.scheduled + 1 ∧ ∃ e,
      (s.events ++ [Event.new ⟨p, countOf p s.events + 1⟩])[w]? = some e ∧ e.mayConflict = true := by
    rintro w ⟨hw, e, he, hconflict⟩
    refine ⟨by omega, e, ?_, hconflict⟩
    rw [List.getElem?_append_left (by omega), he]
  rw [hcount]
  have hspawn' : ∀ q, s.spawnEvent q = spawnEvent { s with threads := threads } q :=
    fun q => (hspawn q).symm
  constructor
  case scheduled_pos => exact Nat.succ_pos _
  case cancelled => exact h.cancelled
  case separate =>
    intro _ e last previous rest hrev
    rw [List.reverse_append, List.reverse_singleton, List.singleton_append, List.cons.injEq] at hrev
    exact h.separate hrev.2
  case untouched =>
    intro _ e he
    simp [curev, prefixIdx, hscheduled] at he
    rw [← he]
    rfl
  case base =>
    constructor
    case numbered =>
      apply h.numbered.concat
      case hsize => exact Nat.one_pos
      case hindex => rfl
      case hhappensAfter => simp [Event.new]
      case hreadFrom => simp [Event.new]
    case references =>
      constructor
      case mem => exact fun hw => hvisible _ (h.references.mem hw)
      case mutex => exact fun hw => hvisible _ (h.references.mutex hw)
      case spawn =>
        intro q w hw
        exact hvisible _ (h.references.spawn ((hspawn' q).trans hw))
      case spawn_lt =>
        intro q w hw j e he hep
        have hw' : s.spawnEvent q = some w := (hspawn' q).trans hw
        rcases hget he with ⟨he', -⟩ | ⟨rfl, -⟩
        · exact h.references.spawn_lt hw' he' hep
        · exact (h.references.spawn hw').1
      case pid_lt =>
        intro j e he _
        show e.iid.pid < threads.length
        rw [hlength]
        rcases hget he with ⟨he', hj⟩ | ⟨-, rfl⟩
        · exact h.references.pid_lt he' hj
        · exact hp
    case unscheduled =>
      intro j e he hj
      have hj' : s.scheduled + 1 ≤ j := hj
      rcases hget he with ⟨-, hlt⟩ | ⟨rfl, -⟩
      · omega
      · omega
    case replaying =>
      intro hreplay
      have hreplay' : s.replay = true := hreplay
      simp [h.replay] at hreplay'
    case recording =>
      intro _
      constructor
      · constructor
        case scheduled => simp [hscheduled]
        case eventIndices =>
          intro q
          refine (hindices q).trans ?_
          rw [unitsOf, unitsOf, positions_concat]
          rfl
      · rw [List.reverse_append, List.reverse_singleton, List.singleton_append]
        cases hrev : s.events.reverse with
        | nil => trivial
        | cons previous rest =>
            refine .inr ⟨rfl, fun e he => ?_⟩
            cases rest with
            | nil => simp at he
            | cons e' rest =>
                obtain rfl : e' = e := by simpa using he
                exact h.separate hrev

theorem scheduleNew_spec {maxSearchDepth : Option ℕ} {proc : Option ℕ} (h : Base s)
    (hreplay : s.replay = false) (hcancelled : s.cancelled = false)
    (hschedule : s.scheduleNew maxSearchDepth = some (proc, t)) :
    if proc.isSome then Ready t else Recorded t := by
  obtain ⟨u, hmerge, hnew⟩ := Option.bind_eq_some_iff.mp hschedule
  have hsettled := mergeLast_settled h hreplay hcancelled hmerge
  cases hfind : u.findThread maxSearchDepth with
  | none =>
      rw [hfind] at hnew
      cases hnew
      exact hsettled.recorded
  | some p =>
      rw [hfind] at hnew
      obtain ⟨v, hpush, hv⟩ := Option.bind_eq_some_iff.mp hnew
      cases hv
      exact hsettled.ready_new hpush

theorem curev_eq {n : ℕ} (h : s.scheduled = n + 1) : s.curev = s.events[n]? := by
  simp [curev, prefixIdx, h]

theorem prefixIdx_eq {n : ℕ} (h : s.scheduled = n + 1) : s.prefixIdx = n := by
  simp [prefixIdx, h]

/-- The current event goes on as long as some of its instructions have not been played. -/
theorem continues_iff (hnumbered : Numbered s.events) {n r : ℕ} {e : Event}
    (hscheduled : s.scheduled = n + 1) (he : s.events[n]? = some e)
    (hindices : ∀ p, s.eventIndices p = unitsOf p (s.events.take n) ++
      if e.iid.pid = p then List.replicate r n else []) : s.continues = true ↔ r < e.size := by
  have hindex := hnumbered.index_eq he
  have hlast : s.lastEventIndex e.iid.pid = countOf e.iid.pid (s.events.take n) + r := by
    rw [lastEventIndex, hindices]
    simp
  rw [continues, curev_eq hscheduled, he]
  simp only [decide_eq_true_eq, hlast, hindex]
  omega

/-- A replay whose current event is done has played all scheduled events. -/
theorem Played.eventIndices_of_done (h : Played s) (hnumbered : Numbered s.events)
    (hdone : s.continues = false) :
    s.scheduled ≤ s.events.length ∧
      ∀ p, s.eventIndices p = unitsOf p (s.events.take s.scheduled) := by
  cases h with
  | start hscheduled hnil =>
      rw [hscheduled]
      exact ⟨Nat.zero_le _, hnil⟩
  | within n e r hscheduled he _ hr hindices =>
      have hn : n < s.events.length := (List.getElem?_eq_some_iff.mp he).1
      have hfull : r = e.size := by
        have hnot : ¬ r < e.size := by
          rw [← continues_iff hnumbered hscheduled he hindices, hdone]
          simp
        omega
      refine ⟨by omega, fun p => ?_⟩
      rw [hindices, hscheduled, List.take_add_one, he, Option.toList_some, unitsOf, unitsOf,
        positions_concat, List.length_take_of_le hn.le, hfull]

/-- The replay goes on with the current event. -/
theorem Base.replay_continue (h : Base s) (hreplay : s.replay = true) (huntouched : Untouched s)
    (hcancelled : s.cancelled = false) (hcontinues : s.continues = true) {e : Event}
    (he : s.curev = some e) (hpush : s.pushIndex e.iid.pid = some t) : Ready t := by
  obtain ⟨hplayed, hlast⟩ := h.replaying hreplay
  have hpushed := pushIndex_pushed hpush
  have hrest := hpushed.rest
  have hindices' := hpushed.eventIndices
  have hspawn := hpushed.spawnEvent
  have hlength := hpushed.length
  generalize ht : t.threads = threads at hrest hlength
  subst hrest
  cases hplayed with
  | start hscheduled _ =>
      rw [continues, curev, if_pos hscheduled] at hcontinues
      simp at hcontinues
  | within n e' r hscheduled he' hpos hr hindices =>
      obtain rfl : e' = e := by
        rw [curev_eq hscheduled, he', Option.some.injEq] at he
        exact he
      have hlt := (continues_iff h.numbered hscheduled he' hindices).mp hcontinues
      have hreferences : References { s with threads := threads } := by
        apply h.references.shrink
        case hmem => rfl
        case hmutexes => rfl
        case hlength => exact hlength
        case hspawn => exact hspawn
        case hscheduled => exact le_rfl
        case hvisible => exact fun w hw => hw
        case hpid => exact fun j e he => ⟨e, he, rfl⟩
      constructor
      case scheduled_pos =>
        show 0 < s.scheduled
        omega
      case cancelled => exact hcancelled
      case separate =>
        intro hfalse
        have hfalse' : s.replay = false := hfalse
        simp [hreplay] at hfalse'
      case untouched => exact huntouched
      case base =>
        constructor
        case numbered => exact h.numbered
        case references => exact hreferences
        case unscheduled => exact h.unscheduled
        case recording =>
          intro hfalse
          have hfalse' : s.replay = false := hfalse
          simp [hreplay] at hfalse'
        case replaying =>
          refine fun _ => ⟨.within n e' (r + 1) hscheduled he' (Nat.succ_pos r) hlt fun p => ?_, hlast⟩
          rw [hindices', hindices, prefixIdx_eq hscheduled, List.append_assoc]
          congr 1
          split
          · exact List.replicate_succ'.symm
          · rfl

/-- The replay goes on with the next event. -/
theorem Base.replay_next (h : Base s) (hreplay : s.replay = true)
    (hcancelled : s.cancelled = false) (hdone : s.continues = false) {e : Event}
    (he : s.events[s.scheduled]? = some e)
    (hpush : { s with seenEffect := false, scheduled := s.scheduled + 1 }.pushIndex e.iid.pid =
      some t) : Ready t := by
  obtain ⟨hplayed, hlast⟩ := h.replaying hreplay
  have hall := (hplayed.eventIndices_of_done h.numbered hdone).2
  have hpushed := pushIndex_pushed hpush
  have hrest := hpushed.rest
  have hindices' := hpushed.eventIndices
  have hspawn := hpushed.spawnEvent
  have hlength := hpushed.length
  have hlt := hpushed.lt
  generalize ht : t.threads = threads at hrest hlength
  subst hrest
  constructor
  case scheduled_pos => exact Nat.succ_pos _
  case cancelled => exact hcancelled
  case separate =>
    intro hfalse
    have hfalse' : s.replay = false := hfalse
    simp [hreplay] at hfalse'
  case untouched =>
    intro _ e' he'
    rw [curev_eq rfl] at he'
    exact h.unscheduled he' le_rfl
  case base =>
    constructor
    case numbered => exact h.numbered
    case references =>
      have hvisible : ∀ w, s.Visible w → w < s.scheduled + 1 ∧
          ∃ e, s.events[w]? = some e ∧ e.mayConflict = true :=
        fun w hw => ⟨hw.1.trans (Nat.lt_succ_self _), hw.2⟩
      constructor
      case mem => exact fun hw => hvisible _ (h.references.mem hw)
      case mutex => exact fun hw => hvisible _ (h.references.mutex hw)
      case spawn =>
        intro p w hw
        exact hvisible _ (h.references.spawn ((hspawn p).symm.trans hw))
      case spawn_lt =>
        intro p w hw
        exact h.references.spawn_lt ((hspawn p).symm.trans hw)
      case pid_lt =>
        intro j e' he' hj
        show e'.iid.pid < threads.length
        rw [hlength]
        rcases Nat.lt_succ_iff_lt_or_eq.mp hj with hj | rfl
        · exact h.references.pid_lt he' hj
        · have he'' : s.events[s.scheduled]? = some e' := he'
          rw [he, Option.some.injEq] at he''
          rwa [← he'']
    case unscheduled =>
      intro j e' he' hj
      exact h.unscheduled he' ((Nat.le_succ _).trans hj)
    case recording =>
      intro hfalse
      have hfalse' : s.replay = false := hfalse
      simp [hreplay] at hfalse'
    case replaying =>
      refine fun _ => ⟨.within s.scheduled e 1 rfl he Nat.one_pos (h.numbered.size_pos he)
        fun p => ?_, hlast⟩
      rw [hindices']
      congr 1
      exact hall p

/-- The replay is over. -/
theorem Base.replay_end (h : Base s) (hreplay : s.replay = true) (hdone : s.continues = false)
    (hend : s.scheduled = s.events.length) : Base { s with replay := false } := by
  obtain ⟨hplayed, hlast⟩ := h.replaying hreplay
  have hall := (hplayed.eventIndices_of_done h.numbered hdone).2
  constructor
  case numbered => exact h.numbered
  case references => exact ⟨h.references.mem, h.references.mutex, h.references.spawn,
    h.references.spawn_lt, h.references.pid_lt⟩
  case unscheduled => exact h.unscheduled
  case replaying => simp
  case recording =>
    refine fun _ => ⟨⟨hend, fun p => ?_⟩, ?_⟩
    · refine (hall p).trans ?_
      rw [hend, List.take_length]
    · show Separated s.events.reverse
      cases hrev : s.events.reverse with
      | nil => trivial
      | cons last rest =>
          have hlast' : s.events.getLast? = some last := by
            rw [List.getLast?_eq_head?_reverse, hrev]
            rfl
          cases rest with
          | nil => trivial
          | cons previous rest => exact .inl fun _ => .inr (hlast last hlast')

/-- Scheduling makes the next event ready or ends the execution. -/
theorem schedule_spec {maxSearchDepth : Option ℕ} {proc : Option ℕ} (h : Base s)
    (huntouched : s.replay = true → Untouched s) (hcancelled : s.cancelled = false)
    (hschedule : s.schedule maxSearchDepth = some (proc, t)) :
    if proc.isSome then Ready t else Recorded t := by
  unfold schedule at hschedule
  rw [if_neg (by simp [hcancelled])] at hschedule
  cases hreplay : s.replay with
  | false =>
      rw [if_neg (by simp [hreplay])] at hschedule
      exact scheduleNew_spec h hreplay hcancelled hschedule
  | true =>
      rw [if_pos hreplay] at hschedule
      cases hcontinues : s.continues with
      | true =>
          rw [if_pos hcontinues] at hschedule
          obtain ⟨e, he, hschedule⟩ := Option.bind_eq_some_iff.mp hschedule
          split at hschedule
          · obtain ⟨u, hpush, hu⟩ := Option.bind_eq_some_iff.mp hschedule
            cases hu
            exact h.replay_continue hreplay (huntouched hreplay) hcancelled hcontinues he hpush
          · simp at hschedule
      | false =>
          rw [if_neg (by simp [hcontinues])] at hschedule
          split at hschedule
          case isTrue hend =>
            exact scheduleNew_spec (h.replay_end hreplay hcontinues hend) rfl hcancelled hschedule
          case isFalse hend =>
            obtain ⟨e, he, hschedule⟩ := Option.bind_eq_some_iff.mp hschedule
            obtain ⟨u, hpush, hu⟩ := Option.bind_eq_some_iff.mp hschedule
            cases hu
            rw [curev_eq rfl] at he
            exact h.replay_next hreplay hcancelled hcontinues he hpush

end Nidhugg.RfscTraceBuilder
