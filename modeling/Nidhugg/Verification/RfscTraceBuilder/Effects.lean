import Nidhugg.Verification.RfscTraceBuilder.Recorder

/-! # The effects of instructions on the recorded execution -/

namespace Nidhugg.RfscTraceBuilder

open BlockSequence LabelledRun

variable {s t : RfscTraceBuilder}

/-! ### Changes to parts of the state -/

theorem getElem?_modify_eq_some {α : Type*} {l : List α} {n j : ℕ} {f : α → α} {e : α}
    (h : (l.modify n f)[j]? = some e) :
    ∃ e', l[j]? = some e' ∧ e = if n = j then f e' else e' := by
  rw [List.getElem?_modify] at h
  cases hj : l[j]? with
  | none => simp [hj] at h
  | some e' => exact ⟨e', rfl, by simpa [hj] using h.symm⟩

theorem visible_modifyCurev {f : Event → Event} (hf : Keeps s.prefixIdx f) {w : ℕ}
    (h : s.Visible w) : (s.modifyCurev f).Visible w := by
  obtain ⟨hw, e, he, hconflict⟩ := h
  refine ⟨hw, if s.prefixIdx = w then f e else e, ?_, ?_⟩
  · simp only [modifyCurev, List.getElem?_modify, he]
    split <;> rfl
  · split
    · exact hf.mayConflict e hconflict
    · exact hconflict

theorem Played.modifyCurev {f : Event → Event} (hf : Keeps s.prefixIdx f) (h : Played s) :
    Played (s.modifyCurev f) := by
  cases h with
  | start hscheduled hnil => exact .start hscheduled hnil
  | within n e r hscheduled he hpos hr hindices =>
      have hn : s.prefixIdx = n := prefixIdx_eq hscheduled
      apply Played.within n (f e) r
      · exact hscheduled
      · simp [RfscTraceBuilder.modifyCurev, hn, he]
      · exact hpos
      · rwa [hf.size]
      · intro p
        refine (hindices p).trans ?_
        rw [hf.iid]
        simp only [RfscTraceBuilder.modifyCurev, List.take_modify, hf.unitsOf]

theorem Complete.modifyCurev {f : Event → Event} (hf : Keeps s.prefixIdx f) (h : Complete s) :
    Complete (s.modifyCurev f) := by
  constructor
  case scheduled =>
    refine h.scheduled.trans ?_
    simp [RfscTraceBuilder.modifyCurev]
  case eventIndices =>
    intro p
    refine (h.eventIndices p).trans ?_
    simp only [RfscTraceBuilder.modifyCurev, hf.unitsOf]

theorem separated_modify_last {events : List Event} {n : ℕ} {f : Event → Event} (hf : Keeps n f)
    (hn : n + 1 = events.length) (h : Separated events.reverse) :
    Separated (events.modify n f).reverse := by
  rcases List.eq_nil_or_concat events with rfl | ⟨rest, last, rfl⟩
  · simp at hn
  · rw [List.concat_eq_append] at hn h ⊢
    obtain rfl : n = rest.length := by simpa using hn
    have hmodify : (rest ++ [last]).modify rest.length f = rest ++ [f last] := by
      rw [List.modify_eq_take_cons_drop (by simp)]
      simp
    rw [hmodify, List.reverse_append, List.reverse_singleton, List.singleton_append]
    rw [List.reverse_append, List.reverse_singleton, List.singleton_append] at h
    cases hrest : rest.reverse with
    | nil => trivial
    | cons previous rest' =>
        rw [hrest] at h
        rcases h with hseparate | ⟨hsize, hinner⟩
        · left
          intro hpid
          rw [hf.iid] at hpid
          rcases hseparate hpid with hconflict | hsym
          · exact .inl (hf.mayConflict _ hconflict)
          · exact .inr (hf.sym _ hsym)
        · exact .inr ⟨by rw [hf.size, hsize], hinner⟩

theorem Base.modifyCurev (h : Base s) (hpos : 0 < s.scheduled) {f : Event → Event}
    (hf : Keeps s.prefixIdx f) : Base (s.modifyCurev f) := by
  have hlt : s.prefixIdx < s.scheduled := Nat.sub_lt hpos Nat.one_pos
  constructor
  case numbered => exact h.numbered.modify hf
  case references =>
    apply h.references.shrink
    case hmem => rfl
    case hmutexes => rfl
    case hlength => rfl
    case hspawn => exact fun _ => rfl
    case hscheduled => exact le_rfl
    case hvisible => exact fun w => visible_modifyCurev hf
    case hpid =>
      intro j e he
      obtain ⟨e', he', rfl⟩ := getElem?_modify_eq_some he
      refine ⟨e', he', ?_⟩
      split
      · rw [hf.iid]
      · rfl
  case unscheduled =>
    intro j e he hj
    have hj' : s.scheduled ≤ j := hj
    obtain ⟨e', he', rfl⟩ := getElem?_modify_eq_some he
    rw [if_neg (by omega)]
    exact h.unscheduled he' hj'
  case replaying =>
    intro hreplay
    obtain ⟨hplayed, hlast⟩ := h.replaying hreplay
    refine ⟨hplayed.modifyCurev hf, fun e he => ?_⟩
    rw [Option.mem_def, List.getLast?_eq_getElem?] at he
    obtain ⟨e', he', rfl⟩ := getElem?_modify_eq_some he
    have hlength : (s.modifyCurev f).events.length = s.events.length := List.length_modify _ _ _
    rw [hlength, ← List.getLast?_eq_getElem?] at he'
    split
    · exact hf.sym e' (hlast e' he')
    · exact hlast e' he'
  case recording =>
    intro hreplay
    obtain ⟨hcomplete, hseparated⟩ := h.recording hreplay
    have hlast : s.prefixIdx + 1 = s.events.length := by
      rw [← hcomplete.scheduled, prefixIdx]
      omega
    exact ⟨hcomplete.modifyCurev hf, separated_modify_last hf hlast hseparated⟩

/-- Only the bookkeeping of bytes, mutexes and effects differs. -/
structure SameTrace (s t : RfscTraceBuilder) : Prop where
  threads : t.threads = s.threads
  events : t.events = s.events
  scheduled : t.scheduled = s.scheduled
  replay : t.replay = s.replay
  cancelled : t.cancelled = s.cancelled

theorem SameTrace.eventIndices (h : SameTrace s t) (p : ℕ) : t.eventIndices p = s.eventIndices p := by
  rw [RfscTraceBuilder.eventIndices, RfscTraceBuilder.eventIndices, h.threads]

theorem SameTrace.spawnEvent (h : SameTrace s t) (p : ℕ) : t.spawnEvent p = s.spawnEvent p := by
  rw [RfscTraceBuilder.spawnEvent, RfscTraceBuilder.spawnEvent, h.threads]

theorem SameTrace.visible (h : SameTrace s t) (w : ℕ) : t.Visible w ↔ s.Visible w := by
  rw [Visible, Visible, h.scheduled, h.events]

/-- New references are to the current event. -/
theorem Base.refer (h : Base s) (hst : SameTrace s t)
    (hmem : ∀ a w, t.mem a = some w → s.mem a = some w ∨ s.Visible w)
    (hmutex : ∀ a w, (t.getMutex a).lastAccess = some w →
      (s.getMutex a).lastAccess = some w ∨ s.Visible w) : Base t := by
  constructor
  case numbered =>
    rw [hst.events]
    exact h.numbered
  case references =>
    constructor
    case mem =>
      intro a w hw
      rw [hst.visible]
      rcases hmem a w hw with hw | hw
      · exact h.references.mem hw
      · exact hw
    case mutex =>
      intro a w hw
      rw [hst.visible]
      rcases hmutex a w hw with hw | hw
      · exact h.references.mutex hw
      · exact hw
    case spawn =>
      intro p w hw
      rw [hst.visible]
      rw [hst.spawnEvent] at hw
      exact h.references.spawn hw
    case spawn_lt =>
      intro p w hw j e he
      rw [hst.spawnEvent] at hw
      rw [hst.events] at he
      exact h.references.spawn_lt hw he
    case pid_lt =>
      intro j e he hj
      rw [hst.events] at he
      rw [hst.scheduled] at hj
      rw [hst.threads]
      exact h.references.pid_lt he hj
  case unscheduled =>
    rw [hst.events, hst.scheduled]
    exact h.unscheduled
  case replaying =>
    rw [hst.replay, hst.events]
    intro hreplay
    obtain ⟨hplayed, hlast⟩ := h.replaying hreplay
    refine ⟨?_, hlast⟩
    cases hplayed with
    | start hscheduled hnil =>
        exact .start (hst.scheduled.trans hscheduled) fun p => (hst.eventIndices p).trans (hnil p)
    | within n e r hscheduled he hpos hr hindices =>
        apply Played.within n e r (hst.scheduled.trans hscheduled)
        · rwa [hst.events]
        · exact hpos
        · exact hr
        · rw [hst.events]
          exact fun p => (hst.eventIndices p).trans (hindices p)
  case recording =>
    rw [hst.replay, hst.events]
    intro hreplay
    obtain ⟨hcomplete, hseparated⟩ := h.recording hreplay
    refine ⟨⟨?_, fun p => ?_⟩, hseparated⟩
    · rw [hst.scheduled, hst.events]
      exact hcomplete.scheduled
    · rw [hst.eventIndices, hst.events]
      exact hcomplete.eventIndices p

/-- A change of threads that keeps their events. -/
theorem Base.rethread {threads : List Thread} (h : Base s)
    (hlength : s.threads.length ≤ threads.length)
    (hindices : ∀ p, eventIndices { s with threads := threads } p = s.eventIndices p)
    (hspawn : ∀ p w, spawnEvent { s with threads := threads } p = some w →
      s.spawnEvent p = some w ∨ (s.threads.length ≤ p ∧ s.Visible w)) :
    Base { s with threads := threads } := by
  constructor
  case numbered => exact h.numbered
  case references =>
    constructor
    case mem => exact h.references.mem
    case mutex => exact h.references.mutex
    case spawn =>
      intro p w hw
      rcases hspawn p w hw with hw | ⟨-, hw⟩
      · exact h.references.spawn hw
      · exact hw
    case spawn_lt =>
      intro p w hw j e he hep
      rcases hspawn p w hw with hw | ⟨hp, hw⟩
      · exact h.references.spawn_lt hw he hep
      · -- the events of a new thread are not scheduled yet
        by_contra hj
        have hpid := h.references.pid_lt he ((Nat.le_of_not_lt hj).trans_lt hw.1)
        omega
    case pid_lt =>
      intro j e he hj
      exact (h.references.pid_lt he hj).trans_le hlength
  case unscheduled => exact h.unscheduled
  case replaying =>
    intro hreplay
    obtain ⟨hplayed, hlast⟩ := h.replaying hreplay
    refine ⟨?_, hlast⟩
    cases hplayed with
    | start hscheduled hnil => exact .start hscheduled fun p => (hindices p).trans (hnil p)
    | within n e r hscheduled he hpos hr hplayed =>
        exact .within n e r hscheduled he hpos hr fun p => (hindices p).trans (hplayed p)
  case recording =>
    intro hreplay
    obtain ⟨hcomplete, hseparated⟩ := h.recording hreplay
    exact ⟨⟨hcomplete.scheduled, fun p => (hindices p).trans (hcomplete.eventIndices p)⟩, hseparated⟩

theorem Base.mark (h : Base s) (p : ℕ) (available : Bool) : Base (s.mark p available) := by
  have hindices : ∀ q, (s.mark p available).eventIndices q = s.eventIndices q := by
    intro q
    by_cases hp : p < s.threads.length
    · refine (eventIndices_modifyThread s p q (fun t => { t with available := available }) id
        (fun _ => rfl) hp).trans ?_
      split <;> rfl
    · rw [RfscTraceBuilder.mark, modifyThread, List.modify_eq_self (Nat.le_of_not_lt hp)]
  apply h.rethread
  case hlength => simp
  case hindices => exact hindices
  case hspawn =>
    intro q w hw
    have hsame := spawnEvent_modifyThread s p q (f := fun t => { t with available := available })
      fun _ => rfl
    exact .inl (hsame.symm.trans hw)

/-! ### Recording -/

/-- The references to bytes and mutexes are to events before the current one. -/
structure Earlier (s : RfscTraceBuilder) : Prop where
  mem : ∀ {a w}, s.mem a = some w → w < s.prefixIdx
  mutex : ∀ {a w}, (s.getMutex a).lastAccess = some w → w < s.prefixIdx

/-- A state in which the effect of the current event may be recorded. -/
structure Pending (s : RfscTraceBuilder) : Prop where
  base : Base s
  scheduled_pos : 0 < s.scheduled
  cancelled : s.cancelled = false
  earlier : s.seenEffect = false → Earlier s

/-- A state in which the effect of the current event has been recorded. -/
structure Effecting (s : RfscTraceBuilder) : Prop extends Pending s where
  seenEffect : s.seenEffect = true
  earlier' : Earlier s

theorem Ready.pending (h : Ready s) : Pending s := by
  refine ⟨h.base, h.scheduled_pos, h.cancelled, fun hseen => ?_⟩
  have hlt : ∀ w, s.Visible w → w < s.prefixIdx := by
    rintro w ⟨hw, e, he, hconflict⟩
    have hne : w ≠ s.prefixIdx := by
      rintro rfl
      have hcurev : s.curev = some e := by
        rw [curev, if_neg (Nat.pos_iff_ne_zero.mp h.scheduled_pos), he]
      rw [h.untouched hseen e hcurev] at hconflict
      simp at hconflict
    have hidx : s.prefixIdx = s.scheduled - 1 := rfl
    omega
  exact ⟨fun hw => hlt _ (h.base.references.mem hw), fun hw => hlt _ (h.base.references.mutex hw)⟩

theorem keeps_mayConflict (n : ℕ) : Keeps n fun e => { e with mayConflict := true } := by
  constructor <;> simp +contextual

theorem keeps_sym (n : ℕ) {sym : SymEv} (h : sym.empty = false) :
    Keeps n fun e => { e with sym := sym } := by
  constructor <;> simp +contextual [h]

theorem keeps_readFrom {n : ℕ} {w : Option ℕ} (h : ∀ i, w = some i → i < n) :
    Keeps n fun e => { e with readFrom := some w } := by
  constructor <;> simp +contextual [h]

theorem Pending.setMayConflict (h : Pending s) : Pending s.setMayConflict := by
  constructor
  case base => exact h.base.modifyCurev h.scheduled_pos (keeps_mayConflict _)
  case scheduled_pos => exact h.scheduled_pos
  case cancelled => exact h.cancelled
  case earlier =>
    intro hseen
    have hearlier := h.earlier hseen
    exact ⟨hearlier.mem, hearlier.mutex⟩

theorem Base.exists_current (h : Base s) (hpos : 0 < s.scheduled) :
    ∃ e, s.events[s.prefixIdx]? = some e := by
  have hidx : s.prefixIdx = s.scheduled - 1 := rfl
  have hlt : s.prefixIdx < s.events.length := by
    cases hreplay : s.replay with
    | true =>
        cases (h.replaying hreplay).1 with
        | start hscheduled _ => omega
        | within n e r hscheduled he _ _ _ =>
            have hn := (List.getElem?_eq_some_iff.mp he).1
            omega
    | false =>
        have hscheduled := (h.recording hreplay).1.scheduled
        omega
  exact ⟨_, List.getElem?_eq_getElem hlt⟩

theorem visible_setMayConflict (h : Base s) (hpos : 0 < s.scheduled) :
    s.setMayConflict.Visible s.prefixIdx := by
  obtain ⟨e, he⟩ := h.exists_current hpos
  refine ⟨Nat.sub_lt hpos Nat.one_pos, { e with mayConflict := true }, ?_, rfl⟩
  simp [RfscTraceBuilder.setMayConflict, RfscTraceBuilder.modifyCurev, he]

/-- What an instruction leaves behind. -/
structure Performed (recorded : Bool) (s : RfscTraceBuilder) : Prop where
  base : Base s
  cancelled : s.cancelled = false
  untouched : recorded = true → s.replay = true → Untouched s

theorem Effecting.performed (h : Effecting s) : Performed true s := by
  refine ⟨h.base, h.cancelled, fun _ _ hseen => ?_⟩
  rw [h.seenEffect] at hseen
  simp at hseen

/-- An instruction either is not recorded or goes on with its effect. -/
theorem Pending.recording (h : Pending s) {event : SymEv}
    {effect : RfscTraceBuilder → Option RfscTraceBuilder} {recorded : Bool}
    (hrecord : s.recording event effect = some (recorded, t)) (hevent : event.empty = false)
    (heffect : ∀ u v, Effecting u → u.scheduled = s.scheduled → (∀ w, s.Visible w → u.Visible w) →
      effect u = some v → Performed true v) : Performed recorded t := by
  obtain ⟨⟨ok, u⟩, hu, hrecord⟩ := Option.bind_eq_some_iff.mp hrecord
  obtain ⟨last, -, hu⟩ := Option.bind_eq_some_iff.mp hu
  split at hu
  · simp at hu
  case isFalse hseen =>
    split at hu
    · cases hu
      cases hrecord
      exact ⟨h.base, h.cancelled, by simp⟩
    · cases hu
      obtain ⟨v, hv, hrecord⟩ := Option.bind_eq_some_iff.mp hrecord
      cases hrecord
      have hkeeps := keeps_sym s.prefixIdx hevent
      have hearlier := h.earlier (by simpa using hseen)
      have hearlier' : Earlier
          { s.modifyCurev fun e => { e with sym := event } with seenEffect := true } :=
        ⟨hearlier.mem, hearlier.mutex⟩
      have hbase := (h.base.modifyCurev h.scheduled_pos hkeeps).refer
        (t := { s.modifyCurev fun e => { e with sym := event } with seenEffect := true })
        ⟨rfl, rfl, rfl, rfl, rfl⟩ (fun _ _ hw => .inl hw) (fun _ _ hw => .inl hw)
      exact heffect _ _ ⟨⟨hbase, h.scheduled_pos, h.cancelled, fun _ => hearlier'⟩, rfl, hearlier'⟩
        rfl (fun w hw => visible_modifyCurev hkeeps hw) hv

/-! ### Instructions -/

theorem Effecting.modifyCurev (h : Effecting s) {f : Event → Event} (hf : Keeps s.prefixIdx f) :
    Effecting (s.modifyCurev f) := by
  have hearlier : Earlier (s.modifyCurev f) := ⟨h.earlier'.mem, h.earlier'.mutex⟩
  exact ⟨⟨h.base.modifyCurev h.scheduled_pos hf, h.scheduled_pos, h.cancelled, fun _ => hearlier⟩,
    h.seenEffect, hearlier⟩

theorem Performed.refer (h : Performed true s) (hst : SameTrace s t) (hseen : s.seenEffect = true)
    (hseen' : t.seenEffect = s.seenEffect)
    (hmem : ∀ a w, t.mem a = some w → s.mem a = some w ∨ s.Visible w)
    (hmutex : ∀ a w, (t.getMutex a).lastAccess = some w →
      (s.getMutex a).lastAccess = some w ∨ s.Visible w) : Performed true t := by
  refine ⟨h.base.refer hst hmem hmutex, hst.cancelled.trans h.cancelled, fun _ _ hfalse => ?_⟩
  rw [hseen', hseen] at hfalse
  simp at hfalse

theorem Effecting.doLoad (h : Effecting s) (ml : SymAddrSize) : Effecting (s.doLoad ml) := by
  apply h.modifyCurev
  have hread : ∀ i, s.mem ml.addr = some i → i < s.prefixIdx := fun i hi => h.earlier'.mem hi
  constructor <;> simp +contextual [hread]

theorem Effecting.doAtomicStore (h : Effecting s) (ml : SymAddrSize) :
    Performed true (s.doAtomicStore ml) := by
  have hset := h.modifyCurev (keeps_mayConflict _)
  have hvisible := visible_setMayConflict h.base h.scheduled_pos
  apply hset.performed.refer
  case hst => exact ⟨rfl, rfl, rfl, rfl, rfl⟩
  case hseen => exact h.seenEffect
  case hseen' => rfl
  case hmutex => exact fun _ _ hw => .inl hw
  case hmem =>
    intro a w hw
    simp only [RfscTraceBuilder.doAtomicStore] at hw
    split at hw
    · obtain rfl := Option.some.inj hw
      exact .inr hvisible
    · exact .inl hw

/-- Access to a mutex by an event that is known to be visible. -/
theorem Effecting.setMutex (h : Effecting s) (hvisible : s.Visible s.prefixIdx) (a : SymAddr)
    {mutex : Mutex} (hmutex : mutex.lastAccess = some s.prefixIdx) {readFrom : Option ℕ}
    (hread : ∀ i, readFrom = some i → i < s.prefixIdx) (deadlocks : SymAddr → List ℕ) :
    Performed true { s.modifyCurev fun e => { e with readFrom := some readFrom } with
      mutexes := Function.update s.mutexes a (some mutex)
      mutexDeadlocks := deadlocks } := by
  have hkeeps := keeps_readFrom hread
  apply (h.modifyCurev hkeeps).performed.refer
  case hst => exact ⟨rfl, rfl, rfl, rfl, rfl⟩
  case hseen => exact h.seenEffect
  case hseen' => rfl
  case hmem => exact fun _ _ hw => .inl hw
  case hmutex =>
    intro b w hw
    by_cases hb : b = a
    · subst hb
      simp only [getMutex, Function.update_self, Option.getD_some, hmutex, Option.some.injEq] at hw
      rw [← hw]
      exact .inr (visible_modifyCurev hkeeps hvisible)
    · simp only [getMutex, Function.update_of_ne hb] at hw
      exact .inl hw

theorem Effecting.accessMutex (h : Effecting s) (hvisible : s.Visible s.prefixIdx) (a : SymAddr)
    (update : Mutex → Mutex) : Performed true (s.accessMutex a update) :=
  h.setMutex hvisible a
    (show { update (s.getMutex a) with lastAccess := some s.prefixIdx }.lastAccess = _ from rfl)
    (fun _ hi => h.earlier'.mutex hi) s.mutexDeadlocks

theorem Effecting.addHappensAfterThread (h : Effecting s) {thread : ℕ}
    (hadd : s.addHappensAfterThread thread = some t) : Performed true t := by
  obtain ⟨thr, -, hadd⟩ := Option.bind_eq_some_iff.mp hadd
  cases hlast : thr.eventIndices.getLast? with
  | none =>
      rw [hlast] at hadd
      cases hadd
      exact h.performed
  | some first =>
      rw [hlast] at hadd
      obtain ⟨e, he, hadd⟩ := Option.bind_eq_some_iff.mp hadd
      obtain ⟨happensAfter, hhb, hadd⟩ := Option.bind_eq_some_iff.mp hadd
      cases hadd
      apply Effecting.performed
      apply h.modifyCurev
      rw [curev, if_neg (Nat.pos_iff_ne_zero.mp h.scheduled_pos)] at he
      have hlt : ∀ i ∈ happensAfter, i < s.prefixIdx := by
        intro i hi
        rw [addHappensAfter] at hhb
        split at hhb
        case isTrue hfirst =>
          obtain rfl := Option.some.inj hhb
          split at hi
          · exact h.base.numbered.happensAfter_lt he i hi
          · rcases List.mem_append.mp hi with hi | hi
            · exact h.base.numbered.happensAfter_lt he i hi
            · obtain rfl := List.mem_singleton.mp hi
              exact hfirst
        case isFalse => simp at hhb
      constructor <;> simp +contextual [hlt]

theorem Effecting.spawnThread (h : Effecting s) (hvisible : s.Visible s.prefixIdx) :
    Performed true { s with threads := s.threads ++ [⟨true, some s.prefixIdx, []⟩] } := by
  have hget : ∀ p, (s.threads ++ [(⟨true, some s.prefixIdx, []⟩ : Thread)])[p]? =
      if p < s.threads.length then s.threads[p]?
      else if p = s.threads.length then some ⟨true, some s.prefixIdx, []⟩ else none := by
    intro p
    rcases lt_trichotomy p s.threads.length with hp | rfl | hp
    · rw [List.getElem?_append_left hp, if_pos hp]
    · simp
    · rw [List.getElem?_eq_none (by simp; omega), if_neg (by omega), if_neg (by omega)]
  refine ⟨?_, h.cancelled, fun _ _ hseen => ?_⟩
  · apply h.base.rethread
    case hlength => simp
    case hindices =>
      intro p
      simp only [eventIndices, hget]
      split
      · rfl
      case isFalse hp =>
        rw [List.getElem?_eq_none (Nat.le_of_not_lt hp)]
        split <;> rfl
    case hspawn =>
      intro p w hw
      simp only [spawnEvent, hget] at hw
      split at hw
      · exact .inl hw
      case isFalse hp =>
        split at hw
        · obtain rfl : s.prefixIdx = w := by simpa using hw
          exact .inr ⟨Nat.le_of_not_lt hp, hvisible⟩
        · simp at hw
  · have hseen' : s.seenEffect = false := hseen
    rw [h.seenEffect] at hseen'
    simp at hseen'

/-- A refused event leaves no trace. -/
theorem Ready.refuseSchedule (h : Ready s) (hrefuse : s.refuseSchedule = some t) :
    Performed true t := by
  obtain ⟨e, he, hrefuse⟩ := Option.bind_eq_some_iff.mp hrefuse
  split at hrefuse
  case isTrue hguard =>
    obtain ⟨hscheduled, hsize, hlocal, hreplay⟩ := hguard
    cases hrefuse
    obtain ⟨hcomplete, -⟩ := h.base.recording hreplay
    have hne : s.events ≠ [] := by
      intro hnil
      have hpos := h.scheduled_pos
      simp [hscheduled, hnil] at hpos
    obtain ⟨rest, last, hconcat⟩ := (List.eq_nil_or_concat s.events).resolve_left hne
    rw [List.concat_eq_append] at hconcat
    have hlen : s.scheduled = rest.length + 1 := by simp [hscheduled, hconcat]
    have hlast : s.events[rest.length]? = some last := by simp [hconcat]
    obtain rfl : last = e := by
      rw [curev_eq hlen, hlast, Option.some.injEq] at he
      exact he
    have hdrop : s.events.dropLast = rest := by simp [hconcat]
    have hget : ∀ {j : ℕ} {e : Event}, rest[j]? = some e → s.events[j]? = some e ∧ j < rest.length := by
      intro j e he
      have hj : j < rest.length := (List.getElem?_eq_some_iff.mp he).1
      exact ⟨by rw [hconcat, List.getElem?_append_left hj, he], hj⟩
    have hbase : Base { s.modifyThread last.iid.pid fun t =>
        { t with eventIndices := t.eventIndices.dropLast } with
        events := rest, scheduled := s.scheduled - 1 } := by
      constructor
      case numbered =>
        have hnumbered := h.base.numbered
        rw [hconcat] at hnumbered
        exact hnumbered.append_left
      case references =>
        apply h.base.references.shrink
        case hmem => rfl
        case hmutexes => rfl
        case hlength => simp [modifyThread]
        case hspawn => exact fun p => spawnEvent_modifyThread s _ p fun _ => rfl
        case hscheduled => exact Nat.sub_le _ _
        case hpid => exact fun j e he => ⟨e, (hget he).1, rfl⟩
        case hvisible =>
          rintro w ⟨hw, e, he, hconflict⟩
          have hw' : w ≠ rest.length := by
            rintro rfl
            rw [hlast, Option.some.injEq] at he
            rw [← he, hlocal] at hconflict
            simp at hconflict
          refine ⟨by show w < s.scheduled - 1; omega, e, ?_, hconflict⟩
          rwa [hconcat, List.getElem?_append_left (by omega)] at he
      case unscheduled =>
        intro j e he hj
        have hj' : s.scheduled - 1 ≤ j := hj
        have hlt := (hget he).2
        omega
      case replaying =>
        intro htrue
        have htrue' : s.replay = true := htrue
        simp [hreplay] at htrue'
      case recording =>
        refine fun _ => ⟨⟨?_, fun p => ?_⟩, ?_⟩
        · show s.scheduled - 1 = rest.length
          omega
        · have hlt := h.base.references.pid_lt hlast (by omega)
          refine (eventIndices_modifyThread s last.iid.pid p
            (fun t => { t with eventIndices := t.eventIndices.dropLast }) List.dropLast
            (fun _ => rfl) hlt).trans ?_
          rw [hcomplete.eventIndices, hconcat, unitsOf, unitsOf, positions_concat]
          split
          · simp [hsize]
          · simp
        · show Separated rest.reverse
          have hrev : s.events.reverse = last :: rest.reverse := by simp [hconcat]
          cases hrest : rest.reverse with
          | nil => trivial
          | cons e rest' =>
              cases rest' with
              | nil => trivial
              | cons previous rest' =>
                  rw [hrest] at hrev
                  exact .inl (h.separate hreplay hrev)
    rw [← hdrop] at hbase
    refine ⟨hbase.mark _ _, h.cancelled, fun _ htrue => ?_⟩
    have htrue' : s.replay = true := htrue
    simp [hreplay] at htrue'
  case isFalse => simp at hrefuse

theorem Ready.mutexLockFail (h : Ready s) {a : SymAddr} (hfail : s.mutexLockFail a = some t) :
    Ready t := by
  obtain ⟨e, -, hfail⟩ := Option.bind_eq_some_iff.mp hfail
  cases hfail
  constructor
  case base =>
    apply h.base.refer
    case hst => exact ⟨rfl, rfl, rfl, rfl, rfl⟩
    case hmem => exact fun _ _ hw => .inl hw
    case hmutex => exact fun _ _ hw => .inl hw
  case untouched => exact h.untouched
  case scheduled_pos => exact h.scheduled_pos
  case cancelled => exact h.cancelled
  case separate => exact h.separate

/-- Every instruction keeps the invariant. -/
theorem Ready.perform (h : Ready s) {instruction : Instruction} {recorded : Bool}
    (hperform : s.perform instruction = some (recorded, t)) : Performed recorded t := by
  have hpending := h.pending
  have hset := hpending.setMayConflict
  have hvisible := visible_setMayConflict h.base h.scheduled_pos
  -- the effects on a mutex and on the threads need the current event to be visible
  have hcurrent : ∀ u : RfscTraceBuilder, u.scheduled = s.setMayConflict.scheduled →
      (∀ w, s.setMayConflict.Visible w → u.Visible w) → u.Visible u.prefixIdx := by
    intro u hscheduled hmono
    have hidx : u.prefixIdx = s.prefixIdx := by
      rw [prefixIdx, prefixIdx, hscheduled]
      rfl
    rw [hidx]
    exact hmono _ hvisible
  cases instruction with
  | refused mutex =>
      cases mutex with
      | none =>
          obtain ⟨u, hrefuse, hu⟩ := Option.map_eq_some_iff.mp hperform
          cases hu
          exact h.refuseSchedule hrefuse
      | some a =>
          obtain ⟨v, hfail, hperform⟩ := Option.bind_eq_some_iff.mp hperform
          obtain ⟨u, hrefuse, hu⟩ := Option.map_eq_some_iff.mp hperform
          cases hu
          exact (h.mutexLockFail hfail).refuseSchedule hrefuse
  | invisible =>
      cases hperform
      exact ⟨h.base, h.cancelled, fun _ _ => h.untouched⟩
  | spawn =>
      rw [RfscTraceBuilder.perform, RfscTraceBuilder.spawn] at hperform
      refine hset.recording hperform rfl fun u v hu hscheduled hmono hv => ?_
      cases hv
      exact hu.spawnThread (hcurrent u hscheduled hmono)
  | atomicStore ml written =>
      rw [RfscTraceBuilder.perform, RfscTraceBuilder.atomicStore] at hperform
      refine hpending.recording hperform rfl fun u v hu _ _ hv => ?_
      cases hv
      exact hu.doAtomicStore ml
  | atomicRmw ml written action =>
      rw [RfscTraceBuilder.perform, RfscTraceBuilder.atomicRmw] at hperform
      refine hpending.recording hperform rfl fun u v hu _ _ hv => ?_
      cases hv
      exact (hu.doLoad ml).doAtomicStore ml
  | load ml =>
      rw [RfscTraceBuilder.perform, RfscTraceBuilder.load] at hperform
      refine hpending.recording hperform rfl fun u v hu _ _ hv => ?_
      cases hv
      exact (hu.doLoad ml).performed
  | compareExchange ml written expected success =>
      rw [RfscTraceBuilder.perform, RfscTraceBuilder.compareExchange] at hperform
      cases success with
      | true =>
          rw [if_pos rfl] at hperform
          refine hpending.recording hperform rfl fun u v hu _ _ hv => ?_
          cases hv
          exact (hu.doLoad ml).doAtomicStore ml
      | false =>
          rw [if_neg Bool.false_ne_true] at hperform
          refine hpending.recording hperform rfl fun u v hu _ _ hv => ?_
          cases hv
          exact (hu.doLoad ml).performed
  | join tgtProc =>
      exact hset.recording hperform rfl fun u v hu _ _ hv => hu.addHappensAfterThread hv
  | mutexLock ml =>
      rw [RfscTraceBuilder.perform, RfscTraceBuilder.mutexLock] at hperform
      refine hset.recording hperform rfl fun u v hu hscheduled hmono hv => ?_
      cases hv
      exact hu.accessMutex (hcurrent u hscheduled hmono) _ _
  | mutexTrylock ml =>
      rw [RfscTraceBuilder.perform, RfscTraceBuilder.mutexTrylock] at hperform
      refine hset.recording hperform rfl fun u v hu hscheduled hmono hv => ?_
      cases hv
      exact hu.accessMutex (hcurrent u hscheduled hmono) _ _
  | mutexUnlock ml =>
      rw [RfscTraceBuilder.perform, RfscTraceBuilder.mutexUnlock] at hperform
      refine hset.recording hperform rfl fun u v hu hscheduled hmono hv => ?_
      cases hv
      exact hu.setMutex (hcurrent u hscheduled hmono) _ rfl (fun _ hi => hu.earlier'.mutex hi) _
  | mutexInit ml =>
      rw [RfscTraceBuilder.perform, RfscTraceBuilder.mutexInit] at hperform
      refine hset.recording hperform rfl fun u v hu hscheduled hmono hv => ?_
      cases hv
      exact hu.setMutex (hcurrent u hscheduled hmono) _ rfl (by simp) _
  | mutexDestroy ml =>
      rw [RfscTraceBuilder.perform, RfscTraceBuilder.mutexDestroy] at hperform
      refine hset.recording hperform rfl fun u v hu hscheduled hmono hv => ?_
      cases hv
      exact hu.accessMutex (hcurrent u hscheduled hmono) _ _
  | fullMemoryConflict =>
      cases hperform
      exact ⟨h.base, h.cancelled, by simp⟩
  | unsupported =>
      cases hperform
      exact ⟨hset.base, h.cancelled, by simp⟩

/-! ### Runs -/

/-- The invariant between turns of the interpreter. -/
structure Inv (s : RfscTraceBuilder) : Prop where
  recorded : Recorded s
  active : s.cancelled = false → Base s ∧ (s.replay = true → Untouched s)

theorem Performed.inv {recorded : Bool} (h : Performed recorded s) (hrecorded : recorded = true) :
    Inv s :=
  ⟨h.base.recorded, fun _ => ⟨h.base, h.untouched hrecorded⟩⟩

theorem Recorded.abort (h : Recorded s) : Inv s.abort := by
  have hget : ∀ p, s.abort.threads[p]? =
      s.threads[p]?.map fun t : Thread => { t with available := false } :=
    fun p => List.getElem?_map
  refine ⟨⟨h.numbered, fun p => ?_, ?_⟩, by simp [RfscTraceBuilder.abort]⟩
  · have hindices : s.abort.eventIndices p = s.eventIndices p := by
      rw [RfscTraceBuilder.eventIndices, hget, Option.map_map]
      rfl
    rw [hindices]
    exact h.eventIndices p
  · intro p w hw
    apply h.spawn_lt
    rw [← hw, spawnEvent, spawnEvent, hget]
    cases s.threads[p]? <;> rfl

theorem Performed.marks {recorded : Bool} (h : Performed recorded s) (marks : List (ℕ × Bool)) :
    Performed recorded (marks.foldl (fun s m => s.mark m.1 m.2) s) := by
  induction marks generalizing s with
  | nil => exact h
  | cons m marks ih => exact ih ⟨h.base.mark m.1 m.2, h.cancelled, h.untouched⟩

theorem step_inv {maxSearchDepth : Option ℕ} {r : Round} (h : Inv s)
    (hstep : s.step maxSearchDepth r = some t) : Inv t := by
  obtain ⟨⟨proc, u⟩, hschedule, hstep⟩ := Option.bind_eq_some_iff.mp hstep
  obtain ⟨p, hproc, hstep⟩ := Option.bind_eq_some_iff.mp hstep
  obtain ⟨⟨ok, v⟩, hperform, hstep⟩ := Option.bind_eq_some_iff.mp hstep
  have hproc' : proc = some p := hproc
  have hcancelled : s.cancelled = false := by
    by_contra hc
    rw [schedule, if_pos (by simpa using hc)] at hschedule
    cases hschedule
    simp at hproc'
  obtain ⟨hbase, huntouched⟩ := h.active hcancelled
  have hready := schedule_spec hbase huntouched hcancelled hschedule
  rw [hproc'] at hready
  have hperformed := (Ready.perform hready hperform).marks r.marks
  cases hstep
  by_cases hok : (ok && !r.error) = true
  · rw [if_pos hok]
    exact hperformed.inv (Bool.and_eq_true_iff.mp hok).1
  · rw [if_neg hok]
    exact hperformed.base.recorded.abort

theorem reset_inv (leaf : Leaf) : Inv (reset leaf) := by
  have hnumbered : Numbered (reset leaf).events := by
    have hstart : ∀ p, (fun _ : ℕ => 1) p = countOf p [] + 1 := fun _ => rfl
    exact numbered_leafEvents leaf.branches Numbered.nil hstart
  have hindices : ∀ p, (reset leaf).eventIndices p = [] := by
    intro p
    cases p <;> rfl
  have hspawn : ∀ p w, (reset leaf).spawnEvent p ≠ some w := by
    intro p w
    cases p <;> simp [spawnEvent, reset]
  have hbase : Base (reset leaf) := by
    constructor
    case numbered => exact hnumbered
    case references =>
      constructor
      case mem => simp [reset]
      case mutex => simp [reset, getMutex]
      case spawn => exact fun hw => absurd hw (hspawn _ _)
      case spawn_lt => exact fun hw => absurd hw (hspawn _ _)
      case pid_lt => simp [reset]
    case unscheduled =>
      intro j e he _
      exact leafEvents_mem (List.mem_of_getElem? he)
    case replaying =>
      refine fun _ => ⟨.start rfl hindices, fun e he => ?_⟩
      obtain ⟨b, hb, hsym⟩ := leafEvents_getLast? he
      rw [hsym]
      exact leaf.last_visible b hb
    case recording => simp [reset]
  refine ⟨hbase.recorded, fun _ => ⟨hbase, fun _ _ e he => ?_⟩⟩
  simp [reset, curev] at he

/-- A finished execution: turns of the interpreter until `schedule` returns false. -/
def Execution (maxSearchDepth : Option ℕ) (leaf : Leaf) (s : RfscTraceBuilder) : Prop :=
  ∃ rounds u, run (step maxSearchDepth) (reset leaf) rounds = some u ∧
    u.schedule maxSearchDepth = some (none, s)

theorem Execution.recorded {maxSearchDepth : Option ℕ} {leaf : Leaf}
    (h : Execution maxSearchDepth leaf s) : Recorded s := by
  obtain ⟨rounds, u, hrun, hschedule⟩ := h
  have hinv : Inv u := run_invariant (fun _ _ _ => step_inv) (reset_inv leaf) hrun
  cases hcancelled : u.cancelled with
  | true =>
      rw [schedule, if_pos hcancelled] at hschedule
      cases hschedule
      exact hinv.recorded
  | false =>
      obtain ⟨hbase, huntouched⟩ := hinv.active hcancelled
      exact schedule_spec hbase huntouched hcancelled hschedule

end Nidhugg.RfscTraceBuilder
