import Mathlib.Data.Finset.Card
import Mathlib.Data.List.Range
import Nidhugg.Model.PowerArmRuns

/-! # The events of a run

What an operation does to the events, as far as the count of nonblocking events depends on it. -/

namespace Nidhugg.PowerArmRuns

/-! ### Views of events -/

/-- The part of an event that the count depends on. -/
structure View where
  committed : Bool
  complete : Bool
  blocking : Bool
deriving DecidableEq, Repr

def Event.view (evt : Event) : View :=
  ⟨evt.committed, evt.filledStatus = .complete, evt.hasLoadReq⟩

/-- Whether the event is neither committed nor blocking. -/
def View.nonblocking (v : View) : Bool := !v.committed && !v.blocking

namespace TB

variable {tb tb' : TB} {iid : IID}

def view (tb : TB) (iid : IID) : Option View := (tb.getEvt iid).map Event.view

@[simp]
theorem getEvt_mapEvents (f : IID → Event → Event) (iid : IID) :
    (tb.mapEvents f).getEvt iid = (tb.getEvt iid).map (f iid) := by
  unfold getEvt mapEvents
  by_cases h : iid.index = 0
  · simp [h]
  · have hindex : iid.index - 1 + 1 = iid.index := by omega
    cases hevents : tb.fch[iid.pid]? with
    | none => simp [h, List.getElem?_mapIdx, hevents]
    | some events => simp [h, List.getElem?_mapIdx, hevents, hindex]

@[simp]
theorem getEvt_modifyEvt (iid : IID) (f : Event → Event) (other : IID) :
    (tb.modifyEvt iid f).getEvt other =
      (tb.getEvt other).map fun evt => if other = iid then f evt else evt :=
  getEvt_mapEvents _ other

theorem view_mapEvents {f : IID → Event → Event} (hf : ∀ iid evt, (f iid evt).view = evt.view) :
    (tb.mapEvents f).view = tb.view := by
  funext iid
  simp only [view, getEvt_mapEvents, Option.map_map]
  congr 1
  funext evt
  exact hf iid evt

theorem view_modifyEvt {f : Event → Event} (hf : ∀ evt, (f evt).view = evt.view) :
    (tb.modifyEvt iid f).view = tb.view := by
  apply view_mapEvents
  intro other evt
  by_cases h : other = iid
  · simp only [h, if_true, hf]
  · simp only [h, if_false]

theorem view_modifyEvt_eq (tb : TB) (iid : IID) (f : Event → Event) :
    (tb.modifyEvt iid f).view =
      Function.update tb.view iid ((tb.getEvt iid).map fun evt => (f evt).view) := by
  funext other
  simp only [view, getEvt_modifyEvt, Option.map_map]
  by_cases h : other = iid
  · subst h
    rw [Function.update_self]
    congr 1
    funext evt
    simp only [Function.comp_apply, if_true]
  · rw [Function.update_of_ne h]
    congr 1
    funext evt
    simp only [Function.comp_apply, h, if_false]

/-! ### The pending events -/

theorem isFetched_iff {iid : IID} : tb.isFetched iid = true ↔
    ∃ T, tb.threads[iid.pid]? = some T ∧ 0 < iid.index ∧ iid.index ≤ T.fchCount := by
  unfold isFetched
  cases tb.threads[iid.pid]? with
  | none => simp
  | some T => simp

theorem isFetched_congr
    (h : tb'.threads.map Thread.fchCount = tb.threads.map Thread.fchCount) :
    tb'.isFetched = tb.isFetched := by
  funext iid
  have hpid := congrArg (·[iid.pid]?) h
  simp only [List.getElem?_map] at hpid
  unfold isFetched
  cases h' : tb'.threads[iid.pid]? with
  | none =>
      cases h₀ : tb.threads[iid.pid]? with
      | none => rfl
      | some T => simp [h', h₀] at hpid
  | some T' =>
      cases h₀ : tb.threads[iid.pid]? with
      | none => simp [h', h₀] at hpid
      | some T =>
          simp only [h', h₀, Option.map_some, Option.some.injEq] at hpid
          simp only [hpid]

/-- The events that have been fetched in the current run. -/
def fetchedIids (tb : TB) : List IID :=
  tb.threads.zipIdx.flatMap fun (T, p) => (List.range T.fchCount).map fun i => ⟨p, i + 1⟩

theorem mem_fetchedIids : iid ∈ tb.fetchedIids ↔ tb.isFetched iid = true := by
  rw [isFetched_iff]
  simp only [fetchedIids, List.mem_flatMap, List.mem_map, List.mem_range, Prod.exists]
  constructor
  · rintro ⟨T, p, hT, i, hi, rfl⟩
    exact ⟨T, List.mem_zipIdx_iff_getElem?.mp hT, Nat.succ_pos i, hi⟩
  · rintro ⟨T, hT, hpos, hle⟩
    refine ⟨T, iid.pid, List.mem_zipIdx_iff_getElem?.mpr hT, iid.index - 1, by omega, ?_⟩
    have hindex : iid.index - 1 + 1 = iid.index := by omega
    rw [hindex]

/-- The fetched events that are not committed and have no load requirement. -/
def pendingIids (tb : TB) : Finset IID :=
  tb.fetchedIids.toFinset.filter fun iid =>
    (tb.getEvt iid).any fun evt => !evt.committed && !evt.hasLoadReq

theorem mem_pendingIids : iid ∈ tb.pendingIids ↔
    tb.isFetched iid = true ∧ (tb.view iid).any View.nonblocking = true := by
  rw [pendingIids, Finset.mem_filter, List.mem_toFinset, mem_fetchedIids, view, Option.any_map]
  rfl

theorem pendingIids_congr (hfetched : tb'.isFetched = tb.isFetched) (hview : tb'.view = tb.view) :
    tb'.pendingIids = tb.pendingIids := by
  ext iid
  rw [mem_pendingIids, mem_pendingIids, hfetched, hview]

end TB

end Nidhugg.PowerArmRuns

/-! # Calls within a run

Fetching, registering and scheduling keep the count of nonblocking events equal to the number of
fetched events that are neither committed nor blocking. -/

namespace Nidhugg.PowerArmRuns

namespace TB

variable {tb tb' : TB} {iid : IID} {evt : Event}

/-! ### What every call keeps -/

/-- The fetched events are complete. What is left of an earlier run is not committed. -/
structure WellFormed (tb : TB) : Prop where
  filled : ∀ iid, tb.isFetched iid = true → (tb.getEvt iid).isSome = true
  addrKnown : ∀ T ∈ tb.threads, T.addrKnownPrefix ≤ T.fchCount
  waiting : ∀ iid, tb.isFetched iid = false →
    (tb.view iid).all fun v => !v.complete || !v.committed

theorem isSome_view (iid : IID) : (tb.view iid).isSome = (tb.getEvt iid).isSome :=
  Option.isSome_map

/-- Only the views of the events matter. -/
theorem WellFormed.of_view (h : tb.WellFormed) (hfetched : tb'.isFetched = tb.isFetched)
    (hview : tb'.view = tb.view) (hknown : ∀ T ∈ tb'.threads, T.addrKnownPrefix ≤ T.fchCount) :
    tb'.WellFormed := by
  refine ⟨fun iid hiid => ?_, hknown, fun iid hiid => ?_⟩
  · rw [← isSome_view, hview, isSome_view]
    exact h.filled iid (hfetched ▸ hiid)
  · rw [hview]
    exact h.waiting iid (hfetched ▸ hiid)

/-- An event that is fetched now has a view; nothing else changes. -/
theorem WellFormed.of_update (h : tb.WellFormed) {v : View}
    (hfetched : tb'.isFetched = Function.update tb.isFetched iid true)
    (hview : tb'.view = Function.update tb.view iid (some v))
    (hknown : ∀ T ∈ tb'.threads, T.addrKnownPrefix ≤ T.fchCount) : tb'.WellFormed := by
  refine ⟨fun other hother => ?_, hknown, fun other hother => ?_⟩
  · rw [← isSome_view, hview]
    by_cases heq : other = iid
    · subst heq
      simp
    · rw [hfetched, Function.update_of_ne heq] at hother
      rw [Function.update_of_ne heq, isSome_view]
      exact h.filled other hother
  · rw [hfetched] at hother
    have hne : other ≠ iid := by
      intro heq
      simp [heq] at hother
    rw [Function.update_of_ne hne] at hother
    rw [hview, Function.update_of_ne hne]
    exact h.waiting other hother

/-- The count is right. -/
def Counted (tb : TB) : Prop := tb.uncommittedNonblockingCount = tb.pendingIids.card

/-- The same events are fetched, in the same state. -/
structure Same (tb tb' : TB) : Prop where
  fetched : tb'.isFetched = tb.isFetched
  view : tb'.view = tb.view
  count : tb'.uncommittedNonblockingCount = tb.uncommittedNonblockingCount
  addrKnown : (∀ T ∈ tb.threads, T.addrKnownPrefix ≤ T.fchCount) →
    ∀ T ∈ tb'.threads, T.addrKnownPrefix ≤ T.fchCount

theorem Same.wellFormed (h : Same tb tb') (hwf : tb.WellFormed) : tb'.WellFormed :=
  hwf.of_view h.fetched h.view (h.addrKnown hwf.addrKnown)

theorem Same.counted (h : Same tb tb') (hcounted : tb.Counted) : tb'.Counted := by
  unfold Counted
  rw [h.count, pendingIids_congr h.fetched h.view]
  exact hcounted

theorem Same.trans {tb'' : TB} (h : Same tb tb') (h' : Same tb' tb'') : Same tb tb'' :=
  ⟨h'.fetched.trans h.fetched, h'.view.trans h.view, h'.count.trans h.count,
    fun hknown => h'.addrKnown (h.addrKnown hknown)⟩

theorem same_mapEvents {f : IID → Event → Event} (hf : ∀ iid evt, (f iid evt).view = evt.view) :
    Same tb (tb.mapEvents f) :=
  ⟨rfl, view_mapEvents hf, rfl, id⟩

theorem same_modifyEvt {f : Event → Event} (hf : ∀ evt, (f evt).view = evt.view) :
    Same tb (tb.modifyEvt iid f) :=
  ⟨rfl, view_modifyEvt hf, rfl, id⟩

theorem advance_le {proc fchCount : ℕ} {p : Event → Bool} (turns n : ℕ) (h : n ≤ fchCount) :
    tb.advance proc fchCount p turns n ≤ fchCount := by
  induction turns generalizing n with
  | zero => exact h
  | succ turns ih =>
      rw [advance]
      split
      · rename_i hn
        rw [Bool.and_eq_true, decide_eq_true_eq] at hn
        exact ih (n + 1) hn.1
      · exact h

theorem map_fchCount_modify {f : Thread → Thread} (hf : ∀ T, (f T).fchCount = T.fchCount)
    (threads : List Thread) (proc : ℕ) :
    (threads.modify proc f).map Thread.fchCount = threads.map Thread.fchCount := by
  apply List.ext_getElem?
  intro p
  simp only [List.getElem?_map, List.getElem?_modify]
  cases threads[p]? with
  | none => rfl
  | some T => by_cases h : proc = p <;> simp [h, hf]

/-- A thread's prefixes may change. -/
theorem same_modifyThread {f : Thread → Thread} (hcount : ∀ T, (f T).fchCount = T.fchCount)
    (hknown : ∀ T, T.addrKnownPrefix ≤ T.fchCount → (f T).addrKnownPrefix ≤ T.fchCount)
    (proc : ℕ) : Same tb { tb with threads := tb.threads.modify proc f } where
  fetched := isFetched_congr (map_fchCount_modify hcount _ _)
  view := rfl
  count := rfl
  addrKnown h T hT := by
    obtain ⟨p, hp⟩ := List.mem_iff_getElem?.mp hT
    simp only [List.getElem?_modify, Option.map_eq_map, Option.map_eq_some_iff] at hp
    obtain ⟨T₀, hT₀, rfl⟩ := hp
    have hle := h T₀ (List.mem_of_getElem? hT₀)
    by_cases hproc : proc = p
    · simp only [hproc, if_true, hcount]
      exact hknown T₀ hle
    · simp only [hproc, if_false]
      exact hle

theorem same_updateAddrKnownPrefix (proc : ℕ) : Same tb (tb.updateAddrKnownPrefix proc) := by
  apply same_modifyThread
  · exact fun _ => rfl
  · exact fun _ hle => advance_le _ _ hle

theorem same_updateCommittedPrefix (proc : ℕ) : Same tb (tb.updateCommittedPrefix proc) := by
  apply same_modifyThread
  · exact fun _ => rfl
  · exact fun _ hle => hle

/-- A fetched event stops being pending, if it was, and the count follows. -/
structure Settles (tb tb' : TB) (iid : IID) : Prop where
  fetched : tb'.isFetched = tb.isFetched
  threads : tb'.threads = tb.threads
  isFetched : tb.isFetched iid = true
  count : tb'.uncommittedNonblockingCount =
    tb.uncommittedNonblockingCount - if (tb.view iid).any View.nonblocking then 1 else 0
  view : ∃ v, v.nonblocking = false ∧ tb'.view = Function.update tb.view iid (some v)

/-- The state stays well-formed, and a right count stays right. -/
def Keeps (tb tb' : TB) : Prop := tb.WellFormed → tb'.WellFormed ∧ (tb.Counted → tb'.Counted)

theorem Keeps.refl : Keeps tb tb := fun h => ⟨h, id⟩

theorem Keeps.trans {tb'' : TB} (h : Keeps tb tb') (h' : Keeps tb' tb'') : Keeps tb tb'' :=
  fun hwf => ⟨(h' (h hwf).1).1, fun hcounted => (h' (h hwf).1).2 ((h hwf).2 hcounted)⟩

theorem Same.keeps (h : Same tb tb') : Keeps tb tb' := fun hwf => ⟨h.wellFormed hwf, h.counted⟩

theorem Settles.pendingIids_eq (h : Settles tb tb' iid) :
    tb'.pendingIids = tb.pendingIids.erase iid := by
  obtain ⟨v, hv, hview⟩ := h.view
  ext other
  rw [mem_pendingIids, Finset.mem_erase, mem_pendingIids, h.fetched, hview]
  by_cases hother : other = iid
  · subst hother
    simp [hv]
  · simp [hother]

theorem Settles.keeps (h : Settles tb tb' iid) : Keeps tb tb' := by
  intro hwf
  obtain ⟨v, hv, hview⟩ := h.view
  constructor
  · have hfetched : tb'.isFetched = Function.update tb.isFetched iid true := by
      rw [h.fetched, ← h.isFetched, Function.update_eq_self]
    exact hwf.of_update hfetched hview (h.threads ▸ hwf.addrKnown)
  · intro hcounted
    unfold Counted at hcounted ⊢
    rw [h.count, h.pendingIids_eq, hcounted]
    cases hpending : (tb.view iid).any View.nonblocking with
    | true =>
        have hmem : iid ∈ tb.pendingIids := mem_pendingIids.mpr ⟨h.isFetched, hpending⟩
        have hpos := Finset.card_pos.mpr ⟨iid, hmem⟩
        rw [Finset.card_erase_of_mem hmem, if_pos rfl]
        omega
    | false =>
        have hmem : iid ∉ tb.pendingIids := by
          rw [mem_pendingIids, hpending]
          simp
        rw [Finset.erase_eq_of_notMem hmem]
        simp

/-! ### Scheduling -/

theorem settles_commitParam (R : Relations) (hfetched : tb.isFetched iid = true)
    (hevt : tb.view iid = some evt.view) (hcommitted : evt.committed = false) :
    Settles tb (tb.commitParam R iid evt) iid := by
  -- the conflicts leave the views alone
  have hdetect : (tb.detectRwConflicts R iid).view = tb.view := view_mapEvents fun _ _ => rfl
  have hmap : (((tb.detectRwConflicts R iid).getEvt iid).map fun evt =>
      { evt with committed := true }.view) = some { evt.view with committed := true } := by
    rw [← hdetect, view] at hevt
    cases hget : (tb.detectRwConflicts R iid).getEvt iid with
    | none => simp [hget] at hevt
    | some evt' =>
        rw [hget, Option.map_some, Option.some.injEq] at hevt
        rw [Option.map_some, ← hevt]
        rfl
  have hview := view_modifyEvt_eq (tb.detectRwConflicts R iid) iid
    fun evt => { evt with committed := true }
  rw [hmap, hdetect] at hview
  refine ⟨?_, ?_, hfetched, ?_, { evt.view with committed := true }, rfl, ?_⟩
  · unfold commitParam
    split <;> rfl
  · unfold commitParam
    split <;> rfl
  · rw [hevt]
    unfold commitParam
    cases hreq : evt.hasLoadReq with
    | true => simp [View.nonblocking, Event.view, hreq, modifyEvt, mapEvents, detectRwConflicts]
    | false =>
        simp [View.nonblocking, Event.view, hreq, hcommitted, modifyEvt, mapEvents,
          detectRwConflicts]
  · rw [← hview]
    unfold commitParam
    split <;> rfl

/-- What `schedule` does after a commit. -/
theorem same_scheduled (proc : ℕ) (pfx : List IID) (schedCount : ℕ) :
    Same tb { tb.updateCommittedPrefix proc with pfx := pfx, schedCount := schedCount } :=
  (same_updateCommittedPrefix proc).trans ⟨rfl, rfl, rfl, id⟩

/-- A commit commits the event or leaves it as it is. -/
theorem keeps_commit (R : Relations) (replay : Bool) (hfetched : tb.isFetched iid = true)
    (hevt : tb.getEvt iid = some evt) (hcommitted : evt.committed = false) :
    Keeps tb (tb.commit R iid evt replay).2 := by
  have hview : tb.view iid = some evt.view := by rw [view, hevt, Option.map_some]
  unfold commit
  split
  · simp only
    cases (eligible evt (R.populateParameters iid)).getLast? with
    | none =>
        have hsame : Same tb (tb.modifyEvt iid fun evt => { evt with newParams := [] }) :=
          same_modifyEvt fun _ => rfl
        have hdetect : Same (tb.modifyEvt iid fun evt => { evt with newParams := [] })
            ((tb.modifyEvt iid fun evt => { evt with newParams := [] }).detectRwConflicts R iid) :=
          same_mapEvents fun _ _ => rfl
        exact (hsame.trans hdetect).keeps
    | some P =>
        -- the choice of a parameter
        have hsame : Same tb (tb.modifyEvt iid fun evt' =>
            { evt' with
              curParam := P
              newParams := (eligible evt (R.populateParameters iid)).dropLast
              recalcParams := .no }) := same_modifyEvt fun _ => rfl
        apply hsame.keeps.trans
        apply Settles.keeps
        exact settles_commitParam R hfetched (by rw [hsame.view, hview]) hcommitted
  · exact (settles_commitParam R hfetched hview hcommitted).keeps

/-- What can be committed has been fetched. -/
theorem isFetched_of_committable {R : Relations} (hwf : tb.WellFormed)
    (hevt : tb.getEvt iid = some evt) (h : tb.committable R iid evt = true) :
    tb.isFetched iid = true ∧ evt.committed = false := by
  simp only [committable, Bool.and_eq_true, Bool.not_eq_true', Option.any_eq_true,
    decide_eq_true_eq] at h
  obtain ⟨⟨⟨⟨hcommitted, -⟩, -⟩, T, hT, hindex⟩, -⟩ := h
  refine ⟨isFetched_iff.mpr ⟨T, hT, ?_, ?_⟩, hcommitted⟩
  · apply Nat.pos_of_ne_zero
    intro hzero
    simp [getEvt, hzero] at hevt
  · exact hindex.trans (hwf.addrKnown T (List.mem_of_getElem? hT))

theorem keeps_scheduleNew (R : Relations) (iids : List IID) :
    Keeps tb (scheduleNew R tb iids) := by
  induction iids generalizing tb with
  | nil => exact Keeps.refl
  | cons iid iids ih =>
      intro hwf
      unfold scheduleNew
      cases hevt : tb.getEvt iid with
      | none => exact ih hwf
      | some evt =>
          simp only
          split
          · rename_i hcommittable
            obtain ⟨hfetched, hcommitted⟩ := isFetched_of_committable hwf hevt hcommittable
            have hcommit := keeps_commit R false hfetched hevt hcommitted
            split
            · rename_i tb' htb'
              rw [htb'] at hcommit
              refine hcommit.trans ?_ hwf
              exact (same_scheduled iid.pid _ _).keeps
            · rename_i tb' htb'
              rw [htb'] at hcommit
              exact (hcommit.trans ih) hwf
          · exact ih hwf

theorem keeps_schedule {R : Relations} (h : tb.schedule R = some tb') : Keeps tb tb' := by
  intro hwf
  unfold schedule at h
  split at h
  · cases h
    exact Keeps.refl hwf
  · split at h
    · cases h
      exact keeps_scheduleNew R _ hwf
    · rename_i iid _
      obtain ⟨evt, hevt, h⟩ := Option.bind_eq_some_iff.mp h
      split at h
      · rename_i hcommittable
        obtain ⟨hfetched, hcommitted⟩ := isFetched_of_committable hwf hevt hcommittable
        have hcommit := keeps_commit R true hfetched hevt hcommitted
        split at h
        · rename_i tb'' htb''
          rw [htb''] at hcommit
          cases h
          exact hcommit hwf
        · rename_i tb'' htb''
          rw [htb''] at hcommit
          cases h
          refine hcommit.trans ?_ hwf
          exact (same_scheduled iid.pid _ _).keeps
      · cases h

/-! ### Fetching and registering -/

/-- A new thread has no fetched events. -/
theorem no_event_of_new {T : Thread} (hT : T ∈ [Thread.new]) {index : ℕ} :
    (decide (0 < index) && decide (index ≤ T.fchCount)) = false := by
  rw [List.mem_singleton.mp hT, ← Bool.decide_and, decide_eq_false_iff_not]
  simp only [Thread.new]
  omega

theorem keeps_spawn {proc : ℕ} (h : tb.spawn proc = some tb') : Keeps tb tb' := by
  unfold spawn at h
  split at h
  · cases h
    apply Same.keeps
    refine ⟨?_, ?_, rfl, ?_⟩
    · -- the new thread has no events
      funext iid
      unfold isFetched
      by_cases hpid : iid.pid < tb.threads.length
      · rw [List.getElem?_append_left hpid]
      · rw [List.getElem?_append_right (Nat.le_of_not_lt hpid),
          List.getElem?_eq_none (Nat.le_of_not_lt hpid)]
        cases hT : [Thread.new][iid.pid - tb.threads.length]? with
        | none => rfl
        | some T => exact no_event_of_new (List.mem_of_getElem? hT)
    · funext iid
      unfold view getEvt
      by_cases hpid : iid.pid < tb.fch.length
      · rw [List.getElem?_append_left hpid]
      · rw [List.getElem?_append_right (Nat.le_of_not_lt hpid),
          List.getElem?_eq_none (Nat.le_of_not_lt hpid)]
        cases hevents : [([] : List Event)][iid.pid - tb.fch.length]? with
        | none => rfl
        | some events =>
            have hnil := List.mem_singleton.mp (List.mem_of_getElem? hevents)
            simp [hnil]
    · intro hknown T hT
      rcases List.mem_append.mp hT with hT | hT
      · exact hknown T hT
      · rw [List.mem_singleton.mp hT]
        exact le_refl _
  · cases h

theorem keeps_registerAddr (h : tb.registerAddr iid = some tb') : Keeps tb tb' := by
  obtain ⟨_, _, h⟩ := Option.bind_eq_some_iff.mp h
  cases h
  have hsame : Same tb (tb.modifyEvt iid fun evt =>
      { evt with unknownAddrCount := evt.unknownAddrCount - 1 }) := same_modifyEvt fun _ => rfl
  exact (hsame.trans (same_updateAddrKnownPrefix iid.pid)).keeps

theorem keeps_registerData (h : tb.registerData iid = some tb') : Keeps tb tb' := by
  obtain ⟨_, _, h⟩ := Option.bind_eq_some_iff.mp h
  cases h
  have hsame : Same tb (tb.modifyEvt iid fun evt =>
      { evt with unknownDataCount := evt.unknownDataCount - 1 }) := same_modifyEvt fun _ => rfl
  exact hsame.keeps

/-- An event with a requirement is blocking. -/
theorem hasLoadReq_modify {accesses : List Access} {a loadCount : ℕ} (f : LoadReq)
    (ha : a < loadCount) (hlen : a < accesses.length) :
    ((accesses.modify a fun access => { access with loadReq := some f }).take loadCount).any
      (fun access => access.loadReq.isSome) = true := by
  rw [List.any_eq_true]
  refine ⟨{ accesses[a] with loadReq := some f }, ?_, rfl⟩
  apply List.mem_of_getElem? (i := a)
  rw [List.getElem?_take_of_lt ha, List.getElem?_modify, List.getElem?_eq_getElem hlen]
  simp

theorem keeps_registerLoadRequirement {a : ℕ} {f : LoadReq}
    (h : tb.registerLoadRequirement iid a f = some tb') : Keeps tb tb' := by
  obtain ⟨evt, hevt, h⟩ := Option.bind_eq_some_iff.mp h
  split at h
  · rename_i hguard
    simp only [Bool.and_eq_true, Bool.not_eq_true', decide_eq_true_eq] at hguard
    obtain ⟨⟨⟨hfetched, hcommitted⟩, ha⟩, hlen⟩ := hguard
    have hview := view_modifyEvt_eq tb iid fun evt : Event =>
      { evt with accesses := evt.accesses.modify a fun access => { access with loadReq := some f } }
    have hreq := hasLoadReq_modify f ha hlen
    rw [hevt, Option.map_some] at hview
    cases h
    refine Settles.keeps (?_ : Settles tb _ iid)
    refine ⟨?_, ?_, hfetched, ?_, { evt.view with blocking := true }, ?_, ?_⟩
    · split <;> rfl
    · split <;> rfl
    · cases hbefore : evt.hasLoadReq with
      | true => simp [view, hevt, Event.view, View.nonblocking, hbefore, modifyEvt, mapEvents]
      | false =>
          simp [view, hevt, Event.view, View.nonblocking, hbefore, hcommitted, modifyEvt,
            mapEvents]
    · simp [View.nonblocking]
    · have hset : { evt with accesses := evt.accesses.modify a fun access =>
          { access with loadReq := some f } }.view = { evt.view with blocking := true } := by
        simp only [Event.view, Event.hasLoadReq, hreq]
      rw [← hset, ← hview]
      split <;> rfl
  · cases h

/-- The effect of a fetch on the pending events. -/
structure Fetches (tb tb' : TB) (iid : IID) : Prop where
  isFetched : tb.isFetched iid = false
  fetched : tb'.isFetched = Function.update tb.isFetched iid true
  view : tb'.view = Function.update tb.view iid (some ⟨false, true, false⟩)
  count : tb'.uncommittedNonblockingCount = tb.uncommittedNonblockingCount + 1
  addrKnown : (∀ T ∈ tb.threads, T.addrKnownPrefix ≤ T.fchCount) →
    ∀ T ∈ tb'.threads, T.addrKnownPrefix ≤ T.fchCount

theorem Fetches.pendingIids_eq (h : Fetches tb tb' iid) :
    tb'.pendingIids = insert iid tb.pendingIids := by
  ext other
  rw [mem_pendingIids, Finset.mem_insert, mem_pendingIids, h.fetched, h.view]
  by_cases hother : other = iid
  · subst hother
    simp [View.nonblocking]
  · simp [hother]

theorem Fetches.keeps (h : Fetches tb tb' iid) : Keeps tb tb' := by
  intro hwf
  constructor
  · exact hwf.of_update h.fetched h.view (h.addrKnown hwf.addrKnown)
  · intro hcounted
    unfold Counted at hcounted ⊢
    have hmem : iid ∉ tb.pendingIids := by
      rw [mem_pendingIids, h.isFetched]
      simp
    rw [h.count, h.pendingIids_eq, Finset.card_insert_of_notMem hmem, hcounted]
    omega

theorem hasLoadReq_newAccesses (n loadCount storeCount : ℕ) :
    ((newAccesses loadCount storeCount).take n).any (fun access => access.loadReq.isSome) =
      false := by
  rw [List.any_eq_false]
  intro access haccess
  rcases List.mem_append.mp (List.mem_of_mem_take haccess) with h | h
  · simp [List.eq_of_mem_replicate h]
  · simp [List.eq_of_mem_replicate h]

theorem view_new (loadCount storeCount : ℕ) :
    (Event.new loadCount storeCount).view = ⟨false, true, false⟩ := by
  have hreq := hasLoadReq_newAccesses loadCount loadCount storeCount
  simp [Event.view, Event.hasLoadReq, Event.new, hreq]

/-- A fetched event is neither committed nor blocking. -/
theorem view_refill (h : (!evt.view.complete || !evt.view.committed) = true)
    (loadCount storeCount : ℕ) :
    (evt.refill loadCount storeCount).view = ⟨false, true, false⟩ := by
  unfold Event.refill
  cases hstatus : evt.filledStatus with
  | empty => exact view_new loadCount storeCount
  | parameter => exact view_new loadCount storeCount
  | complete =>
      have hcommitted : evt.committed = false := by simpa [Event.view, hstatus] using h
      have hreq := hasLoadReq_newAccesses evt.loadCount loadCount storeCount
      simp [Event.view, Event.hasLoadReq, hcommitted, hreq]

theorem getElem?_place {i : ℕ} {events : List Event} (hi : i ≤ events.length) (evt : Event)
    (j : ℕ) : (place i evt events)[j]? = if j = i then some evt else events[j]? := by
  unfold place
  by_cases hlt : i < events.length
  · rw [if_pos hlt, List.getElem?_set]
    by_cases hj : j = i
    · simp [hj, hlt]
    · simp [hj, Ne.symm hj]
  · obtain rfl : i = events.length := by omega
    rw [if_neg hlt]
    by_cases hj : j = events.length
    · simp [hj]
    · rw [if_neg hj]
      by_cases hlt : j < events.length
      · rw [List.getElem?_append_left hlt]
      · have hout : (events ++ [evt]).length ≤ j := by
          rw [List.length_append, List.length_singleton]
          omega
        rw [List.getElem?_eq_none hout, List.getElem?_eq_none (by omega)]

/-- The fetched events of a thread come first among its events. -/
theorem WellFormed.fchCount_le (hwf : tb.WellFormed) {proc : ℕ} {T : Thread} {events : List Event}
    (hT : tb.threads[proc]? = some T) (hevents : tb.fch[proc]? = some events) :
    T.fchCount ≤ events.length := by
  rcases Nat.eq_zero_or_pos T.fchCount with hzero | hpos
  · omega
  · have hsome := hwf.filled ⟨proc, T.fchCount⟩ (isFetched_iff.mpr ⟨T, hT, hpos, le_refl _⟩)
    obtain ⟨evt, hevt⟩ := Option.isSome_iff_exists.mp hsome
    simp only [getEvt, Nat.ne_of_gt hpos, if_false, hevents, Option.bind_some] at hevt
    obtain ⟨hlt, -⟩ := List.getElem?_eq_some_iff.mp hevt
    omega

theorem isFetched_fetch {proc : ℕ} {T : Thread} (hT : tb.threads[proc]? = some T)
    (h : tb'.threads = tb.threads.set proc { T with fchCount := T.fchCount + 1 }) :
    tb'.isFetched = Function.update tb.isFetched ⟨proc, T.fchCount + 1⟩ true := by
  have hproc : proc < tb.threads.length := (List.getElem?_eq_some_iff.mp hT).1
  funext other
  obtain ⟨pid, index⟩ := other
  by_cases hpid : pid = proc
  · subst hpid
    have hat : tb'.threads[pid]? = some { T with fchCount := T.fchCount + 1 } := by
      rw [h, List.getElem?_set_self hproc]
    by_cases hindex : index = T.fchCount + 1
    · subst hindex
      simp [isFetched, hat]
    · have hne : (⟨pid, index⟩ : IID) ≠ ⟨pid, T.fchCount + 1⟩ := by simp [hindex]
      rw [Function.update_of_ne hne]
      simp only [isFetched, hat, hT]
      congr 1
      rw [decide_eq_decide]
      omega
  · have hne : (⟨pid, index⟩ : IID) ≠ ⟨proc, T.fchCount + 1⟩ := by simp [hpid]
    have hat : tb'.threads[pid]? = tb.threads[pid]? := by
      rw [h, List.getElem?_set_ne (Ne.symm hpid)]
    rw [Function.update_of_ne hne]
    simp only [isFetched, hat]

theorem view_fetch {proc i : ℕ} {events : List Event} (hevents : tb.fch[proc]? = some events)
    (hi : i ≤ events.length) (evt : Event)
    (h : tb'.fch = tb.fch.set proc (place i evt events)) :
    tb'.view = Function.update tb.view ⟨proc, i + 1⟩ (some evt.view) := by
  have hproc : proc < tb.fch.length := (List.getElem?_eq_some_iff.mp hevents).1
  funext other
  obtain ⟨pid, index⟩ := other
  by_cases hpid : pid = proc
  · subst hpid
    have hat : tb'.fch[pid]? = some (place i evt events) := by
      rw [h, List.getElem?_set_self hproc]
    by_cases hindex : index = i + 1
    · subst hindex
      simp [view, getEvt, hat, getElem?_place hi]
    · have hne : (⟨pid, index⟩ : IID) ≠ ⟨pid, i + 1⟩ := by simp [hindex]
      rw [Function.update_of_ne hne]
      simp only [view, getEvt, hat, hevents, Option.bind_some]
      cases index with
      | zero => rfl
      | succ j =>
          have hj : ¬ j = i := fun hj => hindex (by rw [hj])
          simp [getElem?_place hi, hj]
  · have hne : (⟨pid, index⟩ : IID) ≠ ⟨proc, i + 1⟩ := by simp [hpid]
    have hat : tb'.fch[pid]? = tb.fch[pid]? := by
      rw [h, List.getElem?_set_ne (Ne.symm hpid)]
    rw [Function.update_of_ne hne]
    simp only [view, getEvt, hat]

theorem keeps_fetch {proc loadCount storeCount : ℕ}
    (h : tb.fetch proc loadCount storeCount = some tb') : Keeps tb tb' := by
  intro hwf
  obtain ⟨T, hT, h⟩ := Option.bind_eq_some_iff.mp h
  obtain ⟨events, hevents, h⟩ := Option.bind_eq_some_iff.mp h
  have hlen := hwf.fchCount_le hT hevents
  have hunfetched : tb.isFetched ⟨proc, T.fchCount + 1⟩ = false := by
    simp [isFetched, hT]
  cases h
  refine Keeps.trans ?_ (same_updateAddrKnownPrefix proc).keeps hwf
  refine Fetches.keeps (?_ : Fetches tb _ ⟨proc, T.fchCount + 1⟩)
  refine ⟨hunfetched, isFetched_fetch hT rfl, ?_, rfl, ?_⟩
  · refine (view_fetch hevents hlen _ rfl).trans
      (congrArg (fun v => Function.update tb.view _ (some v)) ?_)
    -- whatever the place holds, the event is new
    cases hold : events[T.fchCount]? with
    | none => exact view_new loadCount storeCount
    | some old =>
        have hwaiting := hwf.waiting _ hunfetched
        simp only [view, getEvt, Nat.succ_ne_zero, if_false, hevents, Option.bind_some,
          Nat.add_sub_cancel, hold, Option.map_some, Option.all_some] at hwaiting
        exact view_refill hwaiting loadCount storeCount
  · intro hknown T' hT'
    rcases List.mem_or_eq_of_mem_set hT' with hT' | rfl
    · exact hknown T' hT'
    · exact (hknown T (List.mem_of_getElem? hT)).trans (Nat.le_succ _)

end TB

end Nidhugg.PowerArmRuns
