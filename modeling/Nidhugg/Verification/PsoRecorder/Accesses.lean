import Nidhugg.Verification.PsoRecorder.Calls

/-! # What calls record, and what they see

For every kind of access: how it changes the records of the last accesses, and which events are
before the current event afterwards. -/

namespace Nidhugg.PsoRecorder

variable {s t u : PsoRecorder} {pid tipid i : ℕ} {b c m : SymAddr} {ml : AccessRange}
  {lastRowe left : Option ℕ}

/-- The last access to a mutex that exists. -/
def lastAccess (s : PsoRecorder) (m : SymAddr) : Option ℕ := (s.mutex? m).bind PsoMutex.lastAccess

/-- Nothing changes but the current event, clocks, buffers and who is asleep. -/
structure SameView (s t : PsoRecorder) : Prop where
  pids : t.pids = s.pids
  owner : ∀ p, (t.threads p).owner = (s.threads p).owner
  proc : ∀ p, (t.threads p).proc = (s.threads p).proc
  accesses : t.accesses = s.accesses

/-- The records of bytes, mutexes and the full memory stay the same. -/
structure SameTables (s t : PsoRecorder) : Prop where
  mem : t.accesses.mem = s.accesses.mem
  full : t.accesses.lastFullMemoryConflict = s.accesses.lastFullMemoryConflict
  mutexes : t.accesses.mutexes = s.accesses.mutexes

/-- An access to the bytes of a range, which sees some events for every byte. -/
structure Touches (s t : PsoRecorder) (ml : AccessRange) (f : PsoByteInfo → PsoByteInfo)
    (seen : SymAddr → List ℕ) : Prop where
  bytes : ∀ b, t.byteInfo b = if b ∈ ml.bytes then f (s.byteInfo b) else s.byteInfo b
  full : t.accesses.lastFullMemoryConflict = s.accesses.lastFullMemoryConflict
  mutexes : t.accesses.mutexes = s.accesses.mutexes
  sees : ∀ i ≤ s.prefixIdx, ((∃ b ∈ ml.bytes, i ∈ seen b) ∨ i ∈ s.lastFullMemoryConflict) →
    t.Before i s.prefixIdx

/-- An access to a mutex, with the last access to it afterwards. -/
structure UsesMutex (s t : PsoRecorder) (m : SymAddr) (left : Option ℕ) : Prop where
  mem : t.accesses.mem = s.accesses.mem
  full : t.accesses.lastFullMemoryConflict = s.accesses.lastFullMemoryConflict
  mutexes : ∀ m', t.lastAccess m' = if m' = m then left else s.lastAccess m'
  sees : ∀ i ≤ s.prefixIdx, (s.lastAccess m = some i ∨ i ∈ s.lastFullMemoryConflict) →
    t.Before i s.prefixIdx

/-- The record of a byte after a read. -/
def readInfo (idx proc : ℕ) (bi : PsoByteInfo) : PsoByteInfo :=
  { bi with lastRead := AssocList.insert bi.lastRead proc idx }

/-- What a store sees for a byte, and the own update that it joins with. -/
def storeOrder (s : PsoRecorder) (tipid : ℕ) (b : SymAddr) : List ℕ :=
  s.ownUpdate tipid b ++ s.storeSees tipid b

def loadOrder (s : PsoRecorder) (pid : ℕ) (ml : AccessRange) (b : SymAddr) : List ℕ :=
  s.loadJoins pid ml b ++ s.loadSees pid b

/-! ### Views -/

namespace SameView

theorem refl (s : PsoRecorder) : SameView s s := ⟨rfl, fun _ => rfl, fun _ => rfl, rfl⟩

theorem trans (h : SameView s u) (h' : SameView u t) : SameView s t :=
  ⟨h'.pids.trans h.pids, fun p => (h'.owner p).trans (h.owner p),
    fun p => (h'.proc p).trans (h.proc p), h'.accesses.trans h.accesses⟩

theorem of_threads (hpids : t.pids = s.pids) (hthreads : t.threads = s.threads)
    (haccesses : t.accesses = s.accesses) : SameView s t := by
  refine ⟨hpids, ?_, ?_, haccesses⟩
  · intro p
    rw [hthreads]
  · intro p
    rw [hthreads]

theorem conflicting (s : PsoRecorder) : SameView s s.conflicting :=
  of_threads pids_conflicting rfl rfl

theorem addClock (s : PsoRecorder) (pid : ℕ) (c : VClock) : SameView s (s.addClock pid c) :=
  of_threads pids_addClock rfl rfl

theorem wakeup (s : PsoRecorder) (pid : ℕ) (a : PsoAccess) : SameView s (s.wakeup pid a) :=
  ⟨pids_wakeup, fun _ => rfl, fun _ => rfl, rfl⟩

theorem seeEvents (s : PsoRecorder) (pid : ℕ) (seen : List ℕ) :
    SameView s (s.seeEvents pid seen) :=
  of_threads (pids_seeEvents seen) (threads_seeEvents seen) (accesses_seeEvents seen)

theorem foldl {α : Type} {f : PsoRecorder → α → PsoRecorder} (hf : ∀ u x, SameView u (f u x))
    (xs : List α) : SameView s (xs.foldl f s) := by
  induction xs generalizing s with
  | nil => exact refl s
  | cons x xs ih => exact (hf s x).trans ih

theorem realThread (h : SameView s t) (p : ℕ) : t.realThread p = s.realThread p := by
  rw [PsoRecorder.realThread, PsoRecorder.realThread, h.owner]

theorem byteInfo (h : SameView s t) (b : SymAddr) : t.byteInfo b = s.byteInfo b := by
  rw [PsoRecorder.byteInfo, PsoRecorder.byteInfo, h.accesses]

theorem lastFullMemoryConflict (h : SameView s t) :
    t.lastFullMemoryConflict = s.lastFullMemoryConflict := by
  rw [PsoRecorder.lastFullMemoryConflict, PsoRecorder.lastFullMemoryConflict, h.accesses]

theorem ownUpdate (h : SameView s t) : t.ownUpdate tipid b = s.ownUpdate tipid b := by
  simp only [PsoRecorder.ownUpdate, h.byteInfo, h.realThread, pidOf_congr h.pids]

theorem storeSees (h : SameView s t) : t.storeSees tipid b = s.storeSees tipid b := by
  simp only [PsoRecorder.storeSees, h.byteInfo, h.realThread, pidOf_congr h.pids]

theorem loadSees (h : SameView s t) : t.loadSees pid b = s.loadSees pid b := by
  simp only [PsoRecorder.loadSees, h.byteInfo, h.realThread, pidOf_congr h.pids]

theorem loadJoins (h : SameView s t) : t.loadJoins pid ml b = s.loadJoins pid ml b := by
  simp only [PsoRecorder.loadJoins, h.byteInfo, h.ownUpdate]

theorem tables (h : SameView s t) : SameTables s t := by
  refine ⟨?_, ?_, ?_⟩ <;> rw [h.accesses]

theorem prefixIdx (h : SameView s t) : t.prefixIdx = s.prefixIdx := prefixIdx_congr h.pids

end SameView

theorem SameTables.byteInfo (h : SameTables s t) (b : SymAddr) : t.byteInfo b = s.byteInfo b := by
  rw [PsoRecorder.byteInfo, PsoRecorder.byteInfo, h.mem]

theorem SameTables.lastAccess (h : SameTables s t) (m : SymAddr) :
    t.lastAccess m = s.lastAccess m := by
  rw [PsoRecorder.lastAccess, PsoRecorder.lastAccess, mutex?, mutex?, h.mutexes]

theorem SameTables.trans (h : SameTables s u) (h' : SameTables u t) : SameTables s t :=
  ⟨h'.mem.trans h.mem, h'.full.trans h.full, h'.mutexes.trans h.mutexes⟩

theorem lastFullMemoryConflict_congr
    (h : t.accesses.lastFullMemoryConflict = s.accesses.lastFullMemoryConflict) :
    t.lastFullMemoryConflict = s.lastFullMemoryConflict := by
  rw [lastFullMemoryConflict, lastFullMemoryConflict, h]

/-! ### What stays when the clock grows further -/

section After

variable {f : PsoByteInfo → PsoByteInfo} {seen seen' : SymAddr → List ℕ}

theorem Touches.after (h : Touches s u ml f seen) (hidx : u.prefixIdx = s.prefixIdx)
    (htables : SameTables u t) (hgrows : Grows u t pid) : Touches s t ml f seen where
  bytes := fun b => (htables.byteInfo b).trans (h.bytes b)
  full := htables.full.trans h.full
  mutexes := htables.mutexes.trans h.mutexes
  sees := fun i hi hseen => (h.sees i hi hseen).grows hgrows (Nat.le_of_eq hidx.symm)

theorem Touches.of_view (h : Touches u t ml f seen) (hview : SameView s u)
    (hseen : ∀ b ∈ ml.bytes, seen b = seen' b) : Touches s t ml f seen' where
  bytes := by
    intro b
    rw [h.bytes b, hview.byteInfo]
  full := h.full.trans hview.tables.full
  mutexes := h.mutexes.trans hview.tables.mutexes
  sees := by
    intro i hi hsees
    rw [← hview.prefixIdx] at hi ⊢
    refine h.sees i hi ?_
    rw [hview.lastFullMemoryConflict]
    refine hsees.imp_left ?_
    intro ⟨b, hb, hsees⟩
    exact ⟨b, hb, by rwa [hseen b hb]⟩

theorem UsesMutex.of_view (h : UsesMutex u t m left) (hview : SameView s u) :
    UsesMutex s t m left where
  mem := h.mem.trans hview.tables.mem
  full := h.full.trans hview.tables.full
  mutexes := by
    intro m'
    rw [h.mutexes m', hview.tables.lastAccess]
  sees := by
    intro i hi hseen
    rw [← hview.prefixIdx] at hi ⊢
    rw [← hview.tables.lastAccess, ← hview.lastFullMemoryConflict] at hseen
    exact h.sees i hi hseen

end After

/-! ### Bytes -/

theorem byteInfo_writeByte {f : PsoByteInfo → PsoByteInfo} :
    (s.writeByte b f).byteInfo c = if c = b then f (s.byteInfo b) else s.byteInfo c := by
  rw [byteInfo, writeByte, AssocList.lookup_insert]
  split
  · rfl
  · rfl

/-- Writing the records of several bytes, one after the other. -/
theorem byteInfo_foldl {g : PsoRecorder → SymAddr → PsoRecorder} {f : PsoByteInfo → PsoByteInfo}
    {P : PsoRecorder → Prop} (hP : ∀ u b, P u → P (g u b))
    (hg : ∀ u b, P u → ∀ c, (g u b).byteInfo c = if c = b then f (u.byteInfo b) else u.byteInfo c)
    {bytes : List SymAddr} (hnodup : bytes.Nodup) (hs : P s) :
    P (bytes.foldl g s) ∧
      ∀ c, (bytes.foldl g s).byteInfo c = if c ∈ bytes then f (s.byteInfo c) else s.byteInfo c := by
  induction bytes generalizing s with
  | nil => exact ⟨hs, fun c => (if_neg List.not_mem_nil).symm⟩
  | cons b bytes ih =>
      rw [List.nodup_cons] at hnodup
      obtain ⟨hlast, hbytes⟩ := ih hnodup.2 (hP s b hs)
      refine ⟨hlast, ?_⟩
      intro c
      rw [List.foldl_cons, hbytes, hg s b hs]
      by_cases hc : c = b
      · subst hc
        rw [if_neg hnodup.1, if_pos rfl, if_pos List.mem_cons_self]
      · rw [if_neg hc]
        by_cases hmem : c ∈ bytes
        · rw [if_pos hmem, if_pos (List.mem_cons_of_mem _ hmem)]
        · rw [if_neg hmem, if_neg (by simp [hc, hmem])]

/-- What writing the records of bytes keeps. -/
structure Registering (s u : PsoRecorder) (pid : ℕ) : Prop where
  pids : u.pids = s.pids
  count : u.threadCount = s.threadCount
  proc : ∀ p, (u.threads p).proc = (s.threads p).proc
  full : u.accesses.lastFullMemoryConflict = s.accesses.lastFullMemoryConflict
  mutexes : u.accesses.mutexes = s.accesses.mutexes
  grows : Grows s u pid

theorem Registering.refl (s : PsoRecorder) : Registering s s pid :=
  ⟨rfl, rfl, fun _ => rfl, rfl, rfl, .refl s⟩

theorem Registering.writeByte (h : Registering s u pid) (f : PsoByteInfo → PsoByteInfo)
    (a : PsoAccess) : Registering s ((u.writeByte b f).wakeup pid a) pid where
  pids := (pids_wakeup (s := u.writeByte b f)).trans h.pids
  count := h.count
  proc := h.proc
  full := h.full
  mutexes := h.mutexes
  grows := by
    refine h.grows.trans (prefixIdx_congr h.pids) (Nat.le_of_eq h.count.symm) ?_
    exact .modifyCurnode rfl (fun _ => rfl) fun _ => rfl

theorem registerStore_touches (s : PsoRecorder) (pid : ℕ) (ml : AccessRange)
    (lastRowe : Option ℕ) :
    Registering s (s.registerStore pid ml lastRowe) pid ∧ ∀ c,
      (s.registerStore pid ml lastRowe).byteInfo c = if c ∈ ml.bytes
        then storedInfo s.prefixIdx (s.threads (s.realThread pid)).proc ml lastRowe (s.byteInfo c)
        else s.byteInfo c := by
  refine byteInfo_foldl (P := fun u => Registering s u pid) ?_ ?_ ml.nodup_bytes (.refl s)
  · exact fun u b hu => hu.writeByte _ _
  · intro u b hu c
    change (u.writeByte b _).byteInfo c = _
    rw [byteInfo_writeByte, prefixIdx_congr hu.pids]

theorem readBytes_touches (s : PsoRecorder) (pid : ℕ) (ml : AccessRange) :
    Registering s (ml.bytes.foldl (readByte pid) s) pid ∧ ∀ c,
      (ml.bytes.foldl (readByte pid) s).byteInfo c = if c ∈ ml.bytes
        then readInfo s.prefixIdx (s.threads pid).proc (s.byteInfo c) else s.byteInfo c := by
  refine byteInfo_foldl (P := fun u => Registering s u pid) ?_ ?_ ml.nodup_bytes (.refl s)
  · exact fun u b hu => hu.writeByte _ _
  · intro u b hu c
    change (u.writeByte b (readInfo u.prefixIdx (u.threads pid).proc)).byteInfo c = _
    rw [byteInfo_writeByte, prefixIdx_congr hu.pids, hu.proc]

/-! ### Stores and loads -/

/-- Seeing events for the bytes of a range, in two parts, before registering the access. -/
theorem before_seeEvents_twice {seen seen' : List ℕ} (hevents : s.events ≠ [])
    (hle : i ≤ s.prefixIdx) (hi : i ∈ seen ∨ i ∈ seen') :
    ((s.seeEvents pid seen).seeEvents pid seen').Before i s.prefixIdx := by
  have hview := SameView.seeEvents s pid seen
  cases hi with
  | inl hi =>
      exact (before_seeEvents hevents hi hle).grows (Grows.seeEvents _ seen')
        (Nat.le_of_eq hview.prefixIdx.symm)
  | inr hi =>
      rw [← hview.prefixIdx] at hle ⊢
      exact before_seeEvents (events_ne_nil hview.pids hevents) hi hle

theorem performStore_touches (hevents : s.events ≠ []) (pid : ℕ) (ml : AccessRange)
    (lastRowe : Option ℕ) :
    Touches s (s.performStore pid ml lastRowe) ml
      (storedInfo s.prefixIdx (s.threads (s.realThread pid)).proc ml lastRowe)
      (s.storeOrder (s.realThread pid)) := by
  rw [performStore]
  generalize hu : s.seeEvents pid (ml.bytes.flatMap (s.ownUpdate (s.realThread pid))) = u
  have huview : SameView s u := hu ▸ .seeEvents s pid _
  generalize hv : u.seeEvents pid
    (ml.bytes.flatMap (u.storeSees (s.realThread pid)) ++ u.lastFullMemoryConflict) = v
  have hview : SameView s v := huview.trans (hv ▸ .seeEvents u pid _)
  obtain ⟨hregister, hbytes⟩ :=
    registerStore_touches v pid ml lastRowe
  refine ⟨?_, hregister.full.trans hview.tables.full, hregister.mutexes.trans hview.tables.mutexes,
    ?_⟩
  · intro b
    rw [hbytes b, hview.byteInfo, hview.prefixIdx, hview.realThread, hview.proc]
  · intro i hi hseen
    refine Before.grows ?_ hregister.grows (Nat.le_of_eq hview.prefixIdx.symm)
    rw [← hv, ← hu]
    apply before_seeEvents_twice hevents hi
    rw [hu, List.mem_append, huview.lastFullMemoryConflict, List.mem_flatMap, List.mem_flatMap]
    cases hseen with
    | inr hfull => exact .inr (.inr hfull)
    | inl hseen =>
        obtain ⟨b, hb, hseen⟩ := hseen
        cases List.mem_append.mp hseen with
        | inl hown => exact .inl ⟨b, hb, hown⟩
        | inr hsees => exact .inr (.inl ⟨b, hb, by rwa [huview.storeSees]⟩)

theorem pids_performStore (s : PsoRecorder) (pid : ℕ) (ml : AccessRange) (lastRowe : Option ℕ) :
    (s.performStore pid ml lastRowe).pids = s.pids := by
  rw [performStore]
  exact (registerStore_touches ..).1.pids.trans
    (((SameView.seeEvents s pid _).trans (.seeEvents _ pid _)).pids)

theorem memoryLoad_touches (hevents : s.events ≠ []) (pid : ℕ) (ml : AccessRange) :
    Touches s (s.memoryLoad pid ml) ml (readInfo s.prefixIdx (s.threads pid).proc)
      (s.loadOrder pid ml) := by
  rw [memoryLoad]
  generalize hu : s.seeEvents pid (ml.bytes.flatMap (s.loadJoins pid ml)) = u
  have huview : SameView s u := hu ▸ .seeEvents s pid _
  generalize hv : u.seeEvents pid
    (ml.bytes.flatMap (u.loadSees pid) ++ u.lastFullMemoryConflict) = v
  have hview : SameView s v := huview.trans (hv ▸ .seeEvents u pid _)
  obtain ⟨hregister, hbytes⟩ := readBytes_touches v pid ml
  refine ⟨?_, hregister.full.trans hview.tables.full, hregister.mutexes.trans hview.tables.mutexes,
    ?_⟩
  · intro b
    rw [hbytes b, hview.byteInfo, hview.prefixIdx, hview.proc]
  · intro i hi hseen
    refine Before.grows ?_ hregister.grows (Nat.le_of_eq hview.prefixIdx.symm)
    rw [← hv, ← hu]
    apply before_seeEvents_twice hevents hi
    rw [hu, List.mem_append, huview.lastFullMemoryConflict, List.mem_flatMap, List.mem_flatMap]
    cases hseen with
    | inr hfull => exact .inr (.inr hfull)
    | inl hseen =>
        obtain ⟨b, hb, hseen⟩ := hseen
        cases List.mem_append.mp hseen with
        | inl hown => exact .inl ⟨b, hb, hown⟩
        | inr hsees => exact .inr (.inl ⟨b, hb, by rwa [huview.loadSees]⟩)

/-- An update sees what a store by the real thread sees. -/
theorem update_touches (hevents : s.events ≠ []) (howner : (s.threads pid).owner = some tipid)
    (h : s.update pid tipid ml = some t) :
    ∃ pst, ((s.threads tipid).storeBuffers.get ml.1.addr).head? = some pst ∧ pst.ml = ml ∧
      Touches s t ml (storedInfo s.prefixIdx (s.threads tipid).proc ml pst.lastRowe)
        (s.storeOrder tipid) := by
  rw [update] at h
  obtain ⟨pst, hpst, h⟩ := Option.bind_eq_some_iff.mp h
  obtain ⟨hhead, hml⟩ := Option.filter_eq_some_iff.mp hpst
  refine ⟨pst, hhead, of_decide_eq_true hml, ?_⟩
  cases h
  have hview : SameView s (s.conflicting.addClock pid pst.clock) :=
    (SameView.conflicting s).trans (.addClock _ pid _)
  have hreal : s.realThread pid = tipid := by rw [realThread, howner, Option.getD_some]
  have hstore := performStore_touches (events_ne_nil hview.pids hevents) pid ml pst.lastRowe
  rw [hview.prefixIdx, hview.realThread, hview.proc, hreal] at hstore
  have hidx := (prefixIdx_congr (pids_performStore (s.conflicting.addClock pid pst.clock) pid ml
    pst.lastRowe)).trans hview.prefixIdx
  have hseen : ∀ b ∈ ml.bytes,
      (s.conflicting.addClock pid pst.clock).storeOrder tipid b = s.storeOrder tipid b := by
    intro b _
    rw [storeOrder, storeOrder, hview.ownUpdate, hview.storeSees]
  exact (hstore.of_view hview hseen).after hidx ⟨rfl, rfl, rfl⟩
    (.of_events pid rfl fun _ => rfl)

theorem realStore_touches (hevents : s.events ≠ []) (howner : (s.threads pid).owner = none)
    (h : s.realStore pid ml = some t) :
    Touches s t ml (storedInfo s.prefixIdx (s.threads pid).proc ml none) (s.storeOrder pid) := by
  rw [realStore, Option.ite_none_right_eq_some] at h
  cases h.2
  let u := (s.threads pid).auxs.foldl (fun u aux => u.addClock pid (u.threadClock aux.2))
    s.conflicting
  have hview : SameView s u := (SameView.conflicting s).trans (.foldl (fun u aux => .addClock u pid _) _)
  have hreal : s.realThread pid = pid := by rw [realThread, howner, Option.getD_none]
  have hstore := performStore_touches (events_ne_nil hview.pids hevents) pid ml none
  rw [hview.prefixIdx, hview.realThread, hview.proc, hreal] at hstore
  refine hstore.of_view hview ?_
  intro b _
  rw [storeOrder, storeOrder, hview.ownUpdate, hview.storeSees]

theorem load_eq_some (h : s.load pid ml = some t) :
    (s.hasPendingStore pid ml.1.addr = true ∧ t = s.conflicting.markRowe pid ml.1.addr) ∨
      (s.hasPendingStore pid ml.1.addr = false ∧ t = s.conflicting.memoryLoad pid ml) := by
  rw [load] at h
  split at h
  · rename_i hpending
    rw [Option.ite_none_right_eq_some] at h
    exact .inl ⟨hpending, (Option.some.inj h.2).symm⟩
  · rename_i hpending
    exact .inr ⟨Bool.eq_false_iff.mpr hpending, (Option.some.inj h).symm⟩

/-- A load from memory. -/
theorem load_touches (hevents : s.events ≠ []) (hpending : s.hasPendingStore pid ml.1.addr = false)
    (h : s.load pid ml = some t) :
    Touches s t ml (readInfo s.prefixIdx (s.threads pid).proc) (s.loadOrder pid ml) := by
  cases load_eq_some h with
  | inl h =>
      rw [hpending] at h
      cases h.1
  | inr h =>
      have hview := SameView.conflicting s
      rw [h.2]
      have hload := memoryLoad_touches (events_ne_nil hview.pids hevents) pid ml
      rw [hview.prefixIdx, hview.proc] at hload
      refine hload.of_view hview ?_
      intro b _
      rw [loadOrder, loadOrder, hview.loadJoins, hview.loadSees]

/-! ### The full memory and mutexes -/

theorem fullMemoryConflict_sees (hevents : s.events ≠ []) (hle : i ≤ s.prefixIdx)
    (hi : i ∈ s.fullMemorySees) : (s.fullMemoryConflict pid).Before i s.prefixIdx := by
  have hview := SameView.conflicting s
  rw [← hview.prefixIdx] at hle ⊢
  have hsees : (s.conflicting.seeEvents pid s.fullMemorySees).Before i s.conflicting.prefixIdx :=
    before_seeEvents (events_ne_nil hview.pids hevents) hi hle
  have hgrows : Grows (s.conflicting.seeEvents pid s.fullMemorySees) (s.fullMemoryConflict pid)
      pid := .modifyCurnode rfl (fun _ => rfl) fun _ => rfl
  exact hsees.grows hgrows (Nat.le_of_eq (SameView.seeEvents _ pid _).prefixIdx.symm)

theorem lastAccess_setMutex {mutex : PsoMutex} {m' : SymAddr} :
    (s.setMutex m mutex).lastAccess m' =
      if m' = m then mutex.lastAccess else s.lastAccess m' := by
  rw [lastAccess, mutex?, setMutex, AssocList.lookup_insert]
  split
  · rfl
  · rfl

/-- Writing to a mutex after seeing the last access to it. -/
theorem setMutex_uses {mutex : PsoMutex} (hview : SameView s u)
    (haccess : mutex.lastAccess = some s.prefixIdx)
    (hseen : ∀ i ≤ s.prefixIdx, s.lastAccess m = some i ∨ i ∈ s.lastFullMemoryConflict →
      u.Before i s.prefixIdx) :
    UsesMutex s (u.setMutex m mutex) m (some s.prefixIdx) where
  mem := hview.tables.mem
  full := hview.tables.full
  mutexes := by
    intro m'
    rw [lastAccess_setMutex, haccess, hview.tables.lastAccess]
  sees := hseen

/-- The beginning of the operations on mutexes. -/
theorem SameView.fence (h : s.fence pid = some t) : SameView s t := by
  rw [(fence_eq_some h).2.2]
  exact addClock s pid _

theorem SameView.opening (s : PsoRecorder) (pid : ℕ) (a : PsoAccess) :
    SameView s (s.conflicting.wakeup pid a) := (SameView.conflicting s).trans (.wakeup _ pid a)

theorem mutex?_getD_lastAccess : ((s.mutex? m).getD .new).lastAccess = s.lastAccess m := by
  rw [lastAccess]
  cases s.mutex? m <;> rfl

/-- Seeing what an operation on a mutex sees. -/
theorem mutexSees_before {mutex : PsoMutex} (hevents : s.events ≠ [])
    (hmutex : mutex.lastAccess = s.lastAccess m) (hle : i ≤ s.prefixIdx)
    (hi : s.lastAccess m = some i ∨ i ∈ s.lastFullMemoryConflict) :
    (s.seeEvents pid (s.mutexSees mutex)).Before i s.prefixIdx := by
  apply before_seeEvents hevents ?_ hle
  rw [mutexSees, List.mem_append, hmutex, Option.mem_toList]
  exact hi

/-- The operations that see the last access to a mutex, and write to it. -/
theorem mutexAccess_uses {mutex mutex' : PsoMutex} (hevents : s.events ≠ [])
    (hmutex : mutex.lastAccess = s.lastAccess m) (haccess : mutex'.lastAccess = some s.prefixIdx) :
    UsesMutex s ((s.seeEvents pid (s.mutexSees mutex)).setMutex m mutex') m (some s.prefixIdx) :=
  setMutex_uses (.seeEvents s pid _) haccess fun _ hle hi => mutexSees_before hevents hmutex hle hi

theorem mutexLock_uses (hevents : s.events ≠ []) (h : s.mutexLock pid m = some t) :
    UsesMutex s t m (some s.prefixIdx) := by
  rw [mutexLock] at h
  obtain ⟨u, hu, h⟩ := Option.bind_eq_some_iff.mp h
  have hview : SameView s (u.conflicting.wakeup pid (.w m)) :=
    (SameView.fence hu).trans (.opening u pid _)
  generalize u.conflicting.wakeup pid (.w m) = v at h hview
  have hevents' := events_ne_nil hview.pids hevents
  cases h
  rw [← hview.prefixIdx]
  refine UsesMutex.of_view ?_ hview
  have hmutex : ((v.mutex? m).getD .new).lastAccess = v.lastAccess m := mutex?_getD_lastAccess
  generalize (v.mutex? m).getD .new = mutex at hmutex
  cases hlock : mutex.lastLock with
  | none =>
      refine mutexAccess_uses hevents' hmutex ?_
      exact congrArg some (SameView.seeEvents v pid _).prefixIdx
  | some j =>
      have hsees : SameView v ((v.seeEvents pid mutex.lastAccess.toList).seeEvents pid
          v.lastFullMemoryConflict) := (SameView.seeEvents v pid _).trans (.seeEvents _ pid _)
      refine setMutex_uses hsees (congrArg some hsees.prefixIdx) ?_
      intro i hle hi
      apply before_seeEvents_twice hevents' hle
      rw [hmutex, Option.mem_toList]
      exact hi

/-- The same for operations on a mutex that exists, after a fence and a wakeup. -/
theorem wakeup_mutexAccess_uses {mutex mutex' : PsoMutex} {a : PsoAccess} (hevents : s.events ≠ [])
    (hfence : s.fence pid = some u) (hmutex : u.mutex? m = some mutex)
    (haccess : mutex'.lastAccess = some ((u.conflicting.wakeup pid a).seeEvents pid
      ((u.conflicting.wakeup pid a).mutexSees mutex)).prefixIdx) :
    UsesMutex s (((u.conflicting.wakeup pid a).seeEvents pid
      ((u.conflicting.wakeup pid a).mutexSees mutex)).setMutex m mutex') m (some s.prefixIdx) := by
  have hview : SameView u (u.conflicting.wakeup pid a) := .opening u pid a
  have hall := (SameView.fence hfence).trans hview
  have hlast : mutex.lastAccess = (u.conflicting.wakeup pid a).lastAccess m := by
    rw [hview.tables.lastAccess, lastAccess, hmutex]
    rfl
  rw [← hall.prefixIdx]
  refine UsesMutex.of_view ?_ hall
  refine mutexAccess_uses (events_ne_nil hall.pids hevents) hlast ?_
  rw [haccess, (SameView.seeEvents _ pid _).prefixIdx]

theorem mutexUnlock_uses (hevents : s.events ≠ []) (h : s.mutexUnlock pid m = some t) :
    UsesMutex s t m (some s.prefixIdx) := by
  rw [mutexUnlock] at h
  obtain ⟨u, hu, h⟩ := Option.bind_eq_some_iff.mp h
  obtain ⟨mutex, hmutex, h⟩ := Option.bind_eq_some_iff.mp h
  obtain ⟨_, -, h⟩ := Option.bind_eq_some_iff.mp h
  cases h
  exact wakeup_mutexAccess_uses hevents hu hmutex rfl

theorem mutexTrylock_uses (hevents : s.events ≠ []) (h : s.mutexTrylock pid m = some t) :
    UsesMutex s t m (some s.prefixIdx) := by
  rw [mutexTrylock] at h
  obtain ⟨u, hu, h⟩ := Option.bind_eq_some_iff.mp h
  obtain ⟨mutex, hmutex, h⟩ := Option.bind_eq_some_iff.mp h
  cases h
  exact wakeup_mutexAccess_uses hevents hu hmutex rfl

theorem mutexInit_uses (hevents : s.events ≠ []) (h : s.mutexInit pid m = some t) :
    UsesMutex s t m (some s.prefixIdx) := by
  rw [mutexInit] at h
  obtain ⟨u, hu, h⟩ := Option.bind_eq_some_iff.mp h
  have hview : SameView s u.conflicting := (SameView.fence hu).trans (.conflicting u)
  generalize u.conflicting = v at h hview
  cases h
  rw [← hview.prefixIdx]
  refine UsesMutex.of_view ?_ hview
  exact mutexAccess_uses (events_ne_nil hview.pids hevents) mutex?_getD_lastAccess
    (congrArg some (SameView.seeEvents v pid _).prefixIdx)

/-- A mutex that is destroyed has no last access. -/
theorem mutexDestroy_uses (hevents : s.events ≠ []) (h : s.mutexDestroy pid m = some t) :
    UsesMutex s t m none := by
  rw [mutexDestroy] at h
  obtain ⟨u, hu, h⟩ := Option.bind_eq_some_iff.mp h
  obtain ⟨mutex, hmutex, h⟩ := Option.bind_eq_some_iff.mp h
  have hview : SameView u (u.conflicting.wakeup pid (.w m)) := .opening u pid _
  have hall := (SameView.fence hu).trans hview
  have hlast : mutex.lastAccess = (u.conflicting.wakeup pid (.w m)).lastAccess m := by
    rw [hview.tables.lastAccess, lastAccess, hmutex]
    rfl
  generalize u.conflicting.wakeup pid (.w m) = v at h hall hlast
  cases h
  refine UsesMutex.of_view ?_ hall
  have hsees := SameView.seeEvents v pid (v.mutexSees mutex)
  refine ⟨hsees.tables.mem, hsees.tables.full, ?_, ?_⟩
  · intro m'
    rw [lastAccess, mutex?, AssocList.lookup_erase]
    split
    · rfl
    · exact hsees.tables.lastAccess m'
  · exact fun i hle hi => mutexSees_before (events_ne_nil hall.pids hevents) hlast hle hi

/-! ### Calls without accesses -/

theorem opening_tables (hfence : s.fence pid = some u) (a : PsoAccess) :
    SameTables s (u.conflicting.wakeup pid a) :=
  (SameView.fence hfence).tables.trans (SameView.opening u pid a).tables

theorem createAux_tables (s : PsoRecorder) (pid : ℕ) (b : SymAddr) :
    (s.createAux pid b).accesses = s.accesses := by
  rw [createAux]
  cases (s.threads pid).auxs.lookup b <;> rfl

/-- Seeing events, after writing to a condition variable. -/
theorem SameTables.seeEvents (h : SameTables s t) (seen : List ℕ) :
    SameTables s (t.seeEvents pid seen) := h.trans (SameView.seeEvents t pid seen).tables

theorem tables_foldl_wakeWaiter (waiters : List ℕ) :
    SameTables s (waiters.foldl wakeWaiter s) := by
  induction waiters generalizing s with
  | nil => exact ⟨rfl, rfl, rfl⟩
  | cons i waiters ih =>
      have hi : SameTables s (s.wakeWaiter i) := ⟨rfl, rfl, rfl⟩
      exact hi.trans ih

theorem SameTables.setCondVar (h : SameTables s t) (c : SymAddr) (condVar : PsoCondVar) :
    SameTables s (t.setCondVar c condVar) := h.trans ⟨rfl, rfl, rfl⟩

theorem condInit_tables (h : s.condInit pid c = some t) : SameTables s t := by
  rw [condInit] at h
  obtain ⟨u, hu, h⟩ := Option.bind_eq_some_iff.mp h
  have hview := (SameView.fence hu).tables
  split at h
  · cases h
    exact hview
  · cases h
    exact ((hview.trans (SameView.conflicting u).tables).setCondVar c _).seeEvents _

theorem condSignal_tables (h : s.condSignal pid c = some t) : SameTables s t := by
  rw [condSignal] at h
  obtain ⟨u, hu, h⟩ := Option.bind_eq_some_iff.mp h
  have hview := opening_tables hu (.w c)
  generalize u.conflicting.wakeup pid (.w c) = v at h hview
  dsimp only at h
  split at h
  · cases h
    exact hview
  · rw [signalWaiter] at h
    split at h
    · rename_i i _
      cases h
      have hwake : SameTables v (v.wakeWaiter i) := ⟨rfl, rfl, rfl⟩
      exact ((hview.trans hwake).setCondVar c _).seeEvents _
    · rw [Option.ite_none_right_eq_some] at h
      cases h.2
      exact (hview.setCondVar c _).seeEvents _

theorem condBroadcast_tables (h : s.condBroadcast pid c = some t) : SameTables s t := by
  rw [condBroadcast] at h
  obtain ⟨u, hu, h⟩ := Option.bind_eq_some_iff.mp h
  have hview := opening_tables hu (.w c)
  generalize u.conflicting.wakeup pid (.w c) = v at h hview
  dsimp only at h
  split at h
  · cases h
    exact hview
  · cases h
    exact ((hview.trans (tables_foldl_wakeWaiter _)).setCondVar c _).seeEvents _

theorem condDestroy_tables (h : s.condDestroy pid c = some t) : SameTables s t := by
  rw [condDestroy] at h
  obtain ⟨u, hu, h⟩ := Option.bind_eq_some_iff.mp h
  have hview := opening_tables hu (.w c)
  generalize u.conflicting.wakeup pid (.w c) = v at h hview
  dsimp only at h
  split at h
  · cases h
    exact hview
  · cases h
    exact (hview.seeEvents _).trans ⟨rfl, rfl, rfl⟩

theorem waitFor_tables (h : s.waitFor pid c = some t) : SameTables s t := by
  rw [waitFor] at h
  obtain ⟨u, hu, h⟩ := Option.bind_eq_some_iff.mp h
  have hview := opening_tables hu (.r c)
  generalize u.conflicting.wakeup pid (.r c) = v at h hview
  dsimp only at h
  split at h
  · cases h
    exact hview
  · cases h
    exact (hview.setCondVar c _).seeEvents _

end Nidhugg.PsoRecorder
