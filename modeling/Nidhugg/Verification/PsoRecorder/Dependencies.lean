import Nidhugg.Verification.PsoRecorder.Calls

/-! # Dependencies and wakeups

What a call would see is recorded at the places where it looks. Whoever looks at a place is woken
up by the accesses that write it, given that the dry run has noted the call. -/

namespace Nidhugg.PsoRecorder

variable {s t : PsoRecorder} {pid p i : ℕ} {a : PsoAccess} {loc : PsoLocation} {call : PsoCall}
  {b c m : SymAddr} {ml : AccessRange}

/-- The places where a call of a thread looks for events that it sees. -/
def LooksAt (s : PsoRecorder) (p : ℕ) (loc : PsoLocation) : PsoCall → Prop
  | .atomicStore ml | .compareExchange ml true | .atomicRmw ml =>
      (∃ b ∈ ml.bytes, loc = .update b ∨ loc = .read b) ∨ loc = .full
  | .load ml | .compareExchange ml false =>
      s.hasPendingStore p ml.1.addr = false ∧ ((∃ b ∈ ml.bytes, loc = .update b) ∨ loc = .full)
  | .fullMemoryConflict => ∀ c, loc ≠ .signal c ∧ loc ≠ .waiters c
  | .mutexLock m | .mutexUnlock m | .mutexTrylock m | .mutexInit m | .mutexDestroy m
  | .condAwake _ m => loc = .mutex m ∨ loc = .full
  | .condInit _ => loc = .full
  | .condSignal c | .condBroadcast c => loc = .waiters c ∨ loc = .full
  | .condWait c m =>
      s.condWaitAccepts p m = true ∧ (loc = .mutex m ∨ loc = .signal c ∨ loc = .full)
  | .condDestroy c => loc = .signal c ∨ loc = .waiters c ∨ loc = .full
  | .spawn | .store _ | .fence | .join _ | .registerAlternatives _ => False

/-! ### What a call sees is recorded where it looks -/

theorem recordedAt_full (h : i ∈ s.lastFullMemoryConflict) : s.RecordedAt i .full :=
  Option.mem_toList.mp h

theorem recordedAt_update (h : (s.byteInfo b).lastUpdate = some i) :
    s.RecordedAt i (.update b) := by
  rw [byteInfo] at h
  cases hlookup : s.accesses.mem.lookup b with
  | none => simp [hlookup, PsoByteInfo.new] at h
  | some info =>
      rw [hlookup] at h
      exact ⟨info, AssocList.mem_of_lookup hlookup, h⟩

theorem recordedAt_read (h : i ∈ (s.byteInfo b).lastRead.map Prod.snd) :
    s.RecordedAt i (.read b) := by
  rw [byteInfo] at h
  cases hlookup : s.accesses.mem.lookup b with
  | none => simp [hlookup, PsoByteInfo.new] at h
  | some info =>
      rw [hlookup] at h
      exact ⟨info, AssocList.mem_of_lookup hlookup, h⟩

theorem recordedAt_mutex (h : ((s.mutex? m).getD .new).lastAccess = some i ∨
    ((s.mutex? m).getD .new).lastLock = some i) : s.RecordedAt i (.mutex m) := by
  cases hlookup : s.mutex? m with
  | none => simp [hlookup, PsoMutex.new] at h
  | some mutex =>
      rw [hlookup] at h
      exact ⟨mutex, AssocList.mem_of_lookup hlookup, h⟩

theorem mem_rangeStoreSees (h : i ∈ s.rangeStoreSees p ml) :
    ∃ loc, s.RecordedAt i loc ∧
      ((∃ b ∈ ml.bytes, loc = .update b ∨ loc = .read b) ∨ loc = .full) := by
  cases List.mem_append.mp h with
  | inl h =>
      obtain ⟨b, hb, h⟩ := List.mem_flatMap.mp h
      cases List.mem_append.mp h with
      | inl h =>
          exact ⟨.update b, recordedAt_update (Option.mem_toList.mp (List.mem_filter.mp h).1),
            .inl ⟨b, hb, .inl rfl⟩⟩
      | inr h =>
          exact ⟨.read b, recordedAt_read (List.mem_filter.mp h).1, .inl ⟨b, hb, .inr rfl⟩⟩
  | inr h => exact ⟨.full, recordedAt_full h, .inr rfl⟩

theorem mem_rangeLoadSees (h : i ∈ s.rangeLoadSees p ml) :
    ∃ loc, s.RecordedAt i loc ∧ s.hasPendingStore p ml.1.addr = false ∧
      ((∃ b ∈ ml.bytes, loc = .update b) ∨ loc = .full) := by
  rw [rangeLoadSees] at h
  split at h
  · exact absurd h List.not_mem_nil
  · rename_i hpending
    rw [Bool.not_eq_true] at hpending
    cases List.mem_append.mp h with
    | inl h =>
        obtain ⟨b, hb, h⟩ := List.mem_flatMap.mp h
        exact ⟨.update b, recordedAt_update (Option.mem_toList.mp (List.mem_filter.mp h).1),
          hpending, .inl ⟨b, hb, rfl⟩⟩
    | inr h => exact ⟨.full, recordedAt_full h, hpending, .inr rfl⟩

theorem mem_mutexSees (h : i ∈ s.mutexSees ((s.mutex? m).getD .new)) :
    ∃ loc, s.RecordedAt i loc ∧ (loc = .mutex m ∨ loc = .full) := by
  cases List.mem_append.mp h with
  | inl h => exact ⟨.mutex m, recordedAt_mutex (.inl (Option.mem_toList.mp h)), .inl rfl⟩
  | inr h => exact ⟨.full, recordedAt_full h, .inr rfl⟩

theorem mem_lockSees (h : i ∈ s.lockSees m) :
    ∃ loc, s.RecordedAt i loc ∧ (loc = .mutex m ∨ loc = .full) := by
  cases List.mem_append.mp h with
  | inl h => exact ⟨.mutex m, recordedAt_mutex (.inr (Option.mem_toList.mp h)), .inl rfl⟩
  | inr h => exact mem_mutexSees h

theorem mem_condSees {sees : PsoCondVar → List ℕ} (h : i ∈ s.condSees c sees) :
    s.RecordedAt i .full ∨ ∃ condVar, s.condVar? c = some condVar ∧ i ∈ sees condVar := by
  rw [condSees] at h
  cases hlookup : s.condVar? c with
  | none =>
      rw [hlookup] at h
      exact absurd h List.not_mem_nil
  | some condVar =>
      rw [hlookup] at h
      cases List.mem_append.mp h with
      | inl h => exact .inr ⟨condVar, rfl, h⟩
      | inr h => exact .inl (recordedAt_full h)

theorem mem_fullMemorySees (h : i ∈ s.fullMemorySees) :
    ∃ loc, s.RecordedAt i loc ∧ ∀ c, loc ≠ .signal c ∧ loc ≠ .waiters c := by
  rw [fullMemorySees, List.mem_append, List.mem_append] at h
  rcases h with (h | h) | h
  · obtain ⟨e, he, h⟩ := List.mem_flatMap.mp h
    cases List.mem_append.mp h with
    | inl h => exact ⟨.update e.1, ⟨e.2, he, Option.mem_toList.mp h⟩, fun c => by simp⟩
    | inr h => exact ⟨.read e.1, ⟨e.2, he, h⟩, fun c => by simp⟩
  · obtain ⟨e, he, h⟩ := List.mem_flatMap.mp h
    exact ⟨.mutex e.1, ⟨e.2, he, .inl (Option.mem_toList.mp h)⟩, fun c => by simp⟩
  · exact ⟨.full, recordedAt_full h, fun c => by simp⟩

theorem exists_of_mem_sees (h : i ∈ s.sees p call) :
    ∃ loc, s.RecordedAt i loc ∧ s.LooksAt p loc call := by
  cases call with
  | atomicStore ml => exact mem_rangeStoreSees h
  | compareExchange ml success =>
      cases success with
      | true => exact mem_rangeStoreSees h
      | false => exact mem_rangeLoadSees h
  | atomicRmw ml =>
      cases List.mem_append.mp h with
      | inl h =>
          obtain ⟨loc, hrecorded, -, hloc⟩ := mem_rangeLoadSees h
          exact ⟨loc, hrecorded, hloc.imp_left fun ⟨b, hb, heq⟩ => ⟨b, hb, .inl heq⟩⟩
      | inr h => exact mem_rangeStoreSees h
  | load ml => exact mem_rangeLoadSees h
  | fullMemoryConflict => exact mem_fullMemorySees h
  | mutexLock | condAwake => exact mem_lockSees h
  | mutexUnlock | mutexTrylock | mutexInit | mutexDestroy => exact mem_mutexSees h
  | condInit c =>
      rw [sees] at h
      split at h
      · exact absurd h List.not_mem_nil
      · exact ⟨.full, recordedAt_full h, rfl⟩
  | condSignal c | condBroadcast c =>
      cases mem_condSees h with
      | inl h => exact ⟨.full, h, .inr rfl⟩
      | inr h =>
          obtain ⟨condVar, hcond, h⟩ := h
          exact ⟨.waiters c, recordedAt_waiters hcond h, .inl rfl⟩
  | condWait c m =>
      rw [sees] at h
      split at h
      · rename_i haccepts
        cases List.mem_append.mp h with
        | inl h =>
            obtain ⟨loc, hrecorded, hloc⟩ := mem_mutexSees h
            exact ⟨loc, hrecorded, haccepts, hloc.imp_right .inr⟩
        | inr h =>
            cases mem_condSees h with
            | inl h => exact ⟨.full, h, haccepts, .inr (.inr rfl)⟩
            | inr h =>
                obtain ⟨condVar, hcond, h⟩ := h
                exact ⟨.signal c, recordedAt_signal hcond (Option.mem_toList.mp h), haccepts,
                  .inr (.inl rfl)⟩
      · exact absurd h List.not_mem_nil
  | condDestroy c =>
      cases mem_condSees h with
      | inl h => exact ⟨.full, h, .inr (.inr rfl)⟩
      | inr h =>
          obtain ⟨condVar, hcond, h⟩ := h
          cases List.mem_append.mp h with
          | inl h =>
              exact ⟨.signal c, recordedAt_signal hcond (Option.mem_toList.mp h), .inl rfl⟩
          | inr h => exact ⟨.waiters c, recordedAt_waiters hcond h, .inr (.inl rfl)⟩
  | spawn | store | fence | join | registerAlternatives => exact absurd h List.not_mem_nil

/-! ### Accesses wake up those who look -/

/-- The accesses that come with writing to a place. -/
def Covers : PsoAccess → PsoLocation → Prop
  | .w b, .update b' | .w b, .read b' | .r b, .read b' | .w b, .mutex b' | .w b, .signal b'
  | .w b, .waiters b' | .r b, .waiters b' => b = b'
  | .wAllMemory, .full => True
  | _, _ => False

/-- The dry run of a thread has noted a call, which the thread can still make. -/
structure NotedCall (s : PsoRecorder) (p : ℕ) (call : PsoCall) : Prop where
  reads : ∀ b ∈ dryReads call, b ∈ (s.threads p).sleep.sleepAccessesR
  writes : ∀ b ∈ dryWrites call, b ∈ (s.threads p).sleep.sleepAccessesW
  full : call = .fullMemoryConflict → (s.threads p).sleep.sleepFullMemoryConflict = true
  real : dryReads call ≠ [] → (s.threads p).owner = none
  ready : Ready (s.threads p).storeBuffers call

theorem wakes_of_write (hproc : (s.threads p).proc ≠ (s.threads pid).proc)
    (h : b ∈ (s.threads p).sleep.sleepAccessesW) :
    s.wakes pid p (.w b) = true ∧ s.wakes pid p (.r b) = true := by
  simp [wakes, hproc, h]

theorem wakes_of_read (hproc : (s.threads p).proc ≠ (s.threads pid).proc)
    (h : b ∈ (s.threads p).sleep.sleepAccessesR) (hpending : s.hasPendingStore p b = false) :
    s.wakes pid p (.w b) = true := by
  simp [wakes, hproc, h, hpending]

theorem wakes_all_of_write (h : b ∈ (s.threads p).sleep.sleepAccessesW) :
    s.wakes pid p .wAllMemory = true := by
  have hne : (s.threads p).sleep.sleepAccessesW ≠ [] := List.ne_nil_of_mem h
  simp [wakes, hne]

theorem wakes_all_of_read (h : b ∈ (s.threads p).sleep.sleepAccessesR)
    (hpending : s.hasPendingStore p b = false) : s.wakes pid p .wAllMemory = true := by
  have hany : ((s.threads p).sleep.sleepAccessesR.any fun b => !s.hasPendingStore p b) = true :=
    List.any_eq_true.mpr ⟨b, h, by simp [hpending]⟩
  simp [wakes, hany]

theorem wakes_of_full (h : (s.threads p).sleep.sleepFullMemoryConflict = true) :
    s.wakes pid p a = true := by
  cases a <;> simp [wakes, h]

/-- A call that writes to all bytes that it looks at. -/
theorem wakes_of_covers_write {bytes : List SymAddr} (hne : bytes ≠ [])
    (hproc : (s.threads p).proc ≠ (s.threads pid).proc)
    (hwrites : ∀ b ∈ bytes, b ∈ (s.threads p).sleep.sleepAccessesW)
    (hlooks : (∃ b ∈ bytes, loc = .update b ∨ loc = .read b ∨ loc = .mutex b ∨ loc = .signal b ∨
      loc = .waiters b) ∨ loc = .full)
    (hcovers : Covers a loc) : s.wakes pid p a = true := by
  cases hlooks with
  | inl hlooks =>
      obtain ⟨b, hb, hloc⟩ := hlooks
      have hwakes : s.wakes pid p (.w b) = true ∧ s.wakes pid p (.r b) = true :=
        wakes_of_write hproc (hwrites b hb)
      rcases hloc with rfl | rfl | rfl | rfl | rfl
      all_goals
        cases a with
        | wAllMemory => exact hcovers.elim
        | w b' =>
            obtain rfl : b' = b := hcovers
            exact hwakes.1
        | r b' =>
            first
              | exact hcovers.elim
              | (obtain rfl : b' = b := hcovers
                 exact hwakes.2)
  | inr hloc =>
      subst hloc
      obtain ⟨b, hb⟩ := List.exists_mem_of_ne_nil bytes hne
      cases a with
      | wAllMemory => exact wakes_all_of_write (hwrites b hb)
      | w b' | r b' => exact hcovers.elim

theorem wakes_of_covers_load {pending : List AccessRange}
    (hproc : (s.threads p).proc ≠ (s.threads pid).proc)
    (hreads : ∀ b ∈ ml.bytes, b ∈ (s.threads p).sleep.sleepAccessesR)
    (hbuffered : PsoBuffered (s.threads p).storeBuffers pending)
    (hready : Ready (s.threads p).storeBuffers (.load ml))
    (hnone : s.hasPendingStore p ml.1.addr = false)
    (hlooks : (∃ b ∈ ml.bytes, loc = .update b) ∨ loc = .full) (hcovers : Covers a loc) :
    s.wakes pid p a = true := by
  have hall : ∀ b ∈ ml.bytes, s.hasPendingStore p b = false := by
    intro b hb
    rw [hasPendingStore, decide_eq_false_iff_not, hbuffered.mem_keys_of_ready hready hb]
    rwa [hasPendingStore, decide_eq_false_iff_not] at hnone
  cases hlooks with
  | inl hlooks =>
      obtain ⟨b, hb, rfl⟩ := hlooks
      cases a with
      | w b' =>
          obtain rfl : b' = b := hcovers
          exact wakes_of_read hproc (hreads b' hb) (hall b' hb)
      | r b' | wAllMemory => exact hcovers.elim
  | inr hloc =>
      subst hloc
      cases a with
      | wAllMemory => exact wakes_all_of_read (hreads _ ml.addr_mem_bytes) hnone
      | w b' | r b' => exact hcovers.elim

/-- A thread whose next call looks at a place is woken up by the accesses that write there. -/
theorem NotedCall.wakes (h : NotedCall s p call) (hprojected : s.Projected)
    (hproc : (s.threads p).proc ≠ (s.threads pid).proc) (hlooks : s.LooksAt p loc call)
    (hcovers : Covers a loc) : s.wakes pid p a = true := by
  have hwrites := h.writes
  cases call with
  | atomicStore ml =>
      refine wakes_of_covers_write ml.bytes_ne_nil hproc hwrites ?_ hcovers
      exact hlooks.imp_left fun ⟨b, hb, hloc⟩ => ⟨b, hb, hloc.imp_right .inl⟩
  | atomicRmw ml =>
      refine wakes_of_covers_write ml.bytes_ne_nil hproc hwrites ?_ hcovers
      exact hlooks.imp_left fun ⟨b, hb, hloc⟩ => ⟨b, hb, hloc.imp_right .inl⟩
  | compareExchange ml success =>
      cases success with
      | true =>
          refine wakes_of_covers_write ml.bytes_ne_nil hproc hwrites ?_ hcovers
          exact hlooks.imp_left fun ⟨b, hb, hloc⟩ => ⟨b, hb, hloc.imp_right .inl⟩
      | false =>
          obtain ⟨pending, hpending⟩ := hprojected p (h.real ml.bytes_ne_nil)
          refine wakes_of_covers_load hproc h.reads hpending ?_ hlooks.1 hlooks.2 hcovers
          -- the buffers are empty
          intro b _ pst hpst
          have hkeys : (s.threads p).storeBuffers.keys = [] := h.ready
          have hget : (s.threads p).storeBuffers.get b = [] := by
            by_contra hne
            have hmem := (hpending.keyed b).mpr hne
            rw [hkeys] at hmem
            exact List.not_mem_nil hmem
          rw [hget] at hpst
          cases hpst
  | load ml =>
      obtain ⟨pending, hpending⟩ := hprojected p (h.real ml.bytes_ne_nil)
      exact wakes_of_covers_load hproc h.reads hpending h.ready hlooks.1 hlooks.2 hcovers
  | fullMemoryConflict => exact wakes_of_full (h.full rfl)
  | mutexLock m | mutexUnlock m | mutexTrylock m | mutexInit m | mutexDestroy m | condAwake c m =>
      refine wakes_of_covers_write (List.cons_ne_nil m []) hproc hwrites ?_ hcovers
      exact hlooks.imp_left fun hloc => ⟨m, List.mem_singleton_self m, .inr (.inr (.inl hloc))⟩
  | condInit c =>
      exact wakes_of_covers_write (List.cons_ne_nil c []) hproc hwrites (.inr hlooks) hcovers
  | condSignal c | condBroadcast c =>
      refine wakes_of_covers_write (List.cons_ne_nil c []) hproc hwrites ?_ hcovers
      exact hlooks.imp_left fun hloc =>
        ⟨c, List.mem_singleton_self c, .inr (.inr (.inr (.inr hloc)))⟩
  | condWait c m =>
      rcases hlooks.2 with hloc | hloc | hloc
      · exact wakes_of_covers_write (List.cons_ne_nil m []) hproc hwrites
          (.inl ⟨m, List.mem_singleton_self m, .inr (.inr (.inl hloc))⟩) hcovers
      · subst hloc
        have hkeys : (s.threads p).storeBuffers.keys = [] := h.ready
        cases a with
        | w b =>
            obtain rfl : b = c := hcovers
            exact wakes_of_read hproc (h.reads b (List.mem_singleton_self b))
              (not_hasPendingStore hkeys)
        | r b | wAllMemory => exact hcovers.elim
      · exact wakes_of_covers_write (List.cons_ne_nil m []) hproc hwrites (.inr hloc) hcovers
  | condDestroy c =>
      refine wakes_of_covers_write (List.cons_ne_nil c []) hproc hwrites ?_ hcovers
      rcases hlooks with hloc | hloc | hloc
      · exact .inl ⟨c, List.mem_singleton_self c, .inr (.inr (.inr (.inl hloc)))⟩
      · exact .inl ⟨c, List.mem_singleton_self c, .inr (.inr (.inr (.inr hloc)))⟩
      · exact .inr hloc
  | spawn | store | fence | join | registerAlternatives => exact hlooks.elim

end Nidhugg.PsoRecorder
