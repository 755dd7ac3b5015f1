import Nidhugg.Verification.PsoRecorder.Accesses
import Nidhugg.Verification.PsoRecorder.Wakeups

/-! # The accesses of a run

A run of the recorder together with all accesses to bytes, mutexes and the full memory. A load that
reads a pending store of its own thread counts only from the update of that store on. -/

namespace Nidhugg

/-- An access to something that is shared. -/
inductive PsoShared where
  /-- A load from memory. It reads the thread's own update if all its bytes were last written by
  updates of own stores to exactly the range of the load. -/
  | read (b : SymAddr) (ownUpdate : Bool)
  | write (b : SymAddr)
  | mutex (m : SymAddr) (destroys : Bool)
  | fullMemory
deriving DecidableEq

/-- Two accesses to a common byte or mutex, at least one of them writing it, or an access and a full
memory conflict. Operations on mutexes count as writes. -/
def PsoShared.conflicts : PsoShared → PsoShared → Bool
  | .fullMemory, _ | _, .fullMemory => true
  | .write b, .write b' | .write b, .read b' _ | .read b _, .write b' => b = b'
  | .mutex m _, .mutex m' _ => m = m'
  | _, _ => false

structure PsoLogged where
  /-- The event that makes the access. -/
  index : ℕ
  /-- The event from which on the access counts. -/
  counts : ℕ
  /-- The real thread. -/
  thread : ℕ
  access : PsoShared
deriving DecidableEq

structure PsoHistory where
  recorder : PsoRecorder
  /-- The pending stores of each real thread, with the loads that have read them early. -/
  pending : ℕ → List (AccessRange × List ℕ)
  log : List PsoLogged

namespace PsoHistory

open PsoRecorder

def initial (replay : Bool) : PsoHistory := ⟨PsoRecorder.initial replay, fun _ => [], []⟩

/-- The thread of the current event. -/
def current (h : PsoHistory) : ℕ := h.recorder.pidOf h.recorder.prefixIdx

/-- Notes that a load has read the youngest pending store to a byte. -/
def noteEarly (i : ℕ) (b : SymAddr) : List (AccessRange × List ℕ) → List (AccessRange × List ℕ)
  | [] => []
  | e :: pending =>
      if pending.any fun e => e.1.covers b then e :: noteEarly i b pending
      else if e.1.covers b then (e.1, e.2 ++ [i]) :: pending
      else e :: pending

/-- The pending stores after a call. -/
def notePending (h : PsoHistory) : PsoCall → ℕ → List (AccessRange × List ℕ)
  | .store ml => Function.update h.pending h.current (h.pending h.current ++ [(ml, [])])
  | .load ml =>
      if h.recorder.hasPendingStore h.current ml.1.addr then
        Function.update h.pending h.current
          (noteEarly h.recorder.prefixIdx ml.1.addr (h.pending h.current))
      else h.pending
  | .atomicStore ml =>
      match (h.recorder.threads h.current).owner with
      | some tipid => Function.update h.pending tipid
          ((h.pending tipid).eraseP fun e => e.1.covers ml.1.addr)
      | none => h.pending
  | _ => h.pending

/-- An access that counts at once. -/
def logged (h : PsoHistory) (access : PsoShared) : PsoLogged :=
  ⟨h.recorder.prefixIdx, h.recorder.prefixIdx, h.recorder.realThread h.current, access⟩

/-- The loads that have read a store early, once it is performed. -/
def earlyReads (h : PsoHistory) (ml : AccessRange) : List PsoLogged :=
  match (h.recorder.threads h.current).owner with
  | some tipid =>
      match (h.pending tipid).find? fun e => e.1.covers ml.1.addr with
      | some e => e.2.flatMap fun i => ml.bytes.map fun b =>
          ⟨i, h.recorder.prefixIdx, tipid, .read b false⟩
      | none => []
  | none => []

def writes (h : PsoHistory) (ml : AccessRange) : List PsoLogged :=
  ml.bytes.map fun b => h.logged (.write b)

/-- Whether all bytes of a load were last written by updates of own stores to just its range. -/
def readsOwnUpdate (h : PsoHistory) (ml : AccessRange) : Bool :=
  ml.bytes.all fun b => (h.recorder.byteInfo b).lastUpdateMl = ml.1 &&
    (h.recorder.byteInfo b).lastUpdate.any fun u =>
      (h.recorder.threads (h.recorder.pidOf u)).owner = some h.current

/-- The accesses of a load, unless it reads early. -/
def reads (h : PsoHistory) (ml : AccessRange) : List PsoLogged :=
  if h.recorder.hasPendingStore h.current ml.1.addr then []
  else ml.bytes.map fun b => h.logged (.read b (h.readsOwnUpdate ml))

/-- The accesses that count from a call on. -/
def accesses (h : PsoHistory) : PsoCall → List PsoLogged
  | .atomicStore ml | .compareExchange ml true => h.earlyReads ml ++ h.writes ml
  | .load ml | .compareExchange ml false => h.reads ml
  | .atomicRmw ml => h.reads ml ++ h.writes ml
  | .fullMemoryConflict => [h.logged .fullMemory]
  | .mutexLock m | .mutexUnlock m | .mutexTrylock m | .mutexInit m | .condAwake _ m =>
      [h.logged (.mutex m false)]
  | .mutexDestroy m => [h.logged (.mutex m true)]
  | .condWait _ m =>
      if h.recorder.condWaitAccepts h.current m then [h.logged (.mutex m false)] else []
  | _ => []

def step (h : PsoHistory) (turn : Turn) : Option PsoHistory :=
  (h.recorder.step turn).map fun s =>
    match turn, h.recorder.running with
    | .call call, .event => ⟨s, h.notePending call, h.log ++ h.accesses call⟩
    | _, _ => { h with recorder := s }

/-- The earlier of two accesses is an operation on a mutex that is destroyed before the other. -/
def Destroyed (log : List PsoLogged) (x y : PsoLogged) : Prop :=
  ∃ m destroys, x.access = .mutex m destroys ∧
    ∃ z ∈ log, z.access = .mutex m true ∧ x.index ≤ z.index ∧ z.index < y.index

/-- The later of two accesses is a load that reads its own update instead of the earlier write. -/
def Forwarded (x y : PsoLogged) : Prop := ∃ b, x.access = .write b ∧ y.access = .read b true

/-- Whether the clocks order an access by one event and a later one by another event of a different
real thread, if they conflict. -/
def OrderedPair (s : PsoRecorder) (x y : PsoLogged) : Prop :=
  x.thread ≠ y.thread → x.counts < y.index → y.counts = y.index →
    x.access.conflicts y.access = true → (s.clockOf x.index).leq (s.clockOf y.index) = true

/-- The clocks order all conflicting accesses, but for loads that read an own update, and for
mutexes that have been destroyed. -/
def Ordered (s : PsoRecorder) (log : List PsoLogged) : Prop :=
  ∀ x ∈ log, ∀ y ∈ log, ¬ Destroyed log x y → ¬ Forwarded x y → OrderedPair s x y

end PsoHistory

end Nidhugg

/-! # Tracking accesses

The builder keeps only the last accesses. Every access of the run is accounted for by one of them
that is not before it. -/

namespace Nidhugg.PsoHistory

open PsoRecorder

variable {s t u : PsoRecorder} {log batch : List PsoLogged} {pid i k : ℕ} {b m : SymAddr}
  {x y : PsoLogged} {ml : AccessRange}

/-! ### Program order -/

/-- What the records of a state satisfy. -/
structure Sound (s : PsoRecorder) : Prop where
  numbered : s.Numbered
  noted : ∀ i, s.Noted i → s.Conflicts i
  pids : ∀ i < s.events.length, s.pidOf i < s.threadCount

theorem Sound.part {wakeups : List PsoAccess} {written : List PsoLocation} (hs : Sound s)
    (hpart : Part s t pid wakeups written) : Sound t where
  numbered := hpart.numbered hs.numbered
  noted := by
    intro i hi
    cases hpart.noted i hi with
    | inl hi => exact hpart.conflicts i (hs.noted i hi)
    | inr hi => exact hi.2
  pids := by
    intro i hi
    rw [← length_pids, hpart.pids, length_pids] at hi
    rw [pidOf_congr hpart.pids]
    exact Nat.lt_of_lt_of_le (hs.pids i hi) hpart.threadCount

theorem le_prefixIdx (h : i < s.events.length) : i ≤ s.prefixIdx := by
  rw [prefixIdx]
  omega

theorem prefixIdx_lt (h : s.events ≠ []) : s.prefixIdx < s.events.length := by
  have hpos := List.length_pos_of_ne_nil h
  rw [prefixIdx]
  omega

theorem programOrder_grows (h : s.ProgramOrder) (hs : Sound s) (hgrows : Grows s t pid)
    (hpids : t.pids = s.pids) (hpid : s.pidOf s.prefixIdx = pid) : t.ProgramOrder := by
  have hlength : t.events.length = s.events.length := by
    rw [← length_pids, hpids, length_pids]
  refine ⟨?_, ?_⟩
  · intro i hi
    rw [hlength] at hi
    rw [pidOf_congr hpids]
    by_cases hcur : i = s.prefixIdx
    · subst hcur
      rw [hpid]
      refine hgrows.below ?_
      have hthread := h.thread _ hi
      rwa [hpid] at hthread
    · rw [hgrows.older i hcur]
      exact VClock.leq_trans (h.thread i hi) (hgrows.threads _ (hs.pids i hi))
  · intro i j hij hj hsame
    rw [hlength] at hj
    rw [pidOf_congr hpids, pidOf_congr hpids] at hsame
    have hbefore : s.Before i j := .inr ⟨hij, h.events i j hij hj hsame⟩
    exact (hbefore.grows hgrows (le_prefixIdx hj)).leq

/-! ### Records that account for accesses -/

/-- Whether the records keep an event on account of an access. -/
def Keeps (s : PsoRecorder) (log : List PsoLogged) (x : PsoLogged) (k : ℕ) : Prop :=
  match x.access with
  | .write b => (s.byteInfo b).lastUpdate = some k ∨ k ∈ s.lastFullMemoryConflict
  | .read b _ => (s.pidOf k = x.thread ∧
      (s.byteInfo b).lastRead.lookup (s.threads x.thread).proc = some k) ∨
        k ∈ s.lastFullMemoryConflict
  | .mutex m _ => s.lastAccess m = some k ∨ ∃ z ∈ log, z.access = .mutex m true ∧ z.index = k
  | .fullMemory => k ∈ s.lastFullMemoryConflict

def Kept (s : PsoRecorder) (log : List PsoLogged) (x : PsoLogged) : Prop :=
  ∃ k, Keeps s log x k ∧ s.Before x.index k

/-- All accesses of a run are accounted for, and they are ordered. -/
structure Tracked (s : PsoRecorder) (log : List PsoLogged) : Prop where
  sound : Sound s
  program : s.ProgramOrder
  conflicts : ∀ x ∈ log, s.Conflicts x.index
  counts : ∀ x ∈ log, x.index ≤ x.counts ∧ s.Conflicts x.counts
  thread : ∀ x ∈ log, s.realThread (s.pidOf x.index) = x.thread
  reader : ∀ x ∈ log, ∀ b own, x.access = .read b own →
    s.pidOf x.index = x.thread ∧ (s.threads x.thread).owner = none
  kept : ∀ x ∈ log, Kept s log x
  /-- An update writes all bytes of its range. -/
  ranges : ∀ b u, (s.byteInfo b).lastUpdate = some u → ∀ ml : AccessRange,
    ml.1 = (s.byteInfo b).lastUpdateMl → ∀ c ∈ ml.bytes, ∃ x ∈ log, x.index = u ∧ x.access = .write c
  ordered : Ordered s log

/-- What is kept on account of an access are events with conflicts. -/
theorem Tracked.conflicts_of_keeps (h : Tracked s log) (hkeeps : Keeps s log x k) :
    s.Conflicts k := by
  have hfull : k ∈ s.lastFullMemoryConflict → s.Conflicts k :=
    fun hk => h.sound.noted k (.inl ⟨.full, recordedAt_full hk⟩)
  cases haccess : x.access with
  | write b =>
      rw [Keeps, haccess] at hkeeps
      cases hkeeps with
      | inl hk => exact h.sound.noted k (.inl ⟨.update b, recordedAt_update hk⟩)
      | inr hk => exact hfull hk
  | read b own =>
      rw [Keeps, haccess] at hkeeps
      cases hkeeps with
      | inl hk =>
          exact h.sound.noted k (.inl ⟨.read b, recordedAt_read (List.mem_map.mpr
            ⟨_, AssocList.mem_of_lookup hk.2, rfl⟩)⟩)
      | inr hk => exact hfull hk
  | mutex m destroys =>
      rw [Keeps, haccess] at hkeeps
      cases hkeeps with
      | inl hk =>
          rw [← mutex?_getD_lastAccess] at hk
          exact h.sound.noted k (.inl ⟨.mutex m, recordedAt_mutex (.inl hk)⟩)
      | inr hk =>
          obtain ⟨z, hz, -, rfl⟩ := hk
          exact h.conflicts z hz
  | fullMemory =>
      rw [Keeps, haccess] at hkeeps
      exact hfull hkeeps

theorem Tracked.le_of_keeps (h : Tracked s log) (hkeeps : Keeps s log x k) : k ≤ s.prefixIdx :=
  le_prefixIdx (h.conflicts_of_keeps hkeeps).lt

theorem Tracked.le_prefixIdx (h : Tracked s log) (hx : x ∈ log) : x.index ≤ s.prefixIdx :=
  PsoHistory.le_prefixIdx (h.conflicts x hx).lt

/-! ### One call -/

/-- The accesses of a call by the current event of `pid`. -/
structure Batch (s t : PsoRecorder) (log batch : List PsoLogged) (pid : ℕ) : Prop where
  thread : ∀ y ∈ batch, y.thread = s.realThread pid
  counts : ∀ y ∈ batch, y.counts = s.prefixIdx ∧ y.index ≤ s.prefixIdx
  conflicts : ∀ y ∈ batch, t.Conflicts y.index ∧ t.Conflicts s.prefixIdx
  real : ∀ y ∈ batch, s.realThread (s.pidOf y.index) = y.thread
  reader : ∀ y ∈ batch, ∀ b own, y.access = .read b own →
    s.pidOf y.index = y.thread ∧ (s.threads y.thread).owner = none
  kept : ∀ y ∈ batch, Kept t (log ++ batch) y
  /-- What is kept on account of earlier accesses. -/
  keeps : ∀ x ∈ log, ∀ k, Keeps s log x k → s.Before x.index k →
    Keeps t (log ++ batch) x k ∨ ∃ k', Keeps t (log ++ batch) x k' ∧ t.Before x.index k'
  ranges : ∀ b u, (t.byteInfo b).lastUpdate = some u → ∀ ml : AccessRange,
    ml.1 = (t.byteInfo b).lastUpdateMl → ∀ c ∈ ml.bytes,
      ∃ x ∈ log ++ batch, x.index = u ∧ x.access = .write c
  /-- Earlier accesses are before the current event, if they conflict with its accesses. -/
  ordered : ∀ x ∈ log, ∀ y ∈ batch, y.index = s.prefixIdx → x.thread ≠ y.thread →
    x.access.conflicts y.access = true → ¬ Destroyed log x y → ¬ Forwarded x y →
      t.Before x.index s.prefixIdx

theorem OrderedPair.grows (h : OrderedPair s x y) (hgrows : Grows s t pid)
    (hx : x.index ≤ x.counts) (hy : y.index ≤ s.prefixIdx) : OrderedPair t x y := by
  intro hthread hlt hcounts hconflicts
  have hbefore : s.Before x.index y.index :=
    .inr ⟨Nat.lt_of_le_of_lt hx hlt, h hthread hlt hcounts hconflicts⟩
  exact (hbefore.grows hgrows hy).leq

theorem Destroyed.append (h : Destroyed log x y) : Destroyed (log ++ batch) x y := by
  obtain ⟨m, destroys, hx, z, hz, hdestroys⟩ := h
  exact ⟨m, destroys, hx, z, List.mem_append_left _ hz, hdestroys⟩

theorem Tracked.extend {wakeups : List PsoAccess} {written : List PsoLocation}
    (h : Tracked s log) (hpart : Part s t pid wakeups written)
    (hpid : s.pidOf s.prefixIdx = pid) (hbatch : Batch s t log batch pid) : Tracked t (log ++ batch) := by
  have hgrows := hpart.grows
  have hlt : ∀ i, t.Conflicts i → s.pidOf i < s.threadCount := by
    intro i hi
    refine h.sound.pids i ?_
    rw [← length_pids, ← hpart.pids, length_pids]
    exact hi.lt
  have hconflicts' : ∀ x ∈ log ++ batch, t.Conflicts x.index := by
    intro x hx
    cases List.mem_append.mp hx with
    | inl hx => exact hpart.conflicts _ (h.conflicts x hx)
    | inr hx => exact (hbatch.conflicts x hx).1
  refine ⟨h.sound.part hpart, programOrder_grows h.program h.sound hgrows hpart.pids hpid,
    hconflicts', ?_, ?_, ?_, ?_, hbatch.ranges, ?_⟩
  · intro x hx
    cases List.mem_append.mp hx with
    | inl hx => exact ⟨(h.counts x hx).1, hpart.conflicts _ (h.counts x hx).2⟩
    | inr hx =>
        obtain ⟨hcounts, hle⟩ := hbatch.counts x hx
        rw [hcounts]
        exact ⟨hle, (hbatch.conflicts x hx).2⟩
  · intro x hx
    rw [realThread, pidOf_congr hpart.pids, hpart.owner _ (hlt _ (hconflicts' x hx))]
    cases List.mem_append.mp hx with
    | inl hx => exact h.thread x hx
    | inr hx => exact hbatch.real x hx
  · intro x hx b own haccess
    have hreader : s.pidOf x.index = x.thread ∧ (s.threads x.thread).owner = none := by
      cases List.mem_append.mp hx with
      | inl hx => exact h.reader x hx b own haccess
      | inr hx => exact hbatch.reader x hx b own haccess
    have hthread := hlt _ (hconflicts' x hx)
    rw [hreader.1] at hthread
    rw [pidOf_congr hpart.pids, hpart.owner _ hthread]
    exact hreader
  · intro x hx
    cases List.mem_append.mp hx with
    | inr hx => exact hbatch.kept x hx
    | inl hx =>
        obtain ⟨k, hkeeps, hbefore⟩ := h.kept x hx
        cases hbatch.keeps x hx k hkeeps hbefore with
        | inl hkeeps' => exact ⟨k, hkeeps', hbefore.grows hgrows (h.le_of_keeps hkeeps)⟩
        | inr hkept => exact hkept
  · intro x hx y hy hdestroyed hforwarded
    cases List.mem_append.mp hx with
    | inl hx =>
        cases List.mem_append.mp hy with
        | inl hy =>
            have hpair := h.ordered x hx y hy (fun hd => hdestroyed hd.append) hforwarded
            exact hpair.grows hgrows (h.counts x hx).1 (h.le_prefixIdx hy)
        | inr hy =>
            intro hthread _ hcounts hconflict
            have hy' : y.index = s.prefixIdx := hcounts.symm.trans (hbatch.counts y hy).1
            rw [hy']
            exact (hbatch.ordered x hx y hy hy' hthread hconflict
              (fun hd => hdestroyed hd.append) hforwarded).leq
    | inr hx =>
        intro hthread hlt _ _
        rw [(hbatch.counts x hx).1] at hlt
        cases List.mem_append.mp hy with
        | inl hy => exact absurd (h.le_prefixIdx hy) (Nat.not_le_of_lt hlt)
        | inr hy => exact absurd (hbatch.counts y hy).2 (Nat.not_le_of_lt hlt)

end Nidhugg.PsoHistory
