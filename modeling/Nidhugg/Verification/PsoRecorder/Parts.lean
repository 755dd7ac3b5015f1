import Nidhugg.Verification.PsoInterpreter.Buffers
import Nidhugg.Verification.PsoRecorder.Growth

/-! # The parts of a call

A call by an event adds clocks, wakes up threads, and changes the records of the last accesses or
the buffers of its thread. `Part` says what such a part may do; the parts of a call are put
together by `Part.trans`. -/

namespace Nidhugg

open ProjectedQueues

/-- The places where accesses are recorded. -/
inductive PsoLocation where
  | update (b : SymAddr)
  | read (b : SymAddr)
  | mutex (m : SymAddr)
  | signal (c : SymAddr)
  | waiters (c : SymAddr)
  | full

/-- The buffers are projections of a sequence of pending stores. -/
structure PsoBuffered (buffers : ByteBuffers PsoPendingStore) (pending : List AccessRange) :
    Prop where
  keyed : buffers.Keyed
  get : ∀ b, (buffers.get b).map PsoPendingStore.ml =
    queue (fun ml b => decide (b ∈ ml.bytes)) pending b

namespace PsoRecorder

variable {s t u : PsoRecorder} {pid p q i : ℕ} {a : PsoAccess} {loc : PsoLocation}

def RecordedAt (s : PsoRecorder) (i : ℕ) : PsoLocation → Prop
  | .update b => ∃ info, (b, info) ∈ s.accesses.mem ∧ info.lastUpdate = some i
  | .read b => ∃ info, (b, info) ∈ s.accesses.mem ∧ i ∈ info.lastRead.map Prod.snd
  | .mutex m => ∃ mutex, (m, mutex) ∈ s.accesses.mutexes ∧
      (mutex.lastAccess = some i ∨ mutex.lastLock = some i)
  | .signal c => ∃ condVar, (c, condVar) ∈ s.accesses.condVars ∧ condVar.lastSignal = some i
  | .waiters c => ∃ condVar, (c, condVar) ∈ s.accesses.condVars ∧ i ∈ condVar.waiters
  | .full => s.accesses.lastFullMemoryConflict = some i

/-- A load that read a pending store early. -/
def RoweOf (s : PsoRecorder) (i : ℕ) : Prop :=
  ∃ p b, ∃ pst ∈ (s.threads p).storeBuffers.get b, pst.lastRowe = some i

/-- All indices of events that are stored somewhere. -/
def Noted (s : PsoRecorder) (i : ℕ) : Prop := (∃ loc, s.RecordedAt i loc) ∨ s.RoweOf i

def asleep (s : PsoRecorder) (p : ℕ) : Bool := (s.threads p).sleep.sleeping

/-- Auxiliary threads have the process numbers of their real threads, which are all different. -/
structure Numbered (s : PsoRecorder) : Prop where
  owner : ∀ p q, (s.threads p).owner = some q → q < s.threadCount ∧ (s.threads q).owner = none ∧
    (s.threads p).proc = (s.threads q).proc
  proc : ∀ p q, p < s.threadCount → q < s.threadCount → (s.threads p).owner = none →
    (s.threads q).owner = none → (s.threads p).proc = (s.threads q).proc → p = q
  asleep : ∀ p, s.asleep p = true → p < s.threadCount

/-- The buffers of all real threads are projections. -/
def Projected (s : PsoRecorder) : Prop :=
  ∀ p, (s.threads p).owner = none → ∃ pending, PsoBuffered (s.threads p).storeBuffers pending

/-- What `permitted` requires of the buffers of a real thread. -/
def Ready (buffers : ByteBuffers PsoPendingStore) : PsoCall → Prop
  | .load ml => ∀ b ∈ ml.bytes, ∀ pst, (buffers.get b).getLast? = some pst → pst.ml = ml
  | .compareExchange _ _ | .atomicRmw _ | .condWait _ _ => buffers.keys = []
  | _ => True

theorem ready_of_permitted {call : PsoCall} (h : s.permitted p call = true) :
    Ready (s.threads p).storeBuffers call := by
  cases call with
  | load ml =>
      simp only [permitted, Bool.and_eq_true, List.all_eq_true, Option.all_eq_true,
        decide_eq_true_eq] at h
      exact h.2
  | compareExchange | atomicRmw | condWait =>
      simp only [permitted, Bool.and_eq_true, allBuffersEmpty, List.isEmpty_iff] at h
      exact h.2
  | _ => trivial

/-- A part of a call by the current event, which belongs to `pid`: the accesses for which it wakes
up threads, and the places that it writes. -/
structure Part (s t : PsoRecorder) (pid : ℕ) (wakeups : List PsoAccess)
    (written : List PsoLocation) : Prop where
  pids : t.pids = s.pids
  threadCount : s.threadCount ≤ t.threadCount
  running : t.running = s.running
  owner : ∀ p < s.threadCount, (t.threads p).owner = (s.threads p).owner
  proc : ∀ p < s.threadCount, (t.threads p).proc = (s.threads p).proc
  sleep : ∀ p < s.threadCount, t.asleep p = true → (t.threads p).sleep = (s.threads p).sleep
  other : ∀ p < s.threadCount, t.asleep p = true → p ≠ s.realThread pid →
    (t.threads p).storeBuffers = (s.threads p).storeBuffers ∧
      ∀ a ∈ wakeups, s.wakes pid p a = false
  recorded : ∀ i loc, t.RecordedAt i loc → s.RecordedAt i loc ∨ loc ∈ written
  noted : ∀ i, t.Noted i → s.Noted i ∨ (i = s.prefixIdx ∧ t.Conflicts i)
  conflicts : ∀ i, s.Conflicts i → t.Conflicts i
  accepts : ∀ p m, p ≠ s.pidOf s.prefixIdx → t.condWaitAccepts p m = true →
    s.condWaitAccepts p m = true
  numbered : s.Numbered → t.Numbered
  projected : s.Projected → t.Projected
  ready : pid ≠ s.realThread pid → s.Projected → ∀ call,
    Ready (s.threads (s.realThread pid)).storeBuffers call →
      Ready (t.threads (s.realThread pid)).storeBuffers call
  grows : Grows s t pid

theorem wakes_congr (hsleep : (t.threads p).sleep = (s.threads p).sleep)
    (hbuffers : (t.threads p).storeBuffers = (s.threads p).storeBuffers)
    (hp : (t.threads p).proc = (s.threads p).proc)
    (hpid : (t.threads pid).proc = (s.threads pid).proc) :
    t.wakes pid p a = s.wakes pid p a := by
  simp only [wakes, hasPendingStore, hsleep, hbuffers, hp, hpid]

theorem pidOf_congr (h : t.pids = s.pids) : t.pidOf i = s.pidOf i := by
  rw [pidOf_eq, pidOf_eq, h]

theorem prefixIdx_congr (h : t.pids = s.pids) : t.prefixIdx = s.prefixIdx := by
  rw [prefixIdx_eq, prefixIdx_eq, h]

namespace Part

variable {wakeups wakeups' : List PsoAccess} {written written' : List PsoLocation}

theorem realThread (h : Part s t pid wakeups written) (hpid : pid < s.threadCount) :
    t.realThread pid = s.realThread pid := by
  rw [PsoRecorder.realThread, PsoRecorder.realThread, h.owner pid hpid]

theorem trans (hpid : pid < s.threadCount) (h : Part s u pid wakeups written)
    (h' : Part u t pid wakeups' written') :
    Part s t pid (wakeups ++ wakeups') (written ++ written') := by
  have hcount : ∀ p < s.threadCount, p < u.threadCount :=
    fun p hp => Nat.lt_of_lt_of_le hp h.threadCount
  -- who is asleep at the end was asleep in between
  have hasleep : ∀ p < s.threadCount, t.asleep p = true → u.asleep p = true := by
    intro p hp hsleeping
    have hsleep := h'.sleep p (hcount p hp) hsleeping
    rw [PsoRecorder.asleep, hsleep] at hsleeping
    exact hsleeping
  have hreal := h.realThread hpid
  have hidx := prefixIdx_congr h.pids
  refine ⟨h'.pids.trans h.pids, Nat.le_trans h.threadCount h'.threadCount, h'.running.trans h.running,
    ?_, ?_, ?_, ?_, ?_, ?_, ?_, ?_, ?_, ?_, ?_, h.grows.trans hidx h.threadCount h'.grows⟩
  · intro p hp
    exact (h'.owner p (hcount p hp)).trans (h.owner p hp)
  · intro p hp
    exact (h'.proc p (hcount p hp)).trans (h.proc p hp)
  · intro p hp hsleeping
    exact (h'.sleep p (hcount p hp) hsleeping).trans (h.sleep p hp (hasleep p hp hsleeping))
  · intro p hp hsleeping hother
    have hu := h.other p hp (hasleep p hp hsleeping) hother
    have ht := h'.other p (hcount p hp) hsleeping (by rwa [hreal])
    refine ⟨ht.1.trans hu.1, ?_⟩
    intro a ha
    cases List.mem_append.mp ha with
    | inl ha => exact hu.2 a ha
    | inr ha =>
        rw [← wakes_congr (h.sleep p hp (hasleep p hp hsleeping)) hu.1 (h.proc p hp)
          (h.proc pid hpid)]
        exact ht.2 a ha
  · intro i loc hi
    cases h'.recorded i loc hi with
    | inl hi => exact (h.recorded i loc hi).imp_right fun hw => List.mem_append_left _ hw
    | inr hw => exact .inr (List.mem_append_right _ hw)
  · intro i hi
    cases h'.noted i hi with
    | inl hi => exact (h.noted i hi).imp_right fun hw => ⟨hw.1, h'.conflicts i hw.2⟩
    | inr hw => exact .inr ⟨hw.1.trans hidx, hw.2⟩
  · exact fun i hi => h'.conflicts i (h.conflicts i hi)
  · intro p m hp hm
    refine h.accepts p m hp (h'.accepts p m ?_ hm)
    rwa [hidx, pidOf_congr h.pids]
  · exact fun hs => h'.numbered (h.numbered hs)
  · exact fun hs => h'.projected (h.projected hs)
  · intro haux hs call hcall
    rw [← hreal] at haux hcall ⊢
    refine h'.ready haux (h.projected hs) call ?_
    rw [hreal] at haux hcall ⊢
    exact h.ready haux hs call hcall

/-- A part that changes nothing but clocks, and which events may have conflicts. -/
theorem of_eq (hpids : t.pids = s.pids) (hcount : t.threadCount = s.threadCount)
    (hthreads : t.threads = s.threads) (haccesses : t.accesses = s.accesses)
    (hrunning : t.running = s.running) (hconflicts : ∀ i, s.Conflicts i → t.Conflicts i)
    (hgrows : Grows s t pid) : Part s t pid [] [] := by
  have hasleep : ∀ p, t.asleep p = s.asleep p := by
    intro p
    rw [PsoRecorder.asleep, hthreads, PsoRecorder.asleep]
  have hrecorded : ∀ i loc, t.RecordedAt i loc → s.RecordedAt i loc := by
    intro i loc hi
    cases loc <;> simpa only [RecordedAt, haccesses] using hi
  refine ⟨hpids, Nat.le_of_eq hcount.symm, hrunning, ?_, ?_, ?_, ?_, ?_, ?_, hconflicts, ?_, ?_, ?_,
    ?_, hgrows⟩
  · intro p _
    rw [hthreads]
  · intro p _
    rw [hthreads]
  · intro p _ _
    rw [hthreads]
  · intro p _ _ _
    rw [hthreads]
    exact ⟨rfl, fun a ha => absurd ha List.not_mem_nil⟩
  · exact fun i loc hi => .inl (hrecorded i loc hi)
  · intro i hi
    apply Or.inl
    cases hi with
    | inl hi =>
        obtain ⟨loc, hi⟩ := hi
        exact .inl ⟨loc, hrecorded i loc hi⟩
    | inr hi =>
        rw [RoweOf, hthreads] at hi
        exact .inr hi
  · intro p m _ hm
    simpa only [condWaitAccepts, mutex?, haccesses, pidOf_congr hpids] using hm
  · intro hs
    refine ⟨?_, ?_, ?_⟩
    · rw [hthreads, hcount]
      exact hs.owner
    · rw [hthreads, hcount]
      exact hs.proc
    · intro p
      rw [hasleep, hcount]
      exact hs.asleep p
  · intro hs
    rw [Projected, hthreads]
    exact hs
  · intro _ _ call hcall
    rw [hthreads]
    exact hcall

theorem refl (s : PsoRecorder) : Part s s pid [] [] :=
  of_eq rfl rfl rfl rfl rfl (fun _ hi => hi) (.refl s)

theorem mono (h : Part s t pid wakeups written) (hsub : ∀ loc ∈ written, loc ∈ written') :
    Part s t pid wakeups written' :=
  { h with recorded := fun i loc hi => (h.recorded i loc hi).imp_right (hsub loc) }

theorem conflicting (s : PsoRecorder) : Part s s.conflicting pid [] [] :=
  of_eq pids_conflicting rfl rfl rfl rfl (fun _ hi => hi.modifyCurnode fun _ _ => rfl)
    (.modifyCurnode rfl (fun _ => rfl) fun _ => rfl)

theorem addClock (s : PsoRecorder) (pid : ℕ) (c : VClock) : Part s (s.addClock pid c) pid [] [] :=
  of_eq pids_addClock rfl rfl rfl rfl
    (fun _ hi => Conflicts.modifyCurnode (s := s) (fun _ h => h) hi) (.addClock s c)

theorem addThreadClock (s : PsoRecorder) (p : ℕ) (c : VClock) :
    Part s (s.addThreadClock p c) pid [] [] :=
  of_eq rfl rfl rfl rfl rfl (fun _ hi => hi) (.addThreadClock s p c)

/-- A part that repeats others which write nothing and wake up nobody. -/
theorem foldl {α : Type} (hpid : pid < s.threadCount) {f : PsoRecorder → α → PsoRecorder}
    (hf : ∀ u x, Part u (f u x) pid [] []) (xs : List α) : Part s (xs.foldl f s) pid [] [] := by
  induction xs generalizing s with
  | nil => exact refl s
  | cons x xs ih =>
      have hx := hf s x
      exact hx.trans hpid (ih (Nat.lt_of_lt_of_le hpid hx.threadCount))

theorem seeEvents (hpid : pid < s.threadCount) (seen : List ℕ) :
    Part s (s.seeEvents pid seen) pid [] [] :=
  foldl hpid (fun u i => addClock u pid (u.clockOf i)) seen

theorem asleep_wakeup : (s.wakeup pid a).asleep p = true ↔
    s.asleep p = true ∧ s.wakes pid p a = false := by
  simp only [asleep, PsoRecorder.wakeup]
  by_cases hwoken : ((s.threads p).sleep.sleeping && s.wakes pid p a) = true
  · rw [if_pos hwoken]
    rw [Bool.and_eq_true] at hwoken
    simp [PsoSleep.awake, hwoken.2]
  · rw [if_neg hwoken]
    rw [Bool.and_eq_true, not_and, Bool.not_eq_true] at hwoken
    exact ⟨fun h => ⟨h, hwoken h⟩, And.left⟩

theorem wakeup (s : PsoRecorder) (pid : ℕ) (a : PsoAccess) : Part s (s.wakeup pid a) pid [a] [] := by
  have hrecorded : ∀ i loc, (s.wakeup pid a).RecordedAt i loc → s.RecordedAt i loc := by
    intro i loc hi
    cases loc <;> exact hi
  refine ⟨pids_wakeup, Nat.le_refl _, rfl, fun _ _ => rfl, fun _ _ => rfl, ?_, ?_, ?_, ?_, ?_, ?_,
    ?_, ?_, ?_, .modifyCurnode rfl (fun _ => rfl) fun _ => rfl⟩
  · intro p _ hsleeping
    have h := asleep_wakeup.mp hsleeping
    simp [PsoRecorder.wakeup, h.2]
  · intro p _ hsleeping _
    refine ⟨rfl, ?_⟩
    intro b hb
    rw [List.mem_singleton.mp hb]
    exact (asleep_wakeup.mp hsleeping).2
  · exact fun i loc hi => .inl (hrecorded i loc hi)
  · intro i hi
    apply Or.inl
    cases hi with
    | inl hi =>
        obtain ⟨loc, hi⟩ := hi
        exact .inl ⟨loc, hrecorded i loc hi⟩
    | inr hi => exact .inr hi
  · exact fun i hi => Conflicts.modifyCurnode (s := s) (fun _ h => h) hi
  · intro p m _ hm
    simpa only [condWaitAccepts, mutex?, accesses_wakeup, pidOf_congr pids_wakeup] using hm
  · intro hs
    exact ⟨hs.owner, hs.proc, fun p hp => hs.asleep p (asleep_wakeup.mp hp).1⟩
  · exact id
  · exact fun _ _ _ h => h

/-- A part that writes to the records of the last accesses. -/
theorem of_accesses (accesses : PsoAccesses) {written : List PsoLocation}
    (hrecorded : ∀ i loc, { s with accesses := accesses }.RecordedAt i loc →
      s.RecordedAt i loc ∨ (loc ∈ written ∧ (s.RoweOf i ∨ i = s.prefixIdx ∧ s.Conflicts i)))
    (haccepts : ∀ p m, p ≠ s.pidOf s.prefixIdx →
      { s with accesses := accesses }.condWaitAccepts p m = true → s.condWaitAccepts p m = true) :
    Part s { s with accesses := accesses } pid [] written := by
  refine ⟨rfl, Nat.le_refl _, rfl, fun _ _ => rfl, fun _ _ => rfl, fun _ _ _ => rfl,
    fun _ _ _ _ => ⟨rfl, fun a ha => absurd ha List.not_mem_nil⟩, ?_, ?_, fun _ hi => hi, haccepts,
    fun hs => ⟨hs.owner, hs.proc, hs.asleep⟩, id, fun _ _ _ h => h,
    .of_clocks (fun _ => rfl) fun _ => rfl⟩
  · exact fun i loc hi => (hrecorded i loc hi).imp_right And.left
  · intro i hi
    cases hi with
    | inl hi =>
        obtain ⟨loc, hi⟩ := hi
        cases hrecorded i loc hi with
        | inl hi => exact .inl (.inl ⟨loc, hi⟩)
        | inr hi =>
            cases hi.2 with
            | inl hrowe => exact .inl (.inr hrowe)
            | inr hcur => exact .inr hcur
    | inr hi => exact .inl (.inr hi)

/-- Writing to a mutex. The last lock stays or is the current event. -/
theorem setMutex {m : SymAddr} {mutex : PsoMutex} (hconflicts : s.Conflicts s.prefixIdx)
    (haccess : mutex.lastAccess = some s.prefixIdx)
    (hlock : ∀ i, mutex.lastLock = some i →
      i = s.prefixIdx ∨ ∃ old, s.mutex? m = some old ∧ old.lastLock = some i) :
    Part s (s.setMutex m mutex) pid [] [.mutex m] := by
  refine of_accesses _ ?_ ?_
  · intro i loc hi
    cases loc with
    | mutex m' =>
        obtain ⟨mutex', hmem, hi⟩ := hi
        cases AssocList.mem_insert.mp hmem with
        | inr hmem => exact .inl ⟨mutex', hmem.1, hi⟩
        | inl heq =>
            cases heq
            cases hi with
            | inl hi =>
                rw [haccess, Option.some.injEq] at hi
                exact .inr ⟨List.mem_singleton_self _, .inr ⟨hi.symm, hi ▸ hconflicts⟩⟩
            | inr hi =>
                cases hlock i hi with
                | inl hi =>
                    exact .inr ⟨List.mem_singleton_self _, .inr ⟨hi, hi.symm ▸ hconflicts⟩⟩
                | inr hi =>
                    obtain ⟨old, hold, hi⟩ := hi
                    exact .inl ⟨old, AssocList.mem_of_lookup hold, .inr hi⟩
    | update | read | signal | waiters | full => exact .inl hi
  · intro p m' hp hm'
    simp only [condWaitAccepts, mutex?, AssocList.lookup_insert] at hm' ⊢
    by_cases heq : m' = m
    · subst heq
      rw [if_pos rfl, Option.any_some] at hm'
      obtain ⟨i, hi, hpid⟩ := (Option.any_eq_true _ _).mp hm'
      cases hlock i hi with
      | inl hcur =>
          subst hcur
          exact absurd (of_decide_eq_true hpid).symm hp
      | inr hold =>
          obtain ⟨old, hold, hi⟩ := hold
          rw [mutex?] at hold
          rw [hold, Option.any_some, hi, Option.any_some]
          exact hpid
    · rwa [if_neg heq] at hm'

theorem eraseMutex (s : PsoRecorder) (m : SymAddr) :
    Part s { s with accesses.mutexes := AssocList.erase s.accesses.mutexes m } pid [] [] := by
  apply of_accesses { s.accesses with mutexes := AssocList.erase s.accesses.mutexes m }
  · intro i loc hi
    cases loc with
    | mutex m' =>
        obtain ⟨mutex', hmem, hi⟩ := hi
        exact .inl ⟨mutex', (AssocList.mem_erase.mp hmem).1, hi⟩
    | update | read | signal | waiters | full => exact .inl hi
  · intro p m' _ hm'
    simp only [condWaitAccepts, mutex?, AssocList.lookup_erase] at hm' ⊢
    by_cases heq : m' = m
    · simp [heq] at hm'
    · rwa [if_neg heq] at hm'

/-- Writing to a condition variable. -/
theorem setCondVar {c : SymAddr} {condVar : PsoCondVar} {written : List PsoLocation}
    (hsignal : ∀ i, condVar.lastSignal = some i → s.RecordedAt i (.signal c) ∨
      (.signal c ∈ written ∧ i = s.prefixIdx ∧ s.Conflicts i))
    (hwaiters : ∀ i ∈ condVar.waiters, s.RecordedAt i (.waiters c) ∨
      (.waiters c ∈ written ∧ i = s.prefixIdx ∧ s.Conflicts i)) :
    Part s (s.setCondVar c condVar) pid [] written := by
  refine of_accesses _ ?_ ?_
  · intro i loc hi
    cases loc with
    | signal c' =>
        obtain ⟨condVar', hmem, hi⟩ := hi
        cases AssocList.mem_insert.mp hmem with
        | inr hmem => exact .inl ⟨condVar', hmem.1, hi⟩
        | inl heq =>
            cases heq
            exact (hsignal i hi).imp_right fun h => ⟨h.1, .inr h.2⟩
    | waiters c' =>
        obtain ⟨condVar', hmem, hi⟩ := hi
        cases AssocList.mem_insert.mp hmem with
        | inr hmem => exact .inl ⟨condVar', hmem.1, hi⟩
        | inl heq =>
            cases heq
            exact (hwaiters i hi).imp_right fun h => ⟨h.1, .inr h.2⟩
    | update | read | mutex | full => exact .inl hi
  · exact fun p m _ hm => hm

theorem eraseCondVar (s : PsoRecorder) (c : SymAddr) :
    Part s { s with accesses.condVars := AssocList.erase s.accesses.condVars c } pid [] [] := by
  apply of_accesses { s.accesses with condVars := AssocList.erase s.accesses.condVars c }
  · intro i loc hi
    cases loc with
    | signal c' | waiters c' =>
        obtain ⟨condVar, hmem, hi⟩ := hi
        exact .inl ⟨condVar, (AssocList.mem_erase.mp hmem).1, hi⟩
    | update | read | mutex | full => exact .inl hi
  · exact fun p m _ hm => hm

/-- Registering an access to a byte. -/
theorem writeByte {b : SymAddr} {f : PsoByteInfo → PsoByteInfo} {written : List PsoLocation}
    (hupdate : ∀ i, (f (s.byteInfo b)).lastUpdate = some i → (s.byteInfo b).lastUpdate = some i ∨
      (.update b ∈ written ∧ i = s.prefixIdx ∧ s.Conflicts i))
    (hread : ∀ i ∈ (f (s.byteInfo b)).lastRead.map Prod.snd,
      i ∈ (s.byteInfo b).lastRead.map Prod.snd ∨
        (.read b ∈ written ∧ (s.RoweOf i ∨ i = s.prefixIdx ∧ s.Conflicts i))) :
    Part s (s.writeByte b f) pid [] written := by
  refine of_accesses _ ?_ ?_
  · intro i loc hi
    cases loc with
    | update b' =>
        obtain ⟨info, hmem, hi⟩ := hi
        cases AssocList.mem_insert.mp hmem with
        | inr hmem => exact .inl ⟨info, hmem.1, hi⟩
        | inl heq =>
            cases heq
            cases hupdate i hi with
            | inr h => exact .inr ⟨h.1, .inr h.2⟩
            | inl hi =>
                refine .inl ⟨s.byteInfo b, ?_, hi⟩
                rw [byteInfo] at hi ⊢
                cases hlookup : s.accesses.mem.lookup b with
                | none => simp [hlookup, PsoByteInfo.new] at hi
                | some info => exact AssocList.mem_of_lookup hlookup
    | read b' =>
        obtain ⟨info, hmem, hi⟩ := hi
        cases AssocList.mem_insert.mp hmem with
        | inr hmem => exact .inl ⟨info, hmem.1, hi⟩
        | inl heq =>
            cases heq
            cases hread i hi with
            | inr h => exact .inr h
            | inl hi =>
                refine .inl ⟨s.byteInfo b, ?_, hi⟩
                rw [byteInfo] at hi ⊢
                cases hlookup : s.accesses.mem.lookup b with
                | none => simp [hlookup, PsoByteInfo.new] at hi
                | some info => exact AssocList.mem_of_lookup hlookup
    | mutex | signal | waiters | full => exact .inl hi
  · exact fun p m _ hm => hm

/-! ### Threads and buffers -/

/-- A part that changes the buffers of the real thread of the current event. -/
theorem modifyBuffers {buffers : ByteBuffers PsoPendingStore} {auxs : List (SymAddr × ℕ)}
    (hrowe : ∀ b, ∀ pst ∈ buffers.get b, ∀ i, pst.lastRowe = some i →
      s.RoweOf i ∨ (i = s.prefixIdx ∧ s.Conflicts i))
    (hprojected : ∀ pending, PsoBuffered (s.threads (s.realThread pid)).storeBuffers pending →
      ∃ pending', PsoBuffered buffers pending')
    (hready : pid ≠ s.realThread pid → ∀ pending,
      PsoBuffered (s.threads (s.realThread pid)).storeBuffers pending → ∀ call,
        Ready (s.threads (s.realThread pid)).storeBuffers call → Ready buffers call)
    (howner : s.Projected → (s.threads (s.realThread pid)).owner = none) :
    Part s (s.modifyThread (s.realThread pid) fun t =>
      { t with auxs := auxs, storeBuffers := buffers }) pid [] [] := by
  let t := s.modifyThread (s.realThread pid) fun t =>
    { t with auxs := auxs, storeBuffers := buffers }
  have hself : t.threads (s.realThread pid) =
      { s.threads (s.realThread pid) with auxs := auxs, storeBuffers := buffers } :=
    Function.update_self ..
  have hother : ∀ p, p ≠ s.realThread pid → t.threads p = s.threads p :=
    fun p hp => Function.update_of_ne hp ..
  have hfields : ∀ p, (t.threads p).owner = (s.threads p).owner ∧
      (t.threads p).proc = (s.threads p).proc ∧ (t.threads p).sleep = (s.threads p).sleep := by
    intro p
    by_cases hp : p = s.realThread pid
    · rw [hp, hself]
      exact ⟨rfl, rfl, rfl⟩
    · rw [hother p hp]
      exact ⟨rfl, rfl, rfl⟩
  refine ⟨rfl, Nat.le_refl _, rfl, fun p _ => (hfields p).1, fun p _ => (hfields p).2.1,
    fun p _ _ => (hfields p).2.2, ?_, fun _ _ hi => .inl (by cases ‹PsoLocation› <;> exact hi), ?_,
    fun _ hi => hi, fun _ _ _ hm => hm, ?_, ?_, ?_, .of_clocks (fun _ => rfl) fun _ => rfl⟩
  · intro p _ _ hp
    exact ⟨congrArg PsoRecordedThread.storeBuffers (hother p hp),
      fun a ha => absurd ha List.not_mem_nil⟩
  · intro i hi
    cases hi with
    | inl hi =>
        obtain ⟨loc, hi⟩ := hi
        exact .inl (.inl ⟨loc, by cases loc <;> exact hi⟩)
    | inr hi =>
        obtain ⟨p, b, pst, hmem, hi⟩ := hi
        by_cases hp : p = s.realThread pid
        · subst hp
          rw [hself] at hmem
          exact (hrowe b pst hmem i hi).imp_left Or.inr
        · rw [hother p hp] at hmem
          exact .inl (.inr ⟨p, b, pst, hmem, hi⟩)
  · intro hs
    refine ⟨?_, ?_, ?_⟩
    · intro p q hq
      rw [(hfields p).1] at hq
      rw [(hfields p).2.1, (hfields q).1, (hfields q).2.1]
      exact hs.owner p q hq
    · intro p q hp hq
      rw [(hfields p).1, (hfields q).1, (hfields p).2.1, (hfields q).2.1]
      exact hs.proc p q hp hq
    · intro p hp
      rw [PsoRecorder.asleep, (hfields p).2.2] at hp
      exact hs.asleep p hp
  · intro hs p hp
    by_cases heq : p = s.realThread pid
    · subst heq
      obtain ⟨pending, hpending⟩ := hs _ (howner hs)
      rw [hself]
      exact hprojected pending hpending
    · rw [hother p heq] at hp ⊢
      exact hs p hp
  · intro hne hs call hcall
    obtain ⟨pending, hpending⟩ := hs _ (howner hs)
    rw [hself]
    exact hready hne pending hpending call hcall

/-- A new thread that has no buffered stores. -/
theorem addThread {thread : PsoRecordedThread} {clock : VClock} (hpid : pid < s.threadCount)
    (hbuffers : thread.storeBuffers = .empty)
    (howner : ∀ q, thread.owner = some q → q < s.threadCount ∧ (s.threads q).owner = none ∧
      thread.proc = (s.threads q).proc)
    (hproc : thread.owner = none → ∀ q < s.threadCount, (s.threads q).proc ≠ thread.proc) :
    Part s (s.addThread thread clock) pid [] [] := by
  have hself : (s.addThread thread clock).threads s.threadCount = thread :=
    Function.update_self ..
  have hother : ∀ p, p ≠ s.threadCount → (s.addThread thread clock).threads p = s.threads p :=
    fun p hp => Function.update_of_ne hp ..
  have hold : ∀ p < s.threadCount, (s.addThread thread clock).threads p = s.threads p :=
    fun p hp => hother p (Nat.ne_of_lt hp)
  refine ⟨rfl, Nat.le_succ _, rfl, ?_, ?_, ?_, ?_,
    fun _ _ hi => .inl (by cases ‹PsoLocation› <;> exact hi), ?_, fun _ hi => hi,
    fun _ _ _ hm => hm, ?_, ?_, ?_, ?_⟩
  · intro p hp
    rw [hold p hp]
  · intro p hp
    rw [hold p hp]
  · intro p hp _
    rw [hold p hp]
  · intro p hp _ _
    rw [hold p hp]
    exact ⟨rfl, fun a ha => absurd ha List.not_mem_nil⟩
  · intro i hi
    cases hi with
    | inl hi =>
        obtain ⟨loc, hi⟩ := hi
        exact .inl (.inl ⟨loc, by cases loc <;> exact hi⟩)
    | inr hi =>
        obtain ⟨p, b, pst, hmem, hi⟩ := hi
        by_cases hp : p = s.threadCount
        · subst hp
          rw [hself, hbuffers] at hmem
          exact absurd hmem List.not_mem_nil
        · rw [hother p hp] at hmem
          exact .inl (.inr ⟨p, b, pst, hmem, hi⟩)
  · intro hs
    refine ⟨?_, ?_, ?_⟩
    · intro p q hq
      have hbound : q < s.threadCount ∧ (s.threads q).owner = none ∧
          ((s.addThread thread clock).threads p).proc = (s.threads q).proc := by
        by_cases hp : p = s.threadCount
        · subst hp
          rw [hself] at hq ⊢
          exact howner q hq
        · rw [hother p hp] at hq ⊢
          exact hs.owner p q hq
      rw [hold q hbound.1]
      exact ⟨Nat.lt_succ_of_lt hbound.1, hbound.2⟩
    · intro p q hp hq hpnone hqnone heq
      have hcase : ∀ r, r < (s.addThread thread clock).threadCount →
          r = s.threadCount ∨ r < s.threadCount := by
        intro r hr
        have hr' : r < s.threadCount + 1 := hr
        omega
      cases hcase p hp with
      | inl hp =>
          cases hcase q hq with
          | inl hq => rw [hp, hq]
          | inr hq =>
              subst hp
              rw [hself] at hpnone heq
              rw [hold q hq] at heq
              exact absurd heq.symm (hproc hpnone q hq)
      | inr hp =>
          rw [hold p hp] at hpnone heq
          cases hcase q hq with
          | inl hq =>
              subst hq
              rw [hself] at hqnone heq
              exact absurd heq (hproc hqnone p hp)
          | inr hq =>
              rw [hold q hq] at hqnone heq
              exact hs.proc p q hp hq hpnone hqnone heq
    · intro p hp
      by_cases heq : p = s.threadCount
      · rw [heq]
        exact Nat.lt_succ_self _
      · rw [PsoRecorder.asleep, hother p heq] at hp
        exact Nat.lt_succ_of_lt (hs.asleep p hp)
  · intro hs p hp
    by_cases heq : p = s.threadCount
    · subst heq
      rw [hself, hbuffers]
      exact ⟨[], ByteBuffers.keyed_empty, fun _ => rfl⟩
    · rw [hother p heq] at hp ⊢
      exact hs p hp
  · intro hne hs call hcall
    have hne' : s.realThread pid ≠ s.threadCount ∨ s.realThread pid = s.threadCount :=
      (ne_or_eq _ _)
    cases hne' with
    | inl hne' => rwa [hother _ hne']
    | inr heq =>
        rw [heq, hself, hbuffers]
        cases call with
        | load ml =>
            intro b _ pst hpst
            cases hpst
        | compareExchange | atomicRmw | condWait => rfl
        | _ => trivial
  · have hclocks : ∀ p < s.threadCount,
        (s.addThread thread clock).threadClock p = s.threadClock p :=
      fun p hp => Function.update_of_ne (Nat.ne_of_lt hp) ..
    refine ⟨fun _ _ => rfl, VClock.leq_refl _, ?_, ?_⟩
    · intro p hp
      rw [hclocks p hp]
      exact VClock.leq_refl _
    · rw [hclocks pid hpid]
      exact id

end Part

end PsoRecorder

end Nidhugg
