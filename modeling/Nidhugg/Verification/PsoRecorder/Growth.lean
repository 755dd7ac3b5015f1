import Nidhugg.Model.PsoRecorder
import Nidhugg.Verification.VClock.LatticeLaws

/-! # What the parts of a call leave unchanged -/

namespace Nidhugg.PsoRecorder

variable {s t : PsoRecorder} {pid p i : ℕ} {c : VClock} {a : PsoAccess} {b m : SymAddr}

/-- The threads of the events. -/
def pids (s : PsoRecorder) : List ℕ := s.events.map fun e => e.iid.pid

theorem length_pids : s.pids.length = s.events.length := List.length_map _

theorem prefixIdx_eq : s.prefixIdx = s.pids.length - 1 := by
  rw [prefixIdx, length_pids]

theorem events_ne_nil (h : t.pids = s.pids) (hs : s.events ≠ []) : t.events ≠ [] := by
  intro hnil
  have hlength := congrArg List.length h
  rw [length_pids, length_pids, hnil] at hlength
  exact hs (List.length_eq_zero_iff.mp hlength.symm)

theorem pidOf_eq : s.pidOf i = (s.pids[i]?).getD 0 := by
  rw [pidOf, pids, List.getElem?_map]

/-- An event that is recorded as one that may have conflicts. -/
def Conflicts (s : PsoRecorder) (i : ℕ) : Prop := ∃ e, s.events[i]? = some e ∧ e.mayConflict = true

theorem Conflicts.lt (h : s.Conflicts i) : i < s.events.length := by
  obtain ⟨e, he, -⟩ := h
  exact (List.getElem?_eq_some_iff.mp he).1

/-! ### The current event -/

theorem pids_modifyCurnode {f : PsoEvent → PsoEvent} (h : ∀ e, (f e).iid = e.iid) :
    (s.modifyCurnode f).pids = s.pids := by
  apply List.ext_getElem?
  intro j
  simp only [pids, modifyCurnode, List.getElem?_map, List.getElem?_modify, Option.map_eq_map,
    Option.map_map]
  congr 1
  funext e
  dsimp only [Function.comp_apply]
  split
  · rw [h]
  · rfl

@[simp]
theorem prefixIdx_modifyCurnode {f : PsoEvent → PsoEvent} :
    (s.modifyCurnode f).prefixIdx = s.prefixIdx := by
  simp [prefixIdx, modifyCurnode]

theorem Conflicts.modifyCurnode {f : PsoEvent → PsoEvent}
    (h : ∀ e, e.mayConflict = true → (f e).mayConflict = true) (hi : s.Conflicts i) :
    (s.modifyCurnode f).Conflicts i := by
  obtain ⟨e, he, hconflict⟩ := hi
  refine ⟨if s.prefixIdx = i then f e else e, ?_, ?_⟩
  · rw [PsoRecorder.modifyCurnode]
    simp only [List.getElem?_modify, he, Option.map_eq_map, Option.map_some]
  · split
    · exact h e hconflict
    · exact hconflict

theorem threads_modifyThread_self {f : PsoRecordedThread → PsoRecordedThread} :
    (s.modifyThread pid f).threads pid = f (s.threads pid) := Function.update_self ..

theorem threads_modifyThread_of_ne {f : PsoRecordedThread → PsoRecordedThread} (h : p ≠ pid) :
    (s.modifyThread pid f).threads p = s.threads p := Function.update_of_ne h ..

@[simp]
theorem pids_conflicting : s.conflicting.pids = s.pids := pids_modifyCurnode fun _ => rfl

@[simp]
theorem accesses_conflicting : s.conflicting.accesses = s.accesses := rfl

@[simp]
theorem pids_addClock : (s.addClock pid c).pids = s.pids :=
  pids_modifyCurnode (s := s) fun _ => rfl

@[simp]
theorem threads_addClock : (s.addClock pid c).threads = s.threads := rfl

@[simp]
theorem accesses_addClock : (s.addClock pid c).accesses = s.accesses := rfl

@[simp]
theorem pids_wakeup : (s.wakeup pid a).pids = s.pids :=
  pids_modifyCurnode (s := s) fun _ => rfl

@[simp]
theorem accesses_wakeup : (s.wakeup pid a).accesses = s.accesses := rfl

theorem seeEvents_cons (j : ℕ) (seen : List ℕ) :
    s.seeEvents pid (j :: seen) = (s.addClock pid (s.clockOf j)).seeEvents pid seen := rfl

@[simp]
theorem pids_seeEvents (seen : List ℕ) : (s.seeEvents pid seen).pids = s.pids := by
  induction seen generalizing s with
  | nil => rfl
  | cons j seen ih => rw [seeEvents_cons, ih, pids_addClock]

@[simp]
theorem threads_seeEvents (seen : List ℕ) : (s.seeEvents pid seen).threads = s.threads := by
  induction seen generalizing s with
  | nil => rfl
  | cons j seen ih => rw [seeEvents_cons, ih, threads_addClock]

@[simp]
theorem threadCount_seeEvents (seen : List ℕ) :
    (s.seeEvents pid seen).threadCount = s.threadCount := by
  induction seen generalizing s with
  | nil => rfl
  | cons j seen ih =>
      rw [seeEvents_cons, ih]
      rfl

@[simp]
theorem accesses_seeEvents (seen : List ℕ) : (s.seeEvents pid seen).accesses = s.accesses := by
  induction seen generalizing s with
  | nil => rfl
  | cons j seen ih => rw [seeEvents_cons, ih, accesses_addClock]

/-- The current event has conflicts from now on. -/
theorem conflicts_conflicting (h : s.events ≠ []) : s.conflicting.Conflicts s.prefixIdx := by
  have hlt : s.prefixIdx < s.events.length := by
    have hpos := List.length_pos_of_ne_nil h
    rw [prefixIdx]
    omega
  refine ⟨{ s.events[s.prefixIdx] with mayConflict := true }, ?_, rfl⟩
  simp [conflicting, modifyCurnode, List.getElem?_eq_getElem hlt]

end Nidhugg.PsoRecorder

/-! # Growing clocks

A call only lets the clock of the current event and the clocks of threads grow. So the order of two
events by their clocks stays as it is once it is established. -/

namespace Nidhugg.PsoRecorder

variable {s t u : PsoRecorder} {pid p i j k : ℕ} {c : VClock} {a : PsoAccess}

/-- What a part of a call by `pid` does to the clocks. -/
structure Grows (s t : PsoRecorder) (pid : ℕ) : Prop where
  older : ∀ i, i ≠ s.prefixIdx → t.clockOf i = s.clockOf i
  current : (s.clockOf s.prefixIdx).leq (t.clockOf s.prefixIdx) = true
  threads : ∀ p < s.threadCount, (s.threadClock p).leq (t.threadClock p) = true
  below : (s.clockOf s.prefixIdx).leq (s.threadClock pid) = true →
    (t.clockOf s.prefixIdx).leq (t.threadClock pid) = true

/-! ### The clock of the current event -/

theorem clockOf_modifyCurnode_of_ne {f : PsoEvent → PsoEvent} (h : i ≠ s.prefixIdx) :
    (s.modifyCurnode f).clockOf i = s.clockOf i := by
  rw [clockOf, modifyCurnode, List.getElem?_modify_ne _ _ (Ne.symm h), clockOf]

theorem clockOf_modifyCurnode {f : PsoEvent → PsoEvent} {g : VClock → VClock}
    (hf : ∀ e, (f e).clock = g e.clock) (hevents : s.events ≠ []) :
    (s.modifyCurnode f).clockOf s.prefixIdx = g (s.clockOf s.prefixIdx) := by
  have hlt : s.prefixIdx < s.events.length := by
    have hpos := List.length_pos_of_ne_nil hevents
    rw [prefixIdx]
    omega
  rw [clockOf, modifyCurnode, List.getElem?_modify_eq, clockOf, List.getElem?_eq_getElem hlt]
  simp [hf]

theorem clockOf_of_events_eq_nil (hevents : s.events = []) : s.clockOf i = .empty := by
  rw [clockOf, hevents, List.getElem?_nil]
  rfl

theorem threadClock_addThreadClock : (s.addThreadClock p c).threadClock =
    Function.update s.threadClock p ((s.threadClock p).addAssign c) := rfl

namespace Grows

theorem refl (s : PsoRecorder) : Grows s s pid :=
  ⟨fun _ _ => rfl, VClock.leq_refl _, fun _ _ => VClock.leq_refl _, id⟩

theorem trans (h : Grows s u pid) (hidx : u.prefixIdx = s.prefixIdx)
    (hcount : s.threadCount ≤ u.threadCount) (h' : Grows u t pid) : Grows s t pid where
  older := by
    intro i hi
    exact (h'.older i (by rwa [hidx])).trans (h.older i hi)
  current := by
    have hcurrent := h'.current
    rw [hidx] at hcurrent
    exact VClock.leq_trans h.current hcurrent
  threads := fun p hp =>
    VClock.leq_trans (h.threads p hp) (h'.threads p (Nat.lt_of_lt_of_le hp hcount))
  below := by
    have hbelow := h'.below
    rw [hidx] at hbelow
    exact fun hs => hbelow (h.below hs)

/-- A part that changes no clocks. -/
theorem of_clocks (hclocks : ∀ i, t.clockOf i = s.clockOf i)
    (hthreads : ∀ p, t.threadClock p = s.threadClock p) : Grows s t pid where
  older := fun i _ => hclocks i
  current := by
    rw [hclocks]
    exact VClock.leq_refl _
  threads := by
    intro p _
    rw [hthreads]
    exact VClock.leq_refl _
  below := by
    rw [hclocks, hthreads]
    exact id

theorem of_events (pid : ℕ) (hevents : t.events = s.events)
    (hthreads : ∀ p, t.threadClock p = s.threadClock p) : Grows s t pid := by
  refine .of_clocks ?_ hthreads
  intro i
  rw [clockOf, clockOf, hevents]

/-- A part that changes something else about the current event. -/
theorem modifyCurnode {f : PsoEvent → PsoEvent} (hevents : t.events = (s.modifyCurnode f).events)
    (hf : ∀ e, (f e).clock = e.clock)
    (hthreads : ∀ p, t.threadClock p = s.threadClock p) : Grows s t pid := by
  have hclocks : ∀ i, t.clockOf i = s.clockOf i := by
    intro i
    rw [clockOf, hevents]
    change (s.modifyCurnode f).clockOf i = _
    by_cases hi : i = s.prefixIdx
    · subst hi
      cases hs : s.events with
      | nil =>
          rw [clockOf_of_events_eq_nil hs, clockOf_of_events_eq_nil]
          rw [PsoRecorder.modifyCurnode, hs]
          exact List.modify_nil ..
      | cons e events =>
          exact clockOf_modifyCurnode (g := id) hf (by rw [hs]; exact List.cons_ne_nil _ _)
    · exact clockOf_modifyCurnode_of_ne hi
  exact .of_clocks hclocks hthreads

theorem addThreadClock (s : PsoRecorder) (p : ℕ) (c : VClock) :
    Grows s (s.addThreadClock p c) pid := by
  have hthreads : ∀ q, (s.threadClock q).leq ((s.addThreadClock p c).threadClock q) = true := by
    intro q
    by_cases hq : q = p
    · subst hq
      rw [threadClock_addThreadClock, Function.update_self]
      exact VClock.leq_addAssign_left ..
    · rw [threadClock_addThreadClock, Function.update_of_ne hq]
      exact VClock.leq_refl _
  exact ⟨fun _ _ => rfl, VClock.leq_refl _, fun q _ => hthreads q,
    fun hs => VClock.leq_trans hs (hthreads pid)⟩

/-- A part that lets the clock of the current event grow, and then adds all of it to the thread. -/
theorem modifyCurnode_addThreadClock {f : PsoEvent → PsoEvent} {g : VClock → VClock} {c : VClock}
    (hf : ∀ e, (f e).clock = g e.clock) (hg : ∀ d : VClock, d.leq (g d) = true)
    (hc : s.events ≠ [] → (s.clockOf s.prefixIdx).leq (s.threadClock pid) = true →
      (g (s.clockOf s.prefixIdx)).leq ((s.threadClock pid).addAssign c) = true) :
    Grows s ((s.modifyCurnode f).addThreadClock pid c) pid := by
  have hthread : Grows (s.modifyCurnode f) ((s.modifyCurnode f).addThreadClock pid c) pid :=
    addThreadClock ..
  refine ⟨fun i hi => clockOf_modifyCurnode_of_ne hi, ?_, hthread.threads, ?_⟩
  · change VClock.leq _ ((s.modifyCurnode f).clockOf s.prefixIdx) = true
    cases hs : s.events with
    | nil =>
        rw [clockOf_of_events_eq_nil hs]
        exact VClock.empty_leq _
    | cons e events =>
        rw [clockOf_modifyCurnode hf (by rw [hs]; exact List.cons_ne_nil _ _)]
        exact hg _
  · intro hbelow
    change VClock.leq ((s.modifyCurnode f).clockOf s.prefixIdx) _ = true
    cases hs : s.events with
    | nil =>
        rw [clockOf_of_events_eq_nil]
        · exact VClock.empty_leq _
        · rw [PsoRecorder.modifyCurnode, hs]
          exact List.modify_nil ..
    | cons e events =>
        have hevents : s.events ≠ [] := by
          rw [hs]
          exact List.cons_ne_nil _ _
        rw [clockOf_modifyCurnode hf hevents, threadClock_addThreadClock, Function.update_self]
        exact hc hevents hbelow

theorem addClock (s : PsoRecorder) (c : VClock) : Grows s (s.addClock pid c) pid := by
  apply modifyCurnode_addThreadClock (fun _ => rfl) fun d => VClock.leq_addAssign_left d c
  intro _ hbelow
  exact VClock.addAssign_leq (VClock.leq_trans hbelow (VClock.leq_addAssign_left ..))
    (VClock.leq_addAssign_right ..)

theorem seeEvents (s : PsoRecorder) (seen : List ℕ) : Grows s (s.seeEvents pid seen) pid := by
  induction seen generalizing s with
  | nil => exact refl s
  | cons j seen ih =>
      rw [seeEvents_cons]
      have hclock : Grows s (s.addClock pid (s.clockOf j)) pid := addClock s _
      refine hclock.trans ?_ (Nat.le_refl _) (ih _)
      rw [prefixIdx_eq, pids_addClock, prefixIdx_eq]

end Grows

/-! ### The order of the events -/

/-- Two events are the same, or ordered by their indices and their clocks. -/
def Before (s : PsoRecorder) (i j : ℕ) : Prop :=
  i = j ∨ (i < j ∧ (s.clockOf i).leq (s.clockOf j) = true)

namespace Before

theorem trans (h : s.Before i j) (h' : s.Before j k) : s.Before i k := by
  cases h with
  | inl heq => exact heq ▸ h'
  | inr h =>
      cases h' with
      | inl heq => exact .inr (heq ▸ h)
      | inr h' => exact .inr ⟨Nat.lt_trans h.1 h'.1, VClock.leq_trans h.2 h'.2⟩

theorem leq (h : s.Before i j) : (s.clockOf i).leq (s.clockOf j) = true := by
  cases h with
  | inl heq =>
      rw [heq]
      exact VClock.leq_refl _
  | inr h => exact h.2

theorem le (h : s.Before i j) : i ≤ j := by
  cases h with
  | inl heq => exact Nat.le_of_eq heq
  | inr h => exact Nat.le_of_lt h.1

/-- The order stays when the clock of the current event grows. -/
theorem grows (h : s.Before i j) (hgrows : Grows s t pid) (hj : j ≤ s.prefixIdx) :
    t.Before i j := by
  cases h with
  | inl heq => exact .inl heq
  | inr h =>
      refine .inr ⟨h.1, ?_⟩
      rw [hgrows.older i (Nat.ne_of_lt (Nat.lt_of_lt_of_le h.1 hj))]
      by_cases hcur : j = s.prefixIdx
      · subst hcur
        exact VClock.leq_trans h.2 hgrows.current
      · rw [hgrows.older j hcur]
        exact h.2

end Before

theorem prefixIdx_addClock : (s.addClock pid c).prefixIdx = s.prefixIdx := by
  rw [prefixIdx_eq, pids_addClock, prefixIdx_eq]

/-- The events that the current event sees are before it. -/
theorem before_seeEvents {seen : List ℕ} (hevents : s.events ≠ []) (hi : i ∈ seen)
    (hle : i ≤ s.prefixIdx) : (s.seeEvents pid seen).Before i s.prefixIdx := by
  induction seen generalizing s with
  | nil => exact absurd hi List.not_mem_nil
  | cons j seen ih =>
      rw [seeEvents_cons]
      have hidx : (s.addClock pid (s.clockOf j)).prefixIdx = s.prefixIdx := prefixIdx_addClock
      cases List.mem_cons.mp hi with
      | inr hi =>
          have hevents' : (s.addClock pid (s.clockOf j)).events ≠ [] :=
            events_ne_nil pids_addClock hevents
          rw [← hidx]
          exact ih hevents' hi (by rwa [hidx])
      | inl heq =>
          subst heq
          refine Before.grows ?_ (Grows.seeEvents _ seen) (Nat.le_of_eq hidx.symm)
          cases Nat.eq_or_lt_of_le hle with
          | inl heq => exact .inl heq
          | inr hlt =>
              refine .inr ⟨hlt, ?_⟩
              have hgrows : Grows s (s.addClock pid (s.clockOf i)) pid := .addClock s _
              rw [hgrows.older i (Nat.ne_of_lt hlt)]
              have hclock : (s.addClock pid (s.clockOf i)).clockOf s.prefixIdx =
                  (s.clockOf s.prefixIdx).addAssign (s.clockOf i) :=
                clockOf_modifyCurnode (g := fun d => d.addAssign (s.clockOf i)) (fun _ => rfl)
                  hevents
              rw [hclock]
              exact VClock.leq_addAssign_right ..

/-- The clocks of the events of one thread grow, and the thread's own clock is above them. -/
structure ProgramOrder (s : PsoRecorder) : Prop where
  thread : ∀ i < s.events.length, (s.clockOf i).leq (s.threadClock (s.pidOf i)) = true
  events : ∀ i j, i < j → j < s.events.length → s.pidOf i = s.pidOf j →
    (s.clockOf i).leq (s.clockOf j) = true

theorem ProgramOrder.before (h : s.ProgramOrder) (hij : i ≤ j) (hj : j < s.events.length)
    (hpid : s.pidOf i = s.pidOf j) : s.Before i j := by
  cases Nat.eq_or_lt_of_le hij with
  | inl heq => exact .inl heq
  | inr hlt => exact .inr ⟨hlt, h.events i j hlt hj hpid⟩

end Nidhugg.PsoRecorder
