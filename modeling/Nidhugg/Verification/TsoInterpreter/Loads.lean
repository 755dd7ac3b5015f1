import Nidhugg.Model.TsoInterpreter

/-! # Loads under TSO

A load that is not refused returns the bytes that memory will hold once the buffered stores
of its thread have been performed. -/

namespace Nidhugg

open LabelledRun Youngest

/-! ### Memory -/

namespace Memory

variable {mem : Memory} {ml : SymAddrSize} {sd : SymData}

theorem read_write_of_not_overlaps (h : ml.overlaps sd.ref.1 = false) :
    (mem.write sd).read ml = mem.read ml := by
  apply List.map_congr_left
  intro k hk
  rw [List.mem_range] at hk
  simp only [write]
  split
  case isTrue hin =>
    obtain ⟨hblock, hle⟩ := hin
    rw [List.getD_eq_getElem?_getD, List.getElem?_eq_none, Option.getD_none]
    rw [sd.block.2]
    by_contra hlt
    have hoverlaps : ml.overlaps sd.ref.1 = true := by
      simp only [SymAddrSize.overlaps, hblock, decide_true, Bool.true_and, Bool.and_eq_true,
        decide_eq_true_eq]
      omega
    rw [h] at hoverlaps
    cases hoverlaps
  case isFalse => rfl

theorem read_write_self : (mem.write sd).read sd.ref.1 = sd.block.1 := by
  apply List.ext_getElem
  · simp [read, sd.block.2]
  · intro k hk hk'
    simp [read, write, List.getElem?_eq_getElem hk']

theorem read_foldl_write {buffer : List SymData}
    (h : ∀ sd ∈ buffer, ml.overlaps sd.ref.1 = false) :
    (buffer.foldl write mem).read ml = mem.read ml := by
  induction buffer generalizing mem with
  | nil => rfl
  | cons sd buffer ih =>
      rw [List.foldl_cons, ih fun x hx => h x (List.mem_cons_of_mem _ hx)]
      exact read_write_of_not_overlaps (h sd List.mem_cons_self)

end Memory

namespace TsoState

variable {s t u : TsoState} {ml : AccessRange}

/-- Memory after all buffered stores of the thread in program order. -/
def overlay (s : TsoState) : Memory := s.thread.storeBuffer.foldl Memory.write s.mem

/-- The youngest entry that overlaps with a load. -/
def youngestOverlap (s : TsoState) (ml : AccessRange) : Option ℕ :=
  youngest? (fun sd : SymData => ml.1.overlaps sd.ref.1) s.thread.storeBuffer

/-! ### Which loads are refused -/

theorem overlaps_of_addr_eq {a b : AccessRange} (h : a.1.addr = b.1.addr) :
    a.1.overlaps b.1 = true := by
  have ha := a.2
  have hb := b.2
  simp only [SymAddrSize.overlaps, h, decide_true, Bool.true_and, Bool.and_eq_true,
    decide_eq_true_eq]
  omega

/-- A load is served either from the youngest overlapping entry or from memory. -/
theorem checkRefuse_load_eq_none (h : s.checkRefuse (.load ml) = none) :
    (∀ sd ∈ s.thread.storeBuffer, ml.1.overlaps sd.ref.1 = false) ∨
      ∃ xs sd ys, s.thread.storeBuffer = xs ++ sd :: ys ∧ sd.ref = ml ∧
        ∀ y ∈ ys, ml.1.overlaps y.ref.1 = false := by
  cases hi : s.youngestOverlap ml with
  | none => exact .inl (youngest?_eq_none_iff.mp hi)
  | some i =>
      obtain ⟨xs, sd, ys, hbuffer, hlength, -, hys⟩ := youngest?_eq_some_iff.mp hi
      refine .inr ⟨xs, sd, ys, hbuffer, ?_, hys⟩
      have hget : s.thread.storeBuffer[i]? = some sd := by simp [hbuffer, ← hlength]
      by_contra hne
      simp only [youngestOverlap] at hi
      simp [checkRefuse, hi, hget, Ne.symm hne] at h

theorem checkRefuse_load_eq_some (h : s.checkRefuse (.load ml) = some t) :
    ∃ xs sd ys, s.thread.storeBuffer = xs ++ sd :: ys ∧ s.youngestOverlap ml = some xs.length ∧
      (∀ y ∈ ys, ml.1.overlaps y.ref.1 = false) ∧ t = s.refuse ys.length := by
  obtain ⟨i, hi, h⟩ := Option.bind_eq_some_iff.mp h
  obtain ⟨sd', hget, h⟩ := Option.bind_eq_some_iff.mp h
  obtain ⟨xs, sd, ys, hbuffer, rfl, -, hys⟩ := youngest?_eq_some_iff.mp hi
  refine ⟨xs, sd, ys, hbuffer, hi, hys, ?_⟩
  split at h
  case isTrue => cases h
  case isFalse =>
    have hflush : ((s.thread.storeBuffer.length : ℤ) - xs.length - 1) = ys.length := by
      rw [hbuffer, List.length_append, List.length_cons]
      omega
    rw [hflush, Option.some.injEq] at h
    exact h.symm

theorem checkRefuse_load_of_disjoint
    (h : ∀ sd ∈ s.thread.storeBuffer, ml.1.overlaps sd.ref.1 = false) :
    s.checkRefuse (.load ml) = none := by
  simp [checkRefuse, youngest?_eq_none_iff.mpr h]

/-! ### The value of a load -/

/-- What a load that is not refused returns, and from where. -/
theorem visitLoadInst_eq (h : s.checkRefuse (.load ml) = none) :
    s.visitLoadInst ml = some (s.overlay.read ml.1,
      (youngest? (fun sd : SymData => ml.1.addr = sd.ref.1.addr) s.thread.storeBuffer).isSome) := by
  have hsame : ∀ {ys : List SymData}, (∀ y ∈ ys, ml.1.overlaps y.ref.1 = false) →
      ∀ y ∈ ys, decide (ml.1.addr = y.ref.1.addr) = false := by
    intro ys hys y hy
    apply decide_eq_false
    intro heq
    have hoverlaps := overlaps_of_addr_eq heq
    rw [hys y hy] at hoverlaps
    cases hoverlaps
  rcases checkRefuse_load_eq_none h with hnone | ⟨xs, sd, ys, hbuffer, rfl, hys⟩
  · have hyoungest := youngest?_eq_none_iff.mpr (hsame hnone)
    simp [visitLoadInst, hyoungest, overlay, Memory.read_foldl_write hnone]
  · have hyoungest : youngest? (fun sd' : SymData => decide (sd.ref.1.addr = sd'.ref.1.addr))
        s.thread.storeBuffer = some xs.length :=
      youngest?_eq_some_iff.mpr ⟨xs, sd, ys, hbuffer, rfl, by simp, hsame hys⟩
    have hget : s.thread.storeBuffer[xs.length]? = some sd := by simp [hbuffer]
    have hread : s.overlay.read sd.ref.1 = sd.block.1 := by
      rw [overlay, hbuffer, List.foldl_append, List.foldl_cons, Memory.read_foldl_write hys,
        Memory.read_write_self]
    simp [visitLoadInst, hyoungest, hget, hread]

/-! ### The two store buffers -/

/-- The trace builder and the interpreter agree on the pending stores. -/
structure Synced (s : TsoState) : Prop where
  ranges : s.builder.storeBuffer.map PendingStore.ml = s.thread.storeBuffer.map fun sd => sd.ref.1
  auxAvailable : s.builder.auxAvailable = !s.thread.storeBuffer.isEmpty

theorem initial_synced (mem : Memory) : Synced (initial mem) := ⟨rfl, rfl⟩

theorem builderLoad_ranges (prefixIdx : ℕ) :
    (s.builderLoad ml prefixIdx).builder.storeBuffer.map PendingStore.ml =
      s.builder.storeBuffer.map PendingStore.ml := by
  rw [builderLoad]
  split
  · apply List.ext_getElem?
    intro k
    simp only [PendingStore.setRowe, List.getElem?_map, List.getElem?_modify]
    cases s.builder.storeBuffer[k]? with
    | none => rfl
    | some pst =>
        simp only [Option.map_eq_map, Option.map_some]
        split <;> rfl
  · rfl

theorem builderLoad_thread (prefixIdx : ℕ) : (s.builderLoad ml prefixIdx).thread = s.thread := by
  rw [builderLoad]
  split <;> rfl

theorem builderLoad_available (prefixIdx : ℕ) :
    (s.builderLoad ml prefixIdx).builder.available = s.builder.available ∧
      (s.builderLoad ml prefixIdx).builder.auxAvailable = s.builder.auxAvailable := by
  rw [builderLoad]
  split <;> exact ⟨rfl, rfl⟩

/-- What a turn of the thread can do. -/
theorem execute_cases {prefixIdx : ℕ} {i : TsoInstruction} (h : s.execute prefixIdx i = some t) :
    s.builder.available = true ∧
      ((∃ flush, t = s.refuse flush) ∨
        (∃ sd, i = .store sd ∧ s.visit prefixIdx i = some t) ∨
        (∃ sd, i = .atomicStore sd ∧ t = { s with mem := s.mem.write sd }) ∨
        ∃ ml, i = .load ml ∧ t = s.builderLoad ml prefixIdx) := by
  rw [execute] at h
  split at h
  case isFalse => cases h
  case isTrue hav =>
    refine ⟨hav, ?_⟩
    cases i with
    | store sd => exact .inr (.inl ⟨sd, rfl, h⟩)
    | atomicStore sd =>
        cases hempty : s.thread.storeBuffer.isEmpty with
        | false =>
            simp only [checkRefuse, hempty, Bool.false_eq_true, if_false, Option.some.injEq] at h
            exact .inl ⟨0, h.symm⟩
        | true =>
            simp only [checkRefuse, hempty, if_true, visit, Bool.true_and] at h
            split at h
            · exact .inr (.inr (.inl ⟨sd, rfl, (Option.some.inj h).symm⟩))
            · cases h
    | load ml =>
        cases href : s.checkRefuse (.load ml) with
        | some s' =>
            simp only [href, Option.some.injEq] at h
            obtain ⟨-, -, ys, -, -, -, hs'⟩ := checkRefuse_load_eq_some href
            exact .inl ⟨ys.length, h ▸ hs'⟩
        | none =>
            simp only [href, visit, Option.map_eq_some_iff] at h
            obtain ⟨-, -, rfl⟩ := h
            exact .inr (.inr (.inr ⟨ml, rfl, rfl⟩))

theorem runAux_cases (h : s.runAux = some t) :
    ∃ sd rest pst builderRest, s.thread.storeBuffer = sd :: rest ∧
      s.builder.storeBuffer = pst :: builderRest ∧ t.mem = s.mem.write sd ∧
      t.thread.storeBuffer = rest ∧ t.builder.storeBuffer = builderRest ∧
      t.builder.auxAvailable = (!rest.isEmpty && !builderRest.isEmpty) ∧
      if (rest.length : ℤ) ≤ s.thread.partialBufferFlush then
        t.thread.partialBufferFlush = -1 ∧ t.builder.available = true
      else t.thread.partialBufferFlush = s.thread.partialBufferFlush ∧
        t.builder.available = s.builder.available := by
  rw [runAux] at h
  split at h
  case h_2 => cases h
  case h_1 sd rest pst builderRest hthread hbuilder =>
    refine ⟨sd, rest, pst, builderRest, hthread, hbuilder, ?_⟩
    simp only at h
    split at h
    case isFalse => cases h
    case isTrue =>
      cases h
      by_cases hflush : (rest.length : ℤ) ≤ s.thread.partialBufferFlush
      · simp [hflush]
      · simp [hflush]

theorem step_synced {turn : TsoTurn} (h : Synced s) (hstep : s.step turn = some t) : Synced t := by
  cases turn with
  | execute prefixIdx i =>
      obtain ⟨-, ⟨flush, rfl⟩ | ⟨sd, rfl, hvisit⟩ | ⟨sd, -, rfl⟩ | ⟨ml, -, rfl⟩⟩ :=
        execute_cases hstep
      · exact ⟨h.ranges, h.auxAvailable⟩
      · cases hvisit
        exact ⟨by simp [h.ranges], by simp⟩
      · exact ⟨h.ranges, h.auxAvailable⟩
      · refine ⟨?_, ?_⟩
        · rw [builderLoad_ranges, builderLoad_thread, h.ranges]
        · rw [(builderLoad_available prefixIdx).2, builderLoad_thread, h.auxAvailable]
  | runAux =>
      obtain ⟨sd, rest, pst, builderRest, hthread, hbuilder, -, hrest, hbuilderRest, haux, -⟩ :=
        runAux_cases hstep
      have hranges := h.ranges
      rw [hthread, hbuilder, List.map_cons, List.map_cons, List.cons.injEq] at hranges
      refine ⟨by rw [hrest, hbuilderRest, hranges.2], ?_⟩
      have hempty : builderRest.isEmpty = rest.isEmpty := by
        have hempty := congrArg List.isEmpty hranges.2
        rwa [List.isEmpty_map, List.isEmpty_map] at hempty
      rw [haux, hrest, hempty, Bool.and_self]
  | other sd =>
      cases hstep
      exact ⟨h.ranges, h.auxAvailable⟩

/-- `do_load` lets the load read early exactly if the interpreter finds an entry. -/
theorem Synced.rowe?_isSome (h : Synced s) :
    (PendingStore.rowe? s.builder.storeBuffer ml.1).isSome =
      (youngest? (fun sd : SymData => ml.1.addr = sd.ref.1.addr) s.thread.storeBuffer).isSome := by
  have hbuilder := youngest?_map (p := fun r : SymAddrSize => decide (r.addr = ml.1.addr))
    PendingStore.ml s.builder.storeBuffer
  have hthread := youngest?_map (p := fun r : SymAddrSize => decide (r.addr = ml.1.addr))
    (fun sd : SymData => sd.ref.1) s.thread.storeBuffer
  rw [h.ranges, hthread] at hbuilder
  rw [PendingStore.rowe?, ← hbuilder]
  simp only [eq_comm]

end TsoState

/-! ### Waiting for the buffer -/

namespace TsoTurn

def isExecute : TsoTurn → Bool
  | .execute _ _ => true
  | _ => false

def isRunAux : TsoTurn → Bool
  | .runAux => true
  | _ => false

/-- The turn puts a store that overlaps with `ml` into the buffer. -/
def issuesOverlap (ml : AccessRange) : TsoTurn → Bool
  | .execute _ (.store sd) => ml.1.overlaps sd.ref.1
  | _ => false

end TsoTurn

namespace TsoState

variable {s t u : TsoState} {ml : AccessRange}

/-- The thread waits until the `left` oldest entries of its buffer are gone. -/
structure Waits (left : ℕ) (s : TsoState) : Prop where
  bound : left ≤ s.thread.storeBuffer.length
  waiting : 0 < left → s.builder.available = false ∧
    s.thread.partialBufferFlush = s.thread.storeBuffer.length - left

/-- Performing an update brings the thread one entry closer. -/
theorem Waits.runAux {left : ℕ} (h : Waits left s) (hstep : s.runAux = some t) :
    Waits (left - 1) t := by
  obtain ⟨sd, rest, -, -, hthread, -, -, hrest, -, -, hflush⟩ := runAux_cases hstep
  have hbound := h.bound
  rw [hthread, List.length_cons] at hbound
  refine ⟨by rw [hrest]; omega, fun hleft => ?_⟩
  obtain ⟨havailable, hpartial⟩ := h.waiting (by omega)
  rw [hthread, List.length_cons] at hpartial
  rw [if_neg (by omega), havailable] at hflush
  refine ⟨hflush.2, ?_⟩
  rw [hflush.1, hpartial, hrest]
  omega

/-- The state after turns in which the thread itself does nothing. -/
theorem run_waiting {left : ℕ} {turns : List TsoTurn} (h : Waits left s)
    (havailable : s.builder.available = decide (left = 0))
    (hrun : run step s turns = some u) (hidle : ∀ turn ∈ turns, turn.isExecute = false) :
    u.thread.storeBuffer = s.thread.storeBuffer.drop (turns.countP TsoTurn.isRunAux) ∧
      (u.builder.available = true ↔ left ≤ turns.countP TsoTurn.isRunAux) := by
  induction turns generalizing s left with
  | nil =>
      cases hrun
      simp [havailable]
  | cons turn turns ih =>
      obtain ⟨v, hstep, hafter⟩ := Option.bind_eq_some_iff.mp hrun
      clear hrun
      have hidle' : ∀ x ∈ turns, x.isExecute = false :=
        fun x hx => hidle x (List.mem_cons_of_mem _ hx)
      have hturn := hidle turn List.mem_cons_self
      cases turn with
      | execute prefixIdx i => cases hturn
      | other sd =>
          cases hstep
          exact ih (s := { s with mem := s.mem.write sd }) ⟨h.bound, h.waiting⟩ havailable hafter
            hidle'
      | runAux =>
          have hwaits := h.runAux hstep
          obtain ⟨sd, rest, -, -, hthread, -, -, hrest, -, -, hflush⟩ := runAux_cases hstep
          have hv : v.builder.available = decide (left - 1 = 0) := by
            cases left with
            | zero =>
                rw [havailable] at hflush
                split at hflush
                · simpa using hflush.2
                · simpa using hflush.2
            | succ left =>
                obtain ⟨hfalse, hpartial⟩ := h.waiting (by omega)
                rw [hthread, List.length_cons] at hpartial
                rw [hfalse] at hflush
                cases left with
                | zero =>
                    rw [if_pos (by omega)] at hflush
                    simpa using hflush.2
                | succ left =>
                    rw [if_neg (by omega)] at hflush
                    simpa using hflush.2
          obtain ⟨hbuffer, hiff⟩ := ih hwaits hv hafter hidle'
          refine ⟨?_, ?_⟩
          · rw [hbuffer, hrest, hthread, List.countP_cons]
            simp [TsoTurn.isRunAux]
          · rw [hiff, List.countP_cons]
            simp only [TsoTurn.isRunAux, if_true]
            omega

/-- The entries that overlap with the load are among those that the thread waits for. -/
structure Clearing (ml : AccessRange) (left : ℕ) (s : TsoState) : Prop extends Waits left s where
  young : ∀ sd ∈ s.thread.storeBuffer.drop left, ml.1.overlaps sd.ref.1 = false

theorem Clearing.after_step {left : ℕ} {turn : TsoTurn} (h : Clearing ml left s)
    (hstep : s.step turn = some t) (hturn : turn.issuesOverlap ml = false) :
    ∃ left', Clearing ml left' t := by
  cases turn with
  | execute prefixIdx i =>
      obtain ⟨havailable, hcases⟩ := execute_cases hstep
      have hzero : left = 0 := by
        by_contra hne
        have hwaiting := (h.waiting (by omega)).1
        rw [havailable] at hwaiting
        cases hwaiting
      subst hzero
      have hyoung := h.young
      rw [List.drop_zero] at hyoung
      refine ⟨0, ⟨Nat.zero_le _, fun hlt => absurd hlt (Nat.lt_irrefl 0)⟩, ?_⟩
      rw [List.drop_zero]
      rcases hcases with ⟨flush, rfl⟩ | ⟨sd, rfl, hvisit⟩ | ⟨sd, -, rfl⟩ | ⟨ml', -, rfl⟩
      · exact hyoung
      · cases hvisit
        intro x hx
        rcases List.mem_append.mp hx with hx | hx
        · exact hyoung x hx
        · rw [List.mem_singleton] at hx
          rw [hx]
          exact hturn
      · exact hyoung
      · rw [builderLoad_thread]
        exact hyoung
  | runAux =>
      refine ⟨left - 1, h.toWaits.runAux hstep, ?_⟩
      obtain ⟨sd, rest, -, -, hthread, -, -, hrest, -, -, -⟩ := runAux_cases hstep
      intro x hx
      apply h.young
      rw [hrest] at hx
      rw [hthread]
      cases left with
      | zero => exact List.mem_cons_of_mem _ hx
      | succ left => exact hx
  | other sd =>
      cases hstep
      exact ⟨left, ⟨h.bound, h.waiting⟩, h.young⟩

theorem Clearing.after_run {left : ℕ} {turns : List TsoTurn} (h : Clearing ml left s)
    (hrun : run step s turns = some u) (hturns : ∀ turn ∈ turns, turn.issuesOverlap ml = false) :
    ∃ left', Clearing ml left' u := by
  induction turns generalizing s left with
  | nil =>
      cases hrun
      exact ⟨left, h⟩
  | cons turn turns ih =>
      rw [run_cons] at hrun
      obtain ⟨v, hstep, hrun⟩ := Option.bind_eq_some_iff.mp hrun
      obtain ⟨left', hv⟩ := h.after_step hstep (hturns turn List.mem_cons_self)
      exact ih hv hrun fun x hx => hturns x (List.mem_cons_of_mem _ hx)

/-- A thread that is available has no entry left to wait for. -/
theorem Clearing.checkRefuse {left : ℕ} (h : Clearing ml left s)
    (havailable : s.builder.available = true) : s.checkRefuse (.load ml) = none := by
  apply checkRefuse_load_of_disjoint
  cases left with
  | zero => simpa using h.young
  | succ left =>
      have hwaiting := (h.waiting (by omega)).1
      rw [havailable] at hwaiting
      cases hwaiting

theorem clearing_of_checkRefuse (h : s.checkRefuse (.load ml) = some t) :
    ∃ i, s.youngestOverlap ml = some i ∧ Clearing ml (i + 1) t ∧ t.builder.available = false ∧
      t.thread.storeBuffer = s.thread.storeBuffer := by
  obtain ⟨xs, sd, ys, hbuffer, hyoungest, hys, rfl⟩ := checkRefuse_load_eq_some h
  refine ⟨xs.length, hyoungest, ⟨⟨?_, fun _ => ⟨rfl, ?_⟩⟩, ?_⟩, rfl, rfl⟩
  · simp [refuse, hbuffer]
  · simp only [refuse, hbuffer, List.length_append, List.length_cons]
    omega
  · intro x hx
    apply hys
    simpa [refuse, hbuffer] using hx

/-! ### Main result -/

/-- What a load of a thread does in state `s`. -/
structure LoadSemantics (s : TsoState) (ml : AccessRange) : Prop where
  /-- A load that is not refused reads memory overlaid with the buffered stores. -/
  value : s.checkRefuse (.load ml) = none →
    ∃ fromBuffer, s.visitLoadInst ml = some (s.overlay.read ml.1, fromBuffer)
  /-- The trace builder takes a load for one that reads early exactly if it does. -/
  rowe : s.checkRefuse (.load ml) = none → ∀ bytes fromBuffer,
    s.visitLoadInst ml = some (bytes, fromBuffer) →
      (fromBuffer = true ↔ (PendingStore.rowe? s.builder.storeBuffer ml.1).isSome)
  /-- A refused load is enabled exactly when the youngest entry it overlaps with is gone. -/
  enabled_iff : ∀ {t}, s.checkRefuse (.load ml) = some t → ∃ i, s.youngestOverlap ml = some i ∧
    ∀ {turns u}, run step t turns = some u → (∀ turn ∈ turns, turn.isExecute = false) →
      u.thread.storeBuffer = s.thread.storeBuffer.drop (turns.countP TsoTurn.isRunAux) ∧
        (u.builder.available = true ↔ i < turns.countP TsoTurn.isRunAux)
  /-- Once enabled it is not refused again before the thread issues an overlapping store. -/
  not_refused_again : ∀ {t}, s.checkRefuse (.load ml) = some t → ∀ {turns u},
    run step t turns = some u → (∀ turn ∈ turns, turn.issuesOverlap ml = false) →
      u.builder.available = true → u.checkRefuse (.load ml) = none

/-- Loads have TSO semantics in every state of a thread. -/
theorem loadSemantics_of_run {mem : Memory} {turns : List TsoTurn}
    (hrun : run step (initial mem) turns = some s) (ml : AccessRange) : LoadSemantics s ml := by
  have hsynced : Synced s :=
    run_invariant (fun _ _ _ h hstep => step_synced h hstep) (initial_synced mem) hrun
  refine ⟨fun h => ⟨_, visitLoadInst_eq h⟩, fun h bytes fromBuffer hvisit => ?_, fun {t} h => ?_,
    fun {t} h {turns' u} hrun' hturns havailable => ?_⟩
  · rw [visitLoadInst_eq h, Option.some.injEq, Prod.mk.injEq] at hvisit
    rw [← hvisit.2, hsynced.rowe?_isSome]
  · obtain ⟨i, hi, hclearing, hfalse, hbuffer⟩ := clearing_of_checkRefuse h
    refine ⟨i, hi, fun {turns' u} hrun' hidle => ?_⟩
    rw [← hbuffer]
    exact run_waiting hclearing.toWaits (by simp [hfalse]) hrun' hidle
  · obtain ⟨i, -, hclearing, -, -⟩ := clearing_of_checkRefuse h
    obtain ⟨left, hu⟩ := hclearing.after_run hrun' hturns
    exact hu.checkRefuse havailable

/-- A store of two bytes. -/
def storeTwo : List TsoTurn :=
  [.execute 0 (.store ⟨⟨⟨⟨SymMBlock.global 0, 0⟩, 2⟩, by decide⟩, ⟨[1, 2], rfl⟩⟩)]

/-- A load of its second byte. -/
theorem loadSemantics_secondByte : ∃ s, run step (initial fun _ => 0) storeTwo = some s ∧
    LoadSemantics s ⟨⟨⟨SymMBlock.global 0, 1⟩, 1⟩, by decide⟩ := by
  obtain ⟨s, hs⟩ : ∃ s, run step (initial fun _ => 0) storeTwo = some s := ⟨_, rfl⟩
  exact ⟨s, hs, loadSemantics_of_run hs _⟩

end TsoState

end Nidhugg
