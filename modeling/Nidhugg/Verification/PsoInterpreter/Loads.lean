import Nidhugg.Verification.PsoInterpreter.Buffers

/-! # Loads under PSO

A load that is not refused returns the bytes that memory will hold once the pending stores of its
thread have been performed in program order. -/

namespace Nidhugg

open LabelledRun ProjectedQueues

namespace PsoState

variable {s t u : PsoState} {pending : List SymData} {ml : AccessRange}

/-! ### Values -/

/-- The youngest pending store that overlaps with a load that is not refused. -/
theorem Synced.readable_cases (h : Synced s pending) (hreadable : s.thread.readable ml = true) :
    (∀ sd ∈ pending, ml.1.overlaps sd.ref.1 = false) ∨
      ∃ front sd back, pending = front ++ sd :: back ∧ sd.ref = ml ∧
        ∀ y ∈ back, ml.1.overlaps y.ref.1 = false := by
  have hdisjoint : ∀ sd : SymData, (∀ b ∈ ml.bytes, sd.covers b = false) →
      ml.1.overlaps sd.ref.1 = false := by
    intro sd hsd
    rw [← Bool.not_eq_true, AccessRange.overlaps_iff]
    rintro ⟨b, hb, hb'⟩
    exact SymData.covers_eq_false.mp (hsd b hb) hb'
  by_cases hex : ∃ sd ∈ pending, ∃ b ∈ ml.bytes, sd.covers b = true
  · right
    obtain ⟨front, sd, back, hpending, ⟨b, hb, hcovers⟩, hback⟩ := exists_last hex
    refine ⟨front, sd, back, hpending, ?_, fun y hy => hdisjoint y (hback y hy)⟩
    have hlast : (queue SymData.covers pending b).getLast? = some sd := by
      rw [hpending]
      exact getLast?_queue (fun y hy => hback y hy b hb) hcovers
    have hrange := List.all_eq_true.mp hreadable b hb
    rw [h.thread, List.getLast?_map, hlast, Option.map_some, Option.all_some,
      decide_eq_true_eq] at hrange
    exact hrange
  · left
    intro sd hsd
    apply hdisjoint
    intro b hb
    rw [← Bool.not_eq_true]
    intro hcovers
    exact hex ⟨sd, hsd, b, hb, hcovers⟩

theorem Synced.mem_keys_iff (h : Synced s pending) {b : SymAddr} :
    b ∈ s.thread.storeBuffers.keys ↔ ∃ sd ∈ pending, b ∈ sd.ref.bytes := by
  rw [h.threadKeys, h.thread, ne_eq, List.map_eq_nil_iff, queue, List.filter_eq_nil_iff]
  simp [SymData.covers_iff]

/-- A load from memory. -/
theorem Synced.visitLoadInst_of_disjoint (h : Synced s pending)
    (hdisjoint : ∀ sd ∈ pending, ml.1.overlaps sd.ref.1 = false) :
    s.visitLoadInst ml = some (s.mem.read ml.1) := by
  rw [visitLoadInst, if_neg]
  rw [h.mem_keys_iff]
  rintro ⟨sd, hsd, hmem⟩
  have hoverlaps := AccessRange.overlaps_iff.mpr ⟨_, ml.addr_mem_bytes, hmem⟩
  rw [hdisjoint sd hsd] at hoverlaps
  cases hoverlaps

/-- A load of the range of the youngest pending store that it overlaps with. -/
theorem Synced.visitLoadInst_of_pending (h : Synced s pending) {front back : List SymData}
    {sd : SymData} (hpending : pending = front ++ sd :: back)
    (hback : ∀ y ∈ back, sd.ref.1.overlaps y.ref.1 = false) :
    s.visitLoadInst sd.ref = some sd.block.1 := by
  have hsd : sd ∈ pending := by
    rw [hpending]
    exact List.mem_append_right _ List.mem_cons_self
  rw [visitLoadInst, if_pos (h.mem_keys_iff.mpr ⟨sd, hsd, sd.ref.addr_mem_bytes⟩),
    ← sd.map_pendingByte]
  have hbytes : ∀ b ∈ sd.ref.bytes,
      (s.thread.storeBuffers.get b).getLast? = some (sd.pendingByte b) := by
    intro b hb
    have hnot : ∀ y ∈ back, y.covers b = false := by
      intro y hy
      rw [SymData.covers_eq_false]
      intro hb'
      have hoverlaps := AccessRange.overlaps_iff.mpr ⟨b, hb, hb'⟩
      rw [hback y hy] at hoverlaps
      cases hoverlaps
    rw [h.thread, List.getLast?_map, hpending, getLast?_queue hnot (SymData.covers_iff.mpr hb)]
    rfl
  generalize hbs : sd.ref.bytes = bytes at hbytes
  clear hbs
  induction bytes with
  | nil => rfl
  | cons b bytes ih =>
      rw [List.mapM_cons, hbytes b List.mem_cons_self,
        ih fun c hc => hbytes c (List.mem_cons_of_mem _ hc)]
      simp [SymData.pendingByte]

/-! ### Waiting for the buffers -/

theorem readable_congr (h : ∀ b ∈ ml.bytes,
    t.thread.storeBuffers.get b = s.thread.storeBuffers.get b) :
    t.thread.readable ml = s.thread.readable ml := by
  rw [Bool.eq_iff_iff, PsoInterpreterThread.readable, PsoInterpreterThread.readable,
    List.all_eq_true, List.all_eq_true]
  constructor
  · intro hall b hb
    rw [← h b hb]
    exact hall b hb
  · intro hall b hb
    rw [h b hb]
    exact hall b hb

/-- Performing a store to other bytes does not matter to a load. -/
theorem readable_of_disjoint {range : AccessRange}
    (hthread : t.thread.storeBuffers = s.thread.storeBuffers.popRange range)
    (hdisjoint : range.1.overlaps ml.1 = false) :
    t.thread.readable ml = s.thread.readable ml := by
  apply readable_congr
  intro b hb
  rw [hthread, ByteBuffers.get_popRange, if_neg]
  intro hb'
  have hoverlaps := AccessRange.overlaps_iff.mpr ⟨b, hb', hb⟩
  rw [hdisjoint] at hoverlaps
  cases hoverlaps

/-- Performing stores keeps a range readable. -/
theorem readable_popRange {range : AccessRange}
    (hthread : t.thread.storeBuffers = s.thread.storeBuffers.popRange range)
    (h : s.thread.readable ml = true) : t.thread.readable ml = true := by
  rw [PsoInterpreterThread.readable, List.all_eq_true] at h ⊢
  intro b hb
  have hbyte := h b hb
  rw [hthread, ByteBuffers.get_popRange]
  split
  · cases hget : s.thread.storeBuffers.get b with
    | nil => rfl
    | cons pst rest =>
        rw [hget] at hbyte
        cases rest with
        | nil => rfl
        | cons pst' rest => exact hbyte
  · exact hbyte

/-- The thread waits for a range exactly as long as it is not readable. -/
structure Waits (ml : AccessRange) (s : PsoState) : Prop where
  available_iff : s.builder.available = true ↔ s.thread.readable ml = true
  flush : s.thread.awaitingBufferFlush =
    if s.thread.readable ml then .no else .loadable ml

end PsoState

def PsoTurn.isExecute : PsoTurn → Bool
  | .execute _ => true
  | _ => false

namespace PsoState

variable {s t u : PsoState} {pending : List SymData} {ml : AccessRange}

theorem Waits.of_eq (h : Waits ml s) (hthread : t.thread.storeBuffers = s.thread.storeBuffers)
    (hflush : t.thread.awaitingBufferFlush = s.thread.awaitingBufferFlush)
    (havailable : t.builder.available = s.builder.available) : Waits ml t := by
  have hreadable : t.thread.readable ml = s.thread.readable ml :=
    readable_congr fun b _ => by rw [hthread]
  refine ⟨?_, ?_⟩
  · rw [havailable, hreadable]
    exact h.available_iff
  · rw [hflush, hreadable]
    exact h.flush

/-- An update re-enables the waiting thread if the range has become readable. -/
theorem Waits.runAux {k : ℕ} (h : Waits ml s) (hstep : s.runAux k = some t) : Waits ml t := by
  obtain ⟨range, -, -, hthread, -, -, -, -, havailable, hflush⟩ := runAux_eq_some hstep
  cases hreadable : s.thread.readable ml with
  | true =>
      have hno := h.flush
      rw [hreadable, if_pos rfl] at hno
      have henables : enables { s.thread with
          storeBuffers := s.thread.storeBuffers.popRange range } range = false := by
        rw [enables, hno]
      have hafter := readable_popRange hthread hreadable
      rw [henables, h.available_iff.mpr hreadable] at havailable
      rw [henables, hno] at hflush
      refine ⟨?_, ?_⟩
      · rw [havailable, hafter]
        rfl
      · rw [hflush, hafter]
        rfl
  | false =>
      have hwaiting := h.flush
      rw [hreadable, if_neg (by decide)] at hwaiting
      have hunavailable : s.builder.available = false := by
        rw [← Bool.not_eq_true, h.available_iff, hreadable]
        decide
      have henables : enables { s.thread with
          storeBuffers := s.thread.storeBuffers.popRange range } range =
            t.thread.readable ml := by
        rw [enables, hwaiting]
        dsimp only
        have hsame : PsoInterpreterThread.readable { s.thread with
            storeBuffers := s.thread.storeBuffers.popRange range } ml = t.thread.readable ml := by
          rw [PsoInterpreterThread.readable, PsoInterpreterThread.readable, hthread]
        rw [hsame]
        cases hoverlaps : range.1.overlaps ml.1 with
        | true => rfl
        | false => rw [readable_of_disjoint hthread hoverlaps, hreadable]; rfl
      rw [henables, hunavailable, Bool.false_or] at havailable
      rw [henables, hwaiting] at hflush
      exact ⟨by rw [havailable], hflush⟩

theorem Waits.after_step {turn : PsoTurn} (h : Waits ml s) (hstep : s.step turn = some t)
    (hidle : turn.isExecute = false) : Waits ml t := by
  cases turn with
  | execute i => cases hidle
  | dryRun i =>
      rw [PsoState.step, dryRun.eq_def, Option.ite_none_right_eq_some] at hstep
      obtain ⟨-, hstep⟩ := hstep
      cases i with
      | store sd =>
          cases hstep
          exact h.of_eq rfl rfl rfl
      | atomicStore sd =>
          cases hstep
          exact h.of_eq rfl rfl rfl
      | load range =>
          cases hstep
          exact h.of_eq rfl rfl rfl
  | runAux k =>
      rw [PsoState.step, Option.ite_none_right_eq_some] at hstep
      exact h.runAux hstep.2
  | other sd =>
      cases hstep
      exact h.of_eq rfl rfl rfl

theorem Waits.after_run {turns : List PsoTurn} (h : Waits ml s) (hrun : run step s turns = some u)
    (hidle : ∀ turn ∈ turns, turn.isExecute = false) : Waits ml u := by
  induction turns generalizing s with
  | nil =>
      cases hrun
      exact h
  | cons turn turns ih =>
      rw [run_cons] at hrun
      obtain ⟨v, hstep, hrun⟩ := Option.bind_eq_some_iff.mp hrun
      exact ih (h.after_step hstep (hidle turn List.mem_cons_self)) hrun
        fun x hx => hidle x (List.mem_cons_of_mem _ hx)

/-- A refused load waits for its range. -/
theorem waits_of_refused (hrefused : s.checkRefuse (.load ml) ≠ none)
    (hstep : s.step (.execute (.load ml)) = some t) : Waits ml t := by
  rw [checkRefuse, ne_eq, ite_eq_left_iff, Classical.not_imp] at hrefused
  have hreadable := Bool.eq_false_iff.mpr hrefused.1
  rw [PsoState.step, execute, Option.ite_none_right_eq_some, checkRefuse, if_neg hrefused.1] at hstep
  cases hstep.2
  have hafter : PsoInterpreterThread.readable { s.thread with
      awaitingBufferFlush := .loadable ml } ml = false := hreadable
  exact ⟨by simp [refuse, hafter], by simp [refuse, hafter]⟩

/-! ### Main result -/

/-- A turn together with the pending stores of the thread in program order. -/
def recordedStep (history : PsoState × List SymData) (turn : PsoTurn) :
    Option (PsoState × List SymData) :=
  (history.1.step turn).map fun t => (t, history.1.pendingAfter history.2 turn)

theorem synced_of_run {mem : Memory} {turns : List PsoTurn}
    (hrun : run recordedStep (initial mem, []) turns = some (s, pending)) : Synced s pending := by
  have hstep : ∀ (x : PsoState × List SymData) turn y, Synced x.1 x.2 →
      recordedStep x turn = some y → Synced y.1 y.2 := by
    intro x turn y hx hy
    rw [recordedStep, Option.map_eq_some_iff] at hy
    obtain ⟨t, ht, rfl⟩ := hy
    exact hx.step ht
  exact run_invariant hstep (initial_synced mem) hrun

/-- What a load of a thread does in state `s`. -/
structure LoadSemantics (s : PsoState) (pending : List SymData) (ml : AccessRange) : Prop where
  /-- A load that is not refused reads memory overlaid with the pending stores. -/
  value : s.checkRefuse (.load ml) = none →
    s.visitLoadInst ml = some ((pending.foldl Memory.write s.mem).read ml.1)
  /-- All its bytes come from memory or from the youngest pending store it overlaps with, which
  has its range. -/
  source : s.checkRefuse (.load ml) = none →
    (∀ sd ∈ pending, ml.1.overlaps sd.ref.1 = false) ∧
        s.visitLoadInst ml = some (s.mem.read ml.1) ∨
      ∃ front sd back, pending = front ++ sd :: back ∧ sd.ref = ml ∧
        (∀ y ∈ back, ml.1.overlaps y.ref.1 = false) ∧ s.visitLoadInst ml = some sd.block.1
  /-- After a refused load the thread is available exactly if the range has become readable. -/
  enabled_iff : s.checkRefuse (.load ml) ≠ none →
    ∀ {t}, s.step (.execute (.load ml)) = some t → ∀ {turns u}, run step t turns = some u →
      (∀ turn ∈ turns, turn.isExecute = false) →
        (u.builder.available = true ↔ u.thread.readable ml = true)
  /-- The updates that the builder allows can be performed. -/
  update : ∀ k, s.builder.auxAvailable k = true → s.builder.isAuxAtHead k = true →
    (s.step (.runAux k)).isSome = true

theorem Synced.source (h : Synced s pending) (hrefuse : s.checkRefuse (.load ml) = none) :
    (∀ sd ∈ pending, ml.1.overlaps sd.ref.1 = false) ∧
        s.visitLoadInst ml = some (s.mem.read ml.1) ∨
      ∃ front sd back, pending = front ++ sd :: back ∧ sd.ref = ml ∧
        (∀ y ∈ back, ml.1.overlaps y.ref.1 = false) ∧ s.visitLoadInst ml = some sd.block.1 := by
  have hreadable : s.thread.readable ml = true := by
    rw [checkRefuse, ite_eq_left_iff] at hrefuse
    by_contra hnot
    cases hrefuse hnot
  rcases h.readable_cases hreadable with hdisjoint | ⟨front, sd, back, hpending, rfl, hback⟩
  · exact .inl ⟨hdisjoint, h.visitLoadInst_of_disjoint hdisjoint⟩
  · exact .inr ⟨front, sd, back, hpending, rfl, hback, h.visitLoadInst_of_pending hpending hback⟩

/-- Loads have PSO semantics in every state of a thread. -/
theorem psoLoadSemantics_of_run {mem : Memory} {turns : List PsoTurn}
    (hrun : run recordedStep (initial mem, []) turns = some (s, pending)) (ml : AccessRange) :
    LoadSemantics s pending ml := by
  have hsynced := synced_of_run hrun
  refine ⟨?_, hsynced.source, ?_, ?_⟩
  · intro hrefuse
    rcases hsynced.source hrefuse with ⟨hdisjoint, hvisit⟩ | ⟨front, sd, back, hpending, rfl, hback,
      hvisit⟩
    · rw [hvisit, Memory.read_foldl_write hdisjoint]
    · rw [hvisit, hpending, List.foldl_append, List.foldl_cons, Memory.read_foldl_write hback,
        Memory.read_write_self]
  · intro hrefused t hstep turns u hrun' hidle
    exact ((waits_of_refused hrefused hstep).after_run hrun' hidle).available_iff
  · intro k havailable hhead
    rw [PsoState.step, if_pos (by rw [havailable, hhead]; rfl)]
    exact hsynced.runAux_isSome hhead

/-- A store of two bytes and a store of the second one. -/
def overlappingStores : List PsoTurn :=
  [.execute (.store ⟨⟨⟨⟨SymMBlock.global 0, 0⟩, 2⟩, Nat.two_pos⟩, .of [1, 2]⟩),
    .execute (.store ⟨⟨⟨⟨SymMBlock.global 0, 1⟩, 1⟩, Nat.one_pos⟩, .of [3]⟩)]

/-- A load of both bytes. -/
theorem psoLoadSemantics_overlappingStores : ∃ s pending,
    run recordedStep (initial fun _ => 0, []) overlappingStores = some (s, pending) ∧
      s.checkRefuse (.load ⟨⟨⟨SymMBlock.global 0, 0⟩, 2⟩, by decide⟩) ≠ none ∧
      LoadSemantics s pending ⟨⟨⟨SymMBlock.global 0, 0⟩, 2⟩, by decide⟩ := by
  obtain ⟨s, hs⟩ : ∃ s, run recordedStep (initial fun _ => 0, []) overlappingStores = some s :=
    ⟨_, rfl⟩
  refine ⟨s.1, s.2, hs, ?_, psoLoadSemantics_of_run hs _⟩
  cases hs
  decide

end PsoState

end Nidhugg
