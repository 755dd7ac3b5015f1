import Nidhugg.Library.ProjectedQueues
import Nidhugg.Model.PsoInterpreter
import Nidhugg.Verification.TsoInterpreter.Loads

/-! # The buffers of a thread under PSO

All buffers of a thread are projections of the sequence of its pending stores. -/

namespace Nidhugg

open ProjectedQueues

/-! ### Bytes of a range -/

theorem AccessRange.mem_bytes {ml : AccessRange} {b : SymAddr} : b ∈ ml.bytes ↔
    b.block = ml.1.addr.block ∧ ml.1.addr.offset ≤ b.offset ∧
      b.offset < ml.1.addr.offset + ml.1.size := by
  rw [AccessRange.bytes, List.mem_map]
  constructor
  · rintro ⟨k, hk, rfl⟩
    rw [List.mem_range] at hk
    exact ⟨rfl, by simp, by simpa using hk⟩
  · rintro ⟨hblock, hle, hlt⟩
    refine ⟨b.offset - ml.1.addr.offset, List.mem_range.mpr (by omega), ?_⟩
    rw [← hblock, Nat.add_sub_cancel' hle]

theorem AccessRange.nodup_bytes (ml : AccessRange) : ml.bytes.Nodup := by
  apply List.nodup_range.map
  intro i j hij
  simpa using hij

theorem AccessRange.addr_mem_bytes (ml : AccessRange) : ml.1.addr ∈ ml.bytes := by
  have hpos := ml.2
  exact mem_bytes.mpr ⟨rfl, Nat.le_refl _, by omega⟩

theorem AccessRange.bytes_ne_nil (ml : AccessRange) : ml.bytes ≠ [] :=
  List.ne_nil_of_mem ml.addr_mem_bytes

theorem AccessRange.overlaps_iff {a b : AccessRange} :
    a.1.overlaps b.1 = true ↔ ∃ x ∈ a.bytes, x ∈ b.bytes := by
  simp only [SymAddrSize.overlaps, Bool.and_eq_true, decide_eq_true_eq, mem_bytes]
  have ha := a.2
  have hb := b.2
  constructor
  · rintro ⟨⟨hblock, hlt⟩, hlt'⟩
    refine ⟨⟨a.1.addr.block, max a.1.addr.offset b.1.addr.offset⟩, ⟨rfl, ?_⟩, hblock, ?_⟩
    · dsimp only
      omega
    · dsimp only
      omega
  · rintro ⟨x, ⟨hblock, hle, hlt⟩, hblock', hle', hlt'⟩
    exact ⟨⟨hblock.symm.trans hblock', by omega⟩, by omega⟩

/-! ### Maps of buffers -/

namespace ByteBuffers

variable {α : Type} {buffers : ByteBuffers α} {ml : AccessRange} {b : SymAddr}

/-- The keys are the bytes whose buffers are not empty. -/
def Keyed (buffers : ByteBuffers α) : Prop := ∀ b, b ∈ buffers.keys ↔ buffers.get b ≠ []

theorem keyed_empty : Keyed (empty : ByteBuffers α) := by
  intro b
  simp [empty]

theorem Keyed.push (h : Keyed buffers) (b : SymAddr) (x : α) : Keyed (buffers.push b x) := by
  intro c
  by_cases hc : c = b
  · subst hc
    simp only [ByteBuffers.push, Function.update_self]
    split <;> simp_all
  · simp only [ByteBuffers.push, Function.update_of_ne hc]
    rw [← h c]
    split <;> simp [hc]

theorem Keyed.pop (h : Keyed buffers) (b : SymAddr) : Keyed (buffers.pop b) := by
  intro c
  by_cases hc : c = b
  · subst hc
    simp only [ByteBuffers.pop, Function.update_self]
    by_cases hrest : (buffers.get c).tail = []
    · simp [hrest]
    · have hne : buffers.get c ≠ [] := by
        intro hnil
        rw [hnil] at hrest
        exact hrest rfl
      simp [hrest, h c, hne]
  · simp only [ByteBuffers.pop, Function.update_of_ne hc]
    rw [← h c]
    split <;> simp [hc]

theorem get_foldl_push (x : SymAddr → α) {bytes : List SymAddr} (hnodup : bytes.Nodup) :
    (bytes.foldl (fun buffers b => buffers.push b (x b)) buffers).get b =
      if b ∈ bytes then buffers.get b ++ [x b] else buffers.get b := by
  induction bytes generalizing buffers with
  | nil => simp
  | cons c bytes ih =>
      rw [List.nodup_cons] at hnodup
      rw [List.foldl_cons, ih hnodup.2]
      by_cases hb : b = c
      · subst hb
        simp [hnodup.1, ByteBuffers.push]
      · simp [hb, ByteBuffers.push]

theorem get_pushRange (x : SymAddr → α) : (buffers.pushRange ml x).get b =
    if b ∈ ml.bytes then buffers.get b ++ [x b] else buffers.get b :=
  get_foldl_push x ml.nodup_bytes

theorem get_foldl_pop {bytes : List SymAddr} (hnodup : bytes.Nodup) :
    (bytes.foldl pop buffers).get b =
      if b ∈ bytes then (buffers.get b).tail else buffers.get b := by
  induction bytes generalizing buffers with
  | nil => simp
  | cons c bytes ih =>
      rw [List.nodup_cons] at hnodup
      rw [List.foldl_cons, ih hnodup.2]
      by_cases hb : b = c
      · subst hb
        simp [hnodup.1, ByteBuffers.pop]
      · simp [hb, ByteBuffers.pop]

theorem get_popRange : (buffers.popRange ml).get b =
    if b ∈ ml.bytes then (buffers.get b).tail else buffers.get b :=
  get_foldl_pop ml.nodup_bytes

theorem Keyed.pushRange (h : Keyed buffers) (ml : AccessRange) (x : SymAddr → α) :
    Keyed (buffers.pushRange ml x) := by
  rw [ByteBuffers.pushRange]
  induction ml.bytes generalizing buffers with
  | nil => exact h
  | cons b bytes ih => exact ih (h.push b (x b))

theorem Keyed.popRange (h : Keyed buffers) (ml : AccessRange) : Keyed (buffers.popRange ml) := by
  rw [ByteBuffers.popRange]
  induction ml.bytes generalizing buffers with
  | nil => exact h
  | cons b bytes ih => exact ih (h.pop b)

end ByteBuffers

/-- An address is numbered only once. -/
theorem AuxNumbering.add_add (numbering : AuxNumbering) (b : SymAddr) :
    (numbering.add b).add b = numbering.add b := by
  rw [AuxNumbering.add]
  cases h : numbering.byteToAux b with
  | some k => simp [AuxNumbering.add, h]
  | none => simp [AuxNumbering.add, h]

/-- The numbers that are given stay. -/
theorem AuxNumbering.getElem?_add {numbering : AuxNumbering} {b b0 : SymAddr} {k : ℕ}
    (h : numbering.auxToByte[k]? = some b0) : (numbering.add b).auxToByte[k]? = some b0 := by
  rw [AuxNumbering.add]
  split
  · exact h
  · have hlt := (List.getElem?_eq_some_iff.mp h).1
    rw [List.getElem?_append_left hlt]
    exact h

/-! ### Pending stores -/

/-- Whether a store writes a byte. -/
def SymData.covers (sd : SymData) (b : SymAddr) : Bool := b ∈ sd.ref.bytes

theorem SymData.covers_iff {sd : SymData} {b : SymAddr} :
    sd.covers b = true ↔ b ∈ sd.ref.bytes := decide_eq_true_iff

theorem SymData.covers_eq_false {sd : SymData} {b : SymAddr} :
    sd.covers b = false ↔ b ∉ sd.ref.bytes := decide_eq_false_iff_not

/-- The byte of a store in the buffers of the interpreter. -/
def SymData.pendingByte (sd : SymData) (b : SymAddr) : PendingByte :=
  ⟨sd.ref, sd.block.1.getD (b.offset - sd.ref.1.addr.offset) 0⟩

/-- The values of a store at its bytes. -/
theorem SymData.map_pendingByte (sd : SymData) :
    (sd.ref.bytes.map fun b => (sd.pendingByte b).val) = sd.block.1 := by
  apply List.ext_getElem
  · simp [AccessRange.bytes, sd.block.2]
  · intro k hk hk'
    simp [AccessRange.bytes, SymData.pendingByte, List.getElem?_eq_getElem hk']

namespace PsoState

variable {s t : PsoState} {pending : List SymData} {ml : AccessRange} {k : ℕ}

/-- Both sets of buffers are projections of the pending stores. The interpreter may have numbered
one more auxiliary thread, for a store that it has run dry. -/
structure Synced (s : PsoState) (pending : List SymData) : Prop where
  thread : ∀ b, s.thread.storeBuffers.get b =
    (queue SymData.covers pending b).map fun sd => sd.pendingByte b
  threadKeys : s.thread.storeBuffers.Keyed
  builder : ∀ b, s.builder.storeBuffers.get b = (queue SymData.covers pending b).map SymData.ref
  builderKeys : s.builder.storeBuffers.Keyed
  numbering : s.thread.aux = s.builder.aux ∨
    ∃ sd, s.next = some (.store sd) ∧ s.thread.aux = s.builder.aux.add sd.ref.1.addr

theorem initial_synced (mem : Memory) : Synced (initial mem) [] :=
  ⟨fun _ => rfl, ByteBuffers.keyed_empty, fun _ => rfl, ByteBuffers.keyed_empty, .inl rfl⟩

/-- The store that an auxiliary thread performs is a pending one, and all older pending stores
write other bytes. -/
theorem Synced.exists_of_auxRange (h : Synced s pending) (hml : s.auxRange k = some ml) :
    ∃ front sd back, pending = front ++ sd :: back ∧ sd.ref = ml ∧ s.oldestData ml = sd ∧
      ∀ y ∈ front, ∀ b ∈ ml.bytes, y.covers b = false := by
  have hfronts : ∀ b ∈ ml.bytes, ∃ sd, (queue SymData.covers pending b).head? = some sd ∧
      sd.ref = ml := by
    rw [auxRange] at hml
    obtain ⟨b0, -, hml⟩ := Option.bind_eq_some_iff.mp hml
    obtain ⟨front, -, hml⟩ := Option.bind_eq_some_iff.mp hml
    rw [Option.ite_none_right_eq_some, Bool.and_eq_true, List.all_eq_true] at hml
    obtain ⟨⟨-, hall⟩, heq⟩ := hml
    cases heq
    intro b hb
    obtain ⟨pst, hpst, hrange⟩ := (Option.any_eq_true _ _).mp (hall b hb)
    rw [h.thread, List.head?_map, Option.map_eq_some_iff] at hpst
    obtain ⟨sd, hsd, rfl⟩ := hpst
    exact ⟨sd, hsd, of_decide_eq_true hrange⟩
  obtain ⟨front, sd, back, heq, href, -, hfront⟩ := exists_first ml.bytes_ne_nil hfronts
  refine ⟨front, sd, back, heq, href, ?_, hfront⟩
  subst href
  rw [oldestData]
  have hblock : (sd.ref.bytes.map fun b =>
      ((s.thread.storeBuffers.get b).head?.map (·.val)).getD 0) = sd.block.1 := by
    rw [← sd.map_pendingByte]
    apply List.map_congr_left
    intro b hb
    rw [h.thread, heq, List.head?_map, head?_queue (fun y hy => hfront y hy b hb)
      (SymData.covers_iff.mpr hb)]
    rfl
  cases sd
  congr 1
  exact Subtype.ext hblock

/-- The pending stores after a turn, in program order. -/
def pendingAfter (s : PsoState) (pending : List SymData) : PsoTurn → List SymData
  | .execute (.store sd) => pending ++ [sd]
  | .runAux k => match s.auxRange k with
    | some ml => pending.eraseP fun sd => sd.ref = ml
    | none => pending
  | _ => pending

theorem Synced.store (h : Synced s pending) {sd : SymData}
    (hnext : ∀ sd', s.next = some (.store sd') → sd' = sd) :
    Synced { s.visitStoreInst sd false with next := none } (pending ++ [sd]) where
  thread := by
    intro b
    have hget : (s.visitStoreInst sd false).thread.storeBuffers.get b =
        if b ∈ sd.ref.bytes then s.thread.storeBuffers.get b ++ [sd.pendingByte b]
        else s.thread.storeBuffers.get b := ByteBuffers.get_pushRange _
    rw [hget, h.thread, queue_concat, List.map_append]
    by_cases hb : b ∈ sd.ref.bytes
    · rw [if_pos hb, if_pos (SymData.covers_iff.mpr hb)]
      rfl
    · rw [if_neg hb, if_neg (by rw [SymData.covers_iff]; exact hb)]
      exact (List.append_nil _).symm
  threadKeys := h.threadKeys.pushRange _ _
  builder := by
    intro b
    have hget : (s.visitStoreInst sd false).builder.storeBuffers.get b =
        if b ∈ sd.ref.bytes then s.builder.storeBuffers.get b ++ [sd.ref]
        else s.builder.storeBuffers.get b := ByteBuffers.get_pushRange _
    rw [hget, h.builder, queue_concat, List.map_append]
    by_cases hb : b ∈ sd.ref.bytes
    · rw [if_pos hb, if_pos (SymData.covers_iff.mpr hb)]
      rfl
    · rw [if_neg hb, if_neg (by rw [SymData.covers_iff]; exact hb)]
      exact (List.append_nil _).symm
  builderKeys := h.builderKeys.pushRange _ _
  numbering := by
    refine .inl ?_
    have haux : (s.visitStoreInst sd false).thread.aux = s.thread.aux.add sd.ref.1.addr := rfl
    have hbuilder : (s.visitStoreInst sd false).builder.aux =
        s.builder.aux.add sd.ref.1.addr := rfl
    dsimp only
    rw [haux, hbuilder]
    rcases h.numbering with heq | ⟨sd', hsd', heq⟩
    · rw [heq]
    · rw [heq, hnext sd' hsd', AuxNumbering.add_add]

/-- Turns that leave the buffers as they are. -/
theorem Synced.of_eq (h : Synced s pending)
    (hthread : t.thread.storeBuffers = s.thread.storeBuffers)
    (hbuilder : t.builder.storeBuffers = s.builder.storeBuffers)
    (hnumbering : t.thread.aux = t.builder.aux ∨
      ∃ sd, t.next = some (.store sd) ∧ t.thread.aux = t.builder.aux.add sd.ref.1.addr) :
    Synced t pending where
  thread := by
    rw [hthread]
    exact h.thread
  threadKeys := by
    rw [hthread]
    exact h.threadKeys
  builder := by
    rw [hbuilder]
    exact h.builder
  builderKeys := by
    rw [hbuilder]
    exact h.builderKeys
  numbering := hnumbering

/-- The next instruction is the one that was run dry. -/
theorem Synced.aux_eq (h : Synced s pending) {i : PsoInstruction}
    (hnext : s.next.all (· = i) = true) (hi : ∀ sd, i ≠ .store sd) :
    s.thread.aux = s.builder.aux := by
  rcases h.numbering with heq | ⟨sd, hsd, -⟩
  · exact heq
  · rw [hsd, Option.all_some, decide_eq_true_eq] at hnext
    exact absurd hnext.symm (hi sd)

theorem Synced.update (h : Synced s pending) {front back : List SymData} {sd : SymData}
    (hpending : pending = front ++ sd :: back)
    (hfront : ∀ y ∈ front, ∀ b ∈ sd.ref.bytes, y.covers b = false)
    (hthread : t.thread.storeBuffers = s.thread.storeBuffers.popRange sd.ref)
    (hbuilder : t.builder.storeBuffers = s.builder.storeBuffers.popRange sd.ref)
    (hthreadAux : t.thread.aux = s.thread.aux) (hbuilderAux : t.builder.aux = s.builder.aux)
    (hnext : t.next = s.next) : Synced t (front ++ back) := by
  have hqueue : ∀ b, queue SymData.covers (front ++ back) b =
      if b ∈ sd.ref.bytes then (queue SymData.covers pending b).tail
      else queue SymData.covers pending b := by
    intro b
    rw [hpending, queue_remove fun y hy b hb => hfront y hy b (SymData.covers_iff.mp hb)]
    by_cases hb : b ∈ sd.ref.bytes
    · rw [if_pos hb, if_pos (SymData.covers_iff.mpr hb)]
    · rw [if_neg hb, if_neg (by rw [SymData.covers_iff]; exact hb)]
  refine ⟨?_, ?_, ?_, ?_, ?_⟩
  · intro b
    rw [hthread, ByteBuffers.get_popRange, h.thread, hqueue]
    split
    · rw [List.map_tail]
    · rfl
  · rw [hthread]
    exact h.threadKeys.popRange _
  · intro b
    rw [hbuilder, ByteBuffers.get_popRange, h.builder, hqueue]
    split
    · rw [List.map_tail]
    · rfl
  · rw [hbuilder]
    exact h.builderKeys.popRange _
  · rw [hthreadAux, hbuilderAux, hnext]
    exact h.numbering

/-- What a turn of an auxiliary thread does. -/
theorem runAux_eq_some (hrun : s.runAux k = some t) : ∃ ml, s.auxRange k = some ml ∧
    t.mem = s.mem.write (s.oldestData ml) ∧
    t.thread.storeBuffers = s.thread.storeBuffers.popRange ml ∧
    t.builder.storeBuffers = s.builder.storeBuffers.popRange ml ∧
    t.thread.aux = s.thread.aux ∧ t.builder.aux = s.builder.aux ∧ t.next = s.next ∧
    (t.builder.available = (s.builder.available || enables { s.thread with
      storeBuffers := s.thread.storeBuffers.popRange ml } ml)) ∧
    t.thread.awaitingBufferFlush = if enables { s.thread with
      storeBuffers := s.thread.storeBuffers.popRange ml } ml then .no
      else s.thread.awaitingBufferFlush := by
  rw [runAux] at hrun
  obtain ⟨ml, hml, hrun⟩ := Option.bind_eq_some_iff.mp hrun
  obtain ⟨builder, hbuilder, hrun⟩ := Option.bind_eq_some_iff.mp hrun
  rw [PsoBuilderThread.update, Option.ite_none_right_eq_some] at hbuilder
  obtain ⟨-, hbuilder⟩ := hbuilder
  cases hbuilder
  cases hrun
  exact ⟨ml, hml, rfl, rfl, rfl, rfl, rfl, rfl, rfl, rfl⟩

theorem eraseP_split {front back : List SymData} {sd : SymData}
    (hfront : ∀ y ∈ front, ∀ b ∈ sd.ref.bytes, y.covers b = false) :
    (front ++ sd :: back).eraseP (fun y => y.ref = sd.ref) = front ++ back := by
  have hnot : ∀ y ∈ front, ¬ (decide (y.ref = sd.ref) = true) := by
    intro y hy heq
    have hcovers := SymData.covers_eq_false.mp (hfront y hy _ sd.ref.addr_mem_bytes)
    rw [of_decide_eq_true heq] at hcovers
    exact hcovers sd.ref.addr_mem_bytes
  rw [List.eraseP_append_right _ hnot, List.eraseP_cons_of_pos (by simp)]

theorem Synced.step (h : Synced s pending) {turn : PsoTurn} (hstep : s.step turn = some t) :
    Synced t (s.pendingAfter pending turn) := by
  cases turn with
  | execute i =>
      rw [PsoState.step, execute, Option.ite_none_right_eq_some, Bool.and_eq_true] at hstep
      obtain ⟨⟨-, hnext⟩, hstep⟩ := hstep
      cases i with
      | store sd =>
          rw [checkRefuse] at hstep
          cases hstep
          refine h.store ?_
          intro sd' hsd'
          rw [hsd', Option.all_some, decide_eq_true_eq] at hnext
          cases hnext
          rfl
      | atomicStore sd =>
          have haux := h.aux_eq hnext (by simp)
          rw [checkRefuse] at hstep
          split at hstep
          · rename_i t' hrefuse
            rw [Option.ite_none_left_eq_some] at hrefuse
            cases hrefuse.2
            cases hstep
            exact h.of_eq rfl rfl (.inl haux)
          · rw [visit] at hstep
            split at hstep
            · cases hstep
              exact h.of_eq rfl rfl (.inl haux)
            · cases hstep
      | load ml =>
          have haux := h.aux_eq hnext (by simp)
          rw [checkRefuse] at hstep
          split at hstep
          · rename_i t' hrefuse
            rw [Option.ite_none_left_eq_some] at hrefuse
            cases hrefuse.2
            cases hstep
            exact h.of_eq rfl rfl (.inl haux)
          · rw [visit, Option.map_map, Option.map_eq_some_iff] at hstep
            obtain ⟨bytes, -, hstep⟩ := hstep
            cases hstep
            exact h.of_eq rfl rfl (.inl haux)
  | dryRun i =>
      rw [PsoState.step, dryRun.eq_def, Option.ite_none_right_eq_some, Bool.and_eq_true] at hstep
      obtain ⟨⟨hnext, -⟩, hstep⟩ := hstep
      cases i with
      | store sd =>
          cases hstep
          refine h.of_eq rfl rfl (.inr ⟨sd, rfl, ?_⟩)
          have haux : (s.visitStoreInst sd true).thread.aux = s.thread.aux.add sd.ref.1.addr := rfl
          have hbuilder : (s.visitStoreInst sd true).builder.aux = s.builder.aux := rfl
          dsimp only
          rw [haux, hbuilder]
          rcases h.numbering with heq | ⟨sd', hsd', heq⟩
          · rw [heq]
          · rw [hsd', Option.all_some, decide_eq_true_eq] at hnext
            cases hnext
            rw [heq, AuxNumbering.add_add]
      | atomicStore sd =>
          have haux := h.aux_eq hnext (by simp)
          cases hstep
          exact h.of_eq rfl rfl (.inl haux)
      | load ml =>
          have haux := h.aux_eq hnext (by simp)
          cases hstep
          exact h.of_eq rfl rfl (.inl haux)
  | runAux k =>
      rw [PsoState.step, Option.ite_none_right_eq_some] at hstep
      obtain ⟨ml, hml, -, hthread, hbuilder, hthreadAux, hbuilderAux, hnext, -, -⟩ :=
        runAux_eq_some hstep.2
      obtain ⟨front, sd, back, hpending, rfl, -, hfront⟩ := h.exists_of_auxRange hml
      rw [pendingAfter, hml]
      dsimp only
      rw [hpending, eraseP_split hfront]
      exact h.update hpending hfront hthread hbuilder hthreadAux hbuilderAux hnext
  | other sd =>
      cases hstep
      exact h.of_eq rfl rfl h.numbering

/-- The assertions of `runAux` and `atomic_store` hold for an auxiliary thread at the head of its
buffers. -/
theorem Synced.runAux_isSome (h : Synced s pending) (hhead : s.builder.isAuxAtHead k = true) :
    (s.runAux k).isSome = true := by
  rw [PsoBuilderThread.isAuxAtHead] at hhead
  obtain ⟨b0, hb0, hhead⟩ := (Option.any_eq_true _ _).mp hhead
  obtain ⟨ml, hml, hhead⟩ := (Option.any_eq_true _ _).mp hhead
  rw [List.all_eq_true] at hhead
  have hb0' : s.thread.aux.auxToByte[k]? = some b0 := by
    rcases h.numbering with heq | ⟨sd, -, heq⟩
    · rw [heq]
      exact hb0
    · rw [heq]
      exact AuxNumbering.getElem?_add hb0
  -- the oldest store to the first byte
  rw [h.builder, List.head?_map, Option.map_eq_some_iff] at hml
  obtain ⟨sd, hsd, rfl⟩ := hml
  have hcovers : sd.covers b0 = true := by
    have hmem := List.mem_of_head? hsd
    exact (List.mem_filter.mp hmem).2
  have hfronts : ∀ b ∈ sd.ref.bytes, b ≠ b0 →
      ∃ y, (queue SymData.covers pending b).head? = some y ∧ y.ref.1.addr = b0 := by
    intro b hb hne
    have hfront := hhead b hb
    rw [Bool.or_eq_true, decide_eq_true_eq] at hfront
    rcases hfront with heq | hfront
    · exact absurd heq hne
    · obtain ⟨ml, hml, haddr⟩ := (Option.any_eq_true _ _).mp hfront
      rw [h.builder, List.head?_map, Option.map_eq_some_iff] at hml
      obtain ⟨y, hy, rfl⟩ := hml
      exact ⟨y, hy, of_decide_eq_true haddr⟩
  have haddr : sd.ref.1.addr = b0 := by
    by_contra hne
    obtain ⟨y, hy, hyaddr⟩ := hfronts _ sd.ref.addr_mem_bytes hne
    have hycovers : y.covers sd.ref.1.addr = true := (List.mem_filter.mp (List.mem_of_head? hy)).2
    have hle := AccessRange.mem_bytes.mp (SymData.covers_iff.mp hcovers)
    have hle' := AccessRange.mem_bytes.mp (SymData.covers_iff.mp hycovers)
    rw [hyaddr] at hle'
    apply hne
    have hoffset : sd.ref.1.addr.offset = b0.offset := by omega
    cases hsdaddr : sd.ref.1.addr
    cases b0
    simp_all
  -- it is the oldest store to all its bytes
  have hall : ∀ b ∈ sd.ref.bytes, ∃ y : SymData,
      (queue SymData.covers pending b).head? = some y ∧ y.ref.1.addr = b0 := by
    intro b hb
    by_cases hne : b = b0
    · subst hne
      exact ⟨sd, hsd, haddr⟩
    · exact hfronts b hb hne
  obtain ⟨front, x, back, hpending, hxaddr, -, hfront⟩ := exists_first sd.ref.bytes_ne_nil hall
  have hb0mem : b0 ∈ sd.ref.bytes := SymData.covers_iff.mp hcovers
  have hx : x = sd := by
    have hxcovers : x.covers b0 = true := by
      rw [SymData.covers_iff, ← hxaddr]
      exact x.ref.addr_mem_bytes
    have hfirst : (queue SymData.covers (front ++ x :: back) b0).head? = some x :=
      head?_queue (fun y hy => hfront y hy b0 hb0mem) hxcovers
    rw [← hpending, hsd, Option.some.injEq] at hfirst
    exact hfirst.symm
  subst hx
  have hheads : ∀ b ∈ x.ref.bytes, (queue SymData.covers pending b).head? = some x := by
    intro b hb
    rw [hpending]
    exact head?_queue (fun y hy => hfront y hy b hb) (SymData.covers_iff.mpr hb)
  have hrange : s.auxRange k = some x.ref := by
    rw [auxRange, hb0', Option.bind_eq_bind, Option.bind_some, h.thread, List.head?_map, hsd]
    dsimp only [Option.map_some, Option.bind_eq_bind, Option.bind_some]
    rw [if_pos]
    · rfl
    · rw [Bool.and_eq_true, decide_eq_true_eq, List.all_eq_true]
      refine ⟨haddr, ?_⟩
      intro b hb
      rw [h.thread, List.head?_map, hheads b hb]
      simp [SymData.pendingByte]
  rw [runAux, hrange, Option.bind_eq_bind, Option.bind_some, PsoBuilderThread.update, if_pos]
  · rfl
  · rw [h.builder, List.head?_map, hheads _ x.ref.addr_mem_bytes]
    rfl

end PsoState

end Nidhugg
