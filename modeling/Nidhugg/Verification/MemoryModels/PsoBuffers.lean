import Nidhugg.Verification.MemoryModels.Buffers

/-! # Pending stores under PSO

The buffers of all bytes are projections of the pending stores. The oldest pending store can be
performed if the stores that start at one address have one size. -/

namespace Nidhugg

open ProjectedQueues SharedSystem

/-- The state of the interpreter and of the trace builder for one thread. -/
def psoState (mem : Memory) (c : PsoInterpreterThread × PsoBuilderThread) : PsoState :=
  ⟨mem, c.1, c.2, none⟩

/-- What a thread waits for has not happened yet. -/
def BufferFlush.Waits (pending : List SymData) (a : Bool) : BufferFlush → Prop
  | .no => a = true
  | .full => a = false ∧ pending ≠ []
  | .loadable ml => a = false ∧ ¬ Served pending ml

/-- The stores that are pending under PSO. A thread that is not available waits for its buffers. -/
structure PsoKept (c : PsoInterpreterThread × PsoBuilderThread) (pending : List SymData) (a : Bool) :
    Prop where
  synced : ∀ mem, (psoState mem c).Synced pending
  available : c.2.available = a
  waits : c.1.awaitingBufferFlush.Waits pending a

namespace PsoState

variable {s t : PsoState} {pending : List SymData} {ml : AccessRange} {op : Operation} {k : ℕ}

theorem Synced.readable_iff (h : s.Synced pending) :
    s.thread.readable ml = true ↔ Served pending ml := by
  refine ⟨h.readable_cases, ?_⟩
  intro hserved
  rw [PsoInterpreterThread.readable, List.all_eq_true]
  intro b hb
  rw [h.thread, List.getLast?_map]
  obtain hdisjoint | ⟨front, sd, back, rfl, rfl, hback⟩ := hserved
  · have hnil : queue SymData.covers pending b = [] := by
      refine queue_eq_nil fun sd hsd => SymData.covers_eq_false.mpr fun hb' => ?_
      have hoverlaps := AccessRange.overlaps_iff.mpr ⟨b, hb, hb'⟩
      rw [hdisjoint sd hsd] at hoverlaps
      cases hoverlaps
    rw [hnil]
    rfl
  · have hnot : ∀ y ∈ back, y.covers b = false := by
      refine fun y hy => SymData.covers_eq_false.mpr fun hb' => ?_
      have hoverlaps := AccessRange.overlaps_iff.mpr ⟨b, hb, hb'⟩
      rw [hback y hy] at hoverlaps
      cases hoverlaps
    rw [getLast?_queue hnot (SymData.covers_iff.mpr hb)]
    simp [SymData.pendingByte]

theorem Synced.threadKeys_isEmpty (h : s.Synced pending) :
    s.thread.allBuffersEmpty = pending.isEmpty := by
  rw [PsoInterpreterThread.allBuffersEmpty, Bool.eq_iff_iff, List.isEmpty_iff, List.isEmpty_iff]
  constructor
  · intro hkeys
    rw [List.eq_nil_iff_forall_not_mem]
    intro sd hsd
    have hmem := h.mem_keys_iff.mpr ⟨sd, hsd, sd.ref.addr_mem_bytes⟩
    rw [hkeys] at hmem
    cases hmem
  · rintro rfl
    rw [List.eq_nil_iff_forall_not_mem]
    intro b hb
    obtain ⟨sd, hsd, -⟩ := h.mem_keys_iff.mp hb
    cases hsd

theorem Synced.builderKeys_isEmpty (h : s.Synced pending) (hpending : pending = []) :
    s.builder.storeBuffers.keys.isEmpty = true := by
  subst hpending
  rw [List.isEmpty_iff, List.eq_nil_iff_forall_not_mem]
  intro b hb
  have hne := (h.builderKeys b).mp hb
  rw [h.builder] at hne
  exact hne rfl

/-- What a load returns. -/
theorem Synced.visitLoadInst_of_served (h : s.Synced pending) (hserved : Served pending ml) :
    s.visitLoadInst ml = some ((pending.foldl Memory.write s.mem).read ml.1) := by
  obtain hdisjoint | ⟨front, sd, back, rfl, rfl, hback⟩ := hserved
  · rw [h.visitLoadInst_of_disjoint hdisjoint, Memory.read_foldl_write hdisjoint]
  · rw [h.visitLoadInst_of_pending rfl hback, List.foldl_append, List.foldl_cons,
      Memory.read_foldl_write hback, Memory.read_write_self]

theorem auxToByte_of_auxRange (h : s.auxRange k = some ml) :
    s.thread.aux.auxToByte[k]? = some ml.1.addr := by
  rw [auxRange] at h
  obtain ⟨b0, hb0, h⟩ := Option.bind_eq_some_iff.mp h
  obtain ⟨front, -, h⟩ := Option.bind_eq_some_iff.mp h
  rw [Option.ite_none_right_eq_some, Bool.and_eq_true, decide_eq_true_eq] at h
  obtain ⟨⟨haddr, -⟩, heq⟩ := h
  cases heq
  rw [hb0, haddr]

theorem runAux_auxAvailable (hrun : s.runAux k = some t) (hml : s.auxRange k = some ml) :
    t.builder.auxAvailable = Function.update s.builder.auxAvailable k
      (s.builder.auxAvailable k && ml.bytes.all fun b => 1 < (s.builder.storeBuffers.get b).length) := by
  rw [runAux] at hrun
  obtain ⟨ml', hml', hrun⟩ := Option.bind_eq_some_iff.mp hrun
  cases hml.symm.trans hml'
  obtain ⟨builder, hbuilder, hrun⟩ := Option.bind_eq_some_iff.mp hrun
  rw [PsoBuilderThread.update, Option.ite_none_right_eq_some] at hbuilder
  cases hbuilder.2
  cases hrun
  rfl

theorem checkRefuseOperation_fence (hop : op.isFence = true) : s.checkRefuseOperation op =
    if s.thread.allBuffersEmpty then none else some (s.refuse .full) := by
  cases op <;> first | rfl | cases hop

theorem visitOperation_fence (hop : op.isFence = true) : s.visitOperation op =
    if s.thread.allBuffersEmpty && s.builder.storeBuffers.keys.isEmpty then
      some ({ s with mem := (op.perform s.mem).1 }, (op.perform s.mem).2)
    else none := by
  cases op <;> first | rfl | cases hop

end PsoState

namespace PsoKept

variable {c c₁ : PsoInterpreterThread × PsoBuilderThread} {pending pending₁ : List SymData}
  {op : Operation} {a : Bool} {r : Option (List Byte)} {bytes : List Byte} {mem mem₁ : Memory}
  {k : ℕ}

theorem initial : PsoKept pso.initial [] true :=
  ⟨fun mem => PsoState.initial_synced mem, rfl, rfl⟩

theorem refused (h : PsoKept c pending true) (flush : BufferFlush)
    (hwaits : flush.Waits pending false) :
    PsoKept (((psoState mem c).refuse flush).thread, ((psoState mem c).refuse flush).builder)
      pending false :=
  ⟨fun mem => (h.synced mem).of_eq rfl rfl (h.synced mem).numbering, rfl, hwaits⟩

theorem awaitingBufferFlush_eq (h : PsoKept c pending true) : c.1.awaitingBufferFlush = .no := by
  have hwaits := h.waits
  cases hflush : c.1.awaitingBufferFlush with
  | no => rfl
  | full =>
      rw [hflush] at hwaits
      cases hwaits.1
  | loadable ml =>
      rw [hflush] at hwaits
      cases hwaits.1

/-- The state after an operation that is performed. -/
def after (mem : Memory) (c : PsoInterpreterThread × PsoBuilderThread) :
    Operation → PsoInterpreterThread × PsoBuilderThread
  | .store sd =>
      (((psoState mem c).visitStoreInst sd false).thread,
        ((psoState mem c).visitStoreInst sd false).builder)
  | _ => c

theorem perform (h : PsoKept c pending true)
    (hperformed : Performed mem pending op mem₁ bytes pending₁) :
    ∃ t : PsoState, (psoState mem c).issue op = some (t, some bytes) ∧ t.mem = mem₁ ∧
      (t.thread, t.builder) = after mem c op ∧ PsoKept (after mem c op) pending₁ true := by
  have hsynced := h.synced mem
  have havailable : (psoState mem c).builder.available = true := h.available
  cases hperformed with
  | store sd =>
      refine ⟨(psoState mem c).visitStoreInst sd false, ?_, rfl, rfl, fun mem' => ?_, havailable, ?_⟩
      · rw [PsoState.issue, if_pos havailable]
        rfl
      · exact (h.synced mem').store fun sd' hnext => by simp [psoState] at hnext
      · have hflush : (after mem c (.store sd)).1.awaitingBufferFlush = .no :=
          h.awaitingBufferFlush_eq
        rw [hflush]
        rfl
  | load ml hserved =>
      refine ⟨psoState mem c, ?_, rfl, rfl, h⟩
      have hreadable := hsynced.readable_iff.mpr hserved
      rw [PsoState.issue, if_pos havailable]
      simp only [PsoState.checkRefuseOperation, PsoState.checkRefuse, hreadable, if_true,
        PsoState.visitOperation, hsynced.visitLoadInst_of_served hserved, Option.map_some]
      rfl
  | fenced _ hfence hpending =>
      subst hpending
      have hafter : after mem c op = c := by cases op <;> first | rfl | cases hfence
      rw [hafter]
      refine ⟨{ psoState mem c with mem := (op.perform mem).1 }, ?_, rfl, rfl, h⟩
      rw [PsoState.issue, if_pos havailable, PsoState.checkRefuseOperation_fence hfence,
        PsoState.visitOperation_fence hfence, hsynced.threadKeys_isEmpty,
        hsynced.builderKeys_isEmpty rfl]
      rfl

theorem issue {t : PsoState} (h : PsoKept c pending a)
    (hissue : (psoState mem c).issue op = some (t, r)) :
    (r = none ∧ t.mem = mem ∧ PsoKept (t.thread, t.builder) pending false ∧
        t.builder = { c.2 with available := false }) ∨
      ∃ (bytes : List Byte) (pending₁ : List SymData), r = some bytes ∧
        Performed mem pending op t.mem bytes pending₁ ∧ (t.thread, t.builder) = after mem c op ∧
          PsoKept (after mem c op) pending₁ true := by
  have hsynced := h.synced mem
  have havailable : (psoState mem c).builder.available = true := by
    rw [PsoState.issue, Option.ite_none_right_eq_some] at hissue
    exact hissue.1
  obtain rfl : a = true := h.available.symm.trans havailable
  have hperform : ∀ {mem₁ bytes pending₁}, Performed mem pending op mem₁ bytes pending₁ →
      ∃ (bytes : List Byte) (pending₁ : List SymData), r = some bytes ∧
        Performed mem pending op t.mem bytes pending₁ ∧ (t.thread, t.builder) = after mem c op ∧
          PsoKept (after mem c op) pending₁ true := by
    intro mem₁ bytes pending₁ hperformed
    obtain ⟨t', ht', rfl, heq, hkept⟩ := h.perform hperformed
    cases ht'.symm.trans hissue
    exact ⟨bytes, pending₁, rfl, hperformed, heq, hkept⟩
  cases hop : op.isFence with
  | true =>
      cases hempty : pending.isEmpty with
      | true => exact .inr (hperform (.fenced op hop (List.isEmpty_iff.mp hempty)))
      | false =>
          left
          rw [PsoState.issue, if_pos havailable, PsoState.checkRefuseOperation_fence hop,
            hsynced.threadKeys_isEmpty, hempty] at hissue
          cases hissue
          exact ⟨rfl, rfl, h.refused .full ⟨rfl, by simpa using hempty⟩, rfl⟩
  | false =>
      cases op with
      | store sd => exact .inr (hperform (.store sd))
      | load ml =>
          cases hreadable : (psoState mem c).thread.readable ml with
          | true => exact .inr (hperform (.load ml (hsynced.readable_iff.mp hreadable)))
          | false =>
              left
              simp only [PsoState.issue, havailable, if_true, PsoState.checkRefuseOperation,
                PsoState.checkRefuse, hreadable] at hissue
              cases hissue
              refine ⟨rfl, rfl, h.refused (.loadable ml) ⟨rfl, fun hserved => ?_⟩, rfl⟩
              rw [hsynced.readable_iff.mpr hserved] at hreadable
              cases hreadable
      | _ => cases hop

/-- An update makes the thread available if what it waits for has happened. -/
theorem waits_after {t : PsoState} (h : PsoKept c pending a) {front back : List SymData}
    {sd : SymData} (hsynced : t.Synced (front ++ back))
    (hbuffers : t.thread.storeBuffers = c.1.storeBuffers.popRange sd.ref)
    (havailable : t.builder.available = (c.2.available || PsoState.enables { c.1 with
      storeBuffers := c.1.storeBuffers.popRange sd.ref } sd.ref))
    (hflush : t.thread.awaitingBufferFlush = if PsoState.enables { c.1 with
      storeBuffers := c.1.storeBuffers.popRange sd.ref } sd.ref then .no
      else c.1.awaitingBufferFlush) :
    t.thread.awaitingBufferFlush.Waits (front ++ back) t.builder.available := by
  have hwaits := h.waits
  have hempty : PsoInterpreterThread.allBuffersEmpty { c.1 with
      storeBuffers := c.1.storeBuffers.popRange sd.ref } = (front ++ back).isEmpty := by
    rw [← hsynced.threadKeys_isEmpty, PsoInterpreterThread.allBuffersEmpty,
      PsoInterpreterThread.allBuffersEmpty, hbuffers]
  have hreadable : ∀ ml, PsoInterpreterThread.readable { c.1 with
      storeBuffers := c.1.storeBuffers.popRange sd.ref } ml = t.thread.readable ml := by
    intro ml
    rw [PsoInterpreterThread.readable, PsoInterpreterThread.readable, hbuffers]
  rw [hflush, havailable, h.available]
  cases hcase : c.1.awaitingBufferFlush with
  | no =>
      rw [hcase] at hwaits
      obtain rfl : a = true := hwaits
      have henables : PsoState.enables { c.1 with
          storeBuffers := c.1.storeBuffers.popRange sd.ref } sd.ref = false := by
        rw [PsoState.enables, hcase]
      rw [henables]
      rfl
  | full =>
      rw [hcase] at hwaits
      obtain ⟨rfl, -⟩ := hwaits
      have henables : PsoState.enables { c.1 with
          storeBuffers := c.1.storeBuffers.popRange sd.ref } sd.ref = (front ++ back).isEmpty := by
        rw [PsoState.enables, hcase]
        exact hempty
      rw [henables]
      cases hnil : (front ++ back).isEmpty with
      | true => rfl
      | false => exact ⟨rfl, by simpa using hnil⟩
  | loadable ml =>
      rw [hcase] at hwaits
      obtain ⟨rfl, hserved⟩ := hwaits
      have henables : PsoState.enables { c.1 with
          storeBuffers := c.1.storeBuffers.popRange sd.ref } sd.ref =
            (sd.ref.1.overlaps ml.1 && t.thread.readable ml) := by
        rw [PsoState.enables, hcase, ← hreadable]
      rw [henables]
      cases hoverlaps : sd.ref.1.overlaps ml.1 with
      | true =>
          cases hread : t.thread.readable ml with
          | true => rfl
          | false =>
              refine ⟨rfl, fun hserved' => ?_⟩
              rw [hsynced.readable_iff.mpr hserved'] at hread
              cases hread
      | false =>
          refine ⟨rfl, fun hserved' => hserved ?_⟩
          rw [← (h.synced t.mem).readable_iff,
            ← PsoState.readable_of_disjoint (s := psoState t.mem c) hbuffers hoverlaps]
          exact hsynced.readable_iff.mpr hserved'

theorem runAux {t : PsoState} (h : PsoKept c pending a)
    (hrun : (psoState mem c).runAux k = some t) :
    ∃ (front : List SymData) (sd : SymData) (back : List SymData) (a₁ : Bool),
      pending = front ++ sd :: back ∧ (∀ y ∈ front, ∀ b ∈ sd.ref.bytes, y.covers b = false) ∧
        t.mem = mem.write sd ∧ PsoKept (t.thread, t.builder) (front ++ back) a₁ ∧
          (a = true → a₁ = true) ∧ (psoState mem c).auxRange k = some sd.ref := by
  obtain ⟨ml, hml, hmem, hthread, hbuilder, hthreadAux, hbuilderAux, hnext, havailable, hflush⟩ :=
    PsoState.runAux_eq_some hrun
  obtain ⟨front, sd, back, hpending, rfl, holdest, hfront⟩ := (h.synced mem).exists_of_auxRange hml
  have hsynced : ∀ mem', (psoState mem' (t.thread, t.builder)).Synced (front ++ back) := fun mem' =>
    (h.synced mem').update hpending hfront hthread hbuilder hthreadAux hbuilderAux rfl
  refine ⟨front, sd, back, t.builder.available, hpending, hfront, ?_, ⟨hsynced, rfl, ?_⟩, ?_, hml⟩
  · rw [hmem, holdest]
    rfl
  · exact h.waits_after (t := psoState mem (t.thread, t.builder)) (hsynced mem) hthread havailable
      hflush
  · rintro rfl
    have hbefore : (psoState mem c).builder.available = true := h.available
    rw [havailable, hbefore]
    rfl

end PsoKept

/-- Under PSO, a store is performed after the older stores to its bytes. -/
theorem pso_buffers : Buffers pso (fun _ => True) PsoKept where
  initial := .initial
  issue := by
    intro m m₁ c c₁ pending a idx op r h _ hissue
    obtain ⟨⟨t, r⟩, ht, heq⟩ := Option.map_eq_some_iff.mp hissue
    cases heq
    obtain ⟨rfl, hmem, hkept, -⟩ | ⟨bytes, pending₁, rfl, hperformed, heq, hkept⟩ := h.issue ht
    · exact .inl ⟨rfl, hmem, hkept⟩
    · exact .inr ⟨bytes, pending₁, rfl, hperformed, heq ▸ hkept⟩
  background := by
    intro m m₁ c c₁ pending a k h hback
    obtain ⟨t, ht, heq⟩ := Option.map_eq_some_iff.mp hback
    cases heq
    rw [PsoState.step, Option.ite_none_right_eq_some] at ht
    obtain ⟨front, sd, back, a₁, hpending, hfront, hmem, hkept, -⟩ := h.runAux ht.2
    exact ⟨front, sd, back, a₁, hpending, hfront, hmem, hkept⟩

/-! ### Stores of one size -/

/-- The stores that start at an address have a certain size. -/
def Operation.Sized (size : SymAddr → ℕ) : Operation → Prop
  | .store sd => sd.ref.1.size = size sd.ref.1.addr
  | _ => True

/-- The auxiliary threads of all pending stores are available. -/
structure PsoSized (size : SymAddr → ℕ) (c : PsoInterpreterThread × PsoBuilderThread)
    (pending : List SymData) (a : Bool) : Prop extends PsoKept c pending a where
  sizes : ∀ sd ∈ pending, sd.ref.1.size = size sd.ref.1.addr
  numbered : ∀ (b : SymAddr) (k : ℕ), c.2.aux.byteToAux b = some k →
    c.2.aux.auxToByte[k]? = some b
  auxAvailable : ∀ sd ∈ pending, ∃ k, c.2.aux.byteToAux sd.ref.1.addr = some k ∧
    c.2.auxAvailable k = true

theorem AuxNumbering.byteToAux_add {numbering : AuxNumbering} {b b' : SymAddr} {k : ℕ}
    (hnumbered : ∀ (b : SymAddr) (k : ℕ), numbering.byteToAux b = some k →
      numbering.auxToByte[k]? = some b)
    (h : (numbering.add b').byteToAux b = some k) :
    (numbering.add b').auxToByte[k]? = some b := by
  cases hb' : numbering.byteToAux b' with
  | some k' =>
      rw [AuxNumbering.add, hb'] at h ⊢
      exact hnumbered b k h
  | none =>
      by_cases hb : b = b'
      · subst hb
        simp only [AuxNumbering.add, hb', Function.update_self, Option.some.injEq] at h ⊢
        subst h
        simp
      · have hold : numbering.byteToAux b = some k := by
          simpa [AuxNumbering.add, hb', hb] using h
        exact AuxNumbering.getElem?_add (hnumbered b k hold)

theorem AuxNumbering.byteToAux_add_self (numbering : AuxNumbering) (b : SymAddr) :
    ∃ k, (numbering.add b).byteToAux b = some k := by
  rw [AuxNumbering.add]
  split
  · exact ⟨_, ‹_›⟩
  · exact ⟨_, Function.update_self ..⟩

/-- The numbers that are given stay. -/
theorem AuxNumbering.byteToAux_add_of_some {numbering : AuxNumbering} {b b' : SymAddr} {k : ℕ}
    (h : numbering.byteToAux b = some k) : (numbering.add b').byteToAux b = some k := by
  rw [AuxNumbering.add]
  split
  · exact h
  next hnone =>
    have hne : b ≠ b' := by
      rintro rfl
      rw [h] at hnone
      cases hnone
    simpa [hne] using h

namespace PsoSized

variable {size : SymAddr → ℕ} {c c₁ : PsoInterpreterThread × PsoBuilderThread}
  {pending pending₁ : List SymData} {op : Operation} {a : Bool} {mem mem₁ : Memory}
  {bytes : List Byte} {k : ℕ}

theorem initial : PsoSized size pso.initial [] true :=
  ⟨.initial, by simp, by simp [pso, AuxNumbering.empty], by simp⟩

theorem after (h : PsoSized size c pending a) (hsized : op.Sized size)
    (hperformed : Performed mem pending op mem₁ bytes pending₁)
    (hkept : PsoKept (PsoKept.after mem c op) pending₁ true) :
    PsoSized size (PsoKept.after mem c op) pending₁ true := by
  cases hperformed with
  | load ml hserved => exact ⟨hkept, h.sizes, h.numbered, h.auxAvailable⟩
  | fenced _ hfence hpending =>
      have hafter : PsoKept.after mem c op = c := by cases op <;> first | rfl | cases hfence
      exact ⟨hkept, by simp, hafter.symm ▸ h.numbered, by simp⟩
  | store sd =>
      have haux : (PsoKept.after mem c (.store sd)).2.aux = c.2.aux.add sd.ref.1.addr := rfl
      obtain ⟨k, hk⟩ := c.2.aux.byteToAux_add_self sd.ref.1.addr
      have havailable : (PsoKept.after mem c (.store sd)).2.auxAvailable =
          Function.update c.2.auxAvailable k true := by
        simp only [PsoKept.after, PsoState.visitStoreInst, psoState, Bool.false_eq_true, if_false,
          PsoBuilderThread.store, hk]
      refine ⟨hkept, ?_, ?_, ?_⟩
      · intro y hy
        obtain hy | hy := List.mem_append.mp hy
        · exact h.sizes y hy
        · obtain rfl := List.mem_singleton.mp hy
          exact hsized
      · intro b k' hb
        rw [haux] at hb ⊢
        exact AuxNumbering.byteToAux_add h.numbered hb
      · intro y hy
        rw [haux, havailable]
        obtain hy | hy := List.mem_append.mp hy
        · obtain ⟨k', hk', ha⟩ := h.auxAvailable y hy
          refine ⟨k', AuxNumbering.byteToAux_add_of_some hk', ?_⟩
          rw [Function.update_apply]
          split
          · rfl
          · exact ha
        · obtain rfl := List.mem_singleton.mp hy
          exact ⟨k, hk, Function.update_self ..⟩

theorem aux_eq (h : PsoSized size c pending a) : c.1.aux = c.2.aux := by
  obtain heq | ⟨sd, hsd, -⟩ := (h.synced fun _ => 0).numbering
  · exact heq
  · cases hsd

theorem ref_eq (h : PsoSized size c pending a) {sd y : SymData} (hsd : sd ∈ pending)
    (hy : y ∈ pending) (haddr : y.ref.1.addr = sd.ref.1.addr) : y.ref = sd.ref := by
  have hsize : y.ref.1.size = sd.ref.1.size := by rw [h.sizes y hy, h.sizes sd hsd, haddr]
  apply Subtype.ext
  cases hy' : y.ref.1
  cases hsd' : sd.ref.1
  simp_all

/-- Another store with the range of a pending store is pending on all its bytes. -/
theorem two_le_length {front back : List SymData} {sd y : SymData} (hy : y ∈ back)
    (href : y.ref = sd.ref) {b : SymAddr} (hb : b ∈ sd.ref.bytes) :
    1 < (queue SymData.covers (front ++ sd :: back) b).length := by
  have hmem : y ∈ queue SymData.covers back b :=
    List.mem_filter.mpr ⟨hy, SymData.covers_iff.mpr (href ▸ hb)⟩
  have hpos := List.length_pos_of_mem hmem
  rw [queue_append, queue_cons_of_pos (SymData.covers_iff.mpr hb), List.length_append,
    List.length_cons]
  omega

theorem runAux {t : PsoState} (h : PsoSized size c pending a)
    (hrun : (psoState mem c).runAux k = some t) :
    ∃ (front : List SymData) (sd : SymData) (back : List SymData) (a₁ : Bool),
      pending = front ++ sd :: back ∧ (∀ y ∈ front, ∀ b ∈ sd.ref.bytes, y.covers b = false) ∧
        t.mem = mem.write sd ∧ PsoSized size (t.thread, t.builder) (front ++ back) a₁ ∧
          (a = true → a₁ = true) ∧ (psoState mem c).auxRange k = some sd.ref := by
  obtain ⟨front, sd, back, a₁, rfl, hfront, hmem, hkept, ha, hml⟩ := h.toPsoKept.runAux hrun
  have hsub : ∀ y ∈ front ++ back, y ∈ front ++ sd :: back := by
    simp only [List.mem_append, List.mem_cons]
    tauto
  obtain ⟨-, -, -, -, -, -, hbuilderAux, -⟩ := PsoState.runAux_eq_some hrun
  refine ⟨front, sd, back, a₁, rfl, hfront, hmem, ⟨hkept, fun y hy => h.sizes y (hsub y hy), ?_, ?_⟩,
    ha, hml⟩
  · intro b k' hb
    have hnumbered := h.numbered b k'
    rw [hbuilderAux] at hb ⊢
    exact hnumbered hb
  · intro y hy
    obtain ⟨k', hk', hy'⟩ := h.auxAvailable y (hsub y hy)
    refine ⟨k', by rw [hbuilderAux]; exact hk', ?_⟩
    rw [PsoState.runAux_auxAvailable hrun hml, Function.update_apply]
    split
    next heq =>
      -- the other store starts at the same address
      subst heq
      have haddr : y.ref.1.addr = sd.ref.1.addr := by
        have hbyte := PsoState.auxToByte_of_auxRange hml
        have hnumber := h.numbered _ _ hk'
        rw [← h.aux_eq] at hnumber
        exact Option.some.inj (hnumber.symm.trans hbyte)
      have href := h.ref_eq (by simp) (hsub y hy) haddr
      have hback : y ∈ back := by
        obtain hy | hy := List.mem_append.mp hy
        · have hnot := hfront y hy _ sd.ref.addr_mem_bytes
          rw [SymData.covers_eq_false, href] at hnot
          exact absurd sd.ref.addr_mem_bytes hnot
        · exact hy
      rw [Bool.and_eq_true, List.all_eq_true]
      refine ⟨hy', fun b hb => ?_⟩
      rw [(h.synced mem).builder, List.length_map]
      exact decide_eq_true (two_le_length hback href hb)
    next => exact hy'

/-- The auxiliary thread of the oldest pending store performs it. -/
theorem update {sd : SymData} (h : PsoSized size c (sd :: pending) a) (mem : Memory) :
    ∃ (k : ℕ) (t : PsoState) (a₁ : Bool), (psoState mem c).step (.runAux k) = some t ∧
      t.mem = mem.write sd ∧ PsoSized size (t.thread, t.builder) pending a₁ ∧
        (a = true → a₁ = true) := by
  have hsynced := h.synced mem
  obtain ⟨k, hk, hk'⟩ := h.auxAvailable sd List.mem_cons_self
  have hbyte := h.numbered _ _ hk
  have hhead : ∀ b ∈ sd.ref.bytes,
      ((psoState mem c).builder.storeBuffers.get b).head? = some sd.ref := by
    intro b hb
    rw [hsynced.builder, queue_cons_of_pos (SymData.covers_iff.mpr hb)]
    rfl
  have hatHead : (psoState mem c).builder.isAuxAtHead k = true := by
    have hbyte' : (psoState mem c).builder.aux.auxToByte[k]? = some sd.ref.1.addr := hbyte
    rw [PsoBuilderThread.isAuxAtHead, hbyte', Option.any_some, hhead _ sd.ref.addr_mem_bytes,
      Option.any_some, List.all_eq_true]
    intro b hb
    rw [hhead b hb]
    simp
  obtain ⟨t, ht⟩ := Option.isSome_iff_exists.mp (hsynced.runAux_isSome hatHead)
  obtain ⟨front, sd', back, a₁, hpending, hfront, hmem, hkept, ha, hml⟩ := h.runAux ht
  have haddr : sd'.ref.1.addr = sd.ref.1.addr := by
    have hnumber := PsoState.auxToByte_of_auxRange hml
    have haux : (psoState mem c).thread.aux = c.2.aux := h.aux_eq
    rw [haux, hbyte] at hnumber
    exact (Option.some.inj hnumber).symm
  have hnil : front = [] := by
    cases front with
    | nil => rfl
    | cons y front =>
        obtain rfl : sd = y := (List.cons.inj hpending).1
        have hnot := hfront sd List.mem_cons_self _ sd'.ref.addr_mem_bytes
        rw [SymData.covers_eq_false, haddr] at hnot
        exact absurd sd.ref.addr_mem_bytes hnot
  subst hnil
  obtain ⟨rfl, rfl⟩ := List.cons.inj hpending
  refine ⟨k, t, a₁, ?_, hmem, hkept, ha⟩
  have hguard : (psoState mem c).builder.auxAvailable k = true := hk'
  rw [PsoState.step, hguard, hatHead]
  exact ht

end PsoSized

/-- If the stores that start at one address have one size, all pending stores can be performed. -/
theorem pso_drains (size : SymAddr → ℕ) : Drains pso (Operation.Sized size) (PsoSized size) where
  initial := .initial
  issue := by
    intro m m₁ c c₁ pending a idx op r h hsized hissue
    obtain ⟨⟨t, r⟩, ht, heq⟩ := Option.map_eq_some_iff.mp hissue
    cases heq
    obtain ⟨rfl, hmem, hkept, hbuilder⟩ | ⟨bytes, pending₁, rfl, hperformed, heq, hkept⟩ :=
      h.toPsoKept.issue ht
    · exact .inl ⟨rfl, hmem, hkept, h.sizes, by simpa [hbuilder] using h.numbered,
        by simpa [hbuilder] using h.auxAvailable⟩
    · exact .inr ⟨bytes, pending₁, rfl, hperformed, heq ▸ h.after hsized hperformed hkept⟩
  background := by
    intro m m₁ c c₁ pending a k h hback
    obtain ⟨t, ht, heq⟩ := Option.map_eq_some_iff.mp hback
    cases heq
    rw [PsoState.step, Option.ite_none_right_eq_some] at ht
    obtain ⟨front, sd, back, a₁, hpending, hfront, hmem, hkept, -⟩ := h.runAux ht.2
    exact ⟨front, sd, back, a₁, hpending, hfront, hmem, hkept⟩
  perform := by
    intro _ m m₁ c pending pending₁ op bytes h hsized hperformed
    obtain ⟨t, ht, rfl, heq, hkept⟩ := h.toPsoKept.perform hperformed
    refine ⟨(t.thread, t.builder), Option.map_eq_some_iff.mpr ⟨_, ht, rfl⟩, ?_⟩
    rw [heq]
    exact h.after hsized hperformed hkept
  update := by
    intro m c pending sd a h
    obtain ⟨k, t, a₁, ht, hmem, hkept, ha⟩ := h.update m
    exact ⟨k, _, a₁, Option.map_eq_some_iff.mpr ⟨t, ht, by rw [hmem]⟩, hkept, ha⟩
  idle := by
    intro c a h
    have hwaits := h.waits
    cases hflush : c.1.awaitingBufferFlush with
    | no =>
        rw [hflush] at hwaits
        exact hwaits
    | full =>
        rw [hflush] at hwaits
        exact absurd rfl hwaits.2
    | loadable ml =>
        rw [hflush] at hwaits
        exact absurd (.inl (by simp)) hwaits.2

end Nidhugg
