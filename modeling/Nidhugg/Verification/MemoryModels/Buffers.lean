import Nidhugg.Model.MemoryModels
import Nidhugg.Verification.PsoInterpreter.Loads

/-! # Pending stores of threads

Both interpreters that buffer stores keep the pending stores of a thread in program order, serve
loads from them and perform one of them at a time. -/

namespace Nidhugg

open ProjectedQueues SharedSystem

/-! ### What operations do to pending stores -/

/-- A load is left to memory or reads all of the youngest pending store that it overlaps with. -/
def Served (pending : List SymData) (ml : AccessRange) : Prop :=
  (∀ sd ∈ pending, ml.1.overlaps sd.ref.1 = false) ∨ ∃ front sd back,
    pending = front ++ sd :: back ∧ sd.ref = ml ∧ ∀ y ∈ back, ml.1.overlaps y.ref.1 = false

/-- An operation of a thread with pending stores: memory, the bytes that are returned and the
stores that are pending afterwards. -/
inductive Performed (mem : Memory) (pending : List SymData) :
    Operation → Memory → List Byte → List SymData → Prop where
  | store (sd : SymData) : Performed mem pending (.store sd) mem [] (pending ++ [sd])
  | load (ml : AccessRange) (hserved : Served pending ml) : Performed mem pending (.load ml) mem
      ((pending.foldl Memory.write mem).read ml.1) pending
  | fenced (op : Operation) (hfence : op.isFence = true) (hpending : pending = []) :
      Performed mem pending op (op.perform mem).1 (op.perform mem).2 []

variable {γ β : Type}

/-- The operations and the turns in the background act on pending stores. `Kept c pending a` says
that the thread has certain pending stores and whether it is available. -/
structure Buffers (D : Discipline Memory Operation (List Byte) γ β) (Allowed : Operation → Prop)
    (Kept : γ → List SymData → Bool → Prop) : Prop where
  initial : Kept D.initial [] true
  issue : ∀ {m m₁ : Memory} {c c₁ : γ} {pending : List SymData} {a : Bool} {idx : ℕ}
    {op : Operation} {r : Option (List Byte)}, Kept c pending a → Allowed op →
      D.issue m c idx op = some (m₁, c₁, r) → (r = none ∧ m₁ = m ∧ Kept c₁ pending false) ∨
        ∃ (bytes : List Byte) (pending₁ : List SymData), r = some bytes ∧
          Performed m pending op m₁ bytes pending₁ ∧ Kept c₁ pending₁ true
  background : ∀ {m m₁ : Memory} {c c₁ : γ} {pending : List SymData} {a : Bool} {b : β},
    Kept c pending a → D.background m c b = some (m₁, c₁) →
      ∃ (front : List SymData) (sd : SymData) (back : List SymData) (a₁ : Bool),
        pending = front ++ sd :: back ∧ (∀ y ∈ front, ∀ b ∈ sd.ref.bytes, y.covers b = false) ∧
          m₁ = m.write sd ∧ Kept c₁ (front ++ back) a₁

/-- A thread that is available performs what the pending stores allow, and the oldest pending store
can be performed. -/
structure Drains (D : Discipline Memory Operation (List Byte) γ β) (Allowed : Operation → Prop)
    (Kept : γ → List SymData → Bool → Prop) : Prop extends Buffers D Allowed Kept where
  perform : ∀ (idx : ℕ) {m m₁ : Memory} {c : γ} {pending pending₁ : List SymData}
    {op : Operation} {bytes : List Byte}, Kept c pending true → Allowed op →
      Performed m pending op m₁ bytes pending₁ →
        ∃ c₁ : γ, D.issue m c idx op = some (m₁, c₁, some bytes) ∧ Kept c₁ pending₁ true
  update : ∀ {m : Memory} {c : γ} {pending : List SymData} {sd : SymData} {a : Bool},
    Kept c (sd :: pending) a → ∃ (b : β) (c₁ : γ) (a₁ : Bool),
      D.background m c b = some (m.write sd, c₁) ∧ Kept c₁ pending a₁ ∧ (a = true → a₁ = true)
  idle : ∀ {c : γ} {a : Bool}, Kept c [] a → a = true

/-! ### TSO -/

/-- The stores that are pending under TSO. A thread that is not available waits until some, but not
all, of them are left. -/
structure TsoKept (c : TsoThread × TsoBuilderThread) (pending : List SymData) (a : Bool) :
    Prop where
  buffer : c.1.storeBuffer = pending
  ranges : c.2.storeBuffer.map PendingStore.ml = pending.map fun sd => sd.ref.1
  auxAvailable : c.2.auxAvailable = !pending.isEmpty
  available : c.2.available = a
  flush : if a then c.1.partialBufferFlush = -1
    else 0 ≤ c.1.partialBufferFlush ∧ c.1.partialBufferFlush < pending.length

namespace TsoState

variable {s t : TsoState} {pending : List SymData} {ml : AccessRange} {op : Operation} {a : Bool}
  {idx : ℕ} {r : Option (List Byte)} {bytes : List Byte}

theorem served_iff (hbuffer : s.thread.storeBuffer = pending) :
    s.checkRefuse (.load ml) = none ↔ Served pending ml := by
  subst hbuffer
  refine ⟨checkRefuse_load_eq_none, ?_⟩
  rintro (hdisjoint | ⟨front, sd, back, hsplit, rfl, hback⟩)
  · exact checkRefuse_load_of_disjoint hdisjoint
  · have hself : sd.ref.1.overlaps sd.ref.1 = true := overlaps_of_addr_eq rfl
    have hyoungest : Youngest.youngest? (fun y : SymData => sd.ref.1.overlaps y.ref.1)
        s.thread.storeBuffer = some front.length :=
      Youngest.youngest?_eq_some_iff.mpr ⟨front, sd, back, hsplit, rfl, hself, hback⟩
    rw [hsplit] at hyoungest
    simp [checkRefuse, hsplit, hyoungest]

theorem checkRefuseOperation_fence (hop : op.isFence = true) : s.checkRefuseOperation op =
    if s.thread.storeBuffer.isEmpty then none else some (s.refuse 0) := by
  cases op <;> first | rfl | cases hop

theorem visitOperation_fence (hop : op.isFence = true) : s.visitOperation idx op =
    if s.thread.storeBuffer.isEmpty && s.builder.storeBuffer.isEmpty then
      some ({ s with mem := (op.perform s.mem).1 }, (op.perform s.mem).2)
    else none := by
  cases op <;> first | rfl | cases hop

end TsoState

namespace TsoKept

variable {s t : TsoState} {pending pending₁ : List SymData} {op : Operation} {a : Bool} {idx : ℕ}
  {r : Option (List Byte)} {bytes : List Byte} {mem : Memory}

theorem initial : TsoKept tso.initial [] true := ⟨rfl, rfl, rfl, rfl, rfl⟩

theorem refused (h : TsoKept (s.thread, s.builder) pending true) {flush : ℤ} (hnonneg : 0 ≤ flush)
    (hflush : flush < pending.length) :
    TsoKept ((s.refuse flush).thread, (s.refuse flush).builder) pending false :=
  ⟨h.buffer, h.ranges, h.auxAvailable, rfl, hnonneg, hflush⟩

theorem load (h : TsoKept (s.thread, s.builder) pending a) (ml : AccessRange) :
    TsoKept ((s.builderLoad ml idx).thread, (s.builderLoad ml idx).builder) pending a := by
  refine ⟨?_, ?_, ?_, ?_, ?_⟩
  · rw [TsoState.builderLoad_thread]
    exact h.buffer
  · rw [TsoState.builderLoad_ranges]
    exact h.ranges
  · rw [(TsoState.builderLoad_available idx).2]
    exact h.auxAvailable
  · rw [(TsoState.builderLoad_available idx).1]
    exact h.available
  · rw [TsoState.builderLoad_thread]
    exact h.flush

theorem builder_isEmpty (h : TsoKept (s.thread, s.builder) pending a) :
    s.builder.storeBuffer.isEmpty = pending.isEmpty := by
  have hranges := congrArg List.isEmpty h.ranges
  rwa [List.isEmpty_map, List.isEmpty_map] at hranges

theorem perform (h : TsoKept (s.thread, s.builder) pending true) (idx : ℕ)
    (hperformed : Performed s.mem pending op mem bytes pending₁) :
    ∃ t : TsoState, s.issue idx op = some (t, some bytes) ∧ t.mem = mem ∧
      TsoKept (t.thread, t.builder) pending₁ true := by
  have hbuffer : s.thread.storeBuffer = pending := h.buffer
  have havailable : s.builder.available = true := h.available
  cases hperformed with
  | store sd =>
      refine ⟨{ s with
        thread.storeBuffer := s.thread.storeBuffer ++ [sd]
        builder.storeBuffer := s.builder.storeBuffer ++ [⟨sd.ref.1, idx, none⟩]
        builder.auxAvailable := true }, ?_, rfl, ?_⟩
      · rw [TsoState.issue, if_pos havailable]
        rfl
      · exact ⟨by simp [hbuffer], by simp [h.ranges], by simp, havailable, h.flush⟩
  | load ml hserved =>
      have hnone := (TsoState.served_iff hbuffer).mpr hserved
      refine ⟨s.builderLoad ml idx, ?_, ?_, h.load ml⟩
      · rw [TsoState.issue, if_pos havailable]
        simp only [TsoState.checkRefuseOperation, hnone, TsoState.visitOperation,
          TsoState.visitLoadInst_eq hnone, Option.map_some, TsoState.overlay, hbuffer]
      · rw [TsoState.builderLoad]
        split <;> rfl
  | fenced _ hfence hpending =>
      subst hpending
      refine ⟨{ s with mem := (op.perform s.mem).1 }, ?_, rfl, h⟩
      rw [TsoState.issue, if_pos havailable, TsoState.checkRefuseOperation_fence hfence, hbuffer,
        TsoState.visitOperation_fence hfence, hbuffer, h.builder_isEmpty]
      rfl

theorem issue (h : TsoKept (s.thread, s.builder) pending a)
    (hissue : s.issue idx op = some (t, r)) :
    (r = none ∧ t.mem = s.mem ∧ TsoKept (t.thread, t.builder) pending false) ∨
      ∃ (bytes : List Byte) (pending₁ : List SymData), r = some bytes ∧
        Performed s.mem pending op t.mem bytes pending₁ ∧
          TsoKept (t.thread, t.builder) pending₁ true := by
  have hbuffer : s.thread.storeBuffer = pending := h.buffer
  have havailable : s.builder.available = true := by
    rw [TsoState.issue, Option.ite_none_right_eq_some] at hissue
    exact hissue.1
  obtain rfl : a = true := h.available.symm.trans havailable
  have hperform : ∀ {mem bytes pending₁}, Performed s.mem pending op mem bytes pending₁ →
      ∃ (bytes : List Byte) (pending₁ : List SymData), r = some bytes ∧
        Performed s.mem pending op t.mem bytes pending₁ ∧
          TsoKept (t.thread, t.builder) pending₁ true := by
    intro mem bytes pending₁ hperformed
    obtain ⟨t', ht', rfl, hkept⟩ := h.perform idx hperformed
    cases ht'.symm.trans hissue
    exact ⟨bytes, pending₁, rfl, hperformed, hkept⟩
  cases hop : op.isFence with
  | true =>
      cases hempty : pending.isEmpty with
      | true => exact .inr (hperform (.fenced op hop (List.isEmpty_iff.mp hempty)))
      | false =>
          left
          rw [TsoState.issue, if_pos havailable, TsoState.checkRefuseOperation_fence hop, hbuffer,
            hempty] at hissue
          cases hissue
          have hne : pending ≠ [] := by simpa using hempty
          exact ⟨rfl, rfl, h.refused (Int.le_refl 0) (by simpa using List.length_pos_iff.mpr hne)⟩
  | false =>
      cases op with
      | store sd => exact .inr (hperform (.store sd))
      | load ml =>
          cases href : s.checkRefuse (.load ml) with
          | none => exact .inr (hperform (.load ml ((TsoState.served_iff hbuffer).mp href)))
          | some t' =>
              left
              obtain ⟨front, sd, back, hsplit, -, -, rfl⟩ :=
                TsoState.checkRefuse_load_eq_some href
              simp only [TsoState.issue, havailable, if_true, TsoState.checkRefuseOperation,
                href] at hissue
              cases hissue
              refine ⟨rfl, rfl, h.refused (by omega) ?_⟩
              rw [← hbuffer, hsplit, List.length_append, List.length_cons]
              omega
      | _ => cases hop

theorem runAux (h : TsoKept (s.thread, s.builder) pending a) (hrun : s.runAux = some t) :
    ∃ (sd : SymData) (rest : List SymData) (a₁ : Bool), pending = sd :: rest ∧
      t.mem = s.mem.write sd ∧ TsoKept (t.thread, t.builder) rest a₁ ∧ (a = true → a₁ = true) := by
  obtain ⟨sd, rest, pst, builderRest, hthread, hbuilder, hmem, hrest, hbuilderRest, haux, hflush⟩ :=
    TsoState.runAux_cases hrun
  have hpending : pending = sd :: rest := h.buffer.symm.trans hthread
  subst hpending
  have hranges : builderRest.map PendingStore.ml = rest.map fun sd => sd.ref.1 := by
    have hranges : s.builder.storeBuffer.map PendingStore.ml = _ := h.ranges
    rw [hbuilder, List.map_cons, List.map_cons, List.cons.injEq] at hranges
    exact hranges.2
  have haux' : t.builder.auxAvailable = !rest.isEmpty := by
    have hempty := congrArg List.isEmpty hranges
    rw [List.isEmpty_map, List.isEmpty_map] at hempty
    rw [haux, hempty, Bool.and_self]
  have hkept : ∀ {a₁ : Bool}, t.builder.available = a₁ → (if a₁ then t.thread.partialBufferFlush = -1
      else 0 ≤ t.thread.partialBufferFlush ∧ t.thread.partialBufferFlush < rest.length) →
        TsoKept (t.thread, t.builder) rest a₁ := fun havailable hleft =>
    ⟨hrest, hbuilderRest ▸ hranges, haux', havailable, hleft⟩
  refine ⟨sd, rest, t.builder.available, rfl, hmem, hkept rfl ?_, ?_⟩
  · have hbefore := h.flush
    have havailable : s.builder.available = a := h.available
    split at hflush
    next hle => simp [hflush]
    next hgt =>
      rw [hflush.1, hflush.2, havailable]
      split
      next ha =>
        rw [if_pos ha] at hbefore
        exact hbefore
      next ha =>
        rw [if_neg ha] at hbefore
        exact ⟨hbefore.1, Int.not_le.mp hgt⟩
  · rintro rfl
    split at hflush
    next => exact hflush.2
    next => exact hflush.2.trans h.available

theorem runAux_isSome {sd : SymData} (h : TsoKept (s.thread, s.builder) (sd :: pending) a) :
    ∃ t, s.runAux = some t := by
  have hbuffer : s.thread.storeBuffer = sd :: pending := h.buffer
  have haux : s.builder.auxAvailable = true := h.auxAvailable
  cases hbuilder : s.builder.storeBuffer with
  | nil =>
      have hempty := h.builder_isEmpty
      rw [hbuilder] at hempty
      cases hempty
  | cons pst rest =>
      simp only [TsoState.runAux, hbuffer, hbuilder, haux, if_true]
      exact ⟨_, rfl⟩

end TsoKept

/-- Under TSO, the oldest pending store is performed. -/
theorem tso_background {m m₁ : Memory} {c c₁ : TsoThread × TsoBuilderThread}
    {pending : List SymData} {a : Bool} {b : Unit} (h : TsoKept c pending a)
    (hback : tso.background m c b = some (m₁, c₁)) :
    ∃ (sd : SymData) (rest : List SymData) (a₁ : Bool), pending = sd :: rest ∧
      m₁ = m.write sd ∧ TsoKept c₁ rest a₁ ∧ (a = true → a₁ = true) := by
  obtain ⟨t, ht, heq⟩ := Option.map_eq_some_iff.mp hback
  cases heq
  exact TsoKept.runAux (s := ⟨m, c.1, c.2⟩) h ht

theorem tso_drains : Drains tso (fun _ => True) TsoKept where
  initial := .initial
  issue := by
    intro m m₁ c c₁ pending a idx op r h _ hissue
    obtain ⟨⟨t, r⟩, ht, heq⟩ := Option.map_eq_some_iff.mp hissue
    cases heq
    exact TsoKept.issue (s := ⟨m, c.1, c.2⟩) h ht
  background := by
    intro m m₁ c c₁ pending a b h hback
    obtain ⟨sd, rest, a₁, rfl, hmem, hkept, -⟩ := tso_background h hback
    exact ⟨[], sd, rest, a₁, rfl, by simp, hmem, hkept⟩
  perform := by
    intro idx m m₁ c pending pending₁ op bytes h _ hperformed
    obtain ⟨t, ht, rfl, hkept⟩ := TsoKept.perform (s := ⟨m, c.1, c.2⟩) h idx hperformed
    exact ⟨_, Option.map_eq_some_iff.mpr ⟨_, ht, rfl⟩, hkept⟩
  update := by
    intro m c pending sd a h
    obtain ⟨t, ht⟩ := TsoKept.runAux_isSome (s := ⟨m, c.1, c.2⟩) h
    obtain ⟨sd', rest, a₁, heq, hmem, hkept, ha⟩ := TsoKept.runAux (s := ⟨m, c.1, c.2⟩) h ht
    cases heq
    exact ⟨(), _, a₁, Option.map_eq_some_iff.mpr ⟨t, ht, by rw [hmem]⟩, hkept, ha⟩
  idle := by
    intro c a h
    have hflush := h.flush
    cases a with
    | true => rfl
    | false =>
        rw [if_neg (by decide), List.length_nil] at hflush
        omega

end Nidhugg
