import Nidhugg.Verification.PsoRecorder.Parts

/-! # Pending stores

The buffers of a thread stay projections of the sequence of its pending stores, and a load that
could be executed can still be executed after an update by the thread. -/

namespace Nidhugg

open ProjectedQueues PsoRecorder

variable {buffers : ByteBuffers PsoPendingStore} {pending front back : List AccessRange}
  {ml range : AccessRange} {b : SymAddr}

/-- Whether a range contains a byte. -/
def AccessRange.covers (ml : AccessRange) (b : SymAddr) : Bool := decide (b ∈ ml.bytes)

theorem AccessRange.covers_iff : ml.covers b = true ↔ b ∈ ml.bytes := decide_eq_true_iff

theorem AccessRange.covers_eq_false : ml.covers b = false ↔ b ∉ ml.bytes := decide_eq_false_iff_not

namespace PsoBuffered

theorem queue_eq (h : PsoBuffered buffers pending) (b : SymAddr) :
    (buffers.get b).map PsoPendingStore.ml = queue AccessRange.covers pending b := h.get b

theorem mem_keys (h : PsoBuffered buffers pending) :
    b ∈ buffers.keys ↔ queue AccessRange.covers pending b ≠ [] := by
  rw [h.keyed b, ← h.queue_eq b, ne_eq, ne_eq, List.map_eq_nil_iff]

theorem push (h : PsoBuffered buffers pending) (pst : PsoPendingStore) :
    PsoBuffered (buffers.pushRange pst.ml fun _ => pst) (pending ++ [pst.ml]) where
  keyed := h.keyed.pushRange _ _
  get := by
    intro b
    rw [ByteBuffers.get_pushRange, queue_concat]
    by_cases hb : b ∈ pst.ml.bytes
    · rw [if_pos hb, if_pos (decide_eq_true hb), List.map_append, h.get]
      rfl
    · rw [if_neg hb, if_neg (by simpa using hb), h.get, List.append_nil]

/-- The store that an auxiliary thread performs is the oldest one for all its bytes. -/
theorem exists_front (h : PsoBuffered buffers pending)
    (hfronts : ∀ b ∈ ml.bytes, ∃ pst, (buffers.get b).head? = some pst ∧ pst.ml = ml) :
    ∃ front back, pending = front ++ ml :: back ∧
      ∀ y ∈ front, ∀ b ∈ ml.bytes, AccessRange.covers y b = false := by
  have hheads : ∀ b ∈ ml.bytes,
      ∃ x, (queue AccessRange.covers pending b).head? = some x ∧ x = ml := by
    intro b hb
    obtain ⟨pst, hpst, heq⟩ := hfronts b hb
    exact ⟨ml, by rw [← h.queue_eq, List.head?_map, hpst, Option.map_some, heq], rfl⟩
  obtain ⟨front, x, back, hpending, rfl, -, hfront⟩ := exists_first ml.bytes_ne_nil hheads
  exact ⟨front, back, hpending, hfront⟩

theorem pop (h : PsoBuffered buffers (front ++ ml :: back))
    (hfront : ∀ y ∈ front, ∀ b ∈ ml.bytes, AccessRange.covers y b = false) :
    PsoBuffered (buffers.popRange ml) (front ++ back) where
  keyed := h.keyed.popRange _
  get := by
    intro b
    change List.map _ _ = queue AccessRange.covers (front ++ back) b
    rw [queue_remove fun y hy b hb => hfront y hy b (AccessRange.covers_iff.mp hb), ByteBuffers.get_popRange, ← h.queue_eq b]
    by_cases hb : b ∈ ml.bytes
    · rw [if_pos hb, if_pos (AccessRange.covers_iff.mpr hb), List.map_tail]
    · rw [if_neg hb, if_neg (by rw [AccessRange.covers_iff]; exact hb)]

/-- Which load an entry was read by last makes no difference. -/
theorem modify (h : PsoBuffered buffers pending) {c : SymAddr} {j : ℕ}
    {f : PsoPendingStore → PsoPendingStore} (hf : ∀ pst, (f pst).ml = pst.ml) :
    PsoBuffered { buffers with
      get := Function.update buffers.get c ((buffers.get c).modify j f) } pending := by
  have hmap : ∀ l : List PsoPendingStore,
      (l.modify j f).map PsoPendingStore.ml = l.map PsoPendingStore.ml := by
    intro l
    apply List.ext_getElem?
    intro k
    simp only [List.getElem?_map, List.getElem?_modify, Option.map_eq_map, Option.map_map]
    congr 1
    funext pst
    dsimp only [Function.comp_apply]
    split
    · exact hf pst
    · rfl
  have hget : ∀ b, ((Function.update buffers.get c ((buffers.get c).modify j f)) b).map
      PsoPendingStore.ml = (buffers.get b).map PsoPendingStore.ml := by
    intro b
    by_cases hb : b = c
    · subst hb
      rw [Function.update_self, hmap]
    · rw [Function.update_of_ne hb]
  refine ⟨?_, ?_⟩
  · intro b
    dsimp only
    rw [ne_eq, ← List.map_eq_nil_iff (f := PsoPendingStore.ml), hget, List.map_eq_nil_iff]
    exact h.keyed b
  · intro b
    dsimp only
    rw [hget]
    exact h.get b

/-- A load is ready if nothing is pending to its bytes, or if the youngest pending store to any of
them has the range of the load. -/
theorem ready_load_iff (h : PsoBuffered buffers pending) :
    Ready buffers (.load range) ↔
      (∀ y ∈ pending, ∀ b ∈ range.bytes, AccessRange.covers y b = false) ∨
        ∃ front back, pending = front ++ range :: back ∧
          ∀ y ∈ back, ∀ b ∈ range.bytes, AccessRange.covers y b = false := by
  have hready : Ready buffers (.load range) ↔ ∀ b ∈ range.bytes, ∀ x,
      (queue AccessRange.covers pending b).getLast? = some x → x = range := by
    constructor
    · intro hready b hb x hx
      rw [← h.queue_eq, List.getLast?_map, Option.map_eq_some_iff] at hx
      obtain ⟨pst, hpst, rfl⟩ := hx
      exact hready b hb pst hpst
    · intro hready b hb pst hpst
      refine hready b hb pst.ml ?_
      rw [← h.queue_eq, List.getLast?_map, hpst]
      rfl
  rw [hready]
  constructor
  · intro hlast
    by_cases hsome : ∃ x ∈ pending, ∃ b ∈ range.bytes, AccessRange.covers x b = true
    · obtain ⟨front, x, back, hpending, ⟨b, hb, hcovers⟩, hback⟩ := exists_last hsome
      have hx := hlast b hb x (by
        rw [hpending]
        exact getLast?_queue (fun y hy => hback y hy b hb) hcovers)
      subst hx
      exact .inr ⟨front, back, hpending, hback⟩
    · refine .inl ?_
      intro y hy b hb
      rw [← Bool.not_eq_true]
      exact fun hcovers => hsome ⟨y, hy, b, hb, hcovers⟩
  · intro hcases b hb x hx
    cases hcases with
    | inl hnone =>
        rw [queue_eq_nil fun y hy => hnone y hy b hb] at hx
        cases hx
    | inr hlast =>
        obtain ⟨front, back, hpending, hback⟩ := hlast
        rw [hpending, getLast?_queue (fun y hy => hback y hy b hb)
          (AccessRange.covers_iff.mpr hb), Option.some.injEq] at hx
        exact hx.symm

/-- What is ready stays so when the oldest store is performed. -/
theorem ready_pop (h : PsoBuffered buffers (front ++ ml :: back))
    (hfront : ∀ y ∈ front, ∀ b ∈ ml.bytes, AccessRange.covers y b = false) {call : PsoCall}
    (hready : Ready buffers call) : Ready (buffers.popRange ml) call := by
  have hpop := h.pop hfront
  cases call with
  | load range =>
      rw [h.ready_load_iff] at hready
      rw [hpop.ready_load_iff]
      cases hready with
      | inl hnone =>
          refine .inl ?_
          intro y hy
          refine hnone y ?_
          rw [List.mem_append] at hy ⊢
          exact hy.imp_right (List.mem_cons_of_mem _)
      | inr hlast =>
          obtain ⟨older, younger, heq, hyounger⟩ := hlast
          cases List.append_eq_append_iff.mp heq with
          | inl hsplit =>
              obtain ⟨rest, holder, hrest⟩ := hsplit
              cases rest with
              | nil =>
                  -- the performed store is the one that the load reads from
                  obtain ⟨rfl, rfl⟩ := List.cons.inj hrest
                  refine .inl ?_
                  intro y hy b hb
                  cases List.mem_append.mp hy with
                  | inl hy => exact hfront y hy b hb
                  | inr hy => exact hyounger y hy b hb
              | cons x rest =>
                  obtain ⟨rfl, hback⟩ := List.cons.inj hrest
                  exact .inr ⟨front ++ rest, younger, by rw [hback, List.append_assoc]; rfl,
                    hyounger⟩
          | inr hsplit =>
              obtain ⟨rest, hfronteq, hrest⟩ := hsplit
              cases rest with
              | nil =>
                  obtain ⟨rfl, rfl⟩ := List.cons.inj hrest
                  refine .inl ?_
                  intro y hy b hb
                  cases List.mem_append.mp hy with
                  | inl hy => exact hfront y hy b hb
                  | inr hy => exact hyounger y hy b hb
              | cons x rest =>
                  obtain ⟨rfl, hyoungereq⟩ := List.cons.inj hrest
                  refine .inr ⟨older, rest ++ back, by rw [hfronteq, List.append_assoc]; rfl, ?_⟩
                  intro y hy
                  refine hyounger y ?_
                  rw [hyoungereq]
                  change y ∈ rest ++ ml :: back
                  rw [List.mem_append] at hy ⊢
                  exact hy.imp_right (List.mem_cons_of_mem _)
  | compareExchange _ _ | atomicRmw _ | condWait _ _ =>
      -- there is a pending store, so no buffers are empty
      exfalso
      have hmem : ml.1.addr ∈ buffers.keys := h.mem_keys.mpr (by
        rw [queue_append, queue_cons_of_pos (AccessRange.covers_iff.mpr ml.addr_mem_bytes)]
        simp)
      have hkeys : buffers.keys = [] := hready
      rw [hkeys] at hmem
      exact absurd hmem List.not_mem_nil
  | _ => trivial

/-- If a load is ready, all its bytes are pending or none is. -/
theorem mem_keys_of_ready (h : PsoBuffered buffers pending) (hready : Ready buffers (.load ml))
    (hb : b ∈ ml.bytes) : b ∈ buffers.keys ↔ ml.1.addr ∈ buffers.keys := by
  rw [h.mem_keys, h.mem_keys]
  cases h.ready_load_iff.mp hready with
  | inl hnone =>
      rw [queue_eq_nil fun y hy => hnone y hy b hb,
        queue_eq_nil fun y hy => hnone y hy _ ml.addr_mem_bytes]
  | inr hlast =>
      obtain ⟨front, back, hpending, -⟩ := hlast
      rw [hpending, queue_append, queue_cons_of_pos (AccessRange.covers_iff.mpr hb), queue_append,
        queue_cons_of_pos (AccessRange.covers_iff.mpr ml.addr_mem_bytes)]
      simp

end PsoBuffered

end Nidhugg
