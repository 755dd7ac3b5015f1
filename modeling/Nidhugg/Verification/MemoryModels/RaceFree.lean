import Nidhugg.Verification.MemoryModels.Inclusion

/-! # Programs without races

Buffers are not observed by a program in which no thread accesses a byte that another thread has
stored to since its last operation with fence semantics. It is enough that this holds under
sequential consistency. -/

namespace Nidhugg

open LabelledRun SharedSystem

namespace Memory

variable {mem mem' : Memory} {sd : SymData} {stores front back : List SymData} {b : SymAddr}

theorem write_apply_of_not_covers (h : sd.covers b = false) : mem.write sd b = mem b := by
  rw [SymData.covers_eq_false, AccessRange.mem_bytes] at h
  rw [write]
  split
  next hin =>
    rw [List.getD_eq_getElem?_getD, List.getElem?_eq_none, Option.getD_none]
    rw [sd.block.2]
    by_contra hlt
    exact h ⟨hin.1, hin.2, by omega⟩
  next => rfl

theorem write_apply_of_covers (h : sd.covers b = true) : mem.write sd b = mem'.write sd b := by
  rw [SymData.covers_iff, AccessRange.mem_bytes] at h
  obtain ⟨hblock, hle, hlt⟩ := h
  have hlength : b.offset - sd.ref.1.addr.offset < sd.block.1.length := by
    rw [sd.block.2]
    omega
  rw [write, write, if_pos ⟨hblock, hle⟩, if_pos ⟨hblock, hle⟩, List.getD_eq_getElem?_getD,
    List.getD_eq_getElem?_getD, List.getElem?_eq_getElem hlength]
  rfl

/-- What is stored to a byte depends on the byte only. -/
theorem write_apply_congr (h : mem b = mem' b) : mem.write sd b = mem'.write sd b := by
  cases hcovers : sd.covers b with
  | true => exact write_apply_of_covers hcovers
  | false => rw [write_apply_of_not_covers hcovers, write_apply_of_not_covers hcovers, h]

theorem foldl_write_apply_congr (h : mem b = mem' b) :
    stores.foldl write mem b = stores.foldl write mem' b := by
  induction stores generalizing mem mem' with
  | nil => exact h
  | cons sd stores ih => exact ih (write_apply_congr h)

theorem foldl_write_apply_of_not_covers (h : ∀ sd ∈ stores, sd.covers b = false) :
    stores.foldl write mem b = mem b := by
  induction stores generalizing mem with
  | nil => rfl
  | cons sd stores ih =>
      rw [List.foldl_cons, ih fun y hy => h y (List.mem_cons_of_mem _ hy),
        write_apply_of_not_covers (h sd List.mem_cons_self)]

/-- A store can be performed before older stores to other bytes. -/
theorem foldl_write_remove (hfront : ∀ y ∈ front, ∀ b ∈ sd.ref.bytes, y.covers b = false) :
    (front ++ back).foldl write (mem.write sd) b = (front ++ sd :: back).foldl write mem b := by
  rw [List.foldl_append, List.foldl_append, List.foldl_cons]
  apply foldl_write_apply_congr
  cases hcovers : sd.covers b with
  | true =>
      have hnot : ∀ y ∈ front, y.covers b = false := fun y hy =>
        hfront y hy b (SymData.covers_iff.mp hcovers)
      rw [foldl_write_apply_of_not_covers hnot]
      exact write_apply_of_covers hcovers
  | false =>
      rw [write_apply_of_not_covers hcovers]
      exact foldl_write_apply_congr (write_apply_of_not_covers hcovers)

theorem read_congr {ml : AccessRange} (h : ∀ b ∈ ml.bytes, mem b = mem' b) :
    mem.read ml.1 = mem'.read ml.1 := by
  apply List.map_congr_left
  intro k hk
  exact h _ (List.mem_map_of_mem hk)

end Memory

/-- An operation depends on the bytes that it accesses and writes at most these. -/
theorem Operation.perform_congr {op : Operation} {mem mem' : Memory}
    (h : ∀ b ∈ op.bytes, mem b = mem' b) : (op.perform mem).2 = (op.perform mem').2 ∧
      ∃ written : List SymData, (∀ sd ∈ written, sd.ref.bytes = op.bytes) ∧
        (op.perform mem).1 = written.foldl Memory.write mem ∧
          (op.perform mem').1 = written.foldl Memory.write mem' := by
  cases op with
  | store sd => exact ⟨rfl, [sd], by simp [bytes], rfl, rfl⟩
  | atomicStore sd => exact ⟨rfl, [sd], by simp [bytes], rfl, rfl⟩
  | load ml => exact ⟨Memory.read_congr h, [], by simp, rfl, rfl⟩
  | fence => exact ⟨rfl, [], by simp, rfl, rfl⟩
  | rmw ml update =>
      have hread : mem.read ml.1 = mem'.read ml.1 := Memory.read_congr h
      refine ⟨hread, ?_⟩
      simp only [perform, hread]
      cases update (mem'.read ml.1) with
      | none => exact ⟨[], by simp, rfl, rfl⟩
      | some block => exact ⟨[⟨ml, block⟩], by simp [bytes], rfl, rfl⟩

variable {γ β ι : Type} [DecidableEq ι] {D : Discipline Memory Operation (List Byte) γ β}
  {programs : ι → Program Operation (List Byte)} {AllowedOf : ι → Operation → Prop}
  {KeptOf : ι → γ → List SymData → Bool → Prop} {s : State ι Memory (List Byte) γ}
  {u : State ι Memory (List Byte) (List SymData)} {pending : ι → List SymData} {t : ι}
  {op : Operation} {c : γ} {a : Bool} {mem : Memory}

/-- No thread is about to access a byte that another thread has stored to since its last operation
with fence semantics. -/
def Free (programs : ι → Program Operation (List Byte))
    (u : State ι Memory (List Byte) (List SymData)) : Prop :=
  ∀ (t t' : ι) (op : Operation), t ≠ t' → programs t (u.results t) = some op →
    ∀ sd ∈ u.component t', ∀ b ∈ op.bytes, sd.covers b = false

/-- No run under sequential consistency has a race. -/
def RaceFree (programs : ι → Program Operation (List Byte)) (mem : Memory) : Prop :=
  ∀ turns u, run (step sc programs) (start sc mem) turns = some u → Free programs u

/-- A state of threads with pending stores and one under sequential consistency. The threads store
to different bytes, and a byte to which no other thread stores has the value that the stores of a
thread give it. -/
structure Agrees (KeptOf : ι → γ → List SymData → Bool → Prop)
    (s : State ι Memory (List Byte) γ) (u : State ι Memory (List Byte) (List SymData))
    (pending : ι → List SymData) : Prop where
  results : u.results = s.results
  kept : ∀ t, ∃ a, KeptOf t (s.component t) (pending t) a
  sublist : ∀ t, (pending t).Sublist (u.component t)
  disjoint : ∀ t t', t ≠ t' → ∀ sd ∈ pending t, ∀ y ∈ pending t', ∀ b ∈ sd.ref.bytes,
    y.covers b = false
  view : ∀ (t : ι) (b : SymAddr), (∀ t', t' ≠ t → ∀ sd ∈ pending t', sd.covers b = false) →
    u.memory b = (pending t).foldl Memory.write s.memory b

namespace Agrees

theorem kept_after (h : Agrees KeptOf s u pending) {m : Memory} {r : Option (List Byte)}
    {p : List SymData} (hc : KeptOf t c p a) (t' : ι) :
    ∃ a, KeptOf t' ((s.after t m c r).component t') (Function.update pending t p t') a := by
  by_cases ht : t' = t
  · subst ht
    exact ⟨a, by simpa [State.after] using hc⟩
  · simpa [State.after, ht] using h.kept t'

/-- Nothing but what is kept for a thread changes. -/
theorem refused (h : Agrees KeptOf s u pending) (hc : KeptOf t c (pending t) a) :
    Agrees KeptOf (s.after t s.memory c none) u pending where
  results := by simpa [State.after] using h.results
  kept := by simpa using h.kept_after (m := s.memory) (r := none) hc
  sublist := h.sublist
  disjoint := h.disjoint
  view := h.view

omit [DecidableEq ι] in
/-- The pending stores of other threads are to other bytes than those that are accessed. -/
theorem covers_eq_false (h : Agrees KeptOf s u pending) (hfree : Free programs u)
    (hop : programs t (s.results t) = some op) {t' : ι} (ht : t' ≠ t) {sd : SymData}
    (hsd : sd ∈ pending t') {b : SymAddr} (hb : b ∈ op.bytes) : sd.covers b = false :=
  hfree t t' op ht.symm (by rw [h.results, hop]) sd ((h.sublist t').subset hsd) b hb

theorem store (h : Agrees KeptOf s u pending) (hfree : Free programs u) {sd : SymData}
    (hop : programs t (s.results t) = some (.store sd)) (hc : KeptOf t c (pending t ++ [sd]) a) :
    Agrees KeptOf (s.after t s.memory c (some []))
      (u.after t (u.memory.write sd) (u.component t ++ [sd]) (some []))
      (Function.update pending t (pending t ++ [sd])) where
  results := by simp [State.after, h.results]
  kept := h.kept_after hc
  sublist := by
    intro t'
    by_cases ht : t' = t
    · subst ht
      simpa [State.after] using (h.sublist t').append_right [sd]
    · simpa [State.after, ht] using h.sublist t'
  disjoint := by
    have hother : ∀ t', t' ≠ t → ∀ y ∈ pending t', ∀ b ∈ sd.ref.bytes, y.covers b = false :=
      fun t' ht y hy b hb => h.covers_eq_false hfree hop ht hy hb
    intro t₁ t₂ hne y₁ hy₁ y₂ hy₂ b hb
    rw [Function.update_apply] at hy₁ hy₂
    split at hy₁
    next ht₁ =>
      rw [if_neg (fun ht₂ => hne (ht₁.trans ht₂.symm))] at hy₂
      obtain hy₁ | hy₁ := List.mem_append.mp hy₁
      · exact h.disjoint t t₂ (ht₁ ▸ hne) y₁ hy₁ y₂ hy₂ b hb
      · obtain rfl := List.mem_singleton.mp hy₁
        exact hother t₂ (ht₁ ▸ hne.symm) y₂ hy₂ b hb
    next ht₁ =>
      split at hy₂
      next ht₂ =>
        obtain hy₂ | hy₂ := List.mem_append.mp hy₂
        · exact h.disjoint t₁ t ht₁ y₁ hy₁ y₂ hy₂ b hb
        · obtain rfl := List.mem_singleton.mp hy₂
          rw [SymData.covers_eq_false]
          intro hb'
          have hnot := hother t₁ ht₁ y₁ hy₁ b hb'
          rw [SymData.covers_eq_false] at hnot
          exact hnot hb
      next ht₂ => exact h.disjoint t₁ t₂ hne y₁ hy₁ y₂ hy₂ b hb
  view := by
    intro t' b hothers
    by_cases ht : t' = t
    · subst ht
      have hview := h.view t' b fun t₁ ht₁ y hy => hothers t₁ ht₁ y (by simpa [ht₁] using hy)
      simp only [State.after, Function.update_self, List.foldl_append, List.foldl_cons,
        List.foldl_nil]
      exact Memory.write_apply_congr hview
    · have hnot : sd.covers b = false := hothers t (Ne.symm ht) sd (by simp)
      have hview := h.view t' b fun t₁ ht₁ y hy => by
        refine hothers t₁ ht₁ y ?_
        rw [Function.update_apply]
        split
        next heq => exact List.mem_append_left _ (heq ▸ hy)
        next => exact hy
      simp only [State.after, Function.update_of_ne ht]
      rw [Memory.write_apply_of_not_covers hnot]
      exact hview

omit [DecidableEq ι] in
/-- The bytes that an operation accesses have the value that the thread sees. -/
theorem memory_eq (h : Agrees KeptOf s u pending) (hfree : Free programs u)
    (hop : programs t (s.results t) = some op) :
    ∀ b ∈ op.bytes, u.memory b = (pending t).foldl Memory.write s.memory b :=
  fun b hb => h.view t b fun _ ht _ hsd => h.covers_eq_false hfree hop ht hsd hb

theorem load (h : Agrees KeptOf s u pending) (hfree : Free programs u) {ml : AccessRange}
    (hop : programs t (s.results t) = some (.load ml)) (hc : KeptOf t c (pending t) a) :
    Agrees KeptOf
      (s.after t s.memory c (some (((pending t).foldl Memory.write s.memory).read ml.1)))
      (u.after t u.memory (u.component t) (some (u.memory.read ml.1))) pending where
  results := by
    have hread := Memory.read_congr (h.memory_eq hfree hop)
    simp [State.after, h.results, hread]
  kept := by simpa using h.kept_after hc
  sublist := by simpa [State.after] using h.sublist
  disjoint := h.disjoint
  view := h.view

theorem fenced (h : Agrees KeptOf s u pending) (hfree : Free programs u)
    (hop : programs t (s.results t) = some op) (hpending : pending t = []) (hc : KeptOf t c [] a) :
    Agrees KeptOf (s.after t (op.perform s.memory).1 c (some (op.perform s.memory).2))
      (u.after t (op.perform u.memory).1 [] (some (op.perform u.memory).2)) pending := by
  have hmemory : ∀ b ∈ op.bytes, u.memory b = s.memory b := by
    have hview := h.memory_eq hfree hop
    rw [hpending] at hview
    exact hview
  obtain ⟨hresult, written, hwritten, hu, hs⟩ := Operation.perform_congr hmemory
  refine ⟨?_, ?_, ?_, h.disjoint, ?_⟩
  · rw [hresult]
    simp [State.after, h.results]
  · have hkept := h.kept_after (t := t) (m := (op.perform s.memory).1)
      (r := some (op.perform s.memory).2) hc
    rwa [← hpending, Function.update_eq_self] at hkept
  · intro t'
    by_cases ht : t' = t
    · subst ht
      rw [hpending]
      exact List.nil_sublist _
    · simpa [State.after, ht] using h.sublist t'
  · intro t' b hothers
    simp only [State.after]
    rw [hu, hs]
    by_cases hb : b ∈ op.bytes
    · have hnot : ∀ y ∈ pending t', y.covers b = false := by
        by_cases ht : t' = t
        · rw [ht, hpending]
          simp
        · exact fun y hy => h.covers_eq_false hfree hop ht hy hb
      rw [Memory.foldl_write_apply_of_not_covers hnot]
      exact Memory.foldl_write_apply_congr (hmemory b hb)
    · have hnot : ∀ y ∈ written, y.covers b = false := fun y hy =>
        SymData.covers_eq_false.mpr (hwritten y hy ▸ hb)
      rw [Memory.foldl_write_apply_of_not_covers hnot, h.view t' b hothers]
      exact Memory.foldl_write_apply_congr (Memory.foldl_write_apply_of_not_covers hnot).symm

theorem update (h : Agrees KeptOf s u pending) {front back : List SymData} {sd : SymData}
    (hpending : pending t = front ++ sd :: back)
    (hfront : ∀ y ∈ front, ∀ b ∈ sd.ref.bytes, y.covers b = false)
    (hc : KeptOf t c (front ++ back) a) :
    Agrees KeptOf (s.after t (s.memory.write sd) c none) u
      (Function.update pending t (front ++ back)) := by
  have hsub : (front ++ back).Sublist (pending t) := by
    rw [hpending]
    exact (List.sublist_cons_self sd back).append_left front
  have hmem : ∀ t' y, y ∈ Function.update pending t (front ++ back) t' → y ∈ pending t' := by
    intro t' y hy
    rw [Function.update_apply] at hy
    split at hy
    next heq => exact heq ▸ hsub.subset hy
    next => exact hy
  have hsd : sd ∈ pending t := by simp [hpending]
  refine ⟨by simpa [State.after] using h.results, h.kept_after hc, ?_, ?_, ?_⟩
  · intro t'
    by_cases ht : t' = t
    · subst ht
      simpa using hsub.trans (h.sublist t')
    · simpa [ht] using h.sublist t'
  · exact fun t₁ t₂ hne y₁ hy₁ y₂ hy₂ => h.disjoint t₁ t₂ hne y₁ (hmem t₁ y₁ hy₁) y₂ (hmem t₂ y₂ hy₂)
  · intro t' b hothers
    simp only [State.after]
    by_cases ht : t' = t
    · subst ht
      rw [Function.update_self, Memory.foldl_write_remove hfront, ← hpending]
      exact h.view t' b fun t₁ ht₁ y hy => hothers t₁ ht₁ y (by simpa [ht₁] using hy)
    · rw [Function.update_of_ne ht]
      have hrest : ∀ y ∈ front ++ back, y.covers b = false := fun y hy =>
        hothers t (Ne.symm ht) y (by simpa using hy)
      cases hcovers : sd.covers b with
      | true =>
          -- no other thread stores to the byte
          have hb := SymData.covers_iff.mp hcovers
          have hview := h.view t b fun t₁ ht₁ y hy => h.disjoint t t₁ ht₁.symm sd hsd y hy b hb
          rw [hview, hpending, ← Memory.foldl_write_remove hfront,
            Memory.foldl_write_apply_of_not_covers hrest, Memory.foldl_write_apply_of_not_covers
            fun y hy => h.disjoint t t' (Ne.symm ht) sd hsd y hy b hb]
      | false =>
          have hview := h.view t' b fun t₁ ht₁ y hy => by
            by_cases heq : t₁ = t
            · subst heq
              rw [hpending, List.mem_append, List.mem_cons] at hy
              obtain hy | rfl | hy := hy
              · exact hrest y (List.mem_append_left _ hy)
              · exact hcovers
              · exact hrest y (List.mem_append_right _ hy)
            · exact hothers t₁ ht₁ y (by simpa [heq] using hy)
          rw [hview]
          exact Memory.foldl_write_apply_congr (Memory.write_apply_of_not_covers hcovers).symm

end Agrees

theorem Agrees.step (hbuffers : ∀ t, Buffers D (AllowedOf t) (KeptOf t))
    (hallowed : ∀ t results op, programs t results = some op → AllowedOf t op)
    (h : Agrees KeptOf s u pending) (hfree : Free programs u) {turn : Turn ι β}
    {s' : State ι Memory (List Byte) γ}
    (hstep : SharedSystem.step D programs s turn = some s') :
    ∃ (turns : List (Turn ι Empty)) (u' : State ι Memory (List Byte) (List SymData))
      (pending' : ι → List SymData),
        run (SharedSystem.step sc programs) u turns = some u' ∧ Agrees KeptOf s' u' pending' := by
  cases turn with
  | background t b =>
      obtain ⟨m, c, hb, rfl⟩ := step_background_eq_some.mp hstep
      obtain ⟨a, hkept⟩ := h.kept t
      obtain ⟨front, sd, back, a₁, hpending, hfront, rfl, hkept₁⟩ :=
        (hbuffers t).background hkept hb
      exact ⟨[], u, _, rfl, h.update hpending hfront hkept₁⟩
  | issue t idx =>
      obtain ⟨op, m, c, r, hop, hissue, rfl⟩ := step_issue_eq_some.mp hstep
      obtain ⟨a, hkept⟩ := h.kept t
      have hrun : run (SharedSystem.step sc programs) u [.issue t idx] =
          some (u.after t (op.perform u.memory).1 (op.unfenced (u.component t))
            (some (op.perform u.memory).2)) := by
        rw [run_cons, step_issue_eq_some.mpr ⟨op, _, _, _, by rw [h.results, hop], rfl, rfl⟩]
        rfl
      obtain ⟨rfl, rfl, hkept₁⟩ | ⟨bytes, pending₁, rfl, hperformed, hkept₁⟩ :=
        (hbuffers t).issue hkept (hallowed t _ op hop) hissue
      · exact ⟨[], u, pending, rfl, h.refused hkept₁⟩
      · cases hperformed with
        | store sd => exact ⟨_, _, _, hrun, h.store hfree hop hkept₁⟩
        | load ml hserved => exact ⟨_, _, _, hrun, h.load hfree hop hkept₁⟩
        | fenced _ hfence hpending =>
            have hunfenced : op.unfenced (u.component t) = [] := by
              cases op <;> first | rfl | cases hfence
            rw [hunfenced] at hrun
            exact ⟨_, _, _, hrun, h.fenced hfree hop hpending hkept₁⟩

/-- A run of a program without races has a run under sequential consistency. -/
theorem exists_sc_run (hbuffers : ∀ t, Buffers D (AllowedOf t) (KeptOf t))
    (hallowed : ∀ t results op, programs t results = some op → AllowedOf t op)
    (hfree : RaceFree programs mem) {turns : List (Turn ι β)}
    (hrun : run (step D programs) (start D mem) turns = some s) :
    ∃ (turns' : List (Turn ι Empty)) (u : State ι Memory (List Byte) (List SymData))
      (pending : ι → List SymData),
        run (step sc programs) (start sc mem) turns' = some u ∧ Agrees KeptOf s u pending := by
  induction turns using List.reverseRecOn generalizing s with
  | nil =>
      cases hrun
      exact ⟨[], start sc mem, fun _ => [], rfl, rfl, fun t => ⟨true, (hbuffers t).initial⟩,
        fun _ => List.Sublist.refl _, by simp, fun _ _ _ => rfl⟩
  | append_singleton turns turn ih =>
      rw [run_concat, Option.bind_eq_some_iff] at hrun
      obtain ⟨s₁, hs₁, hstep⟩ := hrun
      obtain ⟨turns₁, u₁, pending₁, hu₁, hagrees⟩ := ih hs₁
      obtain ⟨turns₂, u, pending, hu, hagrees'⟩ :=
        hagrees.step hbuffers hallowed (hfree turns₁ u₁ hu₁) hstep
      exact ⟨turns₁ ++ turns₂, u, pending, by rw [run_append, hu₁, Option.bind_some, hu], hagrees'⟩

omit [DecidableEq ι] in
theorem Agrees.memory [Inhabited ι] (h : Agrees KeptOf s u pending)
    (hempty : ∀ t, pending t = []) : u.memory = s.memory := by
  funext b
  have hview := h.view default b fun t _ sd hsd => by
    rw [hempty t] at hsd
    cases hsd
  rw [hview, hempty]
  rfl

/-- A program without races has no more results under TSO and PSO than under sequential
consistency, and the same memory once all stores have been performed. -/
theorem sc_of_raceFree [Inhabited ι] (hfree : RaceFree programs mem) :
    (∀ turns s, run (step tso programs) (start tso mem) turns = some s →
      ∃ turns' u, run (step sc programs) (start sc mem) turns' = some u ∧ u.results = s.results ∧
        ((∀ t, (s.component t).1.storeBuffer = []) → u.memory = s.memory)) ∧
      ∀ turns s, run (step pso programs) (start pso mem) turns = some s →
        ∃ turns' u, run (step sc programs) (start sc mem) turns' = some u ∧ u.results = s.results ∧
          ((∀ t, (s.component t).1.allBuffersEmpty = true) → u.memory = s.memory) := by
  constructor
  · intro turns s hrun
    obtain ⟨turns', u, pending, hu, hagrees⟩ :=
      exists_sc_run (fun _ => tso_drains.toBuffers) (fun _ _ _ _ => trivial) hfree hrun
    refine ⟨turns', u, hu, hagrees.results, fun hempty => hagrees.memory fun t => ?_⟩
    obtain ⟨a, hkept⟩ := hagrees.kept t
    rw [← hkept.buffer, hempty]
  · intro turns s hrun
    obtain ⟨turns', u, pending, hu, hagrees⟩ :=
      exists_sc_run (fun _ => pso_buffers) (fun _ _ _ _ => trivial) hfree hrun
    refine ⟨turns', u, hu, hagrees.results, fun hempty => hagrees.memory fun t => ?_⟩
    obtain ⟨a, hkept⟩ := hagrees.kept t
    have hkeys := (hkept.synced s.memory).threadKeys_isEmpty
    rw [← List.isEmpty_iff, ← hkeys]
    exact hempty t

/-! ### Data of one thread -/

/-- Threads access only bytes that are shared or their own, and store without fence semantics only
to their own bytes. -/
structure Private (programs : ι → Program Operation (List Byte)) (owner : SymAddr → Option ι) :
    Prop where
  access : ∀ t results op, programs t results = some op → ∀ b ∈ op.bytes,
    owner b = none ∨ owner b = some t
  store : ∀ t results sd, programs t results = some (.store sd) → ∀ b ∈ sd.ref.bytes,
    owner b = some t

theorem unfenced_eq_or (stores : List SymData) (op : Operation) :
    op.unfenced stores = stores ∨ op.unfenced stores = [] ∨
      ∃ sd, op = .store sd ∧ op.unfenced stores = stores ++ [sd] := by
  cases op with
  | store sd => exact .inr (.inr ⟨sd, rfl, rfl⟩)
  | load ml => exact .inl rfl
  | _ => exact .inr (.inl rfl)

/-- The stores of a thread since its last operation with fence semantics are to its own bytes. -/
def Owned (owner : SymAddr → Option ι) (u : State ι Memory (List Byte) (List SymData)) : Prop :=
  ∀ t, ∀ sd ∈ u.component t, ∀ b ∈ sd.ref.bytes, owner b = some t

theorem Private.owned {owner : SymAddr → Option ι} (h : Private programs owner)
    {turns : List (Turn ι Empty)} (hrun : run (step sc programs) (start sc mem) turns = some u) :
    Owned owner u := by
  refine run_invariant ?_ (fun t sd hsd => by cases hsd) hrun
  intro s turn s' hs hstep
  cases turn with
  | background t b => exact b.elim
  | issue t idx =>
      obtain ⟨op, m, c, r, hop, hissue, rfl⟩ := step_issue_eq_some.mp hstep
      cases hissue
      intro t' sd hsd
      by_cases ht : t' = t
      · subst ht
        simp only [State.after, Function.update_self] at hsd
        obtain heq | heq | ⟨sd', rfl, heq⟩ := unfenced_eq_or (s.component t') op
        · exact hs t' sd (heq ▸ hsd)
        · rw [heq] at hsd
          cases hsd
        · rw [heq, List.mem_append, List.mem_singleton] at hsd
          obtain hsd | rfl := hsd
          · exact hs t' sd hsd
          · exact h.store t' _ sd hop
      · simp only [State.after, Function.update_of_ne ht] at hsd
        exact hs t' sd hsd

theorem Private.raceFree {owner : SymAddr → Option ι} (h : Private programs owner) :
    RaceFree programs mem := by
  intro turns u hrun t t' op hne hop sd hsd b hb
  rw [SymData.covers_eq_false]
  intro hb'
  have howner := h.owned hrun t' sd hsd b hb'
  obtain hnone | hsome := h.access t _ op hop b hb
  · rw [hnone] at howner
    cases howner
  · rw [hsome, Option.some.injEq] at howner
    exact hne howner

/-- Each of two threads stores to its byte and loads it again. -/
def ownBytes (t : Bool) : Program Operation (List Byte)
  | [] => some (.store ⟨ownByte t, Bytes.of [1]⟩)
  | [_] => some (.load (ownByte t))
  | _ :: _ :: _ => none

theorem ownBytes_private : Private ownBytes fun b =>
    if b = (ownByte true).1.addr then some true
    else if b = (ownByte false).1.addr then some false else none := by
  have hbytes : ∀ t, ∀ b ∈ (ownByte t).bytes, b = (ownByte t).1.addr := by
    intro t b hb
    simpa [AccessRange.bytes, ownByte] using hb
  constructor
  · intro t results op hop b hb
    right
    cases results with
    | nil =>
        cases hop
        cases t <;> rw [hbytes _ b hb] <;> decide
    | cons r rest =>
        cases rest with
        | nil =>
            cases hop
            cases t <;> rw [hbytes _ b hb] <;> decide
        | cons r' rest => cases hop
  · intro t results sd hop b hb
    cases results with
    | nil =>
        cases hop
        cases t <;> rw [hbytes _ b hb] <;> decide
    | cons r rest =>
        cases rest with
        | nil => cases hop
        | cons r' rest => cases hop

theorem sc_of_raceFree_ownBytes :
    ∃ turns u, run (step sc ownBytes) (start sc fun _ => 0) turns = some u ∧
      u.results true = [[], [1]] := by
  obtain ⟨turns, u, hrun, hresults, -⟩ := (sc_of_raceFree ownBytes_private.raceFree).2
    [.issue true 0, .issue true 1] _ rfl
  exact ⟨turns, u, hrun, by rw [hresults]; rfl⟩

end Nidhugg
