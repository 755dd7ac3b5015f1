import Nidhugg.Verification.SaturatedGraph.Invariant

/-! # Reverse saturation

Below-clocks are computed in the post-order of a depth-first walk. When no two events of
the care set reach each other, the walk is a reverse topological order and the clocks are
exact; otherwise a clock is read before it has been computed, its zero entries spread to a
root of the walk, and the lookup with that entry breaks its assertion. -/

namespace Nidhugg.SaturatedGraph

open Relation ReadsFrom PostOrder SortedSearch

/-! ## Below-clocks -/

theorem computeBelow_of_ne (g : SaturatedGraph) (top : VClock) (below : ℕ → ClockRef)
    {id x : ℕ} (hx : x ≠ id) : g.computeBelow top below id x = below x := by
  have hfold : ∀ (os : List ℕ) (b : ℕ → ClockRef),
      (os.foldl (fun b o => Function.update b id ((b id).subAssign (b o))) b) x = b x := by
    intro os
    induction os with
    | nil => exact fun _ => rfl
    | cons o os ih =>
        intro b
        rw [List.foldl_cons, ih, Function.update_of_ne hx]
  rw [computeBelow, hfold, Function.update_of_ne hx]

/-- A below-clock holds the least of the event's own start value and the entries of its
other successors. -/
theorem computeBelow_spec (g : SaturatedGraph) (top : VClock) (below : ℕ → ClockRef) (id : ℕ) :
    (g.computeBelow top below id id).length = g.numPids ∧ ∀ p < g.numPids, ∀ k,
      k ≤ (g.computeBelow top below id id).getD p 0 ↔
        k ≤ (if p = (g.events id).iid.pid then (g.events id).iid.index else top.get p) ∧
          ∀ o ∈ g.succs id, o ≠ id → k ≤ (below o).getD p 0 := by
  set start := (ClockRef.assign g.numPids top).set (g.events id).iid.pid (g.events id).iid.index
    with hstart
  have hlen : start.length = g.numPids := by simp [hstart]
  have hval : ∀ p < g.numPids, start.getD p 0 =
      if p = (g.events id).iid.pid then (g.events id).iid.index else top.get p := by
    intro p hp
    by_cases hpid : p = (g.events id).iid.pid
    · subst hpid
      simp [hstart, hp]
    · rw [if_neg hpid, ← ClockRef.getD_assign top hp]
      simp [hstart, List.getElem?_set_ne (Ne.symm hpid)]
  -- the fold lowers the entries of `id` and reads those of the other successors
  have hfold : ∀ (os : List ℕ) (b : ℕ → ClockRef), (∀ o ≠ id, b o = below o) →
      (b id).length = g.numPids →
      ((os.foldl (fun b o => Function.update b id ((b id).subAssign (b o))) b) id).length =
          g.numPids ∧
        ∀ p < g.numPids, ∀ k,
          k ≤ ((os.foldl (fun b o => Function.update b id ((b id).subAssign (b o))) b) id).getD p 0 ↔
            k ≤ (b id).getD p 0 ∧ ∀ o ∈ os, o ≠ id → k ≤ (below o).getD p 0 := by
    intro os
    induction os with
    | nil => exact fun b _ hb => ⟨hb, by simp⟩
    | cons o os ih =>
        intro b hb hblen
        obtain ⟨hl, hk⟩ := ih (Function.update b id ((b id).subAssign (b o)))
          (fun x hx => by rw [Function.update_of_ne hx, hb x hx]) (by simp [hblen])
        refine ⟨hl, fun p hp k => ?_⟩
        rw [List.foldl_cons, hk p hp, Function.update_self,
          ClockRef.getD_subAssign _ _ (by omega), Nat.le_min]
        by_cases ho : o = id
        · subst ho
          simp
        · rw [hb o ho]
          simp [ho, and_assoc]
  obtain ⟨hl, hk⟩ := hfold (g.succs id) (Function.update below id start)
    (fun o ho => Function.update_of_ne ho _ _) (by rw [Function.update_self, hlen])
  refine ⟨hl, fun p hp k => ?_⟩
  have := hk p hp k
  rwa [Function.update_self, hval p hp] at this

theorem get_top (g : SaturatedGraph) {p : ℕ} (hp : p < g.numPids) :
    g.top.get p = (g.eventsByPid p).length + 1 := by
  simp [top, VClock.get, List.getElem?_map, List.getElem?_range hp]

/-- The entries of a below-clock tell which events are reachable. -/
structure BelowExact (g : SaturatedGraph) (id : ℕ) (c : ClockRef) : Prop where
  length : c.length = g.numPids
  pos : ∀ p < g.numPids, 0 < c.getD p 0
  le_iff : ∀ i < g.size, c.getD (g.events i).iid.pid 0 ≤ (g.events i).iid.index ↔
    ReflTransGen (Edge g) id i

/-- A path to another event leaves by an edge to another event. -/
theorem exists_first_edge {g : SaturatedGraph} {a i : ℕ} (hai : ReflTransGen (Edge g) a i)
    (hne : a ≠ i) : ∃ o, Edge g a o ∧ o ≠ a ∧ ReflTransGen (Edge g) o i := by
  induction hai using ReflTransGen.head_induction_on with
  | refl => exact absurd rfl hne
  | @head a c hac hci ih =>
      by_cases hca : c = a
      · subst hca
        exact ih hne
      · exact ⟨c, hac, hca, hci⟩

/-- A below-clock is exact when those of the event's other successors are. -/
theorem belowExact_step {g g' : SaturatedGraph} (h : Layout g) (hl : Links g)
    (hs : SameLayout g g') {below : ℕ → ClockRef} {id : ℕ} (hid : id < g.size)
    (hsuccs : ∀ o, o ∈ g'.succs id ↔ o ∈ g.succs id)
    (hbelow : ∀ o ∈ g.succs id, o ≠ id → BelowExact g o (below o)) :
    BelowExact g id (g'.computeBelow g.top below id id) := by
  obtain ⟨hlen, hk⟩ := computeBelow_spec g' g.top below id
  rw [hs.numPids, hs.events] at hk
  rw [hs.numPids] at hlen
  refine ⟨hlen, fun p hp => ?_, fun i hi => ?_⟩
  · refine (hk p hp 1).mpr ⟨?_, fun o ho hne => ?_⟩
    · split
      · exact (h.get_index hid).1
      · rw [get_top g hp]
        omega
    · exact (hbelow o ((hsuccs o).mp ho) hne).pos p hp
  · have hp := h.pid_lt i hi
    have hki := hk _ hp ((g.events i).iid.index + 1)
    have hstart : (g.events i).iid.index + 1 ≤
          (if (g.events i).iid.pid = (g.events id).iid.pid then (g.events id).iid.index
            else g.top.get (g.events i).iid.pid) ↔
        ¬ ((g.events i).iid.pid = (g.events id).iid.pid ∧ id ≤ i) := by
      split
      · rename_i hpid
        have := h.le_iff_index_le hid hi hpid.symm
        simp only [hpid, true_and, this]
        omega
      · rename_i hpid
        rw [get_top g hp]
        have := h.index_le_length hi
        simp only [hpid, false_and, not_false_eq_true, iff_true]
        omega
    rw [hstart] at hki
    rw [← not_iff_not, Nat.not_le, Nat.lt_iff_add_one_le, hki]
    constructor
    · rintro ⟨hpo, hothers⟩ hreach
      by_cases heq : id = i
      · subst heq
        exact hpo ⟨rfl, le_rfl⟩
      · obtain ⟨o, hedge, hne, hoi⟩ := exists_first_edge hreach heq
        have ho := (h.mem_succs hl hid).mpr hedge
        have hle := ((hbelow o ho hne).le_iff i hi).mpr hoi
        have := hothers o ((hsuccs o).mpr ho) hne
        omega
    · intro hno
      refine ⟨?_, fun o ho hne => ?_⟩
      · rintro ⟨hpid, hle⟩
        rcases Nat.eq_or_lt_of_le hle with rfl | hlt
        · exact hno .refl
        · exact hno (h.po_reaches hid hi hpid.symm hlt).to_reflTransGen
      · have ho' := (hsuccs o).mp ho
        by_contra hlt
        have hoi := ((hbelow o ho' hne).le_iff i hi).mp (by omega)
        exact hno (.head ((h.mem_succs hl hid).mp ho') hoi)

/-! ## The first write below an event -/

/-- `pe` is the first write of `p` to the address of `w` that `w` reaches, other than `w`. -/
def FirstBelow (g : SaturatedGraph) (w p pe : ℕ) : Prop :=
  pe ∈ g.writesByProcessAndAddress p (g.events w).addr ∧ pe ≠ w ∧
    ReflTransGen (Edge g) w pe ∧
    ∀ w' ∈ g.writesByProcessAndAddress p (g.events w).addr, w' ≠ w →
      ReflTransGen (Edge g) w w' → pe ≤ w'

theorem firstVisibleWrite_congr {g g' : SaturatedGraph} (hs : SameLayout g g') (id : ℕ)
    (addr : SymAddr) (c : ClockRef) (p : ℕ) :
    g'.firstVisibleWrite id addr c p = g.firstVisibleWrite id addr c p := by
  simp only [firstVisibleWrite, maybeGetProcessEvent, hs.eventsByPid,
    hs.writesByProcessAndAddress]

/-- A lookup with an exact below-clock succeeds and finds the first write below the
event. -/
theorem firstVisibleWrite_spec {g : SaturatedGraph} (h : Layout g) {w : ℕ} {c : ClockRef}
    (hc : BelowExact g w c) {p : ℕ} (hp : p < g.numPids) :
    ∃ o, g.firstVisibleWrite w (g.events w).addr c p = .ok o ∧
      ∀ pe, o = some pe ↔ FirstBelow g w p pe := by
  have hpos := hc.pos p hp
  set writes := g.writesByProcessAndAddress p (g.events w).addr with hwrites
  have hsort : writes.Pairwise (· < ·) := h.writes_sorted _ _
  unfold firstVisibleWrite maybeGetProcessEvent
  rw [if_neg hpos.ne', ← hwrites]
  -- a write is reached exactly when its index is not below the clock entry
  have hreach : ∀ x ∈ writes, ReflTransGen (Edge g) w x ↔
      c.getD p 0 ≤ (g.events x).iid.index := by
    intro x hx
    obtain ⟨hxs, hxp, -, -⟩ := (h.mem_writes _ _ x).mp hx
    rw [← hc.le_iff x hxs, hxp]
  cases hget : (g.eventsByPid p)[c.getD p 0 - 1]? with
  | none =>
      refine ⟨none, rfl, fun pe => ?_⟩
      simp only [reduceCtorEq, false_iff]
      rintro ⟨hmem, -, hpe, -⟩
      have hlen := List.getElem?_eq_none_iff.mp hget
      obtain ⟨hps, hpp, -, -⟩ := (h.mem_writes _ _ pe).mp hmem
      have hle := (hreach pe hmem).mp hpe
      have := h.index_le_length hps
      rw [hpp] at this
      omega
  | some fv =>
      have hfvmem := (h.mem_eventsByPid p fv).mp (List.mem_of_getElem? hget)
      have hfvi := h.index_of_get p _ fv hget
      have hshown : ∀ x, x ∈ writes.drop (lowerBound writes fv) ↔
          x ∈ writes ∧ ReflTransGen (Edge g) w x := by
        intro x
        rw [mem_drop_lowerBound hsort]
        refine and_congr_right fun hx => ?_
        obtain ⟨hxs, hxp, -, -⟩ := (h.mem_writes _ _ x).mp hx
        rw [hreach x hx, h.le_iff_index_le hfvmem.1 hxs (hfvmem.2.trans hxp.symm), hfvi]
        omega
      have hdrop : (writes.drop (lowerBound writes fv)).Pairwise (· < ·) :=
        hsort.sublist (List.drop_sublist _ _)
      refine ⟨if (writes.drop (lowerBound writes fv)).head? = some w then
          (writes.drop (lowerBound writes fv)).tail.head?
        else (writes.drop (lowerBound writes fv)).head?, ?_, fun pe => ?_⟩
      · simp only [Bind.bind, Except.bind, Pure.pure, Except.pure]
        split <;> rfl
      · rw [head?_skip_eq_some_iff hdrop, FirstBelow, ← hwrites, hshown]
        constructor
        · rintro ⟨⟨hmem, hpe⟩, hne, hmin⟩
          exact ⟨hmem, hne, hpe, fun x hx hxw hxr => hmin x ((hshown x).mpr ⟨hx, hxr⟩) hxw⟩
        · rintro ⟨hmem, hne, hpe, hmin⟩
          exact ⟨⟨hmem, hpe⟩, hne, fun x hx hxw =>
            hmin x ((hshown x).mp hx).1 hxw ((hshown x).mp hx).2⟩

/-! ## One event of the care set -/

theorem addReaderEdges_extends {g : SaturatedGraph} (hq : QueueOk g) (pe : ℕ)
    (readers : List ℕ) :
    Extends g (readers.foldl (fun g r => if r = pe then g else g.addEdgeInternal r pe) g)
      (fun a b => b = pe ∧ a ∈ readers ∧ a ≠ pe)
      (fun x => x = pe ∧ ∃ r ∈ readers, r ≠ pe) := by
  have hstep : ∀ (g : SaturatedGraph) (r : ℕ), QueueOk g →
      Extends g (if r = pe then g else g.addEdgeInternal r pe)
        (fun a b => a = r ∧ b = pe ∧ r ≠ pe) (fun x => x = pe ∧ r ≠ pe) := by
    intro g r hq
    by_cases hr : r = pe
    · rw [if_pos hr]
      exact (Extends.refl hq).congr (by simp [hr]) (by simp [hr])
    · rw [if_neg hr]
      exact (addEdgeInternal_extends hq r pe).congr (by simp [hr]) (by simp [hr])
  refine (Extends.foldl hstep readers hq).congr ?_ ?_
  · intro a b
    constructor
    · rintro ⟨r, hr, rfl, rfl, hne⟩
      exact ⟨rfl, hr, hne⟩
    · rintro ⟨rfl, ha, hne⟩
      exact ⟨a, ha, rfl, rfl, hne⟩
  · intro x
    constructor
    · rintro ⟨r, hr, rfl, hne⟩
      exact ⟨rfl, r, hr, hne⟩
    · rintro ⟨rfl, r, hr, hne⟩
      exact ⟨r, hr, rfl, hne⟩

/-- The edges that reverse saturation adds at `w`. -/
def missedEdge (g : SaturatedGraph) (w a b : ℕ) : Prop :=
  a ∈ g.newOut w ∧ a ≠ b ∧ ∃ p < g.numPids, FirstBelow g w p b

/-- The processes' turns at an event with an exact below-clock. -/
theorem reverseProcs_spec {g : SaturatedGraph} (h : Layout g) {w : ℕ} {c : ClockRef}
    (hc : BelowExact g w c) (out : List ℕ) (pids : List ℕ) (hpids : ∀ p ∈ pids, p < g.numPids) :
    ∀ {g₁ : SaturatedGraph}, SameLayout g g₁ → QueueOk g₁ →
      ∃ g₂, pids.foldlM (reverseProc w (g.events w).addr c out) g₁ = .ok g₂ ∧
        Extends g₁ g₂ (fun a b => a ∈ out ∧ a ≠ b ∧ ∃ p ∈ pids, FirstBelow g w p b)
          (fun x => ∃ a, a ∈ out ∧ a ≠ x ∧ ∃ p ∈ pids, FirstBelow g w p x) := by
  induction pids with
  | nil =>
      intro g₁ _ hq
      exact ⟨g₁, rfl, (Extends.refl hq).congr (by simp) (by simp)⟩
  | cons p pids ih =>
      intro g₁ hs hq
      obtain ⟨o, ho, hspec⟩ := firstVisibleWrite_spec h hc (hpids p (by simp))
      rw [← firstVisibleWrite_congr hs] at ho
      -- one process's turn
      obtain ⟨g', hrun, hx⟩ : ∃ g', reverseProc w (g.events w).addr c out g₁ p = .ok g' ∧
          Extends g₁ g' (fun a b => a ∈ out ∧ a ≠ b ∧ FirstBelow g w p b)
            (fun x => ∃ a, a ∈ out ∧ a ≠ x ∧ FirstBelow g w p x) := by
        cases o with
        | none =>
            have hno : ∀ b, ¬ FirstBelow g w p b := fun b hb => by
              simpa using (hspec b).mpr hb
            refine ⟨g₁, ?_, (Extends.refl hq).congr (by simp [hno]) (by simp [hno])⟩
            simp [reverseProc, ho, Bind.bind, Except.bind, Pure.pure, Except.pure]
        | some pe =>
            have hpe : ∀ b, FirstBelow g w p b ↔ b = pe := by
              intro b
              rw [← hspec b, Option.some.injEq, eq_comm]
            refine ⟨_, ?_, (addReaderEdges_extends hq pe out).congr ?_ ?_⟩
            · simp [reverseProc, ho, Bind.bind, Except.bind, Pure.pure, Except.pure]
            · intro a b
              rw [hpe]
              constructor
              · rintro ⟨rfl, ha, hne⟩
                exact ⟨ha, hne, rfl⟩
              · rintro ⟨ha, hne, rfl⟩
                exact ⟨rfl, ha, hne⟩
            · intro x
              simp only [hpe]
              constructor
              · rintro ⟨rfl, r, hr, hne⟩
                exact ⟨r, hr, hne, rfl⟩
              · rintro ⟨r, hr, hne, rfl⟩
                exact ⟨rfl, r, hr, hne⟩
      obtain ⟨g₂, hrun₂, hx₂⟩ :=
        ih (fun q hq => hpids q (by simp [hq])) (hs.trans hx.layout) hx.queueOk
      refine ⟨g₂, by simp [List.foldlM_cons, hrun, hrun₂, Bind.bind, Except.bind], ?_⟩
      refine (hx.trans hx₂).congr ?_ ?_
      · intro a b
        simp only [List.mem_cons, exists_eq_or_imp]
        tauto
      · intro x
        simp only [List.mem_cons, exists_eq_or_imp]
        constructor
        · rintro (⟨a, ha, hne, hb⟩ | ⟨a, ha, hne, hb⟩)
          · exact ⟨a, ha, hne, .inl hb⟩
          · exact ⟨a, ha, hne, .inr hb⟩
        · rintro ⟨a, ha, hne, hb | hb⟩
          · exact .inl ⟨a, ha, hne, hb⟩
          · exact .inr ⟨a, ha, hne, hb⟩

/-! ## Walks in reverse topological order -/

theorem mem_newOut {g : SaturatedGraph} (h : Layout g) {w r : ℕ} (hw : w < g.size) :
    r ∈ g.newOut w ↔
      r < g.size ∧ (g.events r).readFrom = some w ∧ g.saturatedUntil ≤ r := by
  unfold newOut
  by_cases hs : (g.events w).isStore = true
  · simp only [hs, if_true, List.mem_filter, h.mem_readers w hw, decide_eq_true_eq, and_assoc]
  · simp only [hs]
    constructor
    · intro hr
      exact absurd hr (by simp)
    · rintro ⟨hr, hrf, -⟩
      exact absurd (h.readFrom_spec r hr w hrf).2.2.1 hs

/-- The state after the events `done` have been handled. -/
structure Reversed (g : SaturatedGraph) (done : List ℕ)
    (s : SaturatedGraph × (ℕ → ClockRef)) : Prop where
  edges : Extends g s.1 (fun a b => ∃ w ∈ done, missedEdge g w a b)
    (fun x => ∃ w ∈ done, ∃ a, missedEdge g w a x)
  below : ∀ x ∈ done, BelowExact g x (s.2 x)

theorem Reversed.step {g : SaturatedGraph} (h : Layout g) (hl : Links g) {l₁ l₂ : List ℕ}
    {id : ℕ} (hnodup : (l₁ ++ id :: l₂).Nodup) (hlt : ∀ x ∈ l₁ ++ id :: l₂, x < g.size)
    (hfirst : SuccessorsFirst g.succs (l₁ ++ id :: l₂))
    {s : SaturatedGraph × (ℕ → ClockRef)} (hs : Reversed g l₁ s) :
    ∃ s', reverseOne g.top s id = .ok s' ∧ Reversed g (l₁ ++ [id]) s' := by
  obtain ⟨g₁, below⟩ := s
  have hid : id < g.size := hlt id (by simp)
  have hidl : id ∉ l₁ := fun hmem => (List.nodup_append.mp hnodup).2.2 id hmem id (by simp) rfl
  have hlay : SameLayout g g₁ := hs.edges.layout
  have hsat : g₁.saturatedUntil = g.saturatedUntil := hs.edges.saturatedUntil
  -- the edges added so far leave from readers that have been handled before
  have hsuccs : ∀ o, o ∈ g₁.succs id ↔ o ∈ g.succs id := by
    intro o
    have houts : o ∈ g₁.outs id ↔ o ∈ g.outs id := by
      rw [hs.edges.mem_outs]
      refine or_iff_left ?_
      rintro ⟨w, hw, hread, -, -⟩
      have hws : w < g.size := hlt w (by simp [hw])
      obtain ⟨-, hrf, -⟩ := (mem_newOut h hws).mp hread
      have hwid : id ≠ w := (h.readFrom_spec id hid w hrf).1.ne'
      obtain ⟨m₁, m₂, rfl⟩ := List.append_of_mem hw
      have hidw : id ∈ g.succs w :=
        (h.mem_succs hl hws).mpr ⟨hid, mem_preds.mpr (.inr (.inl hrf))⟩
      have := hfirst m₁ w (m₂ ++ id :: l₂) (by simp) id hidw hwid
      exact hidl (by simp [this])
    simp only [succs, poSuccessor, List.mem_append, hlay.events, hlay.eventsByPid, houts]
  have hbelow : ∀ o ∈ g.succs id, o ≠ id → BelowExact g o (below o) :=
    fun o ho hne => hs.below o (hfirst l₁ id l₂ rfl o ho hne)
  have hexact := belowExact_step h hl hlay hid hsuccs hbelow
  have hnew : g₁.newOut id = g.newOut id := by
    simp only [newOut, hlay.events, hsat]
  have hkeep : ∀ x ∈ l₁ ++ [id], BelowExact g x (g₁.computeBelow g.top below id x) := by
    intro x hx
    rcases List.mem_append.mp hx with hx' | hx
    · have hne : x ≠ id := by
        rintro rfl
        exact hidl hx'
      rw [computeBelow_of_ne _ _ _ hne]
      exact hs.below x hx'
    · rw [List.mem_singleton.mp hx]
      exact hexact
  by_cases hempty : (g.newOut id).isEmpty = true
  · refine ⟨(g₁, g₁.computeBelow g.top below id), ?_, ?_, hkeep⟩
    · simp only [reverseOne, hnew, hempty, if_true, Pure.pure, Except.pure]
    · have hnone : ∀ a b, ¬ missedEdge g id a b := by
        rintro a b ⟨ha, -⟩
        rw [List.isEmpty_iff.mp hempty] at ha
        exact absurd ha (by simp)
      refine hs.edges.congr ?_ ?_
      · intro a b
        simp [or_and_right, exists_or, hnone]
      · intro x
        simp [or_and_right, exists_or, hnone]
  · obtain ⟨g₂, hrun, hx⟩ := reverseProcs_spec h hexact (g.newOut id)
      (List.range g.numPids) (fun p hp => List.mem_range.mp hp) hlay hs.edges.queueOk
    refine ⟨(g₂, g₁.computeBelow g.top below id), ?_, ?_, hkeep⟩
    · simp only [reverseOne, hnew, hempty, if_false, hlay.numPids, hlay.events, hrun, Bind.bind,
        Except.bind, Pure.pure, Except.pure, Bool.false_eq_true]
    · refine (hs.edges.trans hx).congr ?_ ?_
      · intro a b
        simp only [List.mem_append, List.mem_singleton, or_and_right, exists_or,
          exists_eq_left, missedEdge, List.mem_range]
      · intro x
        simp only [List.mem_append, List.mem_singleton, or_and_right, exists_or,
          exists_eq_left, missedEdge, List.mem_range]

theorem Reversed.foldlM {g : SaturatedGraph} (h : Layout g) (hl : Links g) (l₂ : List ℕ) :
    ∀ (l₁ : List ℕ) (s : SaturatedGraph × (ℕ → ClockRef)), (l₁ ++ l₂).Nodup →
      (∀ x ∈ l₁ ++ l₂, x < g.size) → SuccessorsFirst g.succs (l₁ ++ l₂) → Reversed g l₁ s →
      ∃ s', l₂.foldlM (reverseOne g.top) s = .ok s' ∧ Reversed g (l₁ ++ l₂) s' := by
  induction l₂ with
  | nil =>
      intro l₁ s _ _ _ hs
      exact ⟨s, rfl, by simpa using hs⟩
  | cons id l₂ ih =>
      intro l₁ s hnodup hlt hfirst hs
      obtain ⟨s₁, hrun, hs₁⟩ := hs.step h hl hnodup hlt hfirst
      obtain ⟨s', hrun', hs'⟩ := ih (l₁ ++ [id]) s₁ (by simpa using hnodup) (by simpa using hlt)
        (by simpa using hfirst) hs₁
      refine ⟨s', ?_, by simpa using hs'⟩
      simp [List.foldlM_cons, hrun, hrun', Bind.bind, Except.bind]

end Nidhugg.SaturatedGraph
