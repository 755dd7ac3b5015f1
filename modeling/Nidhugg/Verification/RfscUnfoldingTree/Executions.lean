import Nidhugg.Verification.RfscTraceBuilder.Candidates
import Nidhugg.Verification.RfscUnfoldingTree.Nodes

/-! # Events and their unfolding nodes

The node of an event stands for its thread and for what the events before it in the thread have
read. -/

namespace Nidhugg

open HashConsing RfscUnfoldingTree

namespace RfscTraceBuilder

variable {s : RfscTraceBuilder} {tree tree' : RfscUnfoldingTree} {nodes : List ℕ}

/-- The node that the event at a position reads from or joins. -/
def sourceNode (s : RfscTraceBuilder) (nodes : List ℕ) (k : ℕ) : Option ℕ :=
  (s.events[k]?.bind fun e => s.unfoldingSource (nodes.take k) e).getD none

/-- The sources of the events of a thread up to a position. -/
def chainOf (s : RfscTraceBuilder) (relevant : Event → Bool) (nodes : List ℕ) (p i : ℕ) :
    List (Option ℕ) :=
  ((List.range (i + 1)).filter fun k => s.events[k]?.any fun e =>
    e.iid.pid = p && relevant e).map (s.sourceNode nodes)

/-- The events that have nodes of their own. The first one of a thread is one of them even if it
cannot conflict. -/
def hasNode (e : Event) : Bool := e.mayConflict || e.iid.index = 1

theorem sourceNode_append (s : RfscTraceBuilder) {k : ℕ} (more : List ℕ) (hk : k ≤ nodes.length) :
    s.sourceNode (nodes ++ more) k = s.sourceNode nodes k := by
  rw [sourceNode, sourceNode, List.take_append_of_le_length hk]

theorem chainOf_append (s : RfscTraceBuilder) (relevant : Event → Bool) (p : ℕ) {i : ℕ}
    (more : List ℕ) (hi : i ≤ nodes.length) :
    s.chainOf relevant (nodes ++ more) p i = s.chainOf relevant nodes p i := by
  apply List.map_congr_left
  intro k hk
  have hlt := List.mem_range.mp (List.mem_filter.mp hk).1
  exact s.sourceNode_append more (by omega)

/-- The chain of an event goes on from that of the event before it in its thread. -/
theorem chainOf_step (s : RfscTraceBuilder) (relevant : Event → Bool) (nodes : List ℕ) {k i : ℕ}
    {e : Event} (he : s.events[i]? = some e) (hki : k < i)
    (hbetween : ∀ j d, s.events[j]? = some d → k < j → j < i → d.iid.pid ≠ e.iid.pid) :
    s.chainOf relevant nodes e.iid.pid i = s.chainOf relevant nodes e.iid.pid k ++
      if relevant e then [s.sourceNode nodes i] else [] := by
  have hrange : List.range (i + 1) = List.range (k + 1) ++
      ((List.range (i - (k + 1))).map (k + 1 + ·)) ++ [i] := by
    rw [List.range_succ, ← List.range_add, Nat.add_sub_cancel' hki]
  rw [chainOf, chainOf, hrange, List.filter_append, List.filter_append, List.map_append,
    List.map_append]
  have hnone : ((List.range (i - (k + 1))).map (k + 1 + ·)).filter (fun j => s.events[j]?.any
      fun d => d.iid.pid = e.iid.pid && relevant d) = [] := by
    rw [List.filter_eq_nil_iff]
    intro j hj hany
    obtain ⟨j', hj', rfl⟩ := List.mem_map.mp hj
    rw [List.mem_range] at hj'
    obtain ⟨d, hd, hrel⟩ := (Option.any_eq_true _ _).mp hany
    rw [Bool.and_eq_true, decide_eq_true_eq] at hrel
    exact hbetween _ d hd (by omega) (by omega) hrel.1
  rw [hnone, List.map_nil, List.append_nil, List.filter_singleton, he]
  simp only [Option.any_some, decide_true, Bool.true_and]
  cases relevant e with
  | true => rfl
  | false => rfl

/-- The chain of the first event of a thread. -/
theorem chainOf_first (s : RfscTraceBuilder) (relevant : Event → Bool) (nodes : List ℕ) {i : ℕ}
    {e : Event} (he : s.events[i]? = some e)
    (hbefore : ∀ j d, s.events[j]? = some d → j < i → d.iid.pid ≠ e.iid.pid) :
    s.chainOf relevant nodes e.iid.pid i =
      if relevant e then [s.sourceNode nodes i] else [] := by
  rw [chainOf, List.range_succ, List.filter_append]
  have hnone : (List.range i).filter (fun j => s.events[j]?.any
      fun d => d.iid.pid = e.iid.pid && relevant d) = [] := by
    rw [List.filter_eq_nil_iff]
    intro j hj hany
    obtain ⟨d, hd, hrel⟩ := (Option.any_eq_true _ _).mp hany
    rw [Bool.and_eq_true, decide_eq_true_eq] at hrel
    exact hbefore j d hd (List.mem_range.mp hj) hrel.1
  rw [hnone, List.nil_append, List.filter_singleton, he]
  simp only [Option.any_some, decide_true, Bool.true_and]
  cases relevant e with
  | true => rfl
  | false => rfl

/-! ### The loop of `compute_unfolding` -/

/-- After `j` turns the nodes of the first `j` events have their chains as paths. -/
structure Unfolded (s : RfscTraceBuilder) (start : RfscUnfoldingTree) (j : ℕ)
    (r : RfscUnfoldingTree × List ℕ) : Prop where
  inv : RfscUnfoldingTree.Inv r.1
  grows : Grows start r.1
  length : r.2.length = j
  path : ∀ {i e n}, s.events[i]? = some e → r.2[i]? = some n →
    Path r.1.kept r.1.readFrom n (s.cpid e.iid.pid) (s.chainOf hasNode r.2 e.iid.pid i)

/-- A turn of the loop adds a node with the chain of its event. -/
theorem Unfolded.concat {start : RfscUnfoldingTree} {j n : ℕ} {r : RfscUnfoldingTree × List ℕ}
    {e : Event} (h : Unfolded s start j r) (he : s.events[j]? = some e) (hinv : RfscUnfoldingTree.Inv tree)
    (hgrows : Grows r.1 tree) (hpath : Path tree.kept tree.readFrom n (s.cpid e.iid.pid)
      (s.chainOf hasNode r.2 e.iid.pid j)) : Unfolded s start (j + 1) (tree, r.2 ++ [n]) := by
  refine ⟨hinv, h.grows.trans hgrows, by simp [h.length], ?_⟩
  intro i d m hd hm
  dsimp only at hm ⊢
  have hi : i < j + 1 := by
    have hlt := (List.getElem?_eq_some_iff.mp hm).1
    rw [List.length_append, List.length_singleton, h.length] at hlt
    exact hlt
  rw [s.chainOf_append hasNode _ _ (by rw [h.length]; omega)]
  rcases Nat.lt_succ_iff_lt_or_eq.mp hi with hi | rfl
  · rw [List.getElem?_append_left (by rw [h.length]; exact hi)] at hm
    exact hgrows.path (h.path hd hm)
  · rw [he, Option.some.injEq] at hd
    subst hd
    rw [List.getElem?_append_right (by rw [h.length]), h.length, Nat.sub_self,
      List.getElem?_cons_zero, Option.some.injEq] at hm
    subst hm
    exact hpath

theorem Unfolded.unfoldEvent {start : RfscUnfoldingTree} {j : ℕ}
    {r r' : RfscUnfoldingTree × List ℕ} {e : Event} (hr : Recorded s) (h : Unfolded s start j r)
    (he : s.events[j]? = some e) (hturn : s.unfoldEvent r.1 r.2 e = some r') :
    Unfolded s start (j + 1) r' := by
  -- the source is looked up among the nodes found so far
  have hsource : ∀ {source}, s.unfoldingSource r.2 e = some source →
      s.sourceNode r.2 j = source := by
    intro source hsource
    rw [sourceNode, he, Option.bind_some, List.take_of_length_le (by rw [h.length]), hsource]
    rfl
  rw [RfscTraceBuilder.unfoldEvent] at hturn
  obtain ⟨parent, hparent, hturn⟩ := Option.bind_eq_some_iff.mp hturn
  by_cases hindex : e.iid.index = 1
  · rw [unfoldingParent, if_pos hindex, Option.some.injEq] at hparent
    subst hparent
    obtain ⟨source, hs, hturn⟩ : ∃ source, s.unfoldingSource r.2 e = some source ∧
        some ((r.1.findUnfoldingNode (s.cpid e.iid.pid) none source).2, r.2 ++
          [(r.1.findUnfoldingNode (s.cpid e.iid.pid) none source).1]) = some r' := by
      cases hconflict : e.mayConflict with
      | true =>
          rw [hconflict] at hturn
          exact Option.bind_eq_some_iff.mp hturn
      | false =>
          rw [hconflict] at hturn
          exact Option.bind_eq_some_iff.mp hturn
    cases hturn
    have hfound := h.inv.findUnfoldingNode (s.cpid e.iid.pid) none source
    refine h.concat he (h.inv.find_inv rfl) hfound.grows ?_
    have hnode : hasNode e = true := by simp [hasNode, hindex]
    rw [s.chainOf_first hasNode r.2 he (hr.no_predecessor he hindex), hnode, if_pos rfl, hsource hs]
    exact hfound.path_root
  · rw [unfoldingParent, if_neg hindex, Option.map_eq_some_iff] at hparent
    obtain ⟨k, hk, rfl⟩ := hparent
    obtain ⟨hkj, ⟨d, hd, hpid⟩, hbetween⟩ := hr.predecessor he hk
    obtain ⟨p, hp⟩ : ∃ p, r.2[k]? = some p :=
      ⟨_, List.getElem?_eq_getElem (by rw [h.length]; exact hkj)⟩
    have hpath := h.path hd hp
    rw [hpid] at hpath
    have hchain := s.chainOf_step hasNode r.2 he hkj hbetween
    rw [hp] at hturn
    cases hconflict : e.mayConflict with
    | true =>
        rw [hconflict] at hturn
        obtain ⟨source, hs, hturn⟩ := Option.bind_eq_some_iff.mp hturn
        cases hturn
        have hfound := h.inv.findUnfoldingNode (s.cpid e.iid.pid) (some p) source
        refine h.concat he (h.inv.find_inv (alive_of_path hpath)) hfound.grows ?_
        have hnode : hasNode e = true := by simp [hasNode, hconflict]
        rw [hchain, hnode, if_pos rfl, hsource hs]
        exact hfound.path_node hpath
    | false =>
        rw [hconflict] at hturn
        cases hturn
        refine h.concat he h.inv (Grows.refl _) ?_
        have hnode : hasNode e = false := by simp [hasNode, hconflict, hindex]
        rw [hchain, hnode, if_neg (by decide), List.append_nil]
        exact hpath

/-- The nodes of the events of an execution. -/
theorem Recorded.computeUnfolding (hr : Recorded s) (hinv : RfscUnfoldingTree.Inv tree)
    (hcompute : s.computeUnfolding tree = some (tree', nodes)) :
    Unfolded s tree s.events.length (tree', nodes) := by
  have hstart : Unfolded s tree 0 (tree, []) :=
    ⟨hinv, Grows.refl tree, rfl, fun _ hn => by simp at hn⟩
  have hloop := FoldInvariant.of_foldlM_indexed (n := 0) (fun j r e r' he h hturn => by
    rw [Nat.zero_add] at h ⊢
    exact h.unfoldEvent hr he hturn) hstart hcompute
  rwa [Nat.zero_add] at hloop

end RfscTraceBuilder

namespace UnfoldingHistory

open LabelledRun RfscTraceBuilder

variable {h h' : UnfoldingHistory} {action : UnfoldingAction}

/-- The nodes of all events have their chains as paths. -/
def Unfolded (h : UnfoldingHistory) : Prop :=
  ∀ a ∈ h.executions, a.2.length = a.1.events.length ∧ ∀ {i e n}, a.1.events[i]? = some e →
    a.2[i]? = some n → Path h.tree.kept h.tree.readFrom n (a.1.cpid e.iid.pid)
      (a.1.chainOf hasNode a.2 e.iid.pid i)

theorem Unfolded.grows {tree : RfscUnfoldingTree} (hunfolded : Unfolded h)
    (hgrows : Grows h.tree tree) : Unfolded { h with tree := tree } := by
  intro a ha
  obtain ⟨hlength, hpath⟩ := hunfolded a ha
  exact ⟨hlength, fun he hn => hgrows.path (hpath he hn)⟩

/-- What an execution adds to the history. -/
theorem step_execution {s : RfscTraceBuilder} (hr : Recorded s) (hinv : h.tree.Inv)
    (hstep : h.step (.execution s) = some h') :
    ∃ t nodes, Recorded t ∧ h'.executions = h.executions ++ [(t, nodes)] ∧
      RfscTraceBuilder.Unfolded t h.tree t.events.length (h'.tree, nodes) := by
  obtain ⟨⟨t, below⟩, hclocks, hstep⟩ := Option.bind_eq_some_iff.mp hstep
  obtain ⟨⟨tree, nodes⟩, hcompute, hstep⟩ := Option.bind_eq_some_iff.mp hstep
  cases hstep
  have ht := hr.computeVclocks_recorded hclocks
  exact ⟨t, nodes, ht, rfl, ht.computeUnfolding hinv hcompute⟩

theorem step_inv (hexecution : ∀ s, action = .execution s → Recorded s) (hinv : h.tree.Inv)
    (hstep : h.step action = some h') : h'.tree.Inv := by
  cases action with
  | find cpid parent readFrom =>
      rw [step, Option.ite_none_right_eq_some, Bool.and_eq_true] at hstep
      cases hstep.2
      exact hinv.find_inv hstep.1.1
  | expire n =>
      rw [step, Option.ite_none_right_eq_some, List.all_eq_true] at hstep
      obtain ⟨hunused, hstep⟩ := hstep
      cases hstep
      apply hinv.expire
      intro m hm hparent
      have hnode := hunused m (List.mem_range.mpr (hinv.lt_of_alive hm))
      rw [hm, Bool.not_true, Bool.false_or] at hnode
      obtain ⟨node, hget, hparent⟩ := Option.bind_eq_some_iff.mp hparent
      rw [hget, Option.all_some, Bool.and_eq_true, decide_eq_true_eq] at hnode
      exact hnode.1 hparent
  | execution s =>
      obtain ⟨t, nodes, -, -, hunfolded⟩ := step_execution (hexecution s rfl) hinv hstep
      exact hunfolded.inv

theorem step_unfolded (hexecution : ∀ s, action = .execution s → Recorded s) (hinv : h.tree.Inv)
    (hunfolded : Unfolded h) (hexpire : ∀ n, action ≠ .expire n) (hstep : h.step action = some h') :
    Unfolded h' := by
  cases action with
  | find cpid parent readFrom =>
      rw [step, Option.ite_none_right_eq_some] at hstep
      cases hstep.2
      exact hunfolded.grows (hinv.findUnfoldingNode cpid parent readFrom).grows
  | expire n => exact absurd rfl (hexpire n)
  | execution s =>
      obtain ⟨t, nodes, ht, hexecutions, hnew⟩ := step_execution (hexecution s rfl) hinv hstep
      intro a ha
      rw [hexecutions, List.mem_append, List.mem_singleton] at ha
      rcases ha with ha | rfl
      · exact hunfolded.grows hnew.grows a ha
      · exact ⟨hnew.length, hnew.path⟩

/-! ### Main result -/

/-- Nodes that are alive are identified by their threads, parents and sources. -/
structure Identified (tree : RfscUnfoldingTree) : Prop where
  exists_has : ∀ {n}, tree.alive n = true → ∃ cpid parent readFrom, tree.Has n cpid parent readFrom
  unique : ∀ {n m cpid parent readFrom}, tree.Has n cpid parent readFrom →
    tree.Has m cpid parent readFrom → n = m
  /-- `find_unfolding_node` returns the node that is asked for. -/
  find : ∀ {cpid parent readFrom}, (∀ p, parent = some p → ∃ parent' readFrom',
      tree.Has p cpid parent' readFrom') →
    (tree.findUnfoldingNode cpid parent readFrom).2.Has
      (tree.findUnfoldingNode cpid parent readFrom).1 cpid parent readFrom

/-- Two events have the same node exactly if they belong to the same thread and the events before
them that have nodes read from the same nodes. -/
def SameNodeIff (h : UnfoldingHistory) (relevant : RfscTraceBuilder.Event → Bool) : Prop :=
  ∀ a ∈ h.executions, ∀ b ∈ h.executions, ∀ {i j d e n m}, a.1.events[i]? = some d →
    b.1.events[j]? = some e → a.2[i]? = some n → b.2[j]? = some m →
      (n = m ↔ a.1.cpid d.iid.pid = b.1.cpid e.iid.pid ∧
        a.1.chainOf relevant a.2 d.iid.pid i = b.1.chainOf relevant b.2 e.iid.pid j)

theorem identified_of_inv {tree : RfscUnfoldingTree} (hinv : tree.Inv) : Identified tree where
  exists_has := hinv.exists_has
  unique := hinv.has_unique
  find := by
    intro cpid parent readFrom hparent
    apply hinv.find_has
    intro p hp
    obtain ⟨_, _, hhas⟩ := hparent p hp
    exact hhas.thread

theorem Unfolded.sameNodeIff (hinv : h.tree.Inv) (hunfolded : Unfolded h) :
    SameNodeIff h hasNode := by
  intro a ha b hb i j d e n m hd he hn hm
  exact Path.eq_iff hinv.consed ((hunfolded a ha).2 hd hn) ((hunfolded b hb).2 he hm)

/-- In every tree that is shared by executions, nodes that are alive are identified by their
threads, parents and sources, and as long as no node expires the nodes of events stand for what
was read before them. -/
theorem unfolding_identified {actions : List UnfoldingAction}
    (hexecutions : ∀ s, .execution s ∈ actions → ∃ maxSearchDepth leaf,
      Execution maxSearchDepth leaf s)
    (hrun : run step init actions = some h) :
    Identified h.tree ∧ ((∀ n, .expire n ∉ actions) →
      (∀ a ∈ h.executions, a.2.length = a.1.events.length) ∧ SameNodeIff h hasNode) := by
  have hinv : ∀ {actions h}, (∀ s, .execution s ∈ actions → Recorded s) →
      run step init actions = some h →
      h.tree.Inv ∧ ((∀ n, .expire n ∉ actions) → Unfolded h) := by
    intro actions
    induction actions using List.reverseRecOn with
    | nil =>
        intro h _ hrun
        cases hrun
        exact ⟨RfscUnfoldingTree.empty_inv, fun _ a ha => absurd ha List.not_mem_nil⟩
    | append_singleton actions action ih =>
        intro h hrecorded hrun
        rw [run_concat] at hrun
        obtain ⟨u, hu, hstep⟩ := Option.bind_eq_some_iff.mp hrun
        obtain ⟨hinv, hunfolded⟩ := ih (fun s hs => hrecorded s (List.mem_append_left _ hs)) hu
        have hlast : ∀ s, action = .execution s → Recorded s := by
          rintro s rfl
          exact hrecorded s (List.mem_append_right _ List.mem_cons_self)
        refine ⟨step_inv hlast hinv hstep, fun hexpire => ?_⟩
        refine step_unfolded hlast hinv (hunfolded fun n hn => ?_) ?_ hstep
        · exact hexpire n (List.mem_append_left _ hn)
        · rintro n rfl
          exact hexpire n (List.mem_append_right _ List.mem_cons_self)
  have hrecorded : ∀ s, .execution s ∈ actions → Recorded s := by
    intro s hs
    obtain ⟨_, _, hexecution⟩ := hexecutions s hs
    exact hexecution.recorded
  obtain ⟨hinv, hunfolded⟩ := hinv hrecorded hrun
  refine ⟨identified_of_inv hinv, fun hexpire => ?_⟩
  have hpaths := hunfolded hexpire
  exact ⟨fun a ha => (hpaths a ha).1, hpaths.sameNodeIff hinv⟩

/-! ### First events -/

def byteY : SymAddrSize := ⟨⟨SymMBlock.global 2, 0⟩, 1⟩

/-- The main thread creates a thread that writes `x` and reads `x` before. Then it creates a
thread that does nothing. -/
def readsInitial : RfscTraceBuilder := finish none noLeaf
  [⟨.spawn, [], false⟩, ⟨.load byteX, [], false⟩, ⟨.spawn, [], false⟩,
    ⟨.invisible, [(0, false)], false⟩, ⟨.atomicStore byteX none, [], false⟩,
    ⟨.invisible, [(1, false)], false⟩, ⟨.invisible, [(2, false)], false⟩]

def readsWriteLeaf : Leaf where
  branches := [⟨0, 1, false, .spawn 1, Nat.one_pos⟩, ⟨1, 1, false, .store byteX none, Nat.one_pos⟩,
    ⟨0, 1, false, .load byteX, Nat.one_pos⟩]
  last_visible := by
    intro b hb
    cases hb
    rfl

/-- The main thread reads `x` after the write. Then it creates a thread that writes `y`. -/
def readsWrite : RfscTraceBuilder := finish none readsWriteLeaf
  [⟨.spawn, [], false⟩, ⟨.atomicStore byteX none, [], false⟩, ⟨.load byteX, [], false⟩,
    ⟨.spawn, [], false⟩, ⟨.invisible, [(0, false)], false⟩, ⟨.invisible, [(1, false)], false⟩,
    ⟨.atomicStore byteY none, [], false⟩, ⟨.invisible, [(2, false)], false⟩]

theorem execution_readsInitial : Execution none noLeaf readsInitial :=
  execution_finish (by decide +kernel)

theorem execution_readsWrite : Execution none readsWriteLeaf readsWrite :=
  execution_finish (by decide +kernel)

/-- The first events of the last threads have one node, although only one of them can conflict. -/
theorem not_sameNodeIff_mayConflict : Execution none noLeaf readsInitial ∧
    Execution none readsWriteLeaf readsWrite ∧
    ∃ h, run step init [.execution readsInitial, .execution readsWrite] = some h ∧
      ¬ SameNodeIff h RfscTraceBuilder.Event.mayConflict := by
  refine ⟨execution_readsInitial, execution_readsWrite, ?_⟩
  obtain ⟨h, hrun⟩ : ∃ h, run step init [.execution readsInitial, .execution readsWrite] = some h :=
    Option.isSome_iff_exists.mp (by decide +kernel)
  refine ⟨h, hrun, fun hsame => ?_⟩
  have hnodes : ∀ h ∈ run step init [.execution readsInitial, .execution readsWrite],
      (h.executions[0]?.isSome ∧ h.executions[1]?.isSome) ∧
        (∀ a ∈ h.executions[0]?, a.2[4]? = some 4 ∧ a.1.events[4]?.isSome ∧
          ∀ d ∈ a.1.events[4]?, a.1.chainOf RfscTraceBuilder.Event.mayConflict a.2 d.iid.pid 4 = []) ∧
        ∀ b ∈ h.executions[1]?, b.2[5]? = some 4 ∧ b.1.events[5]?.isSome ∧
          ∀ e ∈ b.1.events[5]?, b.1.chainOf RfscTraceBuilder.Event.mayConflict b.2 e.iid.pid 5 = [none] := by
    decide +kernel
  obtain ⟨⟨hfirst, hsecond⟩, hinitial, hwrite⟩ := hnodes h hrun
  obtain ⟨a, ha⟩ := Option.isSome_iff_exists.mp hfirst
  obtain ⟨b, hb⟩ := Option.isSome_iff_exists.mp hsecond
  obtain ⟨hn, hd, hchain⟩ := hinitial a ha
  obtain ⟨hm, he, hchain'⟩ := hwrite b hb
  obtain ⟨d, hd⟩ := Option.isSome_iff_exists.mp hd
  obtain ⟨e, he⟩ := Option.isSome_iff_exists.mp he
  have hiff := hsame a (List.mem_of_getElem? ha) b (List.mem_of_getElem? hb) hd he hn hm
  rw [hchain d hd, hchain' e he] at hiff
  cases (hiff.mp rfl).2

theorem unfolding_identified_readsWrite :
    ∃ h, run step init [.execution readsInitial, .execution readsWrite] = some h ∧
      SameNodeIff h hasNode := by
  obtain ⟨h, hrun⟩ : ∃ h, run step init [.execution readsInitial, .execution readsWrite] = some h :=
    Option.isSome_iff_exists.mp (by decide +kernel)
  refine ⟨h, hrun, ((unfolding_identified ?_ hrun).2 (by simp)).2⟩
  intro s hs
  rcases List.mem_cons.mp hs with hs | hs
  · cases hs
    exact ⟨_, _, execution_readsInitial⟩
  · cases List.mem_singleton.mp hs
    exact ⟨_, _, execution_readsWrite⟩

end UnfoldingHistory

end Nidhugg
