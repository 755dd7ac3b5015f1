import Nidhugg.Model.RfscUnfoldingTree

/-! # The nodes of the unfolding tree

The lists of the tree keep all nodes that are alive, and no two of them with the same thread,
parent and source. -/

namespace Nidhugg.RfscUnfoldingTree

open HashConsing

variable {tree tree' : RfscUnfoldingTree} {slot : Slot CPid} {parent readFrom : Option ℕ} {n m : ℕ}
  {cpid : CPid}

/-! ### One search -/

/-- What a search over `list` finds, and the list it leaves. -/
structure Searched (tree : RfscUnfoldingTree) (readFrom : Option ℕ) (list : List ℕ)
    (r : Option ℕ × List ℕ) : Prop where
  found : ∀ c, r.1 = some c → c ∈ list ∧ tree.alive c = true ∧ tree.readFrom c = readFrom
  subset : ∀ c ∈ r.2, c ∈ list
  kept : ∀ c ∈ list, tree.alive c = true → c ∈ r.2
  missing : r.1 = none → ∀ c ∈ list, tree.alive c = true → tree.readFrom c ≠ readFrom

theorem search_searched {left : ℕ} {front rest : List ℕ} (hleft : rest.length ≤ left)
    (hfront : ∀ c ∈ front, tree.readFrom c ≠ readFrom) :
    Searched tree readFrom (front ++ rest) (tree.search readFrom left front rest) := by
  induction left generalizing front rest with
  | zero =>
      rw [List.length_eq_zero_iff.mp (Nat.le_zero.mp hleft), search, List.append_nil]
      · exact ⟨by simp, fun _ h => h, fun _ h _ => h, fun _ c hc _ => hfront c hc⟩
      · simp
  | succ left ih =>
      cases rest with
      | nil =>
          rw [search, List.append_nil]
          · exact ⟨by simp, fun _ h => h, fun _ h _ => h, fun _ c hc _ => hfront c hc⟩
          · simp
      | cons c rest =>
          rw [List.length_cons, Nat.succ_le_succ_iff] at hleft
          rw [search]
          by_cases halive : tree.alive c = true
          · rw [if_pos halive]
            by_cases hread : tree.readFrom c = readFrom
            · rw [if_pos hread]
              refine ⟨?_, fun _ h => h, fun _ h _ => h, by simp⟩
              intro d hd
              cases hd
              exact ⟨List.mem_append_right _ List.mem_cons_self, halive, hread⟩
            · rw [if_neg hread, List.append_cons front c rest]
              refine ih hleft ?_
              intro d hd
              rcases List.mem_append.mp hd with hd | hd
              · exact hfront d hd
              · rw [List.mem_singleton.mp hd]
                exact hread
          · rw [if_neg halive]
            cases hlast : rest.getLast? with
            | none =>
                rw [List.getLast?_eq_none_iff] at hlast
                subst hlast
                refine ⟨by simp, fun d hd => List.mem_append_left _ hd, ?_, ?_⟩
                · intro d hd halive'
                  rcases List.mem_append.mp hd with hd | hd
                  · exact hd
                  · rw [List.mem_singleton.mp hd] at halive'
                    exact absurd halive' halive
                · intro _ d hd halive'
                  rcases List.mem_append.mp hd with hd | hd
                  · exact hfront d hd
                  · rw [List.mem_singleton.mp hd] at halive'
                    exact absurd halive' halive
            | some back =>
                -- the same entries without the null pointer
                obtain ⟨init, rfl⟩ := List.getLast?_eq_some_iff.mp hlast
                dsimp only
                rw [List.dropLast_concat]
                have hmem : ∀ d, d ∈ front ++ back :: init ↔ d ∈ front ++ (init ++ [back]) := by
                  intro d
                  simp only [List.mem_append, List.mem_cons, List.not_mem_nil, or_false]
                  rw [or_comm (a := d = back)]
                have hcons : ∀ d, d ∈ front ++ c :: (init ++ [back]) ↔
                    d = c ∨ d ∈ front ++ (init ++ [back]) := by
                  intro d
                  simp only [List.mem_append, List.mem_cons]
                  exact or_left_comm
                have hih := @ih front (back :: init) (by
                  rw [List.length_append, List.length_singleton] at hleft
                  exact hleft) hfront
                refine ⟨?_, ?_, ?_, ?_⟩
                · intro d hd
                  obtain ⟨hin, hrest⟩ := hih.found d hd
                  exact ⟨(hcons d).mpr (.inr ((hmem d).mp hin)), hrest⟩
                · intro d hd
                  exact (hcons d).mpr (.inr ((hmem d).mp (hih.subset d hd)))
                · intro d hd halive'
                  rcases (hcons d).mp hd with rfl | hd
                  · exact absurd halive' halive
                  · exact hih.kept d ((hmem d).mpr hd) halive'
                · intro hnone d hd halive'
                  rcases (hcons d).mp hd with rfl | hd
                  · exact absurd halive' halive
                  · exact hih.missing hnone d ((hmem d).mpr hd) halive'

/-! ### The invariant -/

/-- The entries of a list that are not null. -/
def kept (tree : RfscUnfoldingTree) (slot : Slot CPid) : List ℕ :=
  (tree.children slot).filter tree.alive

theorem mem_kept : n ∈ tree.kept slot ↔ n ∈ tree.children slot ∧ tree.alive n = true :=
  List.mem_filter

/-- Where a node with a parent is kept, and the other nodes of a thread. -/
def slotOf (cpid : CPid) : Option ℕ → Slot CPid
  | some p => .node p
  | none => .root cpid

def parentOf (tree : RfscUnfoldingTree) (n : ℕ) : Option ℕ :=
  tree.nodes[n]?.bind UnfoldingNode.parent

theorem alive_of_path {labels : List (Option ℕ)}
    (h : Path tree.kept tree.readFrom n cpid labels) : tree.alive n = true := by
  cases h with
  | first hin => exact (mem_kept.mp hin).2
  | next _ hin => exact (mem_kept.mp hin).2

structure Inv (tree : RfscUnfoldingTree) : Prop where
  consed : Consed tree.kept tree.readFrom
  lt_of_alive : ∀ {n}, tree.alive n = true → n < tree.nodes.length
  lt_of_mem : ∀ {slot n}, n ∈ tree.children slot → n < tree.nodes.length
  root : ∀ {n cpid}, n ∈ tree.kept (.root cpid) → tree.parentOf n = none
  node : ∀ {n p}, n ∈ tree.kept (.node p) → tree.parentOf n = some p
  path : ∀ {n}, tree.alive n = true → ∃ cpid labels, Path tree.kept tree.readFrom n cpid labels

theorem empty_inv : Inv empty := by
  have hkept : ∀ slot, kept empty slot = [] := fun _ => rfl
  refine ⟨⟨?_, ?_⟩, ?_, ?_, ?_, ?_, ?_⟩
  · intro n a b hn
    rw [hkept] at hn
    cases hn
  · intro n m a hn
    rw [hkept] at hn
    cases hn
  · intro n hn
    cases hn
  · intro slot n hn
    cases hn
  · intro n cpid hn
    rw [hkept] at hn
    cases hn
  · intro n p hn
    rw [hkept] at hn
    cases hn
  · intro n hn
    cases hn

/-! ### Finding nodes -/

/-- The node that is returned is kept in its list, the only one that may be new. -/
structure Found (tree : RfscUnfoldingTree) (slot : Slot CPid) (parent readFrom : Option ℕ) (n : ℕ)
    (tree' : RfscUnfoldingTree) : Prop where
  mem_iff : ∀ a m, m ∈ tree'.kept a ↔ m ∈ tree.kept a ∨ (a = slot ∧ m = n)
  subset : ∀ a m, m ∈ tree'.children a → m ∈ tree.children a ∨ m = n
  readFrom_eq : tree'.readFrom n = readFrom
  alive_iff : ∀ m, tree'.alive m = true ↔ tree.alive m = true ∨ m = n
  nodes : ∀ m, tree.alive m = true → tree'.nodes[m]? = tree.nodes[m]?
  lt : n < tree'.nodes.length ∧ tree.nodes.length ≤ tree'.nodes.length
  /-- A new node gets the parent, and no node that is alive has the same source. -/
  new : n ∈ tree.kept slot ∨ (tree.alive n = false ∧ tree'.parentOf n = parent ∧
    ∀ m ∈ tree.kept slot, tree.readFrom m ≠ readFrom)

theorem Inv.getOrCreate (h : Inv tree) (slot : Slot CPid) (parent readFrom : Option ℕ) :
    Found tree slot parent readFrom (tree.getOrCreate slot parent readFrom).1
      (tree.getOrCreate slot parent readFrom).2 := by
  have hsearched : Searched tree readFrom (tree.children slot)
      (tree.search readFrom (tree.children slot).length [] (tree.children slot)) :=
    search_searched (Nat.le_refl _) fun c hc => absurd hc List.not_mem_nil
  rw [RfscUnfoldingTree.getOrCreate]
  generalize tree.search readFrom (tree.children slot).length [] (tree.children slot) = r at hsearched
  obtain ⟨found, list⟩ := r
  -- the pruned list keeps the entries that are alive
  have hlist : ∀ m, tree.alive m = true → (m ∈ list ↔ m ∈ tree.children slot) := by
    intro m hm
    exact ⟨hsearched.subset m, fun hin => hsearched.kept m hin hm⟩
  cases found with
  | some c =>
      obtain ⟨hc, halive, hread⟩ := hsearched.found c rfl
      refine ⟨?_, ?_, hread, ?_, fun _ _ => rfl, ⟨h.lt_of_alive halive, Nat.le_refl _⟩,
        .inl (mem_kept.mpr ⟨hc, halive⟩)⟩
      · intro a m
        rw [mem_kept, mem_kept]
        dsimp only
        by_cases ha : a = slot
        · subst ha
          rw [Function.update_self]
          constructor
          · rintro ⟨hm, hm'⟩
            exact .inl ⟨hsearched.subset m hm, hm'⟩
          · rintro (⟨hm, hm'⟩ | ⟨-, rfl⟩)
            · exact ⟨hsearched.kept m hm hm', hm'⟩
            · exact ⟨hsearched.kept m hc halive, halive⟩
        · rw [Function.update_of_ne ha]
          simp [ha]
      · intro a m hm
        dsimp only at hm
        by_cases ha : a = slot
        · subst ha
          rw [Function.update_self] at hm
          exact .inl (hsearched.subset m hm)
        · rw [Function.update_of_ne ha] at hm
          exact .inl hm
      · intro m
        constructor
        · exact .inl
        · rintro (hm | rfl)
          · exact hm
          · exact halive
  | none =>
      dsimp only
      have hdead : tree.alive tree.nodes.length = false := by
        rw [← Bool.not_eq_true]
        intro halive
        exact Nat.lt_irrefl _ (h.lt_of_alive halive)
      have hne : ∀ m, tree.alive m = true → m ≠ tree.nodes.length := by
        intro m hm heq
        rw [heq, hdead] at hm
        cases hm
      refine ⟨?_, ?_, ?_, ?_, ?_, ?_, .inr ⟨hdead, ?_, ?_⟩⟩
      · intro a m
        rw [mem_kept, mem_kept]
        dsimp only
        by_cases hm : m = tree.nodes.length
        · subst hm
          rw [Function.update_self]
          by_cases ha : a = slot
          · subst ha
            simp
          · -- the new number is in no other list
            rw [Function.update_of_ne ha]
            have hnot : tree.nodes.length ∉ tree.children a :=
              fun hin => Nat.lt_irrefl _ (h.lt_of_mem hin)
            simp [ha, hdead, hnot]
        · rw [Function.update_of_ne hm]
          by_cases ha : a = slot
          · subst ha
            rw [Function.update_self]
            simp only [List.mem_append, List.mem_singleton, hm, or_false, and_false]
            constructor
            · rintro ⟨hin, halive⟩
              exact ⟨hsearched.subset m hin, halive⟩
            · rintro ⟨hin, halive⟩
              exact ⟨hsearched.kept m hin halive, halive⟩
          · rw [Function.update_of_ne ha]
            simp [hm]
      · intro a m hm
        dsimp only at hm
        by_cases ha : a = slot
        · subst ha
          rw [Function.update_self, List.mem_append, List.mem_singleton] at hm
          exact hm.imp (hsearched.subset m) id
        · rw [Function.update_of_ne ha] at hm
          exact .inl hm
      · simp [RfscUnfoldingTree.readFrom]
      · intro m
        by_cases hm : m = tree.nodes.length
        · subst hm
          simp
        · simp [hm]
      · intro m hm
        rw [List.getElem?_append_left (h.lt_of_alive hm)]
      · simp
      · simp [parentOf]
      · intro m hm
        exact hsearched.missing rfl m (mem_kept.mp hm).1 (mem_kept.mp hm).2

/-- Nodes and their places are not lost. -/
structure Grows (tree tree' : RfscUnfoldingTree) : Prop where
  alive : ∀ m, tree.alive m = true → tree'.alive m = true
  kept : ∀ a m, m ∈ tree.kept a → m ∈ tree'.kept a ∧ tree'.readFrom m = tree.readFrom m

theorem Grows.refl (tree : RfscUnfoldingTree) : Grows tree tree :=
  ⟨fun _ h => h, fun _ _ h => ⟨h, rfl⟩⟩

theorem Grows.trans {tree'' : RfscUnfoldingTree} (h : Grows tree tree') (h' : Grows tree' tree'') :
    Grows tree tree'' := by
  refine ⟨fun m hm => h'.alive m (h.alive m hm), ?_⟩
  intro a m hm
  obtain ⟨hm', hread⟩ := h.kept a m hm
  obtain ⟨hm'', hread'⟩ := h'.kept a m hm'
  exact ⟨hm'', hread'.trans hread⟩

theorem Grows.path {labels : List (Option ℕ)} (h : Grows tree tree')
    (hpath : Path tree.kept tree.readFrom n cpid labels) :
    Path tree'.kept tree'.readFrom n cpid labels :=
  hpath.mono h.kept

theorem Found.grows (h : Found tree slot parent readFrom n tree') : Grows tree tree' := by
  refine ⟨fun m hm => (h.alive_iff m).mpr (.inl hm), ?_⟩
  intro a m hm
  refine ⟨(h.mem_iff a m).mpr (.inl hm), ?_⟩
  rw [RfscUnfoldingTree.readFrom, RfscUnfoldingTree.readFrom, h.nodes m (mem_kept.mp hm).2]

theorem Found.mem_self (h : Found tree slot parent readFrom n tree') : n ∈ tree'.kept slot :=
  (h.mem_iff slot n).mpr (.inr ⟨rfl, rfl⟩)

/-- The members of the lists of a tree in which a node was found. -/
theorem Found.cases (h : Found tree slot parent readFrom n tree') {a : Slot CPid}
    (hm : m ∈ tree'.kept a) : m ∈ tree.kept a ∨
      (a = slot ∧ m = n ∧ tree.alive n = false ∧ tree'.parentOf n = parent ∧
        ∀ m ∈ tree.kept slot, tree.readFrom m ≠ readFrom) := by
  rcases (h.mem_iff a m).mp hm with hm | ⟨rfl, rfl⟩
  · exact .inl hm
  · rcases h.new with hin | ⟨hdead, hparent, hmissing⟩
    · exact .inl hin
    · exact .inr ⟨rfl, rfl, hdead, hparent, hmissing⟩

theorem Inv.of_found (h : Inv tree) (hfound : Found tree (slotOf cpid parent) parent readFrom n tree')
    (hpath : ∃ cpid' labels, Path tree'.kept tree'.readFrom n cpid' labels) : Inv tree' := by
  have hgrows := hfound.grows
  have hdead : ∀ {m a}, tree.alive n = false → m ∈ tree.kept a → m ≠ n := by
    intro m a hdead hm heq
    rw [mem_kept, heq, hdead] at hm
    exact absurd hm.2 (by decide)
  have hparent : ∀ {m a}, m ∈ tree.kept a → tree'.parentOf m = tree.parentOf m := by
    intro m a hm
    rw [parentOf, parentOf, hfound.nodes m (mem_kept.mp hm).2]
  refine ⟨⟨?_, ?_⟩, ?_, ?_, ?_, ?_, ?_⟩
  · intro m a b ha hb
    rcases hfound.cases ha with ha | ⟨ha, rfl, hnew, -⟩
    · rcases hfound.cases hb with hb | ⟨-, rfl, hnew, -⟩
      · exact h.consed.slot_unique ha hb
      · exact absurd rfl (hdead hnew ha)
    · rcases hfound.cases hb with hb | ⟨hb, -⟩
      · exact absurd rfl (hdead hnew hb)
      · rw [ha, hb]
  · intro m m' a hm hm' hread
    rcases hfound.cases hm with hin | ⟨rfl, rfl, -, -, hmissing⟩
    · rcases hfound.cases hm' with hin' | ⟨rfl, rfl, -, -, hmissing⟩
      · rw [(hgrows.kept _ _ hin).2, (hgrows.kept _ _ hin').2] at hread
        exact h.consed.label_unique hin hin' hread
      · rw [(hgrows.kept _ _ hin).2, hfound.readFrom_eq] at hread
        exact absurd hread (hmissing m hin)
    · rcases hfound.cases hm' with hin' | ⟨-, rfl, -⟩
      · rw [(hgrows.kept _ _ hin').2, hfound.readFrom_eq] at hread
        exact absurd hread.symm (hmissing m' hin')
      · rfl
  · intro m hm
    rcases (hfound.alive_iff m).mp hm with hm | rfl
    · exact (h.lt_of_alive hm).trans_le hfound.lt.2
    · exact hfound.lt.1
  · intro a m hm
    rcases hfound.subset a m hm with hm | rfl
    · exact (h.lt_of_mem hm).trans_le hfound.lt.2
    · exact hfound.lt.1
  · intro m cpid' hm
    rcases hfound.cases hm with hin | ⟨hslot, rfl, -, hnew, -⟩
    · rw [hparent hin]
      exact h.root hin
    · rw [hnew]
      cases parent with
      | none => rfl
      | some p => cases hslot
  · intro m p hm
    rcases hfound.cases hm with hin | ⟨hslot, rfl, -, hnew, -⟩
    · rw [hparent hin]
      exact h.node hin
    · rw [hnew]
      cases parent with
      | none => cases hslot
      | some p' =>
          cases hslot
          rfl
  · intro m hm
    rcases (hfound.alive_iff m).mp hm with hm | rfl
    · obtain ⟨cpid', labels, hm⟩ := h.path hm
      exact ⟨cpid', labels, hgrows.path hm⟩
    · exact hpath

theorem Inv.findUnfoldingNode (h : Inv tree) (cpid : CPid) (parent readFrom : Option ℕ) :
    Found tree (slotOf cpid parent) parent readFrom
      (tree.findUnfoldingNode cpid parent readFrom).1
      (tree.findUnfoldingNode cpid parent readFrom).2 := by
  cases parent with
  | none => exact h.getOrCreate _ _ _
  | some p => exact h.getOrCreate _ _ _

/-- The path of a node that is found without a parent. -/
theorem Found.path_root (h : Found tree (.root cpid) parent readFrom n tree') :
    Path tree'.kept tree'.readFrom n cpid [readFrom] := by
  have hpath : Path tree'.kept tree'.readFrom n cpid [tree'.readFrom n] := .first h.mem_self
  rwa [h.readFrom_eq] at hpath

/-- The path of a node that is found below its parent. -/
theorem Found.path_node {p : ℕ} {labels : List (Option ℕ)}
    (h : Found tree (.node p) parent readFrom n tree')
    (hpath : Path tree.kept tree.readFrom p cpid labels) :
    Path tree'.kept tree'.readFrom n cpid (labels ++ [readFrom]) := by
  have hnext := (h.grows.path hpath).next h.mem_self
  rwa [h.readFrom_eq] at hnext

theorem Inv.find_inv (h : Inv tree) (hparent : parent.all tree.alive = true) :
    Inv (tree.findUnfoldingNode cpid parent readFrom).2 := by
  have hfound := h.findUnfoldingNode cpid parent readFrom
  apply h.of_found hfound
  cases parent with
  | none => exact ⟨cpid, _, hfound.path_root⟩
  | some p =>
      obtain ⟨cpid', labels, hpath⟩ := h.path hparent
      exact ⟨cpid', _, hfound.path_node hpath⟩

/-! ### Nodes that are not used any more -/

theorem kept_expire (n : ℕ) (slot : Slot CPid) :
    m ∈ kept { tree with alive := Function.update tree.alive n false } slot ↔
      m ∈ tree.kept slot ∧ m ≠ n := by
  rw [mem_kept, mem_kept]
  dsimp only
  by_cases hm : m = n
  · subst hm
    simp
  · simp [hm]

/-- A node that no other node points to can expire. -/
theorem Inv.expire (h : Inv tree)
    (hunused : ∀ m, tree.alive m = true → tree.parentOf m ≠ some n) :
    Inv { tree with alive := Function.update tree.alive n false } := by
  have halive : ∀ {m}, Function.update tree.alive n false m = true → tree.alive m = true ∧ m ≠ n := by
    intro m hm
    by_cases heq : m = n
    · subst heq
      rw [Function.update_self] at hm
      cases hm
    · rw [Function.update_of_ne heq] at hm
      exact ⟨hm, heq⟩
  refine ⟨⟨?_, ?_⟩, ?_, h.lt_of_mem, ?_, ?_, ?_⟩
  · intro m a b ha hb
    exact h.consed.slot_unique ((kept_expire n a).mp ha).1 ((kept_expire n b).mp hb).1
  · intro m m' a hm hm' hread
    exact h.consed.label_unique ((kept_expire n a).mp hm).1 ((kept_expire n a).mp hm').1 hread
  · intro m hm
    exact h.lt_of_alive (halive hm).1
  · intro m cpid hm
    exact h.root ((kept_expire n _).mp hm).1
  · intro m p hm
    exact h.node ((kept_expire n _).mp hm).1
  · intro m hafter
    obtain ⟨hm, hne⟩ := halive hafter
    obtain ⟨cpid, labels, hpath⟩ := h.path hm
    refine ⟨cpid, labels, ?_⟩
    clear hafter hm
    -- the parent of a node on the path is alive because the node is
    induction hpath with
    | first hin => exact .first ((kept_expire n _).mpr ⟨hin, hne⟩)
    | @next m p _ _ _ hin ih =>
        have hp : p ≠ n := by
          rintro rfl
          exact hunused m (mem_kept.mp hin).2 (h.node hin)
        exact .next (ih hp) ((kept_expire n _).mpr ⟨hin, hne⟩)

/-! ### The identity of nodes -/

/-- A node that is alive, with its thread, parent and source. -/
structure Has (tree : RfscUnfoldingTree) (n : ℕ) (cpid : CPid) (parent readFrom : Option ℕ) :
    Prop where
  alive : tree.alive n = true
  node : tree.nodes[n]? = some ⟨parent, readFrom⟩
  thread : ∃ labels, Path tree.kept tree.readFrom n cpid labels

theorem Inv.mem_slotOf (h : Inv tree) (hn : tree.Has n cpid parent readFrom) :
    n ∈ tree.kept (slotOf cpid parent) ∧ tree.readFrom n = readFrom := by
  obtain ⟨-, hnode, labels, hpath⟩ := hn
  have hparent : tree.parentOf n = parent := by
    rw [parentOf, hnode]
    rfl
  refine ⟨?_, by rw [RfscUnfoldingTree.readFrom, hnode]; rfl⟩
  cases hpath with
  | first hin =>
      rw [← hparent, h.root hin]
      exact hin
  | next _ hin =>
      rw [← hparent, h.node hin]
      exact hin

/-- There are no two nodes with the same thread, parent and source. -/
theorem Inv.has_unique (h : Inv tree) (hn : tree.Has n cpid parent readFrom)
    (hm : tree.Has m cpid parent readFrom) : n = m := by
  obtain ⟨hin, hread⟩ := h.mem_slotOf hn
  obtain ⟨hin', hread'⟩ := h.mem_slotOf hm
  exact h.consed.label_unique hin hin' (hread.trans hread'.symm)

theorem Inv.exists_has (h : Inv tree) (hn : tree.alive n = true) :
    ∃ cpid parent readFrom, tree.Has n cpid parent readFrom := by
  obtain ⟨cpid, labels, hpath⟩ := h.path hn
  exact ⟨cpid, _, _, hn, List.getElem?_eq_getElem (h.lt_of_alive hn), labels, hpath⟩

/-- The node that is returned has the thread, parent and source that were asked for. -/
theorem Inv.find_has (h : Inv tree)
    (hthread : ∀ p, parent = some p → ∃ labels, Path tree.kept tree.readFrom p cpid labels) :
    (tree.findUnfoldingNode cpid parent readFrom).2.Has
      (tree.findUnfoldingNode cpid parent readFrom).1 cpid parent readFrom := by
  have hfound := h.findUnfoldingNode cpid parent readFrom
  generalize tree.findUnfoldingNode cpid parent readFrom = r at hfound
  have hpath : ∃ labels, Path r.2.kept r.2.readFrom r.1 cpid labels := by
    cases parent with
    | none => exact ⟨_, hfound.path_root⟩
    | some p =>
        obtain ⟨labels, hpath⟩ := hthread p rfl
        exact ⟨_, hfound.path_node hpath⟩
  have hinv := h.of_found hfound ⟨cpid, hpath⟩
  have hparent : r.2.parentOf r.1 = parent := by
    have hself := hfound.mem_self
    cases parent with
    | none => exact hinv.root hself
    | some p => exact hinv.node hself
  obtain ⟨node, hnode⟩ : ∃ node, r.2.nodes[r.1]? = some node :=
    ⟨_, List.getElem?_eq_getElem hfound.lt.1⟩
  refine ⟨(hfound.alive_iff _).mpr (.inr rfl), ?_, hpath⟩
  rw [parentOf, hnode] at hparent
  have hread := hfound.readFrom_eq
  rw [RfscUnfoldingTree.readFrom, hnode] at hread
  rw [hnode, ← hparent, ← hread]
  rfl

end Nidhugg.RfscUnfoldingTree
