import Nidhugg.Verification.GenMapHeap.Cells

/-! # What `mut` does on the heap

`mut` succeeds on every trie that the heap represents. The trie that it leaves has the cells of
the old one up to those that it was allowed to write. -/

namespace Nidhugg.GenMap

open PTree

variable {K T : Type} {generation : ℤ} {h h' h₀ h₁ : Heap K T}

/-- A trie takes the place of some cells. -/
structure Replaced (generation : ℤ) (h h' : Heap K T) (old : List (ℕ × Cell K T))
    (t : PTree K T) : Prop where
  delta : Delta generation h h' old t.cells
  layered : Layered generation t

/-- A leaf of the own generation. -/
def OwnLeaf (generation : ℤ) (t : PTree K T) (leaf : ℕ) : Prop :=
  ∃ key value next, (leaf, Cell.leaf generation key value next) ∈ t.cells

/-! ### Leaf lists -/

theorem setNext_eq {p q : ℕ} {key : K} {value : T} {gen : ℤ} {next : Option ℕ}
    (hp : h.cells p = some (.leaf gen key value next)) :
    h.setNext p q = some { h with
      cells := Function.update h.cells p (some (.leaf gen key value (some q))) } := by
  rw [Heap.setNext, hp]
  rfl

/-- The cells of leaves behind the first one do not have its address. -/
theorem ne_of_nodup_cons {p : ℕ} {cell : Cell K T} {cells : List (ℕ × Cell K T)}
    (hnodup : (((p, cell) :: cells).map Prod.fst).Nodup) : ∀ x ∈ cells, x.1 ≠ p := by
  intro x hx heq
  rw [List.map_cons, List.nodup_cons] at hnodup
  exact hnodup.1 (List.mem_map.mpr ⟨x, hx, heq⟩)

/-- A leaf in front of a leaf list that takes the place of the old one behind it. -/
theorem replaced_cons {p q : ℕ} {leaf : Leaf K T} {rest : List (ℕ × Leaf K T)}
    {first' : ℕ × Leaf K T} {rest' : List (ℕ × Leaf K T)} {next : Option ℕ}
    (halloc : h.Allocated) (hrep : Represents h.cells (chain (p, leaf) rest))
    (hnodup : (chain (p, leaf) rest).ptrs.Nodup)
    (hprepares : Prepares generation h h₀ p
      (.leaf leaf.generation leaf.key leaf.value (rest.head?.map Prod.fst)) q)
    (hq : h₀.cells q = some (.leaf generation leaf.key leaf.value next))
    (hreplaced : Replaced generation h₀ h₁ (chainCells rest) (chain first' rest')) :
    ∃ h₂, h₁.setNext q first'.1 = some h₂ ∧ Replaced generation h h₂ (chain (p, leaf) rest).cells
      (chain (q, { leaf with generation := generation }) (first' :: rest')) := by
  have hlt : ∀ x ∈ (chain (p, leaf) rest).cells, x.1 < h.next :=
    fun x hx => Heap.lt_of_eq_some halloc (hrep x hx)
  have hqne : ∀ x ∈ chainCells rest, x.1 ≠ q := by
    intro x hx
    rcases hprepares.place with ⟨rfl, -⟩ | ⟨hqn, -⟩
    · exact ne_of_nodup_cons hnodup x hx
    · have := hlt x (List.mem_cons_of_mem _ hx)
      omega
  have hq₀ : q < h₀.next := Heap.lt_of_eq_some hprepares.allocated hq
  have hq₁ : h₁.cells q = some (.leaf generation leaf.key leaf.value next) := by
    rw [hreplaced.delta.kept q hq₀ fun x hx hxq => absurd hxq (hqne x hx), hq]
  refine ⟨_, setNext_eq hq₁, ?_, ?_⟩
  · exact Delta.cons halloc hrep hnodup hprepares hreplaced.delta rfl rfl rfl
  · have hrest := hreplaced.layered
    cases hrest with
    | chain hbound hsorted =>
        refine .chain le_rfl (List.pairwise_cons.mpr ⟨?_, hsorted⟩)
        intro x hx
        rcases List.mem_cons.mp hx with rfl | hx
        · exact hbound
        · exact ((List.pairwise_cons.mp hsorted).1 x hx).trans hbound

theorem OwnLeaf.cons {x y : ℕ × Leaf K T} {rest : List (ℕ × Leaf K T)} {leaf : ℕ}
    (h : OwnLeaf generation (chain y rest) leaf) :
    OwnLeaf generation (chain x (y :: rest)) leaf := by
  obtain ⟨key, value, next, hmem⟩ := h
  exact ⟨key, value, next, List.mem_cons_of_mem _ hmem⟩

/-- The leaves of other generations up to the one with a given address are copied. -/
theorem uncowLeaves_spec {first : ℕ × Leaf K T} {rest : List (ℕ × Leaf K T)} {target : ℕ}
    (halloc : h.Allocated) (hrep : Represents h.cells (chain first rest))
    (hlayered : Layered generation (chain first rest)) (hnodup : (chain first rest).ptrs.Nodup)
    (hforeign : first.2.generation ≠ generation) (htarget : target ∈ (chain first rest).ptrs)
    {turns : ℕ} (hturns : rest.length < turns) :
    ∃ h' first' rest' leaf,
      Heap.uncowLeaves generation target turns h first.1 = some (h', first'.1, leaf) ∧
      Replaced generation h h' (chain first rest).cells (chain first' rest') ∧
      OwnLeaf generation (chain first' rest') leaf := by
  induction rest generalizing h first turns with
  | nil =>
      obtain ⟨turns, rfl⟩ : ∃ n, turns = n + 1 := ⟨turns - 1, by simp at hturns; omega⟩
      obtain ⟨p, leaf⟩ := first
      obtain rfl : target = p := by simpa [ptrs_chain] using htarget
      have hcells : (h.alloc (.leaf generation leaf.key leaf.value none)).1.cells =
          Function.update (h.alloc (.leaf generation leaf.key leaf.value none)).1.cells h.next
            (some (.leaf generation leaf.key leaf.value none)) := by
        rw [Heap.alloc, Function.update_idem]
      refine ⟨(h.alloc (.leaf generation leaf.key leaf.value none)).1,
        (h.next, { leaf with generation := generation }), [], h.next, ?_, ⟨?_, ?_⟩, ?_⟩
      · rw [Heap.uncowLeaves, hrep.head]
        simp [Heap.alloc]
      · refine Delta.cons halloc hrep hnodup (Prepares.copied halloc hforeign)
          (Delta.refl (halloc.alloc _) ?_ ?_) rfl hcells rfl
        · intro x hx
          cases hx
        · exact List.nodup_nil
      · exact .chain le_rfl (List.pairwise_singleton _ _)
      · exact ⟨leaf.key, leaf.value, none, List.mem_cons_self⟩
  | cons y rest ih =>
      obtain ⟨turns, rfl⟩ : ∃ n, turns = n + 1 := ⟨turns - 1, by simp at hturns; omega⟩
      obtain ⟨p, leaf⟩ := first
      have hsorted : ((p, leaf) :: y :: rest).Pairwise
          fun x y => y.2.generation ≤ x.2.generation := by
        cases hlayered with
        | chain _ hsorted => exact hsorted
      have hbound : leaf.generation ≤ generation := hlayered.generation_le
      have hy : y.2.generation ≤ leaf.generation :=
        (List.pairwise_cons.mp hsorted).1 y List.mem_cons_self
      have hcell : Cell.getGeneration
          (.leaf leaf.generation leaf.key leaf.value (some y.1) : Cell K T) ≠ generation := hforeign
      have hprepares : Prepares generation h
          (h.alloc (.leaf generation leaf.key leaf.value (some y.1))).1 p
          (.leaf leaf.generation leaf.key leaf.value (some y.1)) h.next :=
        Prepares.copied halloc hcell
      have hrest : Represents (h.alloc (.leaf generation leaf.key leaf.value (some y.1))).1.cells
          (chain y rest) := by
        intro x hx
        have hold := hrep.tail x hx
        have hne : x.1 ≠ h.next := (Heap.lt_of_eq_some halloc hold).ne
        exact (Function.update_of_ne hne ..).trans hold
      rw [ptrs_chain, List.map_cons, List.nodup_cons] at hnodup
      by_cases hp : p = target
      · -- the leaves behind stay
        subst hp
        have hcells : (h.alloc (.leaf generation leaf.key leaf.value (some y.1))).1.cells =
            Function.update (h.alloc (.leaf generation leaf.key leaf.value (some y.1))).1.cells
              h.next (some (.leaf generation leaf.key leaf.value (some y.1))) := by
          rw [Heap.alloc, Function.update_idem]
        have hnodup' : (chain (p, leaf) (y :: rest)).ptrs.Nodup := by
          rw [ptrs_chain, List.map_cons, List.nodup_cons]
          exact hnodup
        refine ⟨(h.alloc (.leaf generation leaf.key leaf.value (some y.1))).1,
          (h.next, { leaf with generation := generation }), y :: rest, h.next, ?_, ⟨?_, ?_⟩, ?_⟩
        · rw [Heap.uncowLeaves, hrep.head]
          simp [Heap.alloc]
        · refine Delta.cons halloc hrep hnodup' hprepares
            (Delta.refl (halloc.alloc _) hrest ?_) rfl hcells rfl
          have := (List.nodup_cons.mp hnodup').2
          exact this
        · refine .chain le_rfl (List.pairwise_cons.mpr ⟨?_, (List.pairwise_cons.mp hsorted).2⟩)
          intro x hx
          exact ((List.pairwise_cons.mp hsorted).1 x hx).trans hbound
        · exact ⟨leaf.key, leaf.value, some y.1, List.mem_cons_self⟩
      · have htarget' : target ∈ (chain y rest).ptrs := by
          rw [ptrs_chain, List.map_cons, List.mem_cons] at htarget
          rw [ptrs_chain]
          exact htarget.resolve_left (Ne.symm hp)
        have hlayered' : Layered generation (chain y rest) :=
          .chain (hy.trans hbound) (List.pairwise_cons.mp hsorted).2
        have hnodup' : (chain y rest).ptrs.Nodup := by
          rw [ptrs_chain]
          exact hnodup.2
        have hyforeign : y.2.generation ≠ generation := by
          have : leaf.generation ≠ generation := hforeign
          omega
        obtain ⟨h₁, first', rest', target', heq, hreplaced, hleaf⟩ :=
          ih (halloc.alloc _) hrest hlayered' hnodup' hyforeign htarget'
            (by simpa using hturns)
        have hnodup'' : (chain (p, leaf) (y :: rest)).ptrs.Nodup := by
          rw [ptrs_chain, List.map_cons, List.nodup_cons]
          exact hnodup
        obtain ⟨h₂, hset, hreplaced₂⟩ := replaced_cons halloc hrep hnodup'' hprepares
          (Function.update_self ..) hreplaced
        refine ⟨h₂, (h.next, { leaf with generation := generation }), first' :: rest', target', ?_,
          hreplaced₂, hleaf.cons⟩
        rw [Heap.uncowLeaves, hrep.head]
        simp only [Option.bind_eq_bind, Option.bind_some, List.head?_cons, Option.map_some,
          Heap.alloc, hp, if_false]
        rw [Heap.alloc] at heq
        simp only [heq, Option.bind_some]
        rw [show h.next = (h.next, { leaf with generation := generation }).1 from rfl] at hset
        simp only [hset, Option.bind_some, Option.pure_def]

/-- Behind the leaves of the own generation, the others are copied up to the one with a given
address. -/
theorem uncowTo_spec {first : ℕ × Leaf K T} {rest : List (ℕ × Leaf K T)} {target : ℕ}
    {cell : Cell K T} (halloc : h.Allocated) (hrep : Represents h.cells (chain first rest))
    (hlayered : Layered generation (chain first rest)) (hnodup : (chain first rest).ptrs.Nodup)
    (htarget : target ∈ (chain first rest).ptrs) (hcell : h.cells target = some cell)
    (hforeign : cell.getGeneration ≠ generation) {turns : ℕ} (hturns : rest.length < turns) :
    ∃ h' first' rest' leaf,
      Heap.uncowTo generation target turns h first.1 = some (h', first'.1, leaf) ∧
      Replaced generation h h' (chain first rest).cells (chain first' rest') ∧
      OwnLeaf generation (chain first' rest') leaf := by
  induction rest generalizing first turns with
  | nil =>
      obtain ⟨turns, rfl⟩ : ∃ n, turns = n + 1 := ⟨turns - 1, by simp at hturns; omega⟩
      obtain rfl : target = first.1 := by simpa [ptrs_chain] using htarget
      rw [hrep.head, Option.some.injEq] at hcell
      subst hcell
      obtain ⟨h', first', rest', leaf, heq, hspec⟩ :=
        uncowLeaves_spec halloc hrep hlayered hnodup hforeign htarget hturns
      refine ⟨h', first', rest', leaf, ?_, hspec⟩
      rw [Heap.uncowTo, hrep.head, Option.bind_eq_bind, Option.bind_some]
      exact (if_neg hforeign).trans heq
  | cons y rest ih =>
      obtain ⟨turns, rfl⟩ : ∃ n, turns = n + 1 := ⟨turns - 1, by simp at hturns; omega⟩
      by_cases hown : first.2.generation = generation
      · have hne : target ≠ first.1 := by
          rintro rfl
          rw [hrep.head, Option.some.injEq] at hcell
          subst hcell
          exact hforeign hown
        have hsorted : (first :: y :: rest).Pairwise
            fun x y => y.2.generation ≤ x.2.generation := by
          cases hlayered with
          | chain _ hsorted => exact hsorted
        have hy : y.2.generation ≤ first.2.generation :=
          (List.pairwise_cons.mp hsorted).1 y List.mem_cons_self
        have hlayered' : Layered generation (chain y rest) :=
          .chain (hy.trans hown.le) (List.pairwise_cons.mp hsorted).2
        have hnodup' : (chain y rest).ptrs.Nodup := (List.nodup_cons.mp hnodup).2
        have htarget' : target ∈ (chain y rest).ptrs := by
          rw [ptrs_chain, List.map_cons, List.mem_cons] at htarget
          rw [ptrs_chain]
          exact htarget.resolve_left hne
        obtain ⟨h₁, first', rest', leaf, heq, hreplaced, hleaf⟩ :=
          ih hrep.tail hlayered' hnodup' htarget' (by simpa using hturns)
        obtain ⟨p, l⟩ := first
        have hq : h.cells p = some (.leaf generation l.key l.value (some y.1)) := by
          rw [← hown]
          exact hrep.head
        obtain ⟨h₂, hset, hreplaced₂⟩ := replaced_cons halloc hrep hnodup
          (Prepares.own_cell halloc hown) hq hreplaced
        refine ⟨h₂, (p, { l with generation := generation }), first' :: rest', leaf, ?_,
          hreplaced₂, hleaf.cons⟩
        rw [Heap.uncowTo, hrep.head, Option.bind_eq_bind, Option.bind_some]
        refine (if_pos hown).trans ?_
        simp only [List.head?_cons, Option.map_some, Option.bind_eq_bind, Option.bind_some, heq, hset,
          Option.pure_def]
      · obtain ⟨h', first', rest', leaf, heq, hspec⟩ :=
          uncowLeaves_spec halloc hrep hlayered hnodup hown htarget hturns
        refine ⟨h', first', rest', leaf, ?_, hspec⟩
        rw [Heap.uncowTo, hrep.head, Option.bind_eq_bind, Option.bind_some]
        exact (if_neg hown).trans heq

/-! ### New nodes -/

theorem setSlot_eq {p position child : ℕ} {gen : ℤ} {bitmap : BitVec 32} {array : List (Option ℕ)}
    (hp : h.cells p = some (.node gen bitmap array)) (hposition : position < array.length) :
    h.setSlot p position child = some { h with
      cells := Function.update h.cells p
        (some (.node gen bitmap (array.set position (some child)))) } := by
  rw [Heap.setSlot, hp]
  simp [hposition]

theorem allocNode_eq {gen : ℤ} {bitmap : BitVec 32} {array : List (Option ℕ)}
    (hlength : popcount bitmap = array.length) (hpos : 0 < array.length) :
    h.allocNode gen bitmap array = some (h.alloc (.node gen bitmap array)) := by
  simp [Heap.allocNode, hlength, hpos]

theorem PTree.Represents.alloc {t : PTree K T} (halloc : h.Allocated) (hrep : Represents h.cells t)
    (cell : Cell K T) : Represents (h.alloc cell).1.cells t := by
  intro x hx
  have hold := hrep x hx
  have hne : x.1 ≠ h.next := (Heap.lt_of_eq_some halloc hold).ne
  exact (Function.update_of_ne hne ..).trans hold

/-- The last cell allocated is not among those of an old trie. -/
theorem PTree.Represents.ne_next {t : PTree K T} (halloc : h.Allocated) (hrep : Represents h.cells t) :
    ∀ x ∈ t.cells, x.1 ≠ h.next :=
  fun x hx => (Heap.lt_of_eq_some halloc (hrep x hx)).ne

theorem popcount_bit {i : ℕ} (hi : i < 32) : popcount (bit i ||| bit i) = 1 := by
  rw [BitVec.or_self, popcount_eq_length, setBits_bit hi]
  rfl

theorem popcount_bit_or_bit {i j : ℕ} (hi : i < 32) (hj : j < 32) (hne : i ≠ j) :
    popcount (bit i ||| bit j) = 2 := by
  rw [popcount_eq_length, setBits_bit_or_bit hi hj hne]
  split
  · rfl
  · rfl

/-- A node above the existing trie and a new leaf. -/
theorem replaced_beside (k : K) (init : T) {t : PTree K T} (halloc : h.Allocated)
    (hrep : Represents h.cells t) (hlayered : Layered generation t) (hnodup : t.ptrs.Nodup)
    {bitmap : BitVec 32} (array : List (Option ℕ)) (children : List (PTree K T)) (position : ℕ)
    (hlength : children.length = popcount bitmap) (hposition : position < array.length)
    (hset : array.set position (some (h.next + 1)) = children.map fun c => some c.ptr)
    (hperm : ((h.next + 1, Cell.leaf generation k init none) :: t.cells).Perm
      (children.flatMap cells))
    (hchildren : ∀ c ∈ children, c = t ∨ c = chain (h.next + 1, ⟨generation, k, init⟩) []) :
    ∃ h₂, ((h.alloc (.node generation bitmap array)).1.alloc
        (.leaf generation k init none)).1.setSlot h.next position (h.next + 1) = some h₂ ∧
      Replaced generation h h₂ t.cells (node h.next generation bitmap children) ∧
      OwnLeaf generation (node h.next generation bitmap children) (h.next + 1) := by
  set cell : Cell K T := .node generation bitmap array with hcell
  have hnode : ((h.alloc cell).1.alloc (.leaf generation k init none)).1.cells h.next =
      some cell := by
    have hne : h.next ≠ (h.alloc cell).1.next := (Nat.lt_succ_self h.next).ne
    exact (Function.update_of_ne hne ..).trans (Function.update_self ..)
  have hdelta : Delta generation (h.alloc cell).1
      ((h.alloc cell).1.alloc (.leaf generation k init none)).1 t.cells (children.flatMap cells) :=
    (Delta.alloc (halloc.alloc cell) (hrep.alloc halloc cell) hnodup rfl).perm (.refl _) hperm
  refine ⟨_, setSlot_eq hnode hposition, ⟨?_, ?_⟩, ?_⟩
  · rw [cells_node, ← hset]
    exact Delta.push halloc hrep hdelta rfl rfl rfl
  · refine .node le_rfl hlength ?_
    intro c hc
    rcases hchildren c hc with rfl | rfl
    · exact hlayered
    · exact .chain le_rfl (List.pairwise_singleton _ _)
  · refine ⟨k, init, none, ?_⟩
    rw [cells_node]
    exact List.mem_cons_of_mem _ (hperm.mem_iff.mp List.mem_cons_self)

/-- A node above what takes the place of the existing trie. -/
theorem replaced_above {t t₁ : PTree K T} (halloc : h.Allocated) (hrep : Represents h.cells t)
    {bitmap : BitVec 32} (hpop : popcount bitmap = 1)
    (hreplaced : Replaced generation (h.alloc (.node generation bitmap [some t.ptr])).1 h₁ t.cells
      t₁) :
    ∃ h₂, h₁.setSlot h.next 0 t₁.ptr = some h₂ ∧
      Replaced generation h h₂ t.cells (node h.next generation bitmap [t₁]) := by
  have hnode : h₁.cells h.next = some (.node generation bitmap [some t.ptr]) := by
    rw [hreplaced.delta.kept h.next (Nat.lt_succ_self _) fun x hx hxn =>
      absurd hxn (hrep.ne_next halloc x hx)]
    exact Function.update_self ..
  refine ⟨_, setSlot_eq hnode (by simp), ?_, ?_⟩
  · rw [cells_node]
    simp only [List.map_cons, List.map_nil, List.flatMap_cons, List.flatMap_nil, List.append_nil]
    exact Delta.push halloc hrep hreplaced.delta rfl rfl rfl
  · refine .node le_rfl hpop.symm ?_
    intro c hc
    rw [List.mem_singleton] at hc
    rw [hc]
    exact hreplaced.layered

section Disambiguate

variable {k : K} {init : T} {existing turns firstHash hash : ℕ}

theorem disambiguate_of_same (hmod : firstHash % 32 = hash % 32) :
    Heap.disambiguate generation k init existing (turns + 1) h firstHash hash =
      (Heap.disambiguate generation k init existing turns
        (h.alloc (.node generation (bit (hash % 32) ||| bit (hash % 32)) [some existing])).1
        (firstHash / 32) (hash / 32)).bind fun r =>
          (r.1.setSlot h.next 0 r.2.1).bind fun h₂ => some (h₂, h.next, r.2.2) := by
  have hpop : popcount (bit (hash % 32) ||| bit (hash % 32)) = [some existing].length :=
    popcount_bit (Nat.mod_lt _ (by decide))
  simp only [Heap.disambiguate, arity, hmod, if_true, allocNode_eq hpop Nat.one_pos,
    Option.bind_eq_bind, Option.bind_some, Option.pure_def]
  rfl

theorem disambiguate_of_lt (hlt : hash % 32 < firstHash % 32) :
    Heap.disambiguate generation k init existing (turns + 1) h firstHash hash =
      (((h.alloc (.node generation (bit (firstHash % 32) ||| bit (hash % 32))
        [some existing, none])).1.alloc (.leaf generation k init none)).1.setSlot h.next 1
          (h.next + 1)).bind fun h₂ => some (h₂, h.next, h.next + 1) := by
  have hpop : popcount (bit (firstHash % 32) ||| bit (hash % 32)) =
      [some existing, none].length :=
    popcount_bit_or_bit (Nat.mod_lt _ (by decide)) (Nat.mod_lt _ (by decide)) hlt.ne'
  simp only [Heap.disambiguate, arity, hlt.ne', if_false, hlt, if_true,
    allocNode_eq hpop Nat.two_pos, Option.bind_eq_bind, Option.bind_some, Option.pure_def]
  rfl

theorem disambiguate_of_gt (hlt : firstHash % 32 < hash % 32) :
    Heap.disambiguate generation k init existing (turns + 1) h firstHash hash =
      (((h.alloc (.node generation (bit (firstHash % 32) ||| bit (hash % 32))
        [none, some existing])).1.alloc (.leaf generation k init none)).1.setSlot h.next 0
          (h.next + 1)).bind fun h₂ => some (h₂, h.next, h.next + 1) := by
  have hpop : popcount (bit (firstHash % 32) ||| bit (hash % 32)) =
      [none, some existing].length :=
    popcount_bit_or_bit (Nat.mod_lt _ (by decide)) (Nat.mod_lt _ (by decide)) hlt.ne
  simp only [Heap.disambiguate, arity, hlt.ne, if_false, hlt.not_gt,
    allocNode_eq hpop Nat.two_pos, Option.bind_eq_bind, Option.bind_some, Option.pure_def]
  rfl

end Disambiguate

/-- The nodes that tell two hashes apart are put above the existing trie and a new leaf. -/
theorem disambiguate_replaces (k : K) (init : T) {t : PTree K T} (halloc : h.Allocated)
    (hrep : Represents h.cells t) (hlayered : Layered generation t) (hnodup : t.ptrs.Nodup)
    {turns firstHash hash : ℕ} (hne : firstHash ≠ hash) (hfirst : firstHash < 32 ^ turns)
    (hhash : hash < 32 ^ turns) :
    ∃ h' t' leaf,
      Heap.disambiguate generation k init t.ptr turns h firstHash hash = some (h', t'.ptr, leaf) ∧
      Replaced generation h h' t.cells t' ∧ OwnLeaf generation t' leaf := by
  induction turns generalizing h firstHash hash with
  | zero =>
      rw [pow_zero] at hfirst hhash
      omega
  | succ turns ih =>
      have hi : firstHash % 32 < 32 := Nat.mod_lt _ (by decide)
      have hj : hash % 32 < 32 := Nat.mod_lt _ (by decide)
      rcases lt_trichotomy (hash % 32) (firstHash % 32) with hlt | heq | hgt
      · have hperm : ((h.next + 1, Cell.leaf generation k init none) :: t.cells).Perm
            ([t, chain (h.next + 1, ⟨generation, k, init⟩) []].flatMap PTree.cells) := by
          simpa [cells, chainCells] using (List.perm_append_singleton _ t.cells).symm
        obtain ⟨h₂, hset, hspec⟩ := replaced_beside k init halloc hrep hlayered hnodup
          [some t.ptr, none] [t, chain (h.next + 1, ⟨generation, k, init⟩) []] 1
          (popcount_bit_or_bit hi hj hlt.ne').symm (by simp) rfl hperm (by simp)
        refine ⟨h₂, _, h.next + 1, ?_, hspec⟩
        rw [disambiguate_of_lt hlt, hset, Option.bind_some, ptr]
      · -- one more digit
        have hne' : firstHash / 32 ≠ hash / 32 := by omega
        have hfirst' : firstHash / 32 < 32 ^ turns := by
          rw [Nat.div_lt_iff_lt_mul (by decide), ← pow_succ]
          exact hfirst
        have hhash' : hash / 32 < 32 ^ turns := by
          rw [Nat.div_lt_iff_lt_mul (by decide), ← pow_succ]
          exact hhash
        set cell : Cell K T := .node generation (bit (hash % 32) ||| bit (hash % 32)) [some t.ptr]
          with hcell
        obtain ⟨h₁, t₁, leaf, hrec, hreplaced, key, value, next, hleaf⟩ :=
          ih (halloc.alloc cell) (hrep.alloc halloc cell) hne' hfirst' hhash'
        obtain ⟨h₂, hset, hspec⟩ := replaced_above halloc hrep (popcount_bit hj) hreplaced
        refine ⟨h₂, _, leaf, ?_, hspec, key, value, next, ?_⟩
        · rw [disambiguate_of_same heq.symm, hrec, Option.bind_some, hset]
          rfl
        · rw [cells_node]
          simp [hleaf]
      · have hperm : ((h.next + 1, Cell.leaf generation k init none) :: t.cells).Perm
            ([chain (h.next + 1, ⟨generation, k, init⟩) [], t].flatMap PTree.cells) := by
          simp [cells, chainCells]
        obtain ⟨h₂, hset, hspec⟩ := replaced_beside k init halloc hrep hlayered hnodup
          [none, some t.ptr] [chain (h.next + 1, ⟨generation, k, init⟩) [], t] 0
          (popcount_bit_or_bit hi hj hgt.ne).symm (by simp) rfl hperm (by simp)
        refine ⟨h₂, _, h.next + 1, ?_, hspec⟩
        rw [disambiguate_of_gt hgt, hset, Option.bind_some, ptr]

/-! ### The end of `mut` -/

section MutLeaves

variable [DecidableEq K] (hashKey : K → BitVec 64) (longShift : ℕ → ℕ → ℕ) (k : K) (init : T)

/-- A leaf is put into an empty place. -/
theorem mutLeaves_none_spec (generation : ℤ) (halloc : h.Allocated) {turns : ℕ} (hturns : 0 < turns)
    (hash depth : ℕ) :
    ∃ h' t' leaf new, Heap.mutLeaves hashKey longShift generation k init turns h none hash depth =
      some (h', t'.ptr, leaf, new) ∧ Replaced generation h h' [] t' ∧ OwnLeaf generation t' leaf := by
  obtain ⟨turns, rfl⟩ : ∃ n, turns = n + 1 := ⟨turns - 1, by omega⟩
  refine ⟨(h.alloc (.leaf generation k init none)).1,
    chain (h.next, ⟨generation, k, init⟩) [], h.next, true, ?_, ⟨?_, ?_⟩, ?_⟩
  · rw [Heap.mutLeaves, Heap.findLeaf]
    rfl
  · refine Delta.alloc halloc ?_ List.nodup_nil rfl
    intro x hx
    cases hx
  · exact .chain le_rfl (List.pairwise_singleton _ _)
  · exact ⟨k, init, none, List.mem_cons_self⟩

omit [DecidableEq K] in
theorem mem_chainCells_of_mem {leaves : List (ℕ × Leaf K T)} {y : ℕ × Leaf K T}
    (hy : y ∈ leaves) :
    ∃ next, (y.1, Cell.leaf y.2.generation y.2.key y.2.value next) ∈ chainCells leaves := by
  induction leaves with
  | nil => cases hy
  | cons x leaves ih =>
      rcases List.mem_cons.mp hy with rfl | hy
      · exact ⟨_, List.mem_cons_self⟩
      · obtain ⟨next, hmem⟩ := ih hy
        exact ⟨next, List.mem_cons_of_mem _ hmem⟩

omit [DecidableEq K] in
theorem shiftRight_lt (key : K) (depth : ℕ) :
    Heap.shiftRight longShift (hashKey key).toNat depth < 32 ^ 13 := by
  have hle : (2 : ℕ) ^ 64 ≤ 32 ^ 13 := by norm_num
  rw [Heap.shiftRight]
  split
  · rw [Nat.shiftRight_eq_div_pow]
    exact ((Nat.div_le_self _ _).trans_lt (hashKey key).isLt).trans_le hle
  · exact (Nat.mod_lt _ (by positivity)).trans_le hle

/-- The end of `mut` at a leaf list. -/
theorem mutLeaves_some_spec {first : ℕ × Leaf K T} {rest : List (ℕ × Leaf K T)}
    (halloc : h.Allocated) (hrep : Represents h.cells (chain first rest))
    (hlayered : Layered generation (chain first rest)) (hnodup : (chain first rest).ptrs.Nodup)
    {turns : ℕ} (hturns : rest.length + 1 < turns) {hash : ℕ} (hhash : hash < 32 ^ 13)
    (depth : ℕ) :
    ∃ h' t' leaf new,
      Heap.mutLeaves hashKey longShift generation k init turns h (some first.1) hash depth =
        some (h', t'.ptr, leaf, new) ∧
      Replaced generation h h' (chain first rest).cells t' ∧ OwnLeaf generation t' leaf := by
  have hfind := hrep.findLeaf k hturns
  cases hfound : (first :: rest).find? fun x => x.2.key = k with
  | some y =>
      -- the key is there
      rw [hfound, Option.map_some] at hfind
      have hy : y ∈ first :: rest := List.mem_of_find?_eq_some hfound
      obtain ⟨next, hmem⟩ := mem_chainCells_of_mem hy
      have hcell := hrep _ hmem
      by_cases hown : y.2.generation = generation
      · refine ⟨h, chain first rest, y.1, false, ?_, ⟨Delta.refl halloc hrep hnodup, hlayered⟩, ?_⟩
        · simp [Heap.mutLeaves, hfind, hcell, Cell.getGeneration, hown, ptr]
        · rw [hown] at hmem
          exact ⟨_, _, _, hmem⟩
      · have htarget : y.1 ∈ (chain first rest).ptrs := by
          rw [ptrs_chain]
          exact List.mem_map_of_mem hy
        obtain ⟨h', first', rest', leaf, heq, hreplaced, hleaf⟩ := uncowTo_spec halloc hrep hlayered
          hnodup htarget hcell hown (show rest.length < turns by omega)
        refine ⟨h', chain first' rest', leaf, false, ?_, hreplaced, hleaf⟩
        simp [Heap.mutLeaves, hfind, hcell, Cell.getGeneration, hown, heq, ptr]
  | none =>
      rw [hfound, Option.map_none] at hfind
      set firstHash := Heap.shiftRight longShift (hashKey first.2.key).toNat depth with hfirstHash
      by_cases hsame : firstHash = hash
      · -- the leaf is put in front
        refine ⟨(h.alloc (.leaf generation k init (some first.1))).1,
          chain (h.next, ⟨generation, k, init⟩) (first :: rest), h.next, true, ?_, ⟨?_, ?_⟩, ?_⟩
        · simp [Heap.mutLeaves, hfind, hrep.head, ← hfirstHash, hsame, ptr]
          rfl
        · exact Delta.alloc halloc hrep hnodup rfl
        · cases hlayered with
          | chain hbound hsorted =>
              refine .chain le_rfl (List.pairwise_cons.mpr ⟨?_, hsorted⟩)
              intro x hx
              rcases List.mem_cons.mp hx with rfl | hx
              · exact hbound
              · exact ((List.pairwise_cons.mp hsorted).1 x hx).trans hbound
        · exact ⟨k, init, some first.1, List.mem_cons_self⟩
      · obtain ⟨h', t', leaf, heq, hspec⟩ := disambiguate_replaces k init halloc hrep hlayered hnodup
          hsame (shiftRight_lt hashKey longShift first.2.key depth) hhash
        refine ⟨h', t', leaf, true, ?_, hspec⟩
        rw [ptr] at heq
        simp [Heap.mutLeaves, hfind, hrep.head, ← hfirstHash, hsame, heq]

end MutLeaves

end Nidhugg.GenMap
