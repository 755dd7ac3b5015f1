import Nidhugg.Model.GenMapHeap
import Nidhugg.Verification.GenMap.Trie

/-! # Tries on the heap

A trie with the addresses of its cells. A heap represents the trie if it has all of its cells.
Generations do not grow on the way down. What `find` and `for_each` read is the trie without the
addresses. -/

namespace Nidhugg.GenMap

variable {K T : Type}

/-- A trie with addresses. -/
inductive PTree (K T : Type) where
  /-- A leaf and those behind it. -/
  | chain (first : ℕ × Leaf K T) (rest : List (ℕ × Leaf K T))
  | node (ptr : ℕ) (generation : ℤ) (bitmap : BitVec 32) (array : List (PTree K T))

namespace PTree

theorem induct {P : PTree K T → Prop} (chain : ∀ first rest, P (.chain first rest))
    (node : ∀ p generation bitmap array, (∀ c ∈ array, P c) → P (.node p generation bitmap array)) :
    ∀ t, P t :=
  @PTree.rec K T P (fun array => ∀ c ∈ array, P c) chain node (by simp)
    (fun c array hc harray => by simpa using ⟨hc, harray⟩)

def ptr : PTree K T → ℕ
  | chain first _ => first.1
  | node p _ _ _ => p

def generation : PTree K T → ℤ
  | chain first _ => first.2.generation
  | node _ generation _ _ => generation

/-- The cells of a leaf list. -/
def chainCells : List (ℕ × Leaf K T) → List (ℕ × Cell K T)
  | [] => []
  | (p, leaf) :: rest =>
      (p, .leaf leaf.generation leaf.key leaf.value (rest.head?.map Prod.fst)) :: chainCells rest

mutual

/-- All cells with their addresses. -/
def cells : PTree K T → List (ℕ × Cell K T)
  | chain first rest => chainCells (first :: rest)
  | node p generation bitmap array =>
      (p, .node generation bitmap (array.map fun c => some c.ptr)) :: cellsIn array

def cellsIn : List (PTree K T) → List (ℕ × Cell K T)
  | [] => []
  | c :: array => c.cells ++ cellsIn array

end

mutual

/-- The trie without addresses. -/
def erase : PTree K T → Child K T
  | chain first rest => .leaf first.2 (rest.map Prod.snd)
  | node _ generation bitmap array => .node generation bitmap (eraseIn array)

def eraseIn : List (PTree K T) → List (Child K T)
  | [] => []
  | c :: array => c.erase :: eraseIn array

end

/-- The addresses of the cells. -/
def ptrs (t : PTree K T) : List ℕ := t.cells.map Prod.fst

theorem cellsIn_eq (array : List (PTree K T)) : cellsIn array = array.flatMap cells := by
  induction array with
  | nil => rfl
  | cons c array ih => rw [cellsIn, ih, List.flatMap_cons]

theorem eraseIn_eq (array : List (PTree K T)) : eraseIn array = array.map erase := by
  induction array with
  | nil => rfl
  | cons c array ih => rw [eraseIn, ih, List.map_cons]

theorem ptr_mem_ptrs (t : PTree K T) : t.ptr ∈ t.ptrs := by
  cases t with
  | chain first rest => simp [ptr, ptrs, cells, chainCells]
  | node p generation bitmap array => simp [ptr, ptrs, cells]

theorem ptrs_chain (first : ℕ × Leaf K T) (rest : List (ℕ × Leaf K T)) :
    (chain first rest).ptrs = (first :: rest).map Prod.fst := by
  have h : ∀ leaves : List (ℕ × Leaf K T), (chainCells leaves).map Prod.fst = leaves.map Prod.fst := by
    intro leaves
    induction leaves with
    | nil => rfl
    | cons x leaves ih => rw [chainCells, List.map_cons, List.map_cons, ih]
  rw [ptrs, cells, h]

theorem ptrs_node (p : ℕ) (generation : ℤ) (bitmap : BitVec 32) (array : List (PTree K T)) :
    (node p generation bitmap array).ptrs = p :: array.flatMap ptrs := by
  rw [ptrs, cells, List.map_cons, cellsIn_eq, List.map_flatMap]
  rfl

theorem cells_node (p : ℕ) (generation : ℤ) (bitmap : BitVec 32) (array : List (PTree K T)) :
    (node p generation bitmap array).cells =
      (p, .node generation bitmap (array.map fun c => some c.ptr)) :: array.flatMap cells := by
  rw [cells, cellsIn_eq]

/-- The heap has all cells of the trie. -/
def Represents (heap : ℕ → Option (Cell K T)) (t : PTree K T) : Prop := ∀ x ∈ t.cells, heap x.1 = some x.2

/-- Generations are at most as large as above, and arrays have a place for each bit. -/
inductive Layered : ℤ → PTree K T → Prop
  | chain {bound : ℤ} {first : ℕ × Leaf K T} {rest : List (ℕ × Leaf K T)}
      (hbound : first.2.generation ≤ bound)
      (hsorted : (first :: rest).Pairwise fun x y => y.2.generation ≤ x.2.generation) :
      Layered bound (chain first rest)
  | node {bound : ℤ} {p : ℕ} {generation : ℤ} {bitmap : BitVec 32} {array : List (PTree K T)}
      (hbound : generation ≤ bound) (hlength : array.length = popcount bitmap)
      (harray : ∀ c ∈ array, Layered generation c) : Layered bound (node p generation bitmap array)

theorem Layered.mono {a b : ℤ} {t : PTree K T} (h : Layered a t) (hle : a ≤ b) : Layered b t := by
  cases h with
  | chain hbound hsorted => exact .chain (hbound.trans hle) hsorted
  | node hbound hlength harray => exact .node (hbound.trans hle) hlength harray

theorem Layered.generation_le {a : ℤ} {t : PTree K T} (h : Layered a t) : t.generation ≤ a := by
  cases h with
  | chain hbound _ => exact hbound
  | node hbound _ _ => exact hbound

theorem mem_chainCells {leaves : List (ℕ × Leaf K T)} {x : ℕ × Cell K T}
    (h : x ∈ chainCells leaves) : ∃ y ∈ leaves, x.1 = y.1 ∧ x.2.getGeneration = y.2.generation := by
  induction leaves with
  | nil => cases h
  | cons y leaves ih =>
      rcases List.mem_cons.mp h with rfl | h
      · exact ⟨y, List.mem_cons_self, rfl, rfl⟩
      · obtain ⟨z, hz, hxz⟩ := ih h
        exact ⟨z, List.mem_cons_of_mem _ hz, hxz⟩

/-- No cell has a larger generation than the top. -/
theorem Layered.cell_le {a : ℤ} {t : PTree K T} (h : Layered a t) :
    ∀ x ∈ t.cells, x.2.getGeneration ≤ t.generation := by
  induction h with
  | @chain bound first rest hbound hsorted =>
      intro x hx
      obtain ⟨y, hy, -, hgen⟩ := mem_chainCells hx
      rw [hgen, generation]
      rcases List.mem_cons.mp hy with rfl | hy
      · exact le_rfl
      · exact (List.pairwise_cons.mp hsorted).1 y hy
  | @node bound p gen bitmap array hbound hlength harray ih =>
      intro x hx
      rw [cells_node] at hx
      rcases List.mem_cons.mp hx with rfl | hx
      · exact le_rfl
      · obtain ⟨c, hc, hx⟩ := List.mem_flatMap.mp hx
        exact (ih c hc x hx).trans (harray c hc).generation_le

variable {heap heap' : ℕ → Option (Cell K T)}

theorem Represents.head {first : ℕ × Leaf K T} {rest : List (ℕ × Leaf K T)}
    (h : Represents heap (chain first rest)) : heap first.1 =
      some (.leaf first.2.generation first.2.key first.2.value (rest.head?.map Prod.fst)) :=
  h _ List.mem_cons_self

theorem Represents.tail {x y : ℕ × Leaf K T} {rest : List (ℕ × Leaf K T)}
    (h : Represents heap (chain x (y :: rest))) : Represents heap (chain y rest) :=
  fun z hz => h z (List.mem_cons_of_mem _ hz)

theorem Represents.top {p : ℕ} {gen : ℤ} {bitmap : BitVec 32} {array : List (PTree K T)}
    (h : Represents heap (node p gen bitmap array)) :
    heap p = some (.node gen bitmap (array.map fun c => some c.ptr)) := by
  refine h (p, _) ?_
  rw [cells_node]
  exact List.mem_cons_self

theorem Represents.child {p : ℕ} {gen : ℤ} {bitmap : BitVec 32} {array : List (PTree K T)}
    (h : Represents heap (node p gen bitmap array)) {c : PTree K T} (hc : c ∈ array) : Represents heap c := by
  intro x hx
  refine h x ?_
  rw [cells_node]
  exact List.mem_cons_of_mem _ (List.mem_flatMap.mpr ⟨c, hc, hx⟩)

/-- Heaps that agree on the cells represent the same tries. -/
theorem Represents.congr {t : PTree K T} (h : Represents heap t) (heq : ∀ p ∈ t.ptrs, heap' p = heap p) :
    Represents heap' t := by
  intro x hx
  rw [heq x.1 (List.mem_map_of_mem hx)]
  exact h x hx

/-- A heap represents at most one trie at an address. -/
theorem Represents.unique {t t' : PTree K T} (h : Represents heap t) (h' : Represents heap t') (hptr : t.ptr = t'.ptr) :
    t = t' := by
  induction t using induct generalizing t' with
  | chain first rest =>
      cases t' with
      | node p gen bitmap array =>
          have heq := h'.top
          rw [← show first.1 = p from hptr, h.head] at heq
          cases heq
      | chain first' rest' =>
          -- along both leaf lists
          induction rest generalizing first first' rest' with
          | nil =>
              have heq := h'.head
              rw [← show first.1 = first'.1 from hptr, h.head] at heq
              obtain ⟨p, leaf⟩ := first
              obtain ⟨p', leaf'⟩ := first'
              obtain ⟨gen, key, value⟩ := leaf
              obtain ⟨gen', key', value'⟩ := leaf'
              simp only [List.head?_nil, Option.map_none, Option.some.injEq, Cell.leaf.injEq] at heq
              obtain ⟨rfl, rfl, rfl, hnext⟩ := heq
              obtain rfl : p = p' := hptr
              cases rest' with
              | nil => rfl
              | cons y rest' => cases hnext
          | cons y rest ih =>
              have heq := h'.head
              rw [← show first.1 = first'.1 from hptr, h.head] at heq
              obtain ⟨p, leaf⟩ := first
              obtain ⟨p', leaf'⟩ := first'
              obtain ⟨gen, key, value⟩ := leaf
              obtain ⟨gen', key', value'⟩ := leaf'
              simp only [List.head?_cons, Option.map_some, Option.some.injEq,
                Cell.leaf.injEq] at heq
              obtain ⟨rfl, rfl, rfl, hnext⟩ := heq
              obtain rfl : p = p' := hptr
              cases rest' with
              | nil => cases hnext
              | cons y' rest' =>
                  have hy := ih y h.tail y' rest' h'.tail (Option.some.inj hnext)
                  cases hy
                  rfl
  | node p gen bitmap array ih =>
      cases t' with
      | chain first' rest' =>
          have heq := h'.head
          rw [← show p = first'.1 from hptr, h.top] at heq
          cases heq
      | node p' gen' bitmap' array' =>
          have heq := h'.top
          obtain rfl : p = p' := hptr
          rw [h.top, Option.some.injEq, Cell.node.injEq] at heq
          obtain ⟨rfl, rfl, hmap⟩ := heq
          congr 1
          -- the children are at the same addresses
          have hall : ∀ c ∈ array, Represents heap c := fun c hc => h.child hc
          have hall' : ∀ c ∈ array', Represents heap c := fun c hc => h'.child hc
          clear h h'
          induction array generalizing array' with
          | nil => exact (List.map_eq_nil_iff.mp hmap.symm).symm
          | cons c array ihl =>
              cases array' with
              | nil => cases hmap
              | cons c' array' =>
                  rw [List.map_cons, List.map_cons, List.cons.injEq, Option.some.injEq] at hmap
                  rw [ih c List.mem_cons_self (hall c List.mem_cons_self)
                    (hall' c' List.mem_cons_self) hmap.1,
                    ihl (fun d hd => ih d (List.mem_cons_of_mem _ hd)) array' hmap.2
                      (fun d hd => hall d (List.mem_cons_of_mem _ hd))
                      (fun d hd => hall' d (List.mem_cons_of_mem _ hd))]

/-! ### Arrays -/

theorem popcount_eq_length (bitmap : BitVec 32) : popcount bitmap = (setBits bitmap).length := by
  rw [popcount, setBits, List.countP_eq_length_filter, List.filter_reverse, List.length_reverse]

/-- The child that belongs to a bit. -/
theorem exists_child_of_bit {α : Type} {array : List α} {bitmap : BitVec 32}
    (hlength : array.length = popcount bitmap) {i : ℕ} (hbit : bitmap.getLsbD i = true) :
    ∃ front c back, array = front ++ c :: back ∧ front.length = popcount (bitmap >>> i) - 1 := by
  obtain ⟨high, low, hbits, hpos⟩ := setBits_split hbit
  rw [popcount_eq_length, hbits] at hlength
  obtain ⟨front, c, back, rfl, hfront, -⟩ :=
    exists_append_cons (n := high.length) (m := low.length) (by simpa using hlength)
  exact ⟨front, c, back, rfl, hfront.trans hpos⟩

/-- All places of an array are in use. -/
theorem take_slots {array : List (PTree K T)} {bitmap : BitVec 32}
    (hlength : array.length = popcount bitmap) :
    (array.map fun c => some c.ptr).take (popcount bitmap) = array.map fun c => some c.ptr := by
  rw [← hlength, ← List.length_map fun c : PTree K T => some c.ptr, List.take_length]

/-! ### Reading -/

/-- The leaf of a key in a leaf list. -/
theorem Represents.findLeaf [DecidableEq K] {h : Heap K T} {first : ℕ × Leaf K T}
    {rest : List (ℕ × Leaf K T)} (hrep : Represents h.cells (chain first rest)) (k : K) {turns : ℕ}
    (hturns : rest.length + 1 < turns) : h.findLeaf k turns (some first.1) =
      some (((first :: rest).find? fun x => x.2.key = k).map Prod.fst) := by
  induction rest generalizing first turns with
  | nil =>
      obtain ⟨turns, rfl⟩ : ∃ n, turns = n + 2 := ⟨turns - 2, by simp at hturns; omega⟩
      rw [Heap.findLeaf, hrep.head]
      by_cases hkey : first.2.key = k
      · simp [hkey]
      · simp [hkey, Heap.findLeaf]
  | cons y rest ih =>
      obtain ⟨turns, rfl⟩ : ∃ n, turns = n + 1 := ⟨turns - 1, by omega⟩
      rw [Heap.findLeaf, hrep.head]
      by_cases hkey : first.2.key = k
      · simp [hkey]
      · simp only [Option.bind_eq_bind, Option.bind_some, hkey, if_false, List.head?_cons,
          Option.map_some]
        rw [ih hrep.tail (by simp only [List.length_cons] at hturns; omega)]
        simp only [List.find?_cons, hkey, decide_false]

theorem length_chainCells (leaves : List (ℕ × Leaf K T)) :
    (chainCells leaves).length = leaves.length := by
  induction leaves with
  | nil => rfl
  | cons x leaves ih => rw [chainCells, List.length_cons, List.length_cons, ih]

/-- A child has fewer cells than the node above it. -/
theorem length_cells_lt {p : ℕ} {gen : ℤ} {bitmap : BitVec 32} {array : List (PTree K T)}
    {c : PTree K T} (hc : c ∈ array) :
    c.cells.length < (node p gen bitmap array).cells.length := by
  obtain ⟨front, back, rfl⟩ := List.append_of_mem hc
  rw [cells_node, List.flatMap_append, List.flatMap_cons, List.length_cons, List.length_append,
    List.length_append]
  omega

/-- `find` arrives at the leaf list that is searched in the trie without addresses. -/
theorem Represents.findLeaves [DecidableEq K] {h : Heap K T} {t : PTree K T} {bound : ℤ}
    (hrep : Represents h.cells t) (hlayered : Layered bound t) (k : K) (hash : ℕ) {turns : ℕ}
    (hturns : t.cells.length < turns) :
    (h.findLeaves turns (some t.ptr) hash = some none ∧ t.erase.find k hash = none) ∨
      ∃ first rest, h.findLeaves turns (some t.ptr) hash = some (some first.1) ∧
        Represents h.cells (chain first rest) ∧ rest.length < t.cells.length ∧
        t.erase.find k hash = GenMap.findLeaf k ((first :: rest).map Prod.snd) := by
  induction hlayered generalizing hash turns with
  | @chain bound first rest hbound hsorted =>
      obtain ⟨turns, rfl⟩ : ∃ n, turns = n + 1 := ⟨turns - 1, by omega⟩
      refine .inr ⟨first, rest, ?_, hrep, ?_, ?_⟩
      · rw [Heap.findLeaves, ptr, hrep.head]
        rfl
      · rw [cells, length_chainCells, List.length_cons]
        omega
      · rfl
  | @node bound p gen bitmap array hbound hlength harray ih =>
      obtain ⟨turns, rfl⟩ : ∃ n, turns = n + 1 := ⟨turns - 1, by omega⟩
      rw [erase, eraseIn_eq, Heap.findLeaves, ptr, hrep.top]
      by_cases hbit : bitmap.getLsbD (hash % 32) = true
      · obtain ⟨front, c, back, rfl, hfront⟩ := exists_child_of_bit hlength hbit
        have hc : c ∈ front ++ c :: back := by simp
        have hlt : c.cells.length < (node p gen bitmap (front ++ c :: back)).cells.length :=
          length_cells_lt hc
        have hslot : ((front ++ c :: back).map fun d => some d.ptr)[popcount
            (bitmap >>> (hash % 32)) - 1]? = some (some c.ptr) := by
          rw [← hfront]
          simp
        have hfind : (Child.node gen bitmap ((front ++ c :: back).map erase)).find k hash =
            c.erase.find k (hash / 32) := by
          rw [Child.find_node_of_set hbit, ← hfront, List.map_append, List.map_cons,
            ← List.length_map erase, findAt_length]
        rw [hfind]
        simp only [Option.bind_eq_bind, Option.bind_some, arity, hbit, if_true, hslot]
        have hless : c.cells.length < turns := by omega
        rcases ih c hc (hrep.child hc) (hash / 32) hless with
          hnone | ⟨first, rest, hleaves, hrest, hlen, hfind⟩
        · exact .inl hnone
        · exact .inr ⟨first, rest, hleaves, hrest, by omega, hfind⟩
      · refine .inl ⟨?_, Child.find_node_of_unset hbit⟩
        simp [hbit]

theorem find?_key_map [DecidableEq K] (k : K) (leaves : List (ℕ × Leaf K T)) :
    GenMap.findLeaf k (leaves.map Prod.snd) =
      (leaves.find? fun x => x.2.key = k).map fun x => x.2.value := by
  rw [GenMap.findLeaf, List.find?_map, Option.map_map]
  rfl

/-- `for_each` along a leaf list. -/
theorem Represents.forEachLeaf {h : Heap K T} {first : ℕ × Leaf K T} {rest : List (ℕ × Leaf K T)}
    (hrep : Represents h.cells (chain first rest)) {turns : ℕ} (hturns : rest.length < turns) :
    h.forEachLeaf turns first.1 =
      some ((first :: rest).map fun x => (x.2.key, x.2.value)) := by
  induction rest generalizing first turns with
  | nil =>
      obtain ⟨turns, rfl⟩ : ∃ n, turns = n + 1 := ⟨turns - 1, by simp at hturns; omega⟩
      rw [Heap.forEachLeaf, hrep.head]
      rfl
  | cons y rest ih =>
      obtain ⟨turns, rfl⟩ : ∃ n, turns = n + 1 := ⟨turns - 1, by simp at hturns; omega⟩
      rw [Heap.forEachLeaf, hrep.head]
      simp only [Option.bind_eq_bind, Option.bind_some, List.head?_cons, Option.map_some]
      rw [ih hrep.tail (by simpa using hturns)]
      rfl

/-- `for_each` visits the elements of the trie without addresses. -/
theorem Represents.forEach {h : Heap K T} {t : PTree K T} {bound : ℤ} (hrep : Represents h.cells t)
    (hlayered : Layered bound t) {turns depth : ℕ} (hturns : t.cells.length ≤ turns)
    (hdepth : t.cells.length < depth) :
    h.forEach turns depth (some t.ptr) = some t.erase.forEach := by
  induction hlayered generalizing depth with
  | @chain bound first rest hbound hsorted =>
      obtain ⟨depth, rfl⟩ : ∃ n, depth = n + 1 := ⟨depth - 1, by omega⟩
      rw [cells, length_chainCells, List.length_cons] at hturns
      rw [Heap.forEach, ptr, hrep.head, erase, Child.forEach]
      simp only [Option.bind_eq_bind, Option.bind_some]
      rw [hrep.forEachLeaf (by omega)]
      simp
  | @node bound p gen bitmap array hbound hlength harray ih =>
      obtain ⟨depth, rfl⟩ : ∃ n, depth = n + 1 := ⟨depth - 1, by omega⟩
      have hall : ∀ cs : List (PTree K T), (∀ c ∈ cs, c ∈ array) →
          (cs.map fun c => some c.ptr).mapM (h.forEach turns depth) =
            some (cs.map fun c => c.erase.forEach) := by
        intro cs hcs
        induction cs with
        | nil => rfl
        | cons c cs ihl =>
            have hc := hcs c List.mem_cons_self
            have hlt : c.cells.length < (node p gen bitmap array).cells.length :=
              length_cells_lt hc
            rw [List.map_cons, List.mapM_cons, ih c hc (hrep.child hc) (by omega) (by omega),
              ihl fun d hd => hcs d (List.mem_cons_of_mem _ hd)]
            rfl
      have hflat : ∀ cs : List (PTree K T), (cs.map fun c => c.erase.forEach).flatten =
          forEachIn (eraseIn cs) := by
        intro cs
        induction cs with
        | nil => rfl
        | cons c cs ihl => rw [List.map_cons, List.flatten_cons, ihl, eraseIn, forEachIn]
      rw [Heap.forEach, ptr, hrep.top, erase, Child.forEach]
      simp only [Option.bind_eq_bind, Option.bind_some, List.length_map, hlength, le_refl,
        guard_true, take_slots hlength, hall array fun c hc => hc, Option.pure_def, hflat]

end PTree

end Nidhugg.GenMap
