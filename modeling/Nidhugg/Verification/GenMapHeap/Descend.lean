import Nidhugg.Verification.GenMap.Mutate
import Nidhugg.Verification.GenMapHeap.Mutate

/-! # `mut` through the nodes

On its way down, `mut` copies the nodes of other generations, and it grows the last one if the
key has no place below it. The value is written at the end. -/

namespace Nidhugg.GenMap

open PTree

variable {K T : Type} {generation : ℤ} {h h' h₀ h₁ : Heap K T}

/-- A node of the own generation with a child that takes the place of an old one, or that is
new. -/
theorem replaced_node (mid : List (PTree K T)) {p q : ℕ} {gen : ℤ} {bitmap bitmap' : BitVec 32}
    {front back : List (PTree K T)} {c' : PTree K T} {array : List (Option ℕ)}
    (halloc : h.Allocated) (hrep : Represents h.cells (node p gen bitmap (front ++ (mid ++ back))))
    (hlayered : Layered generation (node p gen bitmap (front ++ (mid ++ back))))
    (hnodup : (node p gen bitmap (front ++ (mid ++ back))).ptrs.Nodup)
    (hprepares : Prepares generation h h₀ p
      (.node gen bitmap ((front ++ (mid ++ back)).map fun c => some c.ptr)) q)
    (hq : h₀.cells q = some (.node generation bitmap' array)) (hposition : front.length < array.length)
    (hset : array.set front.length (some c'.ptr) = (front ++ c' :: back).map fun c => some c.ptr)
    (hlength : (front ++ c' :: back).length = popcount bitmap')
    (hreplaced : Replaced generation h₀ h₁ (mid.flatMap cells) c') :
    ∃ h₂, h₁.setSlot q front.length c'.ptr = some h₂ ∧
      Replaced generation h h₂ (node p gen bitmap (front ++ (mid ++ back))).cells
        (node q generation bitmap' (front ++ c' :: back)) := by
  have hcells : (node p gen bitmap (front ++ (mid ++ back))).cells =
      (p, .node gen bitmap ((front ++ (mid ++ back)).map fun c => some c.ptr)) ::
        (front.flatMap cells ++ (mid.flatMap cells ++ back.flatMap cells)) := by
    rw [cells_node, List.flatMap_append, List.flatMap_append]
  rw [ptrs, hcells] at hnodup
  have hrep' := hrep
  rw [Represents, hcells] at hrep'
  have hqne : ∀ x ∈ mid.flatMap cells, x.1 ≠ q := by
    intro x hx
    have hmem : x ∈ front.flatMap cells ++ (mid.flatMap cells ++ back.flatMap cells) := by
      simp only [List.mem_append]
      exact .inr (.inl hx)
    rcases hprepares.place with ⟨rfl, -⟩ | ⟨hqn, -⟩
    · exact ne_of_nodup_cons hnodup x hmem
    · have := Heap.lt_of_eq_some halloc (hrep' x (List.mem_cons_of_mem _ hmem))
      omega
  have hq₀ : q < h₀.next := Heap.lt_of_eq_some hprepares.allocated hq
  have hq₁ : h₁.cells q = some (.node generation bitmap' array) := by
    rw [hreplaced.delta.kept q hq₀ fun x hx hxq => absurd hxq (hqne x hx), hq]
  refine ⟨_, setSlot_eq hq₁ hposition, ?_, ?_⟩
  · rw [hcells, cells_node, List.flatMap_append, List.flatMap_cons, ← hset]
    exact Delta.wrap _ _ halloc hrep' hnodup hprepares hreplaced.delta rfl rfl rfl
  · cases hlayered with
    | node hbound _ harray =>
        refine .node le_rfl hlength ?_
        intro c hc
        rcases List.mem_append.mp hc with hc | hc
        · exact (harray c (List.mem_append_left _ hc)).mono hbound
        · rcases List.mem_cons.mp hc with rfl | hc
          · exact hreplaced.layered
          · exact (harray c (List.mem_append_right _ (List.mem_append_right _ hc))).mono hbound

theorem OwnLeaf.node {p : ℕ} {gen : ℤ} {bitmap : BitVec 32} {array : List (PTree K T)}
    {c : PTree K T} {leaf : ℕ} (hleaf : OwnLeaf generation c leaf) (hc : c ∈ array) :
    OwnLeaf generation (node p gen bitmap array) leaf := by
  obtain ⟨key, value, next, hmem⟩ := hleaf
  refine ⟨key, value, next, ?_⟩
  rw [cells_node]
  exact List.mem_cons_of_mem _ (List.mem_flatMap.mpr ⟨c, hc, hmem⟩)

/-- The place for a bit that is not set. -/
theorem exists_place {α : Type} {array : List α} {bitmap : BitVec 32}
    (hlength : array.length = popcount bitmap) {i : ℕ} (hi : i < 32)
    (hbit : bitmap.getLsbD i = false) :
    ∃ front back, array = front ++ back ∧ front.length = popcount (bitmap >>> i) ∧
      popcount (bitmap ||| bit i) = array.length + 1 := by
  obtain ⟨high, low, hbits, hbits', hpos⟩ := setBits_or_bit hi hbit
  rw [popcount_eq_length, hbits, List.length_append] at hlength
  refine ⟨array.take high.length, array.drop high.length, (List.take_append_drop _ _).symm, ?_, ?_⟩
  · rw [List.length_take, ← hpos]
    omega
  · rw [popcount_eq_length, hbits', List.length_append, List.length_cons]
    omega

theorem nodup_child {p : ℕ} {gen : ℤ} {bitmap : BitVec 32} {array : List (PTree K T)}
    (hnodup : (node p gen bitmap array).ptrs.Nodup) {c : PTree K T} (hc : c ∈ array) :
    c.ptrs.Nodup := by
  rw [ptrs_node, List.nodup_cons] at hnodup
  exact (List.nodup_flatMap.mp hnodup.2).1 c hc

/-- The cells of a child stay where they are. -/
theorem Prepares.rep_child {p q : ℕ} {gen : ℤ} {bitmap : BitVec 32} {array : List (PTree K T)}
    (halloc : h.Allocated) (hrep : Represents h.cells (node p gen bitmap array))
    (hnodup : (node p gen bitmap array).ptrs.Nodup)
    (hprepares : Prepares generation h h₀ p
      (.node gen bitmap (array.map fun c => some c.ptr)) q) {c : PTree K T} (hc : c ∈ array) :
    Represents h₀.cells c := by
  intro x hx
  have hmem : x ∈ array.flatMap cells := List.mem_flatMap.mpr ⟨c, hc, hx⟩
  have hold := hrep.child hc x hx
  rw [ptrs, cells_node] at hnodup
  have hp : x.1 ≠ p := ne_of_nodup_cons hnodup x hmem
  have hq : x.1 ≠ q := by
    rcases hprepares.place with ⟨rfl, -⟩ | ⟨hqn, -⟩
    · exact hp
    · have := Heap.lt_of_eq_some halloc hold
      omega
  rw [hprepares.other hp hq, hold]

/-- A node on the way is copied if it is of another generation. -/
theorem uncowNode_spec (generation : ℤ) {p : ℕ} {gen : ℤ} {bitmap : BitVec 32} {array : List (PTree K T)}
    (halloc : h.Allocated) (hrep : Represents h.cells (node p gen bitmap array))
    (hlength : array.length = popcount bitmap) (hpos : 0 < array.length) :
    ∃ h₀ q, (if gen ≠ generation then h.allocNode generation bitmap
        ((array.map fun c => some c.ptr).take (popcount bitmap)) else some (h, p)) =
        some (h₀, q) ∧
      Prepares generation h h₀ p (.node gen bitmap (array.map fun c => some c.ptr)) q ∧
      h₀.cells q = some (.node generation bitmap (array.map fun c => some c.ptr)) := by
  by_cases hown : gen = generation
  · subst hown
    exact ⟨h, p, by simp, Prepares.own_cell halloc rfl, hrep.top⟩
  · refine ⟨(h.alloc (.node generation bitmap (array.map fun c : PTree K T => some c.ptr))).1, h.next, ?_,
      Prepares.copied halloc hown, Function.update_self ..⟩
    rw [if_pos hown, take_slots hlength, allocNode_eq (by simp [hlength]) (by simpa using hpos)]
    rfl

/-- A node gets one more place. It is moved if it is of the own generation. -/
theorem growNode_spec (generation : ℤ) (bitmap' : BitVec 32) (array' : List (Option ℕ)) {p : ℕ}
    {gen : ℤ} {bitmap : BitVec 32} {array : List (PTree K T)} (halloc : h.Allocated)
    (hrep : Represents h.cells (node p gen bitmap array)) (hlength : popcount bitmap' = array'.length)
    (hpos : 0 < array'.length) :
    ∃ h₀, ((if gen = generation then h.free p else some h).bind fun h =>
        h.allocNode generation bitmap' array') = some (h₀, h.next) ∧
      Prepares generation h h₀ p (.node gen bitmap (array.map fun c => some c.ptr)) h.next ∧
      h₀.cells h.next = some (.node generation bitmap' array') := by
  by_cases hown : gen = generation
  · refine ⟨(Heap.alloc { h with cells := Function.update h.cells p none }
      (.node generation bitmap' array')).1, ?_,
      Prepares.moved halloc (Heap.lt_of_eq_some halloc hrep.top) hown, Function.update_self ..⟩
    rw [if_pos hown, Heap.free, hrep.top]
    simp only [Option.bind_eq_bind, Option.bind_some, Option.pure_def,
      allocNode_eq hlength hpos]
    rfl
  · refine ⟨(h.alloc (.node generation bitmap' array')).1, ?_, Prepares.copied halloc hown,
      Function.update_self ..⟩
    rw [if_neg hown, Option.bind_some, allocNode_eq hlength hpos]
    rfl

section MutChild

variable [DecidableEq K] (hashKey : K → BitVec 64) (longShift : ℕ → ℕ → ℕ) (k : K) (init : T)

/-- `mut` succeeds and replaces the trie. -/
theorem mutChild_spec {t : PTree K T} (halloc : h.Allocated) (hrep : Represents h.cells t)
    (hlayered : Layered generation t) (hnodup : t.ptrs.Nodup) {turns limit : ℕ}
    (hturns : t.cells.length < turns) (hlimit : t.cells.length < limit) {hash : ℕ}
    (hhash : hash < 32 ^ 13) (depth : ℕ) :
    ∃ h' t' leaf new,
      Heap.mutChild hashKey longShift generation k init turns limit h t.ptr hash depth =
        some (h', t'.ptr, leaf, new) ∧
      Replaced generation h h' t.cells t' ∧ OwnLeaf generation t' leaf := by
  induction t using PTree.induct generalizing h limit hash depth with
  | chain first rest =>
      obtain ⟨limit, rfl⟩ : ∃ n, limit = n + 1 := ⟨limit - 1, by omega⟩
      have hturns' : rest.length + 1 < turns := by
        rwa [cells, length_chainCells, List.length_cons] at hturns
      obtain ⟨h', t', leaf, new, heq, hspec⟩ := mutLeaves_some_spec hashKey longShift k init halloc
        hrep hlayered hnodup hturns' hhash depth
      refine ⟨h', t', leaf, new, ?_, hspec⟩
      rw [Heap.mutChild, ptr, hrep.head]
      exact heq
  | node p gen bitmap array ih =>
      obtain ⟨limit, rfl⟩ : ∃ n, limit = n + 1 := ⟨limit - 1, by omega⟩
      have hlength : array.length = popcount bitmap := by
        cases hlayered with
        | node _ hlength _ => exact hlength
      have hhash' : hash / 32 < 32 ^ 13 := (Nat.div_le_self _ _).trans_lt hhash
      by_cases hbit : bitmap.getLsbD (hash % 32) = true
      · obtain ⟨front, c, back, rfl, hfront⟩ := exists_child_of_bit hlength hbit
        have hc : c ∈ front ++ c :: back := by simp
        have hclt : c.cells.length < (node p gen bitmap (front ++ c :: back)).cells.length :=
          length_cells_lt hc
        have hclimit : c.cells.length < limit := by omega
        have hclayered : Layered generation c := by
          cases hlayered with
          | node hbound _ harray => exact (harray c hc).mono hbound
        obtain ⟨h₀, q, heq₀, hprepares, hq⟩ :=
          uncowNode_spec generation halloc hrep hlength (by simp)
        obtain ⟨h₁, c', leaf, new, heq₁, hreplaced, hleaf⟩ := ih c hc hprepares.allocated
          (hprepares.rep_child halloc hrep hnodup hc) hclayered (nodup_child hnodup hc) (by omega)
          hclimit hhash' (depth + 5)
        have hreplaced' : Replaced generation h₀ h₁ ([c].flatMap PTree.cells) c' := by
          simpa using hreplaced
        obtain ⟨h₂, hset, hreplaced₂⟩ := replaced_node [c] halloc hrep hlayered hnodup
          hprepares hq (by simp) (by simp) (by simpa using hlength) hreplaced'
        refine ⟨h₂, node q generation bitmap (front ++ c' :: back), leaf, new, ?_, hreplaced₂,
          hleaf.node (by simp)⟩
        have hslot : ((front ++ c :: back).map fun d => some d.ptr)[front.length]? =
            some (some c.ptr) := by simp
        rw [Heap.mutChild, ptr, hrep.top]
        simp only [Option.bind_eq_bind, Option.bind_some, arity, hbit, if_true, log2Arity, heq₀,
          ← hfront, hslot, heq₁, hset, Option.pure_def]
        rfl
      · have hbit' : bitmap.getLsbD (hash % 32) = false := by simpa using hbit
        obtain ⟨front, back, rfl, hfront, hpop⟩ :=
          exists_place hlength (Nat.mod_lt hash (by decide)) hbit'
        have harray : (((front ++ back).map fun d => some d.ptr).take (popcount bitmap)).insertIdx
            front.length none = front.map (fun d => some d.ptr) ++
              none :: back.map fun d => some d.ptr := by
          rw [take_slots hlength, List.map_append, ← List.length_map fun d : PTree K T => some d.ptr,
            insertIdx_length]
        obtain ⟨h₀, heq₀, hprepares, hq⟩ := growNode_spec generation
          (bitmap ||| bit (hash % 32)) (front.map (fun d => some d.ptr) ++
              none :: back.map fun d => some d.ptr) halloc hrep
          (by simpa [Nat.add_assoc] using hpop) (by simp)
        obtain ⟨h₁, c', leaf, new, heq₁, hreplaced, hleaf⟩ := mutLeaves_none_spec
          hashKey longShift k init generation hprepares.allocated
          (show 0 < turns by omega) (hash / 32) (depth + 5)
        have hreplaced' : Replaced generation h₀ h₁ (([] : List (PTree K T)).flatMap PTree.cells)
            c' := hreplaced
        obtain ⟨h₂, hset, hreplaced₂⟩ := replaced_node [] halloc hrep hlayered hnodup
          hprepares hq (by simp) (by simp) (by simpa [Nat.add_assoc] using hpop.symm) hreplaced'
        refine ⟨h₂, node h.next generation (bitmap ||| bit (hash % 32)) (front ++ c' :: back),
          leaf, new, ?_, hreplaced₂, hleaf.node (by simp)⟩
        rw [Heap.mutChild, ptr, hrep.top]
        simp only [Option.bind_eq_bind, Option.bind_some, arity, hbit', Bool.false_eq_true, if_false,
          log2Arity, ← hfront, harray, Option.pure_def]
        rw [← Option.bind_assoc, heq₀]
        simp only [Option.bind_some, heq₁, hset]
        rfl

end MutChild

/-! ### The write of the value -/

def Cell.write (write : T → T) : Cell K T → Cell K T
  | .leaf generation key value next => .leaf generation key (write value) next
  | .node generation bitmap array => .node generation bitmap array

theorem Cell.getGeneration_write (write : T → T) (cell : Cell K T) :
    (cell.write write).getGeneration = cell.getGeneration := by
  cases cell with
  | leaf => rfl
  | node => rfl

namespace PTree

def writeLeaf (p : ℕ) (write : T → T) (x : ℕ × Leaf K T) : ℕ × Leaf K T :=
  (x.1, if x.1 = p then { x.2 with value := write x.2.value } else x.2)

mutual

/-- The trie after a write to the value of the leaf at an address. -/
def writeAt (p : ℕ) (write : T → T) : PTree K T → PTree K T
  | chain first rest => chain (writeLeaf p write first) (rest.map (writeLeaf p write))
  | node q generation bitmap array => node q generation bitmap (writeAtIn p write array)

def writeAtIn (p : ℕ) (write : T → T) : List (PTree K T) → List (PTree K T)
  | [] => []
  | c :: array => c.writeAt p write :: writeAtIn p write array

end

variable (p : ℕ) (write : T → T)

theorem writeAtIn_eq (array : List (PTree K T)) :
    writeAtIn p write array = array.map (writeAt p write) := by
  induction array with
  | nil => rfl
  | cons c array ih => rw [writeAtIn, ih, List.map_cons]

theorem ptr_writeAt (t : PTree K T) : (t.writeAt p write).ptr = t.ptr := by
  cases t with
  | chain first rest => rfl
  | node q gen bitmap array => rfl

theorem generation_writeLeaf (x : ℕ × Leaf K T) :
    (writeLeaf p write x).2.generation = x.2.generation := by
  rw [writeLeaf]
  dsimp only
  split
  · rfl
  · rfl

theorem chainCells_writeLeaf (leaves : List (ℕ × Leaf K T)) :
    chainCells (leaves.map (writeLeaf p write)) =
      (chainCells leaves).map fun x => (x.1, if x.1 = p then x.2.write write else x.2) := by
  induction leaves with
  | nil => rfl
  | cons x leaves ih =>
      have hhead : ((leaves.map (writeLeaf p write)).head?.map Prod.fst) =
          leaves.head?.map Prod.fst := by
        cases leaves with
        | nil => rfl
        | cons y leaves => rfl
      rw [List.map_cons, writeLeaf, chainCells, chainCells, List.map_cons, ih, hhead]
      by_cases hx : x.1 = p
      · simp only [hx, if_true, Cell.write]
      · simp only [hx, if_false]

theorem cells_writeAt (t : PTree K T) : (t.writeAt p write).cells =
    t.cells.map fun x => (x.1, if x.1 = p then x.2.write write else x.2) := by
  induction t using induct with
  | chain first rest =>
      rw [writeAt, cells, ← List.map_cons, chainCells_writeLeaf, cells]
  | node q gen bitmap array ih =>
      have hptrs : (array.map (writeAt p write)).map (fun c => some c.ptr) =
          array.map fun c => some c.ptr := by
        rw [List.map_map]
        exact List.map_congr_left fun c _ => congrArg some (ptr_writeAt p write c)
      have hcells : (array.map (writeAt p write)).flatMap cells = (array.flatMap cells).map
          fun x => (x.1, if x.1 = p then x.2.write write else x.2) := by
        rw [List.flatMap_map, List.map_flatMap]
        exact List.flatMap_congr fun c hc => ih c hc
      rw [writeAt, writeAtIn_eq, cells_node, cells_node, hptrs, hcells, List.map_cons]
      simp [Cell.write]

theorem Layered.writeAt {bound : ℤ} {t : PTree K T} (h : Layered bound t) :
    Layered bound (t.writeAt p write) := by
  induction h with
  | @chain bound first rest hbound hsorted =>
      refine .chain ?_ ?_
      · rwa [generation_writeLeaf]
      · rw [← List.map_cons, List.pairwise_map]
        refine hsorted.imp ?_
        intro x y hxy
        rwa [generation_writeLeaf, generation_writeLeaf]
  | @node bound q gen bitmap array hbound hlength harray ih =>
      rw [PTree.writeAt, writeAtIn_eq]
      refine .node hbound ?_ ?_
      · rwa [List.length_map]
      · intro c hc
        obtain ⟨d, hd, rfl⟩ := List.mem_map.mp hc
        exact ih d hd

end PTree

theorem Replaced.write {old : List (ℕ × Cell K T)} {t : PTree K T} {leaf : ℕ}
    (hreplaced : Replaced generation h h' old t) (hold : ∀ x ∈ old, h.cells x.1 = some x.2)
    (hleaf : OwnLeaf generation t leaf) (write : T → T) :
    ∃ h'', h'.writeValue leaf write = some h'' ∧
      Replaced generation h h'' old (t.writeAt leaf write) := by
  obtain ⟨key, value, next, hmem⟩ := hleaf
  refine ⟨{ h' with
    cells := Function.update h'.cells leaf (some (.leaf generation key (write value) next)) },
    ?_, ?_, ?_⟩
  · rw [Heap.writeValue, hreplaced.delta.rep _ hmem]
    rfl
  · rw [cells_writeAt]
    exact hreplaced.delta.write hold hmem rfl (Cell.getGeneration_write write)
  · exact hreplaced.layered.writeAt leaf write

end Nidhugg.GenMap
