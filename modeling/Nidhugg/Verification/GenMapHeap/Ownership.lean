import Nidhugg.Library.CopyOnWrite
import Nidhugg.Verification.GenMapHeap.Descend

/-! # What `free_child` frees

`free_child` stops at the first cell of another generation on each way down. As generations do
not grow on the way, it frees all cells of the own generation and no others. -/

namespace Nidhugg.GenMap

open PTree

variable {K T : Type} {generation : ℤ} {h : Heap K T}

/-- The heap without some cells. -/
def Heap.without (h : Heap K T) (ps : List ℕ) : Heap K T :=
  { h with cells := fun p => if p ∈ ps then none else h.cells p }

theorem Heap.without_nil : h.without [] = h := by simp [Heap.without]

theorem Heap.without_without (ps qs : List ℕ) :
    (h.without ps).without qs = h.without (ps ++ qs) := by
  simp only [Heap.without, Heap.mk.injEq, and_true]
  funext p
  by_cases hp : p ∈ ps
  · simp [hp]
  · simp [hp]

theorem Heap.without_congr {ps qs : List ℕ} (hmem : ∀ p, p ∈ ps ↔ p ∈ qs) :
    h.without ps = h.without qs := by
  simp only [Heap.without, hmem]

theorem Heap.cells_without {ps : List ℕ} {p : ℕ} (hp : p ∉ ps) :
    (h.without ps).cells p = h.cells p := if_neg hp

theorem Heap.free_eq {p : ℕ} {cell : Cell K T} (hp : h.cells p = some cell) :
    h.free p = some (h.without [p]) := by
  rw [Heap.free, hp]
  simp only [Option.bind_eq_bind, Option.bind_some, Option.pure_def, Heap.without,
    Option.some.injEq, Heap.mk.injEq, and_true]
  funext q
  by_cases hq : q = p
  · simp [hq]
  · simp [hq]

/-- The addresses of the cells of a generation. -/
def ownIn (generation : ℤ) (cells : List (ℕ × Cell K T)) : List ℕ :=
  (cells.filter fun x => x.2.getGeneration = generation).map Prod.fst

theorem mem_ownIn {cells : List (ℕ × Cell K T)} {p : ℕ} :
    p ∈ ownIn generation cells ↔ ∃ cell, (p, cell) ∈ cells ∧ cell.getGeneration = generation := by
  simp [ownIn]

theorem ownIn_cons_of_own {p : ℕ} {cell : Cell K T} {cells : List (ℕ × Cell K T)}
    (hcell : cell.getGeneration = generation) :
    ownIn generation ((p, cell) :: cells) = p :: ownIn generation cells := by
  simp [ownIn, hcell]

theorem ownIn_eq_nil {cells : List (ℕ × Cell K T)}
    (hforeign : ∀ x ∈ cells, x.2.getGeneration ≠ generation) : ownIn generation cells = [] := by
  simpa [ownIn] using hforeign

/-- Nothing below a cell of an older generation is of the own generation. -/
theorem PTree.Layered.foreign {t : PTree K T} {a : ℤ} (hlayered : Layered a t)
    (hlt : t.generation < generation) : ∀ x ∈ t.cells, x.2.getGeneration ≠ generation := by
  intro x hx heq
  have hle := hlayered.cell_le x hx
  omega

/-- A trie beside cells that are gone is still there. -/
theorem PTree.Represents.without {t : PTree K T} (hrep : Represents h.cells t) {ps : List ℕ}
    (hdisjoint : ∀ p ∈ t.ptrs, p ∉ ps) : Represents (h.without ps).cells t :=
  hrep.congr fun p hp => Heap.cells_without (hdisjoint p hp)

/-- The own leaves of a leaf list are in front of the others. -/
theorem freeLeaves_eq {first : ℕ × Leaf K T} {rest : List (ℕ × Leaf K T)}
    (hrep : Represents h.cells (chain first rest)) (hlayered : Layered generation (chain first rest))
    (hnodup : (chain first rest).ptrs.Nodup) (hown : first.2.generation = generation) {turns : ℕ}
    (hturns : rest.length < turns) :
    Heap.freeLeaves generation turns h first.1 =
      some (h.without (ownIn generation (chain first rest).cells)) := by
  induction rest generalizing h first turns with
  | nil =>
      obtain ⟨turns, rfl⟩ : ∃ n, turns = n + 1 := ⟨turns - 1, by simp at hturns; omega⟩
      have hcell : (Cell.leaf first.2.generation first.2.key first.2.value none).getGeneration =
          generation := hown
      rw [Heap.freeLeaves, hrep.head, Option.bind_eq_bind, Option.bind_some, Heap.free_eq hrep.head]
      have hlist : ownIn generation (chain first []).cells = [first.1] := ownIn_cons_of_own hcell
      rw [hlist]
      rfl
  | cons y rest ih =>
      obtain ⟨turns, rfl⟩ : ∃ n, turns = n + 1 := ⟨turns - 1, by simp at hturns; omega⟩
      have hcells : (chain first (y :: rest)).cells = (first.1, .leaf first.2.generation
          first.2.key first.2.value (some y.1)) :: (chain y rest).cells := rfl
      have hcons : first.1 ∉ (chain y rest).ptrs ∧ (chain y rest).ptrs.Nodup := by
        rwa [ptrs, hcells, List.map_cons, List.nodup_cons] at hnodup
      have hrest : Represents (h.without [first.1]).cells (chain y rest) := by
        refine hrep.tail.without ?_
        intro p hp hmem
        rw [List.mem_singleton] at hmem
        exact hcons.1 (hmem ▸ hp)
      have hsorted : (first :: y :: rest).Pairwise
          fun x y => y.2.generation ≤ x.2.generation := by
        cases hlayered with
        | chain _ hsorted => exact hsorted
      have hy : y.2.generation ≤ generation := by
        rw [← hown]
        exact (List.pairwise_cons.mp hsorted).1 y List.mem_cons_self
      have hrestLayered : Layered generation (chain y rest) :=
        .chain hy (List.pairwise_cons.mp hsorted).2
      have hcell : (Cell.leaf first.2.generation first.2.key first.2.value
          (some y.1)).getGeneration = generation := hown
      rw [hcells, ownIn_cons_of_own hcell]
      simp only [Heap.freeLeaves, hrep.head, Option.bind_eq_bind, Option.bind_some,
        Heap.free_eq hrep.head, List.head?_cons, Option.map_some, hrest.head]
      by_cases hyown : y.2.generation = generation
      · refine (if_pos hyown).trans ?_
        rw [ih hrest hrestLayered hcons.2 hyown (by simpa using hturns),
          Heap.without_without]
        rfl
      · rw [ownIn_eq_nil (hrestLayered.foreign (lt_of_le_of_ne hy hyown))]
        exact if_neg hyown

/-- Tries beside one another are freed one after the other. -/
theorem foldlM_free {free : Heap K T → Option ℕ → Option (Heap K T)} {array : List (PTree K T)}
    (hfree : ∀ c ∈ array, ∀ h : Heap K T, Represents h.cells c →
      free h (some c.ptr) = some (h.without (ownIn generation c.cells)))
    (hreps : ∀ c ∈ array, Represents h.cells c)
    (hdisjoint : array.Pairwise fun c d => c.ptrs.Disjoint d.ptrs) :
    (array.map fun c => some c.ptr).foldlM free h =
      some (h.without (array.flatMap fun c => ownIn generation c.cells)) := by
  induction array generalizing h with
  | nil =>
      rw [List.flatMap_nil, Heap.without_nil]
      rfl
  | cons c array ih =>
      rw [List.pairwise_cons] at hdisjoint
      have hreps' : ∀ d ∈ array, Represents (h.without (ownIn generation c.cells)).cells d := by
        intro d hd
        refine (hreps d (List.mem_cons_of_mem _ hd)).without ?_
        intro q hq hmem
        obtain ⟨cell, hcell, -⟩ := mem_ownIn.mp hmem
        exact hdisjoint.1 d hd (List.mem_map_of_mem hcell) hq
      rw [List.map_cons, List.foldlM_cons, hfree c List.mem_cons_self h
        (hreps c List.mem_cons_self), Option.bind_eq_bind, Option.bind_some,
        ih (fun d hd => hfree d (List.mem_cons_of_mem _ hd)) hreps' hdisjoint.2,
        Heap.without_without, List.flatMap_cons]

/-- `free_child` frees the cells of the own generation, each once. -/
theorem freeChild_eq {t : PTree K T} (hrep : Represents h.cells t) (hlayered : Layered generation t)
    (hnodup : t.ptrs.Nodup) {turns depth : ℕ} (hturns : t.cells.length ≤ turns)
    (hdepth : t.cells.length < depth) :
    Heap.freeChild generation turns depth h (some t.ptr) =
      some (h.without (ownIn generation t.cells)) := by
  induction t using PTree.induct generalizing h depth with
  | chain first rest =>
      obtain ⟨depth, rfl⟩ : ∃ n, depth = n + 1 := ⟨depth - 1, by omega⟩
      rw [cells, length_chainCells, List.length_cons] at hturns
      rw [Heap.freeChild, ptr, hrep.head, Option.bind_eq_bind, Option.bind_some]
      by_cases hown : first.2.generation = generation
      · refine (if_neg (not_not.mpr hown)).trans ?_
        exact freeLeaves_eq hrep hlayered hnodup hown (by omega)
      · have hlt : (chain first rest).generation < generation :=
          lt_of_le_of_ne hlayered.generation_le hown
        rw [ownIn_eq_nil (hlayered.foreign hlt), Heap.without_nil]
        exact if_pos hown
  | node p gen bitmap array ih =>
      obtain ⟨depth, rfl⟩ : ∃ n, depth = n + 1 := ⟨depth - 1, by omega⟩
      rw [Heap.freeChild, ptr, hrep.top, Option.bind_eq_bind, Option.bind_some]
      by_cases hown : gen = generation
      · refine (if_neg (not_not.mpr hown)).trans ?_
        have hcell : (Cell.node gen bitmap (array.map fun c => some c.ptr) :
            Cell K T).getGeneration = generation := hown
        obtain ⟨hlength, harray⟩ : array.length = popcount bitmap ∧
            ∀ c ∈ array, Layered generation c := by
          cases hlayered with
          | node _ hlength harray => exact ⟨hlength, hown ▸ harray⟩
        rw [ptrs_node, List.nodup_cons, List.nodup_flatMap] at hnodup
        obtain ⟨hp, hnodups, hpairwise⟩ := hnodup
        have hfree : ∀ c ∈ array, ∀ h : Heap K T, Represents h.cells c →
            Heap.freeChild generation turns depth h (some c.ptr) =
              some (h.without (ownIn generation c.cells)) := by
          intro c hc h hrep
          have hlt : c.cells.length < (node p gen bitmap array).cells.length := length_cells_lt hc
          exact ih c hc hrep (harray c hc) (hnodups c hc) (by omega) (by omega)
        have hreverse : (array.map fun c => some c.ptr).reverse =
            array.reverse.map fun c => some c.ptr := List.map_reverse.symm
        have hdisjoint : array.reverse.Pairwise fun c d => c.ptrs.Disjoint d.ptrs := by
          rw [List.pairwise_reverse]
          exact hpairwise.imp fun hdisjoint => hdisjoint.symm
        have hchildren := foldlM_free (fun c hc => hfree c (List.mem_reverse.mp hc))
          (fun c hc => hrep.child (List.mem_reverse.mp hc)) hdisjoint
        have htop : (h.without (array.reverse.flatMap fun c => ownIn generation c.cells)).cells p =
            some (.node gen bitmap (array.map fun c => some c.ptr)) := by
          rw [Heap.cells_without, hrep.top]
          intro hmem
          obtain ⟨c, hc, hmem⟩ := List.mem_flatMap.mp hmem
          obtain ⟨cell, hcell, -⟩ := mem_ownIn.mp hmem
          exact hp (List.mem_flatMap.mpr
            ⟨c, List.mem_reverse.mp hc, List.mem_map_of_mem hcell⟩)
        simp only [List.length_map, hlength, le_refl, guard_true, Option.pure_def,
          Option.bind_eq_bind, Option.bind_some, take_slots hlength, hreverse, hchildren, Heap.free_eq htop,
          Heap.without_without]
        congr 1
        apply Heap.without_congr
        intro q
        rw [cells_node, ownIn_cons_of_own hcell]
        simp only [List.mem_append, List.mem_flatMap, List.mem_reverse, mem_ownIn,
          List.mem_cons]
        grind
      · have hlt : (node p gen bitmap array).generation < generation :=
          lt_of_le_of_ne hlayered.generation_le hown
        rw [ownIn_eq_nil (hlayered.foreign hlt), Heap.without_nil]
        exact if_pos hown

end Nidhugg.GenMap

/-! # Ownership of nodes and leaves

A cell belongs to the map of its generation that reaches it. It is used by this map and by
copies of it. -/

namespace Nidhugg.GenMaps

open GenMap GenMap.PTree CopyForest

variable {K T : Type} {s s' : GenMaps K T} {v w p : ℕ} {this this' other : Members}
  {trie trie' : Option (PTree K T)}

/-! ### Who uses and owns what -/

/-- The maps with what they were copied from. -/
def forest (s : GenMaps K T) : Forest := fun v => (s.maps v).map Members.debugParent

def refcount (s : GenMaps K T) (v : ℕ) : Option ℕ := (s.maps v).map Members.debugRefcount

/-- The cells below a root. -/
def cellsOf (trie : Option (PTree K T)) : List (ℕ × Cell K T) :=
  match trie with
  | none => []
  | some t => t.cells

/-- The trie of a map. -/
structure Trie (s : GenMaps K T) (this : Members) (trie : Option (PTree K T)) : Prop where
  root : this.root = trie.map PTree.ptr
  rep : ∀ x ∈ cellsOf trie, s.heap.cells x.1 = some x.2

def Uses (s : GenMaps K T) (v p : ℕ) : Prop :=
  ∃ this trie, s.maps v = some this ∧ s.Trie this trie ∧ p ∈ (cellsOf trie).map Prod.fst

def Owns (s : GenMaps K T) (v p : ℕ) : Prop :=
  ∃ this trie, s.maps v = some this ∧ s.Trie this trie ∧ p ∈ ownIn this.generation (cellsOf trie)

def blocks (s : GenMaps K T) : Blocks ℕ := ⟨fun p => s.heap.cells p ≠ none, s.Uses, s.Owns⟩

/-- Generations in the trie of a map are at most its own, and it has no cell twice. -/
structure WellFormed (s : GenMaps K T) (this : Members) (trie : Option (PTree K T)) : Prop
    extends Trie s this trie where
  layered : ∀ t ∈ trie, Layered this.generation t
  nodup : ((cellsOf trie).map Prod.fst).Nodup

/-- The invariant of a family of maps. -/
structure Inv (s : GenMaps K T) : Prop where
  counted : Counted s.forest s.refcount s.nextMap
  allocated : s.heap.Allocated
  wellFormed : ∀ v this, s.maps v = some this → ∃ trie, WellFormed s this trie
  blocks : Disciplined s.forest s.blocks

theorem Trie.unique (h : s.Trie this trie) (h' : s.Trie this trie') : trie = trie' := by
  have hroot := h.root.symm.trans h'.root
  cases trie with
  | none =>
      cases trie' with
      | none => rfl
      | some t' => cases hroot
  | some t =>
      cases trie' with
      | none => cases hroot
      | some t' =>
          have heq : t = t' := Represents.unique h.rep h'.rep (Option.some.inj hroot)
          rw [heq]

theorem uses_iff (hv : s.maps v = some this) (htrie : s.Trie this trie) :
    s.Uses v p ↔ p ∈ (cellsOf trie).map Prod.fst := by
  constructor
  · rintro ⟨this', trie', hv', htrie', hp⟩
    rw [hv, Option.some.injEq] at hv'
    subst hv'
    rwa [htrie.unique htrie']
  · intro hp
    exact ⟨this, trie, hv, htrie, hp⟩

theorem owns_iff (hv : s.maps v = some this) (htrie : s.Trie this trie) :
    s.Owns v p ↔ p ∈ ownIn this.generation (cellsOf trie) := by
  constructor
  · rintro ⟨this', trie', hv', htrie', hp⟩
    rw [hv, Option.some.injEq] at hv'
    subst hv'
    rwa [htrie.unique htrie']
  · intro hp
    exact ⟨this, trie, hv, htrie, hp⟩

theorem Inv.childless (h : Inv s) (hv : s.maps v = some this) (hzero : this.debugRefcount = 0) :
    ∀ w, ¬ Child s.forest v w := by
  have hcount : s.refcount v = some this.debugRefcount := by rw [refcount, hv, Option.map_some]
  exact (h.counted.childless_iff hcount).mp hzero

theorem inv_init : Inv (init : GenMaps K T) where
  counted := by
    constructor
    · intro v h
      exact absurd rfl h
    · intro v w h
      cases h
    · intro v c h
      cases h
  allocated := fun p h => absurd rfl h
  wellFormed := by
    intro v this h
    cases h
  blocks := by
    constructor
    · rintro v p ⟨this, trie, h, -⟩
      cases h
    · rintro v p ⟨this, trie, h, -⟩
      cases h
    · intro p h
      exact absurd rfl h
    · rintro v w p ⟨this, trie, h, -⟩
      cases h

/-- The trie of a map has at most as many cells as were made. -/
theorem Inv.length_cells (h : Inv s) (htrie : WellFormed s this trie) :
    (cellsOf trie).length < s.limit := by
  have hsub : (cellsOf trie).map Prod.fst ⊆ List.range s.heap.next := by
    intro p hp
    obtain ⟨x, hx, rfl⟩ := List.mem_map.mp hp
    exact List.mem_range.mpr (Heap.lt_of_eq_some h.allocated (htrie.rep x hx))
  have hle := (htrie.nodup.subperm hsub).length_le
  rw [List.length_map, List.length_range] at hle
  exact Nat.lt_succ_of_le hle

/-! ### Reading -/

/-- What the maps read is what is in their tries. -/
theorem Inv.find_eq [DecidableEq K] (h : Inv s) (hashKey : K → BitVec 64)
    (hv : s.maps v = some this) (htrie : WellFormed s this trie) (k : K) :
    s.find hashKey v k = some (trie.bind fun t => t.erase.find k (hashKey k).toNat) := by
  have hlimit := h.length_cells htrie
  cases trie with
  | none =>
      rw [find, hv]
      simp only [Option.bind_eq_bind, Option.bind_some, htrie.root, Option.map_none]
      rfl
  | some t =>
      have hroot : this.root = some t.ptr := htrie.root
      have hrep : Represents s.heap.cells t := htrie.rep
      simp only [find, hv, Option.bind_eq_bind, Option.bind_some, hroot]
      rcases hrep.findLeaves (htrie.layered t rfl) k (hashKey k).toNat hlimit with
        ⟨hleaves, hfind⟩ | ⟨first, rest, hleaves, hchain, hlength, hfind⟩
      · rw [hleaves, hfind]
        rfl
      · have hturns : rest.length + 1 < s.limit := by
          have : t.cells.length < s.limit := hlimit
          omega
        rw [hleaves, hfind, Option.bind_some, hchain.findLeaf k hturns, find?_key_map]
        cases hfound : (first :: rest).find? fun x => x.2.key = k with
        | none => rfl
        | some y =>
            obtain ⟨next, hmem⟩ := mem_chainCells_of_mem (List.mem_of_find?_eq_some hfound)
            simp only [Option.map_some, Option.bind_some, hchain _ hmem]
            rfl

theorem Inv.forEach_eq (h : Inv s) (hv : s.maps v = some this) (htrie : WellFormed s this trie) :
    s.forEach v = some ((trie.map fun t => t.erase.forEach).getD []) := by
  have hlimit := h.length_cells htrie
  cases trie with
  | none =>
      rw [forEach, hv]
      simp only [Option.bind_eq_bind, Option.bind_some, htrie.root, Option.map_none]
      rfl
  | some t =>
      have hroot : this.root = some t.ptr := htrie.root
      have hrep : Represents s.heap.cells t := htrie.rep
      simp only [forEach, hv, Option.bind_eq_bind, Option.bind_some, hroot]
      exact hrep.forEach (htrie.layered t rfl) hlimit.le hlimit

end Nidhugg.GenMaps
