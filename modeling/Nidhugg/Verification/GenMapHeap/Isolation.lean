import Mathlib.Data.List.ReduceOption
import Nidhugg.Library.FoldInvariant
import Nidhugg.Verification.GenMapHeap.Steps

/-! # Isolation of copies

A family of maps in which only maps without living copies are written and destroyed. No such
operation changes what another map reads. Destruction frees the cells of the generation of the
map, which no other map reaches. -/

namespace Nidhugg

namespace GenMap

/-- The pointers in a cell. -/
def Cell.pointers {K T : Type} : Cell K T → List ℕ
  | .leaf _ _ _ next => next.toList
  | .node _ _ array => array.reduceOption

/-- A cell with a pointer to another one. -/
def Heap.Points {K T : Type} (h : Heap K T) (p q : ℕ) : Prop :=
  ∃ cell, h.cells p = some cell ∧ q ∈ cell.pointers

namespace PTree

variable {K T : Type} {h : Heap K T}

theorem mem_pointers_chainCells {leaves : List (ℕ × Leaf K T)} {x : ℕ × Cell K T}
    (hx : x ∈ chainCells leaves) : ∀ q ∈ x.2.pointers, q ∈ leaves.map Prod.fst := by
  induction leaves with
  | nil => cases hx
  | cons y leaves ih =>
      intro q hq
      rcases List.mem_cons.mp hx with rfl | hx
      · cases leaves with
        | nil => cases hq
        | cons z leaves =>
            rw [Cell.pointers, List.head?_cons, Option.map_some, Option.toList_some,
              List.mem_singleton] at hq
            simp [hq]
      · exact List.mem_cons_of_mem _ (ih hx q hq)

/-- The pointers in the cells of a trie lead to cells of the trie. -/
theorem mem_ptrs_of_pointers {t : PTree K T} {x : ℕ × Cell K T} (hx : x ∈ t.cells) :
    ∀ q ∈ x.2.pointers, q ∈ t.ptrs := by
  induction t using induct with
  | chain first rest =>
      rw [ptrs_chain]
      exact mem_pointers_chainCells hx
  | node p gen bitmap array ih =>
      intro q hq
      rw [ptrs_node]
      rw [cells_node] at hx
      rcases List.mem_cons.mp hx with rfl | hx
      · rw [Cell.pointers, List.reduceOption_mem_iff, List.mem_map] at hq
        obtain ⟨c, hc, hcq⟩ := hq
        rw [← Option.some.inj hcq]
        exact List.mem_cons_of_mem _ (List.mem_flatMap.mpr ⟨c, hc, c.ptr_mem_ptrs⟩)
      · obtain ⟨c, hc, hx⟩ := List.mem_flatMap.mp hx
        exact List.mem_cons_of_mem _ (List.mem_flatMap.mpr ⟨c, hc, ih c hc hx q hq⟩)

theorem reaches_chain {first : ℕ × Leaf K T} {rest : List (ℕ × Leaf K T)}
    (hrep : Represents h.cells (chain first rest)) :
    ∀ p ∈ (chain first rest).ptrs, Relation.ReflTransGen h.Points first.1 p := by
  induction rest generalizing first with
  | nil =>
      intro p hp
      rw [ptrs_chain, List.map_singleton, List.mem_singleton] at hp
      rw [hp]
  | cons y rest ih =>
      intro p hp
      rw [ptrs_chain, List.map_cons] at hp
      rcases List.mem_cons.mp hp with rfl | hp
      · exact .refl
      · rw [← ptrs_chain] at hp
        refine .head ⟨_, hrep.head, ?_⟩ (ih hrep.tail p hp)
        simp [Cell.pointers]

/-- The cells of a trie are those that can be reached from the top. -/
theorem Represents.reaches_iff {t : PTree K T} (hrep : Represents h.cells t) {p : ℕ} :
    Relation.ReflTransGen h.Points t.ptr p ↔ p ∈ t.ptrs := by
  constructor
  · intro hreach
    induction hreach with
    | refl => exact t.ptr_mem_ptrs
    | tail _ hpoints ih =>
        obtain ⟨cell, hcell, hq⟩ := hpoints
        obtain ⟨x, hx, hxp⟩ := List.mem_map.mp ih
        have heq := hrep x hx
        rw [hxp, hcell, Option.some.injEq] at heq
        exact mem_ptrs_of_pointers hx _ (heq ▸ hq)
  · intro hp
    induction t using induct with
    | chain first rest => exact reaches_chain hrep p hp
    | node q gen bitmap array ih =>
        rw [ptrs_node] at hp
        rcases List.mem_cons.mp hp with rfl | hp
        · exact .refl
        · obtain ⟨c, hc, hp⟩ := List.mem_flatMap.mp hp
          refine .head ⟨_, hrep.top, ?_⟩ (ih c hc (hrep.child hc) hp)
          rw [Cell.pointers, List.reduceOption_mem_iff]
          exact List.mem_map.mpr ⟨c, hc, rfl⟩

end PTree

end GenMap

namespace GenMaps

open GenMap GenMap.PTree CopyForest

variable {K T : Type} {s s' : GenMaps K T} {v w p : ℕ} {this other : Members}
  {trie : Option (PTree K T)}

/-- A cell that can be reached from the root of a map. -/
def Reaches (s : GenMaps K T) (v p : ℕ) : Prop :=
  ∃ this root, s.maps v = some this ∧ this.root = some root ∧
    Relation.ReflTransGen s.heap.Points root p

/-- A cell of the generation of a map that can be reached from its root. -/
def ReachesOwn (s : GenMaps K T) (v p : ℕ) : Prop :=
  s.Reaches v p ∧ ∃ this cell, s.maps v = some this ∧ s.heap.cells p = some cell ∧
    cell.getGeneration = this.generation

/-- A map without living copies. Only these may be written and destroyed. -/
def Writable (s : GenMaps K T) (v : ℕ) : Prop :=
  s.maps v ≠ none ∧ ∀ w other, s.maps w = some other → other.debugParent ≠ some v

theorem Inv.reaches_iff (h : Inv s) : s.Reaches v p ↔ s.Uses v p := by
  constructor
  · rintro ⟨this, root, hv, hroot, hreach⟩
    obtain ⟨trie, htrie⟩ := h.wellFormed v this hv
    refine ⟨this, trie, hv, htrie.toTrie, ?_⟩
    cases trie with
    | none =>
        rw [htrie.root] at hroot
        cases hroot
    | some t =>
        rw [htrie.root, Option.map_some, Option.some.injEq] at hroot
        subst hroot
        have hrep : Represents s.heap.cells t := htrie.rep
        exact hrep.reaches_iff.mp hreach
  · rintro ⟨this, trie, hv, htrie, hp⟩
    cases trie with
    | none => cases hp
    | some t =>
        have hrep : Represents s.heap.cells t := htrie.rep
        exact ⟨this, t.ptr, hv, htrie.root, hrep.reaches_iff.mpr hp⟩

theorem Inv.reachesOwn_iff (h : Inv s) : s.ReachesOwn v p ↔ s.Owns v p := by
  constructor
  · rintro ⟨hreaches, this, cell, hv, hcell, hgen⟩
    obtain ⟨trie, htrie⟩ := h.wellFormed v this hv
    have huses := (GenMaps.uses_iff hv htrie.toTrie).mp (h.reaches_iff.mp hreaches)
    obtain ⟨x, hx, rfl⟩ := List.mem_map.mp huses
    rw [htrie.rep x hx, Option.some.injEq] at hcell
    exact (owns_iff hv htrie.toTrie).mpr (mem_ownIn.mpr ⟨x.2, hx, hcell ▸ hgen⟩)
  · rintro ⟨this, trie, hv, htrie, hp⟩
    obtain ⟨cell, hcell, hgen⟩ := mem_ownIn.mp hp
    refine ⟨h.reaches_iff.mpr ⟨this, trie, hv, htrie, List.mem_map_of_mem hcell⟩, this, cell, hv,
      htrie.rep _ hcell, hgen⟩

theorem Inv.writable_iff (h : Inv s) :
    s.Writable v ↔ ∃ this, s.maps v = some this ∧ this.debugRefcount = 0 := by
  have hchild : ∀ this, s.maps v = some this → (this.debugRefcount = 0 ↔
      ∀ w other, s.maps w = some other → other.debugParent ≠ some v) := by
    intro this hv
    have hcount : s.refcount v = some this.debugRefcount := by rw [refcount, hv, Option.map_some]
    rw [h.counted.childless_iff hcount]
    apply forall_congr'
    intro w
    rw [CopyForest.Child, forest, Option.map_eq_some_iff]
    grind
  constructor
  · rintro ⟨hlive, hnone⟩
    obtain ⟨this, hv⟩ := Option.ne_none_iff_exists'.mp hlive
    exact ⟨this, hv, (hchild this hv).mpr hnone⟩
  · rintro ⟨this, hv, hzero⟩
    exact ⟨by rw [hv]; exact Option.some_ne_none _, (hchild this hv).mp hzero⟩

/-! ### The operations -/

theorem new_constructs : Constructs s s.new.1 ⟨0, 0, none, none, 0⟩ where
  heap := rfl
  nextMap := rfl
  after := Function.update_self ..
  others := by
    intro w hw
    refine (Function.update_of_ne hw ..).trans ?_
    cases s.maps w with
    | none => rfl
    | some other => rfl
  refcount := rfl
  shares := .inl ⟨rfl, rfl⟩

theorem copy_constructs {made : ℕ} (hcopy : s.copy v = some (s', made)) :
    ∃ new, Constructs s s' new := by
  rw [copy] at hcopy
  obtain ⟨other, hother, hcopy⟩ := Option.bind_eq_some_iff.mp hcopy
  cases hroot : other.root with
  | none =>
      simp only [hroot, Option.pure_def, Option.some.injEq, construct, Prod.mk.injEq] at hcopy
      obtain ⟨rfl, -⟩ := hcopy
      refine ⟨⟨0, other.size, none, none, 0⟩, rfl, rfl, Function.update_self .., ?_, rfl,
        .inl ⟨rfl, rfl⟩⟩
      intro w hw
      refine (Function.update_of_ne hw ..).trans ?_
      cases s.maps w with
      | none => rfl
      | some other => rfl
  | some root =>
      simp only [hroot, Option.bind_eq_bind, Option.bind_eq_some_iff, Option.pure_def,
        Option.some.injEq, construct, Prod.mk.injEq] at hcopy
      obtain ⟨-, -, rfl, -⟩ := hcopy
      refine ⟨⟨other.generation + 1, other.size, some root, some v, 0⟩, rfl, rfl,
        Function.update_self .., ?_, rfl, .inr ⟨v, other, rfl, hother, hroot.symm, rfl⟩⟩
      intro w hw
      refine (Function.update_of_ne hw ..).trans ?_
      by_cases hwv : w = v
      · subst hwv
        rw [hother]
        refine (Function.update_self ..).trans ?_
        simp [hroot]
      · have hvw : ¬ (some v : Option ℕ) = some w := fun h => hwv (Option.some.inj h).symm
        refine (Function.update_of_ne hwv ..).trans ?_
        cases s.maps w with
        | none => rfl
        | some other => simp [hvw]

theorem releaseParent_spec (hinv : Inv s) (hv : s.maps v = some this) :
    ∃ s', s.releaseParent this = some s' ∧ s'.heap = s.heap ∧ s'.nextMap = s.nextMap ∧
      ∀ w, s'.maps w = (s.maps w).map fun other : Members => { other with
        debugRefcount := other.debugRefcount - if this.debugParent = some w then 1 else 0 } := by
  cases hparent : this.debugParent with
  | none =>
      refine ⟨s, by rw [releaseParent, hparent], rfl, rfl, ?_⟩
      intro w
      cases s.maps w with
      | none => rfl
      | some other => rfl
  | some q =>
      have hchild : CopyForest.Child s.forest q v := by
        rw [CopyForest.Child, forest, hv, Option.map_some, hparent]
      have hq := (hinv.counted.parent q v hchild).2
      rw [ne_eq, forest, Option.map_eq_none_iff] at hq
      obtain ⟨other, hother⟩ := Option.ne_none_iff_exists'.mp hq
      refine ⟨s.setMap q { other with debugRefcount := other.debugRefcount - 1 }, ?_, rfl, rfl, ?_⟩
      · rw [releaseParent, hparent]
        simp [hother]
      · intro w
        by_cases hw : w = q
        · subst hw
          rw [hother]
          exact (Function.update_self ..).trans (by simp)
        · have hqw : ¬ (some q : Option ℕ) = some w := fun h => hw (Option.some.inj h).symm
          refine (Function.update_of_ne hw ..).trans ?_
          cases s.maps w with
          | none => rfl
          | some other => simp [hqw]

/-- A map without copies can be destroyed. -/
theorem destroy_destroys (hinv : Inv s) (hv : s.maps v = some this)
    (hzero : this.debugRefcount = 0) : ∃ s', s.destroy v = some s' ∧ Destroys s s' v this := by
  obtain ⟨s₁, heq₁, hheap, hnextMap, hmaps⟩ := releaseParent_spec hinv hv
  obtain ⟨trie, htrie⟩ := hinv.wellFormed v this hv
  have hlimit := hinv.length_cells htrie
  have hfree : Heap.freeChild this.generation s₁.limit s₁.limit s₁.heap this.root =
      some (s.heap.without (ownIn this.generation (cellsOf trie))) := by
    rw [limit, hheap]
    cases trie with
    | none =>
        rw [htrie.root]
        exact congrArg some Heap.without_nil.symm
    | some t =>
        have hrep : Represents s.heap.cells t := htrie.rep
        rw [htrie.root]
        exact freeChild_eq hrep (htrie.layered t rfl) htrie.nodup hlimit.le hlimit
  refine ⟨{ s₁ with
    heap := s.heap.without (ownIn this.generation (cellsOf trie))
    maps := Function.update s₁.maps v none }, ?_, hv, hzero, Function.update_self .., ?_, hnextMap,
    rfl, ?_, ?_⟩
  · simp [destroy, hv, assertWritable, hzero, heq₁, hfree]
  · intro w hw
    exact (Function.update_of_ne hw ..).trans (hmaps w)
  · intro p hown
    exact if_pos ((owns_iff hv htrie.toTrie).mp hown)
  · intro p hown
    exact if_neg fun hp => hown ((owns_iff hv htrie.toTrie).mpr hp)

theorem exists_of_destroy (h : s.destroy v = some s') :
    ∃ this, s.maps v = some this ∧ this.debugRefcount = 0 := by
  obtain ⟨this, hv, hrest⟩ := Option.bind_eq_some_iff.mp h
  obtain ⟨u, hguard, -⟩ := Option.bind_eq_some_iff.mp hrest
  exact ⟨this, hv, (Option.guard_eq_some' u).mp hguard⟩

theorem Inv.destroys (hinv : Inv s) (h : s.destroy v = some s') : ∃ this, Destroys s s' v this := by
  obtain ⟨this, hv, hzero⟩ := exists_of_destroy h
  obtain ⟨s'', heq, hdestroys⟩ := destroy_destroys hinv hv hzero
  rw [h, Option.some.injEq] at heq
  subst heq
  exact ⟨this, hdestroys⟩

section Mutate

variable [DecidableEq K] (hashKey : K → BitVec 64) (longShift : ℕ → ℕ → ℕ) (defaultValue : T)

/-- A map without copies can be mutated. -/
theorem mutate_mutates (hinv : Inv s) (hv : s.maps v = some this)
    (hzero : this.debugRefcount = 0) (k : K) (write : T → T) :
    ∃ s' this' trie t, s.mutate hashKey longShift defaultValue v k write = some s' ∧
      Mutates s s' v this this' trie t := by
  obtain ⟨trie, htrie⟩ := hinv.wellFormed v this hv
  have hlimit := hinv.length_cells htrie
  have hhash : (hashKey k).toNat < 32 ^ 13 :=
    (hashKey k).isLt.trans_le (by norm_num)
  -- `mut` replaces the trie
  have hmut : ∃ h₁ t leaf new, Heap.mutRoot hashKey longShift this.generation k defaultValue s.limit
        s.heap this.root = some (h₁, t.ptr, leaf, new) ∧
      Replaced this.generation s.heap h₁ (cellsOf trie) t ∧ OwnLeaf this.generation t leaf := by
    rw [htrie.root]
    cases trie with
    | none =>
        exact mutLeaves_none_spec hashKey longShift k defaultValue this.generation hinv.allocated
          (Nat.succ_pos _) (hashKey k).toNat 0
    | some t =>
        have hrep : Represents s.heap.cells t := htrie.rep
        exact mutChild_spec hashKey longShift k defaultValue hinv.allocated hrep
          (htrie.layered t rfl) htrie.nodup hlimit hlimit hhash 0
  obtain ⟨h₁, t, leaf, new, heq, hreplaced, hleaf⟩ := hmut
  obtain ⟨h₂, hwrite, hreplaced₂⟩ := hreplaced.write htrie.rep hleaf write
  have hroot : (t.writeAt leaf write).ptr = t.ptr := ptr_writeAt leaf write t
  refine ⟨{ s.setMap v { this with
      root := some t.ptr
      size := if new then (this.size + 1) % 2 ^ 32 else this.size } with heap := h₂ },
    { this with
      root := some t.ptr
      size := if new then (this.size + 1) % 2 ^ 32 else this.size }, trie, t.writeAt leaf write,
    ?_, hv, rfl, rfl, rfl, rfl, rfl, hzero, htrie, by rw [hroot], hreplaced₂⟩
  simp [mutate, hv, assertWritable, hzero, heq, hwrite]

theorem exists_of_mutate {k : K} {write : T → T}
    (h : s.mutate hashKey longShift defaultValue v k write = some s') :
    ∃ this, s.maps v = some this ∧ this.debugRefcount = 0 := by
  obtain ⟨this, hv, hrest⟩ := Option.bind_eq_some_iff.mp h
  obtain ⟨u, hguard, -⟩ := Option.bind_eq_some_iff.mp hrest
  exact ⟨this, hv, (Option.guard_eq_some' u).mp hguard⟩

/-! ### Runs -/

theorem step_inv (hinv : Inv s) {op : MapOp K T}
    (hstep : s.step hashKey longShift defaultValue op = some s') : Inv s' := by
  cases op with
  | new =>
      rw [← Option.some.inj hstep]
      exact new_constructs.inv hinv
  | copy v =>
      obtain ⟨⟨s'', made⟩, hcopy, rfl⟩ := Option.map_eq_some_iff.mp hstep
      obtain ⟨new, hconstructs⟩ := copy_constructs hcopy
      exact hconstructs.inv hinv
  | destroy v =>
      obtain ⟨this, hv, hzero⟩ := exists_of_destroy hstep
      obtain ⟨s'', heq, hdestroys⟩ := destroy_destroys hinv hv hzero
      rw [step, heq, Option.some.injEq] at hstep
      exact hstep ▸ hdestroys.inv hinv
  | mutate v k write =>
      obtain ⟨this, hv, hzero⟩ := exists_of_mutate hashKey longShift defaultValue hstep
      obtain ⟨s'', this', trie, t, heq, hmutates⟩ :=
        mutate_mutates hashKey longShift defaultValue hinv hv hzero k write
      rw [step, heq, Option.some.injEq] at hstep
      exact hstep ▸ hmutates.inv hinv

theorem run_inv (ops : List (MapOp K T)) (hinv : Inv s)
    (hrun : ops.foldlM (step hashKey longShift defaultValue) s = some s') : Inv s' :=
  FoldInvariant.of_foldlM ops
    (fun _ _ _ _ hinv hstep => step_inv hashKey longShift defaultValue hinv hstep) hinv hrun

/-- Two states in which a map reads the same. -/
def ReadsSame (s s' : GenMaps K T) (w : ℕ) : Prop :=
  (∀ k, s'.find hashKey w k = s.find hashKey w k) ∧ s'.size w = s.size w ∧
    s'.forEach w = s.forEach w

theorem Same.readsSame (h : Same s s' w) (hinv : Inv s) (hinv' : Inv s') :
    ReadsSame hashKey s s' w :=
  ⟨h.find_eq hinv hinv' hashKey, h.size_eq, h.forEach_eq hinv hinv'⟩

/-- What a family of maps guarantees to its users. -/
structure Isolated (s : GenMaps K T) : Prop where
  /-- All living maps can be read. -/
  reads : ∀ v, s.maps v ≠ none →
    (∀ k, (s.find hashKey v k).isSome) ∧ (s.size v).isSome ∧ (s.forEach v).isSome
  /-- Maps without living copies can be written, and no others. -/
  mutate_iff : ∀ v k write,
    (s.mutate hashKey longShift defaultValue v k write).isSome ↔ s.Writable v
  mutate : ∀ v k write s', s.mutate hashKey longShift defaultValue v k write = some s' →
    ∀ w, w ≠ v → ReadsSame hashKey s s' w
  /-- Maps without living copies can be destroyed, and no others. No cell is freed twice. -/
  destroy_iff : ∀ v, (s.destroy v).isSome ↔ s.Writable v
  destroy : ∀ v s', s.destroy v = some s' → ∀ w, w ≠ v → ReadsSame hashKey s s' w
  /-- The cells of the own generation are freed. -/
  freed : ∀ v s', s.destroy v = some s' → ∀ p, s.ReachesOwn v p → s'.heap.cells p = none
  kept : ∀ v s', s.destroy v = some s' → ∀ p, ¬ s.ReachesOwn v p → s'.heap.cells p = s.heap.cells p
  /-- No other map reaches a cell that is freed. -/
  alone : ∀ v p, s.Writable v → s.ReachesOwn v p → ∀ w, s.Reaches w p → w = v
  /-- Every cell is left to exactly one map to be freed. -/
  owner : ∀ p, s.heap.cells p ≠ none → ∃! v, s.ReachesOwn v p

theorem Inv.isolated (h : Inv s) : Isolated hashKey longShift defaultValue s where
  reads := by
    intro v hlive
    obtain ⟨this, hv⟩ := Option.ne_none_iff_exists'.mp hlive
    obtain ⟨trie, htrie⟩ := h.wellFormed v this hv
    refine ⟨?_, ?_, ?_⟩
    · intro k
      rw [h.find_eq hashKey hv htrie k]
      rfl
    · rw [size, hv]
      rfl
    · rw [h.forEach_eq hv htrie]
      rfl
  mutate_iff := by
    intro v k write
    rw [h.writable_iff, Option.isSome_iff_exists]
    constructor
    · rintro ⟨s', heq⟩
      exact exists_of_mutate hashKey longShift defaultValue heq
    · rintro ⟨this, hv, hzero⟩
      obtain ⟨s', -, -, -, heq, -⟩ :=
        mutate_mutates hashKey longShift defaultValue h hv hzero k write
      exact ⟨s', heq⟩
  mutate := by
    intro v k write s' heq w hw
    obtain ⟨this, hv, hzero⟩ := exists_of_mutate hashKey longShift defaultValue heq
    obtain ⟨s'', this', trie, t, heq', hmutates⟩ :=
      mutate_mutates hashKey longShift defaultValue h hv hzero k write
    rw [heq, Option.some.injEq] at heq'
    subst heq'
    exact (hmutates.same h hw).readsSame hashKey h (hmutates.inv h)
  destroy_iff := by
    intro v
    rw [h.writable_iff, Option.isSome_iff_exists]
    constructor
    · rintro ⟨s', heq⟩
      exact exists_of_destroy heq
    · rintro ⟨this, hv, hzero⟩
      obtain ⟨s', heq, -⟩ := destroy_destroys h hv hzero
      exact ⟨s', heq⟩
  destroy := by
    intro v s' heq w hw
    obtain ⟨this, hdestroys⟩ := h.destroys heq
    exact (hdestroys.same h hw).readsSame hashKey h (hdestroys.inv h)
  freed := by
    intro v s' heq p hown
    obtain ⟨this, hdestroys⟩ := h.destroys heq
    exact hdestroys.freed (h.reachesOwn_iff.mp hown)
  kept := by
    intro v s' heq p hown
    obtain ⟨this, hdestroys⟩ := h.destroys heq
    exact hdestroys.kept fun howns => hown (h.reachesOwn_iff.mpr howns)
  alone := by
    intro v p hwritable hown w hreaches
    obtain ⟨this, hv, hzero⟩ := h.writable_iff.mp hwritable
    exact h.blocks.eq_of_uses (h.childless hv hzero) (h.reachesOwn_iff.mp hown)
      (h.reaches_iff.mp hreaches)
  owner := by
    intro p hp
    obtain ⟨v, hv⟩ := h.blocks.owned hp
    refine ⟨v, h.reachesOwn_iff.mpr hv, ?_⟩
    intro w hw
    exact h.blocks.owner_unique (fun v w hchild => (h.counted.parent v w hchild).1)
      (h.reachesOwn_iff.mp hw) hv

/-- Copies are isolated from one another after every sequence of operations. -/
theorem isolated_of_run (ops : List (MapOp K T))
    (hrun : ops.foldlM (step hashKey longShift defaultValue) init = some s) :
    Isolated hashKey longShift defaultValue s :=
  (run_inv hashKey longShift defaultValue ops inv_init hrun).isolated hashKey longShift defaultValue

end Mutate

/-- A copy changes a leaf that it shares, and adds one beside it. -/
theorem isolated_of_run_copied : ∃ s : GenMaps ℕ ℕ,
    [MapOp.new, .mutate 0 1 (· + 7), .mutate 0 33 (· + 8), .copy 0, .mutate 1 1 (· + 5),
      .mutate 1 2 (· + 9)].foldlM (step (BitVec.ofNat 64) (fun _ _ => 0) 0) init = some s ∧
    s.forEach 0 = some [(33, 8), (1, 7)] ∧ s.forEach 1 = some [(2, 9), (33, 8), (1, 12)] ∧
    Isolated (BitVec.ofNat 64) (fun _ _ => 0) 0 s :=
  ⟨_, rfl, by rfl, by rfl, isolated_of_run _ _ _ [.new, .mutate 0 1 (· + 7), .mutate 0 33 (· + 8),
    .copy 0, .mutate 1 1 (· + 5), .mutate 1 2 (· + 9)] rfl⟩

end GenMaps

end Nidhugg
