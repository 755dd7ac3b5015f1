import Nidhugg.Verification.GenMapHeap.Ownership

/-! # The operations keep the ownership

Each operation on one map leaves the tries of all others as they are, and the blocks keep their
owners. -/

namespace Nidhugg.GenMaps

open GenMap GenMap.PTree CopyForest

variable {K T : Type} {s s' : GenMaps K T} {v w p : ℕ} {this this' other new : Members}
  {trie : Option (PTree K T)}

/-- The same trie at the same place in two states. -/
theorem WellFormed.congr (h : WellFormed s this trie) (hroot : this'.root = this.root)
    (hgeneration : this.generation ≤ this'.generation)
    (hcells : ∀ p ∈ (cellsOf trie).map Prod.fst, s'.heap.cells p = s.heap.cells p) :
    WellFormed s' this' trie where
  root := hroot.trans h.root
  rep := by
    intro x hx
    rw [hcells x.1 (List.mem_map_of_mem hx)]
    exact h.rep x hx
  layered := fun t ht => (h.layered t ht).mono hgeneration
  nodup := h.nodup

/-- A map with the same trie, generation and size in two states, or in none of them. -/
def Same (s s' : GenMaps K T) (w : ℕ) : Prop :=
  (s.maps w = none ∧ s'.maps w = none) ∨
    ∃ other other' trie, s.maps w = some other ∧ s'.maps w = some other' ∧
      other'.generation = other.generation ∧ other'.size = other.size ∧
      WellFormed s other trie ∧ WellFormed s' other' trie

theorem Same.uses_iff (h : Same s s' w) : s'.Uses w p ↔ s.Uses w p := by
  rcases h with ⟨hs, hs'⟩ | ⟨other, other', trie, hs, hs', -, -, htrie, htrie'⟩
  · simp [Uses, hs, hs']
  · rw [GenMaps.uses_iff hs htrie.toTrie, GenMaps.uses_iff hs' htrie'.toTrie]

theorem Same.owns_iff (h : Same s s' w) : s'.Owns w p ↔ s.Owns w p := by
  rcases h with ⟨hs, hs'⟩ | ⟨other, other', trie, hs, hs', hgeneration, -, htrie, htrie'⟩
  · simp [Owns, hs, hs']
  · rw [GenMaps.owns_iff hs htrie.toTrie, GenMaps.owns_iff hs' htrie'.toTrie, hgeneration]

theorem Same.size_eq (h : Same s s' w) : s'.size w = s.size w := by
  rcases h with ⟨hs, hs'⟩ | ⟨other, other', trie, hs, hs', -, hsize, -, -⟩
  · simp [size, hs, hs']
  · simp [size, hs, hs', hsize]

theorem Same.find_eq [DecidableEq K] (h : Same s s' w) (hinv : Inv s) (hinv' : Inv s')
    (hashKey : K → BitVec 64) (k : K) : s'.find hashKey w k = s.find hashKey w k := by
  rcases h with ⟨hs, hs'⟩ | ⟨other, other', trie, hs, hs', -, -, htrie, htrie'⟩
  · simp [find, hs, hs']
  · rw [hinv.find_eq hashKey hs htrie k, hinv'.find_eq hashKey hs' htrie' k]

theorem Same.forEach_eq (h : Same s s' w) (hinv : Inv s) (hinv' : Inv s') :
    s'.forEach w = s.forEach w := by
  rcases h with ⟨hs, hs'⟩ | ⟨other, other', trie, hs, hs', -, -, htrie, htrie'⟩
  · simp [forEach, hs, hs']
  · rw [hinv.forEach_eq hs htrie, hinv'.forEach_eq hs' htrie']

/-- A map stays the same if the cells that it uses do. -/
theorem Inv.same (hinv : Inv s) (hmaps : (s'.maps w).map
      (fun m => (m.generation, m.size, m.root)) = (s.maps w).map fun m => (m.generation, m.size, m.root))
    (hcells : ∀ p, s.Uses w p → s'.heap.cells p = s.heap.cells p) : Same s s' w := by
  cases hs : s.maps w with
  | none =>
      rw [hs, Option.map_none, Option.map_eq_none_iff] at hmaps
      exact .inl ⟨hs, hmaps⟩
  | some other =>
      rw [hs, Option.map_some, Option.map_eq_some_iff] at hmaps
      obtain ⟨other', hs', heq⟩ := hmaps
      simp only [Prod.mk.injEq] at heq
      obtain ⟨hgeneration, hsize, hroot⟩ := heq
      obtain ⟨trie, htrie⟩ := hinv.wellFormed w other hs
      refine .inr ⟨other, other', trie, hs, hs', hgeneration, hsize, htrie, ?_⟩
      refine htrie.congr hroot hgeneration.ge ?_
      intro p hp
      exact hcells p ((GenMaps.uses_iff hs htrie.toTrie).mpr hp)

theorem Inv.lt_of_uses (hinv : Inv s) (huses : s.Uses w p) : p < s.heap.next :=
  hinv.allocated p (hinv.blocks.alloc_of_uses huses)

/-! ### Mutation -/

/-- The trie of a map without copies is replaced. -/
structure Mutates (s s' : GenMaps K T) (v : ℕ) (this this' : Members)
    (trie : Option (PTree K T)) (t : PTree K T) : Prop where
  before : s.maps v = some this
  maps : s'.maps = Function.update s.maps v (some this')
  nextMap : s'.nextMap = s.nextMap
  generation : this'.generation = this.generation
  debugParent : this'.debugParent = this.debugParent
  debugRefcount : this'.debugRefcount = this.debugRefcount
  writable : this.debugRefcount = 0
  wellFormed : WellFormed s this trie
  root : this'.root = some t.ptr
  replaced : Replaced this.generation s.heap s'.heap (cellsOf trie) t

section Mutates

variable {t : PTree K T} (h : Mutates s s' v this this' trie t) (hinv : Inv s)
include h

theorem Mutates.after : s'.maps v = some this' := by rw [h.maps, Function.update_self]

theorem Mutates.maps_other (hw : w ≠ v) : s'.maps w = s.maps w := by
  rw [h.maps, Function.update_of_ne hw]

theorem Mutates.forest_eq : s'.forest = s.forest := by
  funext w
  by_cases hw : w = v
  · rw [hw, forest, forest, h.after, h.before, Option.map_some, Option.map_some, h.debugParent]
  · rw [forest, forest, h.maps_other hw]

theorem Mutates.refcount_eq : s'.refcount = s.refcount := by
  funext w
  by_cases hw : w = v
  · rw [hw, refcount, refcount, h.after, h.before, Option.map_some, Option.map_some,
      h.debugRefcount]
  · rw [refcount, refcount, h.maps_other hw]

theorem Mutates.trie_after : WellFormed s' this' (some t) where
  root := h.root
  rep := h.replaced.delta.rep
  layered := by
    intro t' ht'
    rw [Option.mem_some_iff] at ht'
    rw [← ht', h.generation]
    exact h.replaced.layered
  nodup := h.replaced.delta.nodup

include hinv

/-- Every other map stays the same. -/
theorem Mutates.same (hw : w ≠ v) : Same s s' w := by
  refine hinv.same (by rw [h.maps_other hw]) ?_
  intro p huses
  apply h.replaced.delta.kept p (hinv.lt_of_uses huses)
  intro x hx hxp hown
  -- the map would use a cell of the other one
  have howns : s.Owns v p := by
    rw [owns_iff h.before h.wellFormed.toTrie, mem_ownIn]
    exact ⟨x.2, hxp ▸ hx, hown⟩
  exact hw (hinv.blocks.eq_of_uses (hinv.childless h.before h.writable) howns huses)

/-- The cells of a trie that takes the place of another one. -/
theorem Mutates.ownStep : OwnStep v s.blocks s'.blocks := by
  have hdelta := h.replaced.delta
  have howns : ∀ {p}, s.blocks.owns v p ↔ p ∈ ownIn this.generation (cellsOf trie) :=
    owns_iff h.before h.wellFormed.toTrie
  have howns' : ∀ {p}, s'.blocks.owns v p ↔ p ∈ ownIn this.generation t.cells := by
    intro p
    have hiff := owns_iff (p := p) h.after h.trie_after.toTrie
    rwa [h.generation] at hiff
  have huses : ∀ {p}, s.blocks.uses v p ↔ p ∈ (cellsOf trie).map Prod.fst :=
    GenMaps.uses_iff h.before h.wellFormed.toTrie
  have huses' : ∀ {p}, s'.blocks.uses v p ↔ p ∈ t.cells.map Prod.fst :=
    GenMaps.uses_iff h.after h.trie_after.toTrie
  -- a new cell is of the own generation or it is an old one of another generation
  have hnew : ∀ x ∈ t.cells, x.2.getGeneration = this.generation ∨
      (x ∈ cellsOf trie ∧ x.1 ∉ ownIn this.generation (cellsOf trie)) := by
    intro x hx
    by_cases hown : x.2.getGeneration = this.generation
    · exact .inl hown
    · have hold := hdelta.source x hx hown
      refine .inr ⟨hold, ?_⟩
      rw [mem_ownIn]
      rintro ⟨cell, hcell, hgen⟩
      have heq := h.wellFormed.rep _ hcell
      rw [h.wellFormed.rep x hold, Option.some.injEq] at heq
      exact hown (heq ▸ hgen)
  refine ⟨?_, ?_, ?_, ?_, ?_, ?_⟩
  · intro w p hw
    exact (h.same hinv hw).uses_iff
  · intro w p hw
    exact (h.same hinv hw).owns_iff
  · intro p
    rw [howns, howns']
    constructor
    · intro halloc
      by_cases hmem : ∃ x ∈ t.cells, x.1 = p
      · obtain ⟨x, hx, rfl⟩ := hmem
        rcases hnew x hx with hown | ⟨hold, hnot⟩
        · exact .inr (mem_ownIn.mpr ⟨x.2, hx, hown⟩)
        · refine .inl ⟨?_, hnot⟩
          have hrep := h.wellFormed.rep x hold
          simp [blocks, hrep]
      · push Not at hmem
        have hlt : p < s.heap.next := by
          by_contra hge
          obtain ⟨x, hx, hxp⟩ := hdelta.fresh p (not_lt.mp hge) halloc
          exact hmem x hx hxp
        have hforeign : p ∉ ownIn this.generation (cellsOf trie) := by
          rw [mem_ownIn]
          rintro ⟨cell, hcell, hgen⟩
          exact halloc (hdelta.freed _ hcell hgen hmem)
        refine .inl ⟨?_, hforeign⟩
        have hkept := hdelta.kept p hlt fun x hx hxp hown =>
          hforeign (mem_ownIn.mpr ⟨x.2, hxp ▸ hx, hown⟩)
        intro hnone
        exact halloc (hkept.trans hnone)
    · rintro (⟨halloc, hnot⟩ | hown)
      · have hkept := hdelta.kept p (hinv.allocated p halloc) fun x hx hxp hown =>
          hnot (mem_ownIn.mpr ⟨x.2, hxp ▸ hx, hown⟩)
        intro hnone
        exact halloc (hkept.symm.trans hnone)
      · obtain ⟨cell, hcell, -⟩ := mem_ownIn.mp hown
        have hrep := hdelta.rep _ hcell
        simp [blocks, hrep]
  · intro p hp
    obtain ⟨cell, hcell, -⟩ := mem_ownIn.mp (howns'.mp hp)
    exact huses'.mpr (List.mem_map_of_mem hcell)
  · intro p hp
    obtain ⟨x, hx, rfl⟩ := List.mem_map.mp (huses'.mp hp)
    rcases hnew x hx with hown | ⟨hold, hnot⟩
    · exact .inl (howns'.mpr (mem_ownIn.mpr ⟨x.2, hx, hown⟩))
    · exact .inr ⟨huses.mpr (List.mem_map_of_mem hold), fun hown => hnot (howns.mp hown)⟩
  · intro p hp
    obtain ⟨cell, hcell, hgen⟩ := mem_ownIn.mp (howns'.mp hp)
    rcases hdelta.known _ hcell with hfresh | ⟨y, hy, hyp⟩
    · refine .inr fun halloc => ?_
      exact absurd (hinv.allocated p halloc) (not_lt.mpr hfresh)
    · refine .inl (howns.mpr (mem_ownIn.mpr ⟨y.2, ?_, ?_⟩))
      · rw [← show y.1 = p from hyp]
        exact hy
      · by_contra hforeign
        have hunique : ∀ x ∈ cellsOf trie, x.1 = p → x.2.getGeneration ≠ this.generation := by
          intro x hx hxp hown
          have heq := h.wellFormed.rep x hx
          rw [hxp, ← show y.1 = p from hyp, h.wellFormed.rep y hy, Option.some.injEq] at heq
          exact hforeign (heq ▸ hown)
        have hkept := hdelta.kept p
          (Heap.lt_of_eq_some hinv.allocated (hyp ▸ h.wellFormed.rep y hy)) hunique
        rw [hdelta.rep _ hcell, ← show y.1 = p from hyp, h.wellFormed.rep y hy,
          Option.some.injEq] at hkept
        exact hforeign (hkept ▸ hgen)

theorem Mutates.inv : Inv s' where
  counted := by
    rw [h.forest_eq, h.refcount_eq, h.nextMap]
    exact hinv.counted
  allocated := h.replaced.delta.allocated
  wellFormed := by
    intro w other hother
    by_cases hw : w = v
    · subst hw
      rw [h.after, Option.some.injEq] at hother
      exact ⟨some t, hother ▸ h.trie_after⟩
    · rcases h.same hinv hw with ⟨-, hs'⟩ | ⟨_, other', trie, -, hs', -, -, -, htrie⟩
      · rw [hs'] at hother
        cases hother
      · rw [hs', Option.some.injEq] at hother
        exact ⟨trie, hother ▸ htrie⟩
  blocks := by
    rw [h.forest_eq]
    exact hinv.blocks.ownStep (hinv.childless h.before h.writable) (h.ownStep hinv)

end Mutates

/-! ### Construction -/

/-- A map is made that is empty or shares the trie of the one that it is copied from. -/
structure Constructs (s s' : GenMaps K T) (new : Members) : Prop where
  heap : s'.heap = s.heap
  nextMap : s'.nextMap = s.nextMap + 1
  after : s'.maps s.nextMap = some new
  others : ∀ {w}, w ≠ s.nextMap → s'.maps w = (s.maps w).map fun other : Members =>
    { other with debugRefcount := other.debugRefcount + if new.debugParent = some w then 1 else 0 }
  refcount : new.debugRefcount = 0
  shares : (new.root = none ∧ new.debugParent = none) ∨ ∃ p other, new.debugParent = some p ∧
    s.maps p = some other ∧ new.root = other.root ∧ new.generation = other.generation + 1

section Constructs

variable (h : Constructs s s' new) (hinv : Inv s)
include h

theorem Constructs.forest_eq :
    s'.forest = Function.update s.forest s.nextMap (some new.debugParent) := by
  funext w
  by_cases hw : w = s.nextMap
  · subst hw
    rw [Function.update_self, forest, h.after, Option.map_some]
  · rw [Function.update_of_ne hw, forest, forest, h.others hw, Option.map_map]
    rfl

include hinv

theorem Constructs.same (hw : w ≠ s.nextMap) : Same s s' w := by
  refine hinv.same ?_ fun p _ => by rw [h.heap]
  rw [h.others hw, Option.map_map]
  rfl

omit h in
theorem Inv.maps_next : s.maps s.nextMap = none := by
  have hnone := hinv.counted.next_eq_none
  rwa [forest, Option.map_eq_none_iff] at hnone

/-- The trie of the new map, which has no cell of its own generation. -/
theorem Constructs.exists_trie : ∃ trie, WellFormed s' new trie ∧
    (∀ p ∈ (cellsOf trie).map Prod.fst, ∃ q, new.debugParent = some q ∧ s.Uses q p) ∧
    ownIn new.generation (cellsOf trie) = [] := by
  rcases h.shares with ⟨hroot, -⟩ | ⟨q, other, hparent, hother, hroot, hgeneration⟩
  · refine ⟨none, ⟨⟨hroot, ?_⟩, ?_, List.nodup_nil⟩, ?_, rfl⟩
    · intro x hx
      cases hx
    · intro t ht
      cases ht
    · intro p hp
      cases hp
  · obtain ⟨trie, htrie⟩ := hinv.wellFormed q other hother
    refine ⟨trie, htrie.congr hroot (by omega) fun p _ => by rw [h.heap], ?_, ?_⟩
    · intro p hp
      exact ⟨q, hparent, (GenMaps.uses_iff hother htrie.toTrie).mpr hp⟩
    · apply ownIn_eq_nil
      intro x hx
      cases trie with
      | none => cases hx
      | some t =>
          have hlayered := htrie.layered t rfl
          have hlt : t.generation < new.generation := by
            have := hlayered.generation_le
            omega
          exact hlayered.foreign hlt x hx

theorem Constructs.inv : Inv s' where
  counted := by
    rw [h.forest_eq, h.nextMap]
    refine hinv.counted.add ?_ ?_ ?_
    · intro p hp
      rcases h.shares with ⟨-, hnone⟩ | ⟨q, other, hparent, hother, -⟩
      · rw [hnone] at hp
        cases hp
      · rw [hparent, Option.some.injEq] at hp
        rw [← hp, forest, hother]
        exact Option.some_ne_none _
    · rw [GenMaps.refcount, h.after, Option.map_some, h.refcount]
    · intro w hw
      rw [GenMaps.refcount, GenMaps.refcount, h.others hw, Option.map_map, Option.map_map]
      rfl
  allocated := by
    rw [h.heap]
    exact hinv.allocated
  wellFormed := by
    intro w other hother
    by_cases hw : w = s.nextMap
    · subst hw
      rw [h.after, Option.some.injEq] at hother
      obtain ⟨trie, htrie, -⟩ := h.exists_trie hinv
      exact ⟨trie, hother ▸ htrie⟩
    · rcases h.same hinv hw with ⟨-, hs'⟩ | ⟨_, other', trie, -, hs', -, -, -, htrie⟩
      · rw [hs'] at hother
        cases hother
      · rw [hs', Option.some.injEq] at hother
        exact ⟨trie, hother ▸ htrie⟩
  blocks := by
    obtain ⟨trie, htrie, hparent, hforeign⟩ := h.exists_trie hinv
    have hnext : ∀ p, ¬ s.Uses s.nextMap p := by
      rintro p ⟨this, trie, hthis, -⟩
      rw [hinv.maps_next] at hthis
      cases hthis
    rw [h.forest_eq]
    refine hinv.blocks.add hinv.counted.next_eq_none hnext ?_ ?_ ?_ ?_
    · intro p
      simp only [GenMaps.blocks, h.heap]
    · intro w p
      by_cases hw : w = s.nextMap
      · subst hw
        constructor
        · intro hown
          have hmem := (GenMaps.owns_iff h.after htrie.toTrie).mp hown
          rw [hforeign] at hmem
          cases hmem
        · intro hown
          exact absurd (hinv.blocks.uses_of_owns hown) (hnext p)
      · exact (h.same hinv hw).owns_iff
    · intro w p hw
      exact (h.same hinv hw).uses_iff
    · intro p hp
      exact hparent p ((GenMaps.uses_iff h.after htrie.toTrie).mp hp)

end Constructs

/-! ### Destruction -/

/-- A map is destroyed with the cells of its own generation. -/
structure Destroys (s s' : GenMaps K T) (v : ℕ) (this : Members) : Prop where
  before : s.maps v = some this
  writable : this.debugRefcount = 0
  after : s'.maps v = none
  others : ∀ {w}, w ≠ v → s'.maps w = (s.maps w).map fun other : Members =>
    { other with debugRefcount := other.debugRefcount - if this.debugParent = some w then 1 else 0 }
  nextMap : s'.nextMap = s.nextMap
  nextCell : s'.heap.next = s.heap.next
  freed : ∀ {p}, s.Owns v p → s'.heap.cells p = none
  kept : ∀ {p}, ¬ s.Owns v p → s'.heap.cells p = s.heap.cells p

section Destroys

variable (h : Destroys s s' v this) (hinv : Inv s)
include h

theorem Destroys.forest_eq : s'.forest = Function.update s.forest v none := by
  funext w
  by_cases hw : w = v
  · subst hw
    rw [Function.update_self, forest, h.after, Option.map_none]
  · rw [Function.update_of_ne hw, forest, forest, h.others hw, Option.map_map]
    rfl

include hinv

theorem Destroys.same (hw : w ≠ v) : Same s s' w := by
  refine hinv.same ?_ ?_
  · rw [h.others hw, Option.map_map]
    rfl
  · intro p huses
    apply h.kept
    intro howns
    exact hw (hinv.blocks.eq_of_uses (hinv.childless h.before h.writable) howns huses)

theorem Destroys.inv : Inv s' where
  counted := by
    rw [h.forest_eq, h.nextMap]
    refine hinv.counted.remove (hinv.childless h.before h.writable)
      (by rw [forest, h.before, Option.map_some]) ?_ ?_
    · rw [GenMaps.refcount, h.after, Option.map_none]
    · intro w hw
      rw [GenMaps.refcount, GenMaps.refcount, h.others hw, Option.map_map, Option.map_map]
      rfl
  allocated := by
    intro p hp
    rw [h.nextCell]
    by_cases hown : s.Owns v p
    · exact absurd (h.freed hown) hp
    · exact hinv.allocated p (h.kept hown ▸ hp)
  wellFormed := by
    intro w other hother
    have hw : w ≠ v := by
      rintro rfl
      rw [h.after] at hother
      cases hother
    rcases h.same hinv hw with ⟨-, hs'⟩ | ⟨_, other', trie, -, hs', -, -, -, htrie⟩
    · rw [hs'] at hother
      cases hother
    · rw [hs', Option.some.injEq] at hother
      exact ⟨trie, hother ▸ htrie⟩
  blocks := by
    rw [h.forest_eq]
    refine hinv.blocks.remove (hinv.childless h.before h.writable) ?_ ?_ ?_
    · intro p
      simp only [GenMaps.blocks]
      by_cases hown : s.Owns v p
      · simp [h.freed hown, hown]
      · simp [h.kept hown, hown]
    · intro w p
      by_cases hw : w = v
      · simp [GenMaps.blocks, Owns, hw, h.after]
      · simpa [GenMaps.blocks, hw] using (h.same hinv hw).owns_iff
    · intro w p
      by_cases hw : w = v
      · simp [GenMaps.blocks, Uses, hw, h.after]
      · simpa [GenMaps.blocks, hw] using (h.same hinv hw).uses_iff

end Destroys

end Nidhugg.GenMaps
