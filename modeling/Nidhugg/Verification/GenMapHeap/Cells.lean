import Nidhugg.Verification.GenMapHeap.Trees

/-! # What a mutation does to the cells

A mutation below a place replaces the cells of the trie there by others. The cells of other
generations among these are old ones. Cells of the own generation are old or new. Only old cells
of the own generation are written or freed. -/

namespace Nidhugg.GenMap

variable {K T : Type} {generation : ℤ} {h h₀ h₁ h₂ : Heap K T}

/-- All cells that are there have been allocated. -/
def Heap.Allocated (h : Heap K T) : Prop := ∀ p, h.cells p ≠ none → p < h.next

/-- The cells of a part of the heap are replaced. -/
structure Delta (generation : ℤ) (h h' : Heap K T) (old new : List (ℕ × Cell K T)) : Prop where
  rep : ∀ x ∈ new, h'.cells x.1 = some x.2
  nodup : (new.map Prod.fst).Nodup
  source : ∀ x ∈ new, x.2.getGeneration ≠ generation → x ∈ old
  known : ∀ x ∈ new, h.next ≤ x.1 ∨ ∃ y ∈ old, y.1 = x.1
  kept : ∀ p, p < h.next → (∀ x ∈ old, x.1 = p → x.2.getGeneration ≠ generation) →
    h'.cells p = h.cells p
  freed : ∀ x ∈ old, x.2.getGeneration = generation → (∀ y ∈ new, y.1 ≠ x.1) →
    h'.cells x.1 = none
  next_le : h.next ≤ h'.next
  fresh : ∀ p, h.next ≤ p → h'.cells p ≠ none → ∃ x ∈ new, x.1 = p
  allocated : h'.Allocated

/-- The cell that a place below belongs to is made writable: it has the own generation already,
or a new cell is made for it and the old one is freed if it has the own generation. -/
structure Prepares (generation : ℤ) (h h₀ : Heap K T) (p : ℕ) (cell : Cell K T) (q : ℕ) : Prop where
  other : ∀ {r}, r ≠ p → r ≠ q → h₀.cells r = h.cells r
  foreign : cell.getGeneration ≠ generation → p ≠ q → h₀.cells p = h.cells p
  own : cell.getGeneration = generation → p ≠ q → h₀.cells p = none
  place : (q = p ∧ cell.getGeneration = generation ∧ h₀.next = h.next) ∨
    (q = h.next ∧ h₀.next = h.next + 1)
  allocated : h₀.Allocated

theorem Heap.lt_of_eq_some {h : Heap K T} (halloc : h.Allocated) {p : ℕ} {cell : Cell K T}
    (hp : h.cells p = some cell) : p < h.next := by
  apply halloc
  rw [hp]
  exact Option.some_ne_none _

theorem Prepares.next_le {p q : ℕ} {cell : Cell K T} (h' : Prepares generation h h₀ p cell q) :
    h.next ≤ h₀.next := by
  rcases h'.place with ⟨-, -, hnext⟩ | ⟨-, hnext⟩
  · exact hnext.ge
  · omega

/-- The cell that is written is new or that of the place. -/
theorem Prepares.eq_of_lt {p q r : ℕ} {cell : Cell K T} (h' : Prepares generation h h₀ p cell q)
    (hr : r < h.next) (hrq : r = q) : r = p ∧ cell.getGeneration = generation := by
  rcases h'.place with ⟨rfl, hown, -⟩ | ⟨hq, -⟩
  · exact ⟨hrq, hown⟩
  · omega

theorem Delta.perm {old new old' new' : List (ℕ × Cell K T)}
    (hdelta : Delta generation h h₁ old new)
    (hold : old.Perm old') (hnew : new.Perm new') : Delta generation h h₁ old' new' where
  rep x hx := hdelta.rep x (hnew.mem_iff.mpr hx)
  nodup := (hnew.map _).nodup_iff.mp hdelta.nodup
  source x hx hgen := hold.mem_iff.mp (hdelta.source x (hnew.mem_iff.mpr hx) hgen)
  known x hx := (hdelta.known x (hnew.mem_iff.mpr hx)).imp_right fun ⟨y, hy, hyx⟩ =>
    ⟨y, hold.mem_iff.mp hy, hyx⟩
  kept p hp hforeign := hdelta.kept p hp fun x hx => hforeign x (hold.mem_iff.mp hx)
  freed x hx hown hgone := hdelta.freed x (hold.mem_iff.mpr hx) hown fun y hy =>
    hgone y (hnew.mem_iff.mp hy)
  next_le := hdelta.next_le
  fresh p hp hne := (hdelta.fresh p hp hne).imp fun _ hx => ⟨hnew.mem_iff.mp hx.1, hx.2⟩
  allocated := hdelta.allocated

/-- Cells beside those that are replaced stay. -/
theorem Delta.beside {old new cells : List (ℕ × Cell K T)} (halloc : h.Allocated)
    (hrep : ∀ x ∈ cells, h.cells x.1 = some x.2)
    (hnodup : ((old ++ cells).map Prod.fst).Nodup) (hdelta : Delta generation h h₁ old new) :
    Delta generation h h₁ (old ++ cells) (new ++ cells) := by
  rw [List.map_append, List.nodup_append] at hnodup
  obtain ⟨-, hcells, hdisjoint⟩ := hnodup
  have hlt : ∀ x ∈ cells, x.1 < h.next := fun x hx => Heap.lt_of_eq_some halloc (hrep x hx)
  have hbeside : ∀ x ∈ cells, ∀ y ∈ old, y.1 ≠ x.1 := fun x hx y hy =>
    hdisjoint y.1 (List.mem_map_of_mem hy) x.1 (List.mem_map_of_mem hx)
  refine ⟨fun x hx => ?_, ?_, fun x hx hgen => ?_, fun x hx => ?_, fun p hp hforeign => ?_,
    fun x hx hown hgone => ?_, hdelta.next_le, fun p hp hne => ?_, hdelta.allocated⟩
  · rcases List.mem_append.mp hx with hx | hx
    · exact hdelta.rep x hx
    · rw [hdelta.kept x.1 (hlt x hx) fun y hy hyx => absurd hyx (hbeside x hx y hy)]
      exact hrep x hx
  · rw [List.map_append, List.nodup_append]
    refine ⟨hdelta.nodup, hcells, fun a ha b hb => ?_⟩
    obtain ⟨y, hy, rfl⟩ := List.mem_map.mp ha
    obtain ⟨x, hx, rfl⟩ := List.mem_map.mp hb
    rcases hdelta.known y hy with hfresh | ⟨z, hz, hzy⟩
    · exact ((hlt x hx).trans_le hfresh).ne'
    · exact hzy ▸ hbeside x hx z hz
  · rcases List.mem_append.mp hx with hx | hx
    · exact List.mem_append_left _ (hdelta.source x hx hgen)
    · exact List.mem_append_right _ hx
  · rcases List.mem_append.mp hx with hx | hx
    · exact (hdelta.known x hx).imp_right fun ⟨y, hy, hyx⟩ => ⟨y, List.mem_append_left _ hy, hyx⟩
    · exact .inr ⟨x, List.mem_append_right _ hx, rfl⟩
  · exact hdelta.kept p hp fun x hx => hforeign x (List.mem_append_left _ hx)
  · rcases List.mem_append.mp hx with hx | hx
    · exact hdelta.freed x hx hown fun y hy => hgone y (List.mem_append_left _ hy)
    · exact absurd rfl (hgone x (List.mem_append_right _ hx))
  · obtain ⟨x, hx, hxp⟩ := hdelta.fresh p hp hne
    exact ⟨x, List.mem_append_left _ hx, hxp⟩

/-- A replacement is one below a cell that is written after it. -/
theorem Delta.below {p q : ℕ} {cell cell' : Cell K T} {old new : List (ℕ × Cell K T)}
    (hlt : ∀ x ∈ (p, cell) :: old, x.1 < h.next) (hpne : ∀ x ∈ old, x.1 ≠ p)
    (hprepares : Prepares generation h h₀ p cell q) (hdelta : Delta generation h₀ h₁ old new)
    (hcell' : cell'.getGeneration = generation)
    (hcells : h₂.cells = Function.update h₁.cells q (some cell')) (hnext : h₂.next = h₁.next) :
    Delta generation h h₂ ((p, cell) :: old) ((q, cell') :: new) := by
  have hle := hprepares.next_le
  have hp : p < h.next := hlt (p, cell) List.mem_cons_self
  have hq : q < h₀.next := by
    rcases hprepares.place with ⟨rfl, -⟩ | ⟨rfl, hnext₀⟩
    · omega
    · omega
  have hqnew : ∀ x ∈ new, x.1 ≠ q := by
    intro x hx hxq
    rcases hdelta.known x hx with hfresh | ⟨y, hy, hyx⟩
    · omega
    · exact hpne y hy (hprepares.eq_of_lt (hlt y (.tail _ hy)) (hyx.trans hxq)).1
  have hcells_ne : ∀ {r}, r ≠ q → h₂.cells r = h₁.cells r := by
    intro r hr
    rw [hcells, Function.update_of_ne hr]
  refine ⟨fun x hx => ?_, ?_, fun x hx hgen => ?_, fun x hx => ?_, fun r hr hforeign => ?_,
    fun x hx hown hgone => ?_, ?_, fun r hr hne => ?_, fun r hne => ?_⟩
  · rcases List.mem_cons.mp hx with rfl | hx
    · rw [hcells, Function.update_self]
    · rw [hcells_ne (hqnew x hx)]
      exact hdelta.rep x hx
  · refine List.nodup_cons.mpr ⟨fun hmem => ?_, hdelta.nodup⟩
    obtain ⟨x, hx, hxq⟩ := List.mem_map.mp hmem
    exact hqnew x hx hxq
  · rcases List.mem_cons.mp hx with rfl | hx
    · exact absurd hcell' hgen
    · exact List.mem_cons_of_mem _ (hdelta.source x hx hgen)
  · rcases List.mem_cons.mp hx with rfl | hx
    · rcases hprepares.place with ⟨hqp, -⟩ | ⟨hq, -⟩
      · exact .inr ⟨(p, cell), List.mem_cons_self, hqp.symm⟩
      · exact .inl hq.ge
    · exact (hdelta.known x hx).imp hle.trans fun ⟨y, hy, hyx⟩ =>
        ⟨y, List.mem_cons_of_mem _ hy, hyx⟩
  · have hrq : r ≠ q := by
      intro hrq
      obtain ⟨rfl, hown⟩ := hprepares.eq_of_lt hr hrq
      exact hforeign (r, cell) List.mem_cons_self rfl hown
    rw [hcells_ne hrq, hdelta.kept r (by omega) fun x hx => hforeign x (List.mem_cons_of_mem _ hx)]
    by_cases hrp : r = p
    · subst hrp
      exact hprepares.foreign (hforeign (r, cell) List.mem_cons_self rfl) hrq
    · exact hprepares.other hrp hrq
  · have hxq : x.1 ≠ q := fun heq => hgone (q, cell') List.mem_cons_self heq.symm
    rw [hcells_ne hxq]
    rcases List.mem_cons.mp hx with rfl | hx
    · rw [hdelta.kept p (by omega) fun y hy hyp => absurd hyp (hpne y hy)]
      exact hprepares.own hown hxq
    · exact hdelta.freed x hx hown fun y hy => hgone y (List.mem_cons_of_mem _ hy)
  · rw [hnext]
    exact hle.trans hdelta.next_le
  · by_cases hrq : r = q
    · exact ⟨(q, cell'), List.mem_cons_self, hrq.symm⟩
    · rw [hcells_ne hrq] at hne
      have hr₀ : h₀.next ≤ r := by
        rcases hprepares.place with ⟨-, -, hnext₀⟩ | ⟨hq, hnext₀⟩
        · omega
        · omega
      obtain ⟨x, hx, hxr⟩ := hdelta.fresh r hr₀ hne
      exact ⟨x, List.mem_cons_of_mem _ hx, hxr⟩
  · rw [hnext]
    by_cases hrq : r = q
    · have := hdelta.next_le
      omega
    · rw [hcells_ne hrq] at hne
      exact hdelta.allocated r hne

/-- A replacement below a cell is one below the place of the cell. -/
theorem Delta.wrap (front back : List (ℕ × Cell K T)) {p q : ℕ} {cell cell' : Cell K T}
    {old new : List (ℕ × Cell K T)} (halloc : h.Allocated)
    (hrep : ∀ x ∈ (p, cell) :: (front ++ (old ++ back)), h.cells x.1 = some x.2)
    (hnodup : (((p, cell) :: (front ++ (old ++ back))).map Prod.fst).Nodup)
    (hprepares : Prepares generation h h₀ p cell q) (hdelta : Delta generation h₀ h₁ old new)
    (hcell' : cell'.getGeneration = generation)
    (hcells : h₂.cells = Function.update h₁.cells q (some cell')) (hnext : h₂.next = h₁.next) :
    Delta generation h h₂ ((p, cell) :: (front ++ (old ++ back)))
      ((q, cell') :: (front ++ (new ++ back))) := by
  have hlt : ∀ x ∈ (p, cell) :: (front ++ (old ++ back)), x.1 < h.next :=
    fun x hx => Heap.lt_of_eq_some halloc (hrep x hx)
  obtain ⟨hp, hrest⟩ := List.nodup_cons.mp hnodup
  have hpne : ∀ x ∈ front ++ (old ++ back), x.1 ≠ p :=
    fun x hx heq => hp (List.mem_map.mpr ⟨x, hx, heq⟩)
  have hold := List.perm_append_comm_assoc front old back
  have hsides : ∀ x ∈ front ++ back, h₀.cells x.1 = some x.2 := by
    intro x hx
    have hmem := hold.mem_iff.mpr (List.mem_append_right old hx)
    have hxlt := hlt x (List.mem_cons_of_mem _ hmem)
    rw [hprepares.other (hpne x hmem) fun hxq => hpne x hmem (hprepares.eq_of_lt hxlt hxq).1]
    exact hrep x (List.mem_cons_of_mem _ hmem)
  have hbeside := hdelta.beside hprepares.allocated hsides ((hold.map _).nodup_iff.mp hrest)
  exact Delta.below hlt hpne hprepares
    (hbeside.perm hold.symm (List.perm_append_comm_assoc front new back).symm) hcell' hcells hnext

theorem Delta.cons {p q : ℕ} {cell cell' : Cell K T} {old new : List (ℕ × Cell K T)}
    (halloc : h.Allocated) (hrep : ∀ x ∈ (p, cell) :: old, h.cells x.1 = some x.2)
    (hnodup : (((p, cell) :: old).map Prod.fst).Nodup)
    (hprepares : Prepares generation h h₀ p cell q) (hdelta : Delta generation h₀ h₁ old new)
    (hcell' : cell'.getGeneration = generation)
    (hcells : h₂.cells = Function.update h₁.cells q (some cell')) (hnext : h₂.next = h₁.next) :
    Delta generation h h₂ ((p, cell) :: old) ((q, cell') :: new) := by
  have hp := (List.nodup_cons.mp hnodup).1
  exact Delta.below (fun x hx => Heap.lt_of_eq_some halloc (hrep x hx))
    (fun x hx heq => hp (List.mem_map.mpr ⟨x, hx, heq⟩)) hprepares hdelta hcell' hcells hnext

/-- Nothing is replaced. -/
theorem Delta.refl {old : List (ℕ × Cell K T)} (halloc : h.Allocated)
    (hrep : ∀ x ∈ old, h.cells x.1 = some x.2) (hnodup : (old.map Prod.fst).Nodup) :
    Delta generation h h old old where
  rep := hrep
  nodup := hnodup
  source := fun _ hx _ => hx
  known := fun _ hx => .inr ⟨_, hx, rfl⟩
  kept := fun _ _ _ => rfl
  freed := fun x hx _ hgone => absurd rfl (hgone x hx)
  next_le := le_rfl
  fresh := fun p hle hne => absurd (halloc p hne) (not_lt.mpr hle)
  allocated := halloc

theorem Heap.Allocated.alloc (halloc : h.Allocated) (cell : Cell K T) :
    (h.alloc cell).1.Allocated := by
  intro p hp
  by_cases heq : p = h.next
  · rw [heq]
    exact Nat.lt_succ_self _
  · have hold : (h.alloc cell).1.cells p = h.cells p := Function.update_of_ne heq ..
    rw [hold] at hp
    exact (halloc p hp).trans (Nat.lt_succ_self _)

/-- A new cell above the replaced cells. -/
theorem Delta.push {cell cell' : Cell K T} {old new : List (ℕ × Cell K T)} (halloc : h.Allocated)
    (hrep : ∀ x ∈ old, h.cells x.1 = some x.2)
    (hdelta : Delta generation (h.alloc cell).1 h₁ old new)
    (hcell' : cell'.getGeneration = generation)
    (hcells : h₂.cells = Function.update h₁.cells h.next (some cell'))
    (hnext : h₂.next = h₁.next) :
    Delta generation h h₂ old ((h.next, cell') :: new) := by
  have hlt : ∀ x ∈ old, x.1 < h.next := fun x hx => Heap.lt_of_eq_some halloc (hrep x hx)
  have hnextₐ : (h.alloc cell).1.next = h.next + 1 := rfl
  have hnew : ∀ x ∈ new, x.1 ≠ h.next := by
    intro x hx
    rcases hdelta.known x hx with hfresh | ⟨y, hy, hyx⟩
    · omega
    · have := hlt y hy
      omega
  have hcells_ne : ∀ {r}, r ≠ h.next → h₂.cells r = h₁.cells r := by
    intro r hr
    rw [hcells, Function.update_of_ne hr]
  constructor
  · intro x hx
    rcases List.mem_cons.mp hx with rfl | hx
    · rw [hcells, Function.update_self]
    · rw [hcells_ne (hnew x hx)]
      exact hdelta.rep x hx
  · rw [List.map_cons, List.nodup_cons]
    refine ⟨?_, hdelta.nodup⟩
    intro hmem
    obtain ⟨x, hx, hxn⟩ := List.mem_map.mp hmem
    exact hnew x hx hxn
  · intro x hx hgen
    rcases List.mem_cons.mp hx with rfl | hx
    · exact absurd hcell' hgen
    · exact hdelta.source x hx hgen
  · intro x hx
    rcases List.mem_cons.mp hx with rfl | hx
    · exact .inl le_rfl
    · rcases hdelta.known x hx with hfresh | hold
      · exact .inl (by omega)
      · exact .inr hold
  · intro p hp hforeign
    rw [hcells_ne hp.ne, hdelta.kept p (by omega) hforeign]
    exact Function.update_of_ne hp.ne ..
  · intro x hx hown hgone
    rw [hcells_ne (hlt x hx).ne]
    exact hdelta.freed x hx hown fun y hy => hgone y (List.mem_cons_of_mem _ hy)
  · have := hdelta.next_le
    omega
  · intro p hp hne
    by_cases hpn : p = h.next
    · exact ⟨_, List.mem_cons_self, hpn.symm⟩
    · rw [hcells_ne hpn] at hne
      obtain ⟨x, hx, hxp⟩ := hdelta.fresh p (by omega) hne
      exact ⟨x, List.mem_cons_of_mem _ hx, hxp⟩
  · intro p hne
    rw [hnext]
    by_cases hpn : p = h.next
    · have := hdelta.next_le
      omega
    · rw [hcells_ne hpn] at hne
      exact hdelta.allocated p hne

/-- A new cell above the cells that stay. -/
theorem Delta.alloc {cell : Cell K T} {old : List (ℕ × Cell K T)} (halloc : h.Allocated)
    (hrep : ∀ x ∈ old, h.cells x.1 = some x.2) (hnodup : (old.map Prod.fst).Nodup)
    (hcell : cell.getGeneration = generation) :
    Delta generation h (h.alloc cell).1 old ((h.next, cell) :: old) := by
  have hrep' : ∀ x ∈ old, (h.alloc cell).1.cells x.1 = some x.2 := by
    intro x hx
    have hne : x.1 ≠ h.next := (Heap.lt_of_eq_some halloc (hrep x hx)).ne
    exact (Function.update_of_ne hne ..).trans (hrep x hx)
  refine Delta.push halloc hrep (Delta.refl (halloc.alloc cell) hrep' hnodup) hcell ?_ rfl
  rw [Heap.alloc, Function.update_idem]

/-- A cell of the own generation is written afterwards. -/
theorem Delta.write {h' : Heap K T} {old new : List (ℕ × Cell K T)} {p : ℕ} {cell : Cell K T}
    (hdelta : Delta generation h h' old new) (hold : ∀ x ∈ old, h.cells x.1 = some x.2)
    (hp : (p, cell) ∈ new) (hcell : cell.getGeneration = generation) {write : Cell K T → Cell K T}
    (hwrite : ∀ cell, (write cell).getGeneration = cell.getGeneration) :
    Delta generation h { h' with cells := Function.update h'.cells p (some (write cell)) } old
      (new.map fun x => (x.1, if x.1 = p then write x.2 else x.2)) := by
  have hptr : (new.map fun x => (x.1, if x.1 = p then write x.2 else x.2)).map Prod.fst =
      new.map Prod.fst := by
    rw [List.map_map]
    rfl
  have hcell_at : ∀ x ∈ new, x.1 = p → x.2 = cell := by
    intro x hx hxp
    have hrep := hdelta.rep x hx
    rw [hxp, hdelta.rep _ hp] at hrep
    exact (Option.some.inj hrep).symm
  have hgen : ∀ x : ℕ × Cell K T,
      (if x.1 = p then write x.2 else x.2).getGeneration = x.2.getGeneration := by
    intro x
    split
    · exact hwrite x.2
    · rfl
  constructor
  · intro x hx
    obtain ⟨y, hy, rfl⟩ := List.mem_map.mp hx
    by_cases hyp : y.1 = p
    · simp only [hyp, if_true, Function.update_self, hcell_at y hy hyp]
    · simp only [hyp, if_false, ne_eq, not_false_eq_true, Function.update_of_ne]
      exact hdelta.rep y hy
  · rw [hptr]
    exact hdelta.nodup
  · intro x hx hforeign
    obtain ⟨y, hy, rfl⟩ := List.mem_map.mp hx
    rw [hgen] at hforeign
    have hyp : y.1 ≠ p := by
      intro hyp
      rw [hcell_at y hy hyp] at hforeign
      exact hforeign hcell
    simp only [hyp, if_false]
    exact hdelta.source y hy hforeign
  · intro x hx
    obtain ⟨y, hy, rfl⟩ := List.mem_map.mp hx
    exact hdelta.known y hy
  · intro r hr hforeign
    have hrp : r ≠ p := by
      rintro rfl
      rcases hdelta.known _ hp with hfresh | ⟨y, hy, hyr⟩
      · exact absurd hr (not_lt.mpr hfresh)
      · -- an old cell of the own generation is at this address
        have hkept := hdelta.kept r hr hforeign
        rw [hdelta.rep _ hp, ← show y.1 = r from hyr, hold y hy] at hkept
        exact hforeign y hy hyr (Option.some.inj hkept ▸ hcell)
    exact (Function.update_of_ne hrp ..).trans (hdelta.kept r hr hforeign)
  · intro x hx hown hgone
    have hgone' : ∀ y ∈ new, y.1 ≠ x.1 := by
      intro y hy
      exact hgone (y.1, if y.1 = p then write y.2 else y.2) (List.mem_map.mpr ⟨y, hy, rfl⟩)
    have hxp : x.1 ≠ p := (hgone' _ hp).symm
    exact (Function.update_of_ne hxp ..).trans (hdelta.freed x hx hown hgone')
  · exact hdelta.next_le
  · intro r hr hne
    by_cases hrp : r = p
    · exact ⟨_, List.mem_map_of_mem hp, hrp.symm⟩
    · have hold' : Function.update h'.cells p (some (write cell)) r = h'.cells r :=
        Function.update_of_ne hrp ..
      obtain ⟨x, hx, hxr⟩ := hdelta.fresh r hr (hold' ▸ hne)
      exact ⟨_, List.mem_map_of_mem hx, hxr⟩
  · intro r hne
    by_cases hrp : r = p
    · rw [hrp]
      exact Heap.lt_of_eq_some hdelta.allocated (hdelta.rep _ hp)
    · have hold' : Function.update h'.cells p (some (write cell)) r = h'.cells r :=
        Function.update_of_ne hrp ..
      exact hdelta.allocated r (hold' ▸ hne)

/-- A cell of the own generation is written in place. -/
theorem Prepares.own_cell (halloc : h.Allocated) {p : ℕ} {cell : Cell K T}
    (hown : cell.getGeneration = generation) : Prepares generation h h p cell p :=
  ⟨fun _ _ => rfl, fun _ _ => rfl, fun _ hne => absurd rfl hne, .inl ⟨rfl, hown, rfl⟩, halloc⟩

/-- A cell of another generation is copied. -/
theorem Prepares.copied (halloc : h.Allocated) {p : ℕ} {cell cell' : Cell K T}
    (hforeign : cell.getGeneration ≠ generation) :
    Prepares generation h (h.alloc cell').1 p cell h.next :=
  ⟨fun _ hne => Function.update_of_ne hne .., fun _ hne => Function.update_of_ne hne ..,
    fun hown => absurd hown hforeign, .inr ⟨rfl, rfl⟩, halloc.alloc cell'⟩

/-- A cell of the own generation is moved. -/
theorem Prepares.moved (halloc : h.Allocated) {p : ℕ} {cell cell' : Cell K T}
    (hp : p < h.next) (hown : cell.getGeneration = generation) :
    Prepares generation h
      (Heap.alloc { h with cells := Function.update h.cells p none } cell').1 p cell h.next := by
  have halloc' : Heap.Allocated { h with cells := Function.update h.cells p none } := by
    intro r hr
    by_cases hrp : r = p
    · rwa [hrp]
    · exact halloc r ((Function.update_of_ne hrp none h.cells).symm ▸ hr)
  refine ⟨?_, fun hforeign => absurd hown hforeign, ?_, .inr ⟨rfl, rfl⟩, halloc'.alloc cell'⟩
  · intro r hrp hrn
    exact (Function.update_of_ne hrn ..).trans (Function.update_of_ne hrp ..)
  · intro _ hne
    exact (Function.update_of_ne hne ..).trans (Function.update_self ..)

end Nidhugg.GenMap
