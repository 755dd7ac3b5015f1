import Mathlib.Data.List.Induction

/-! # Insertion sort with a comparison that need not be transitive

Elements move towards the front by exchanging places with their neighbours, and an exchange may
change both of them. What the sort does to the keys, which stay as they are, depends on the keys
only. -/

namespace InsertionSort

variable {α κ σ : Type*}

section

variable (lt : α → α → Bool) (swap : α → α → α × α)

/-- Moves an element towards the front of the sorted part, which is given from its end. -/
def insert : List α → α → List α
  | [], x => [x]
  | p :: sorted, x =>
      if lt p x then x :: p :: sorted else (swap p x).2 :: insert sorted (swap p x).1

def sort (xs : List α) : List α := (xs.foldl (insert lt swap) []).reverse

end

/-- The exchange that changes nothing. -/
def exchange (p x : α) : α × α := (x, p)

variable {lt : α → α → Bool} {swap : α → α → α × α} {sorted xs : List α} {x : α}

/-! ### Keys -/

theorem map_key_insert {key : α → κ} {lt' : κ → κ → Bool}
    (hlt : ∀ p x, lt p x = lt' (key p) (key x))
    (hswap : ∀ p x, key (swap p x).1 = key x ∧ key (swap p x).2 = key p) (sorted : List α) (x : α) :
    (insert lt swap sorted x).map key = insert lt' exchange (sorted.map key) (key x) := by
  induction sorted generalizing x with
  | nil => rfl
  | cons p sorted ih =>
      rw [List.map_cons, insert, insert, ← hlt]
      split
      · rfl
      · rw [List.map_cons, ih, (hswap p x).1, (hswap p x).2]
        rfl

/-- The keys are sorted as a list of their own. -/
theorem map_key_sort {key : α → κ} {lt' : κ → κ → Bool} (hlt : ∀ p x, lt p x = lt' (key p) (key x))
    (hswap : ∀ p x, key (swap p x).1 = key x ∧ key (swap p x).2 = key p) (xs : List α) :
    (sort lt swap xs).map key = sort lt' exchange (xs.map key) := by
  have hfold : ∀ sorted, (xs.foldl (insert lt swap) sorted).map key =
      (xs.map key).foldl (insert lt' exchange) (sorted.map key) := by
    induction xs with
    | nil => exact fun _ => rfl
    | cons x xs ih =>
        intro sorted
        rw [List.foldl_cons, ih, map_key_insert hlt hswap]
        rfl
  rw [sort, List.map_reverse, hfold]
  rfl

/-! ### The order of the elements -/

theorem insert_perm (sorted : List α) (x : α) :
    (insert lt exchange sorted x).Perm (x :: sorted) := by
  induction sorted generalizing x with
  | nil => exact List.Perm.refl _
  | cons p sorted ih =>
      rw [insert]
      split
      · exact List.Perm.refl _
      · exact ((ih x).cons p).trans (List.Perm.swap x p sorted)

theorem sort_perm (xs : List α) : (sort lt exchange xs).Perm xs := by
  have hfold : ∀ sorted : List α,
      (xs.foldl (insert lt exchange) sorted).Perm (sorted.reverse ++ xs) := by
    induction xs with
    | nil =>
        intro sorted
        rw [List.append_nil]
        exact (List.reverse_perm sorted).symm
    | cons x xs ih =>
        intro sorted
        have hinsert : (insert lt exchange sorted x).reverse.Perm (sorted.reverse ++ [x]) := by
          apply ((List.reverse_perm _).trans (insert_perm sorted x)).trans
          rw [← List.reverse_cons]
          exact (List.reverse_perm _).symm
        apply (ih _).trans
        rw [List.append_cons]
        exact hinsert.append_right xs
  exact (List.reverse_perm _).trans (hfold [])

/-- A relation that holds of the elements in their order and survives exchanges. -/
theorem pairwise_insert {S : α → α → Prop} (hS : ∀ p x, S p x → lt p x = false → S x p)
    (hsorted : sorted.Pairwise fun x p => S p x) (hx : ∀ p ∈ sorted, S p x) :
    (insert lt exchange sorted x).Pairwise fun x p => S p x := by
  induction sorted with
  | nil => exact List.pairwise_singleton _ _
  | cons p sorted ih =>
      obtain ⟨hp, hsorted⟩ := List.pairwise_cons.mp hsorted
      rw [insert]
      split
      · exact List.pairwise_cons.mpr ⟨hx, List.pairwise_cons.mpr ⟨hp, hsorted⟩⟩
      · rename_i hlt
        have hrest := ih hsorted fun q hq => hx q (List.mem_cons_of_mem p hq)
        apply List.pairwise_cons.mpr
        refine ⟨?_, hrest⟩
        intro q hq
        rcases List.mem_cons.mp ((insert_perm sorted x).mem_iff.mp hq) with rfl | hq
        · exact hS p q (hx p List.mem_cons_self) (Bool.eq_false_iff.mpr hlt)
        · exact hp q hq

theorem pairwise_sort {S : α → α → Prop} (hS : ∀ p x, S p x → lt p x = false → S x p)
    (hxs : xs.Pairwise S) : (sort lt exchange xs).Pairwise S := by
  have hfold : ∀ sorted : List α, (sorted.reverse ++ xs).Pairwise S →
      (xs.foldl (insert lt exchange) sorted).Pairwise fun x p => S p x := by
    induction xs with
    | nil =>
        intro sorted h
        rw [List.append_nil] at h
        exact List.pairwise_reverse.mp h
    | cons x xs ih =>
        intro sorted h
        obtain ⟨hsorted, hrest, hcross⟩ := List.pairwise_append.mp h
        obtain ⟨hx, hrest⟩ := List.pairwise_cons.mp hrest
        apply ih hrest
        have hinsert := pairwise_insert hS (List.pairwise_reverse.mp hsorted)
          fun p hp => hcross p (List.mem_reverse.mpr hp) x List.mem_cons_self
        apply List.pairwise_append.mpr
        refine ⟨List.pairwise_reverse.mpr hinsert, hrest, ?_⟩
        intro p hp y hy
        rcases List.mem_cons.mp ((insert_perm sorted x).mem_iff.mp (List.mem_reverse.mp hp)) with
          rfl | hp
        · exact hx y hy
        · exact hcross p (List.mem_reverse.mpr hp) y (List.mem_cons_of_mem x hy)
  exact List.pairwise_reverse.mpr (hfold [] hxs)

/-- The comparison decides the relation `R` of elements in a given order. -/
structure Decides (lt : α → α → Bool) (S R : α → α → Prop) : Prop where
  ahead : ∀ {p x}, S p x → lt p x = true → R p x
  behind : ∀ {p x}, S p x → lt p x = false → R x p

theorem Decides.pairwise_insert {S R : α → α → Prop} (h : Decides lt S R)
    (hsorted : sorted.Pairwise fun x p => R p x) (hx : ∀ p ∈ sorted, S p x)
    (htrans : ∀ p ∈ sorted, ∀ q ∈ sorted, R p q → R q x → R p x) :
    (insert lt exchange sorted x).Pairwise fun x p => R p x := by
  induction sorted with
  | nil => exact List.pairwise_singleton _ _
  | cons p sorted ih =>
      obtain ⟨hp, hsorted'⟩ := List.pairwise_cons.mp hsorted
      have hxp := hx p List.mem_cons_self
      rw [insert]
      split
      · rename_i hlt
        refine List.pairwise_cons.mpr ⟨?_, hsorted⟩
        intro q hq
        rcases List.mem_cons.mp hq with rfl | hq
        · exact h.ahead hxp hlt
        · exact htrans q (List.mem_cons_of_mem p hq) p List.mem_cons_self (hp q hq)
            (h.ahead hxp hlt)
      · rename_i hlt
        have hrest := ih hsorted' (fun q hq => hx q (List.mem_cons_of_mem p hq))
          fun q hq r hr => htrans q (List.mem_cons_of_mem p hq) r (List.mem_cons_of_mem p hr)
        refine List.pairwise_cons.mpr ⟨?_, hrest⟩
        intro q hq
        rcases List.mem_cons.mp ((insert_perm sorted x).mem_iff.mp hq) with rfl | hq
        · exact h.behind hxp (Bool.eq_false_iff.mpr hlt)
        · exact hp q hq

/-- If the relation that the comparison decides is transitive, then the result is sorted by it. -/
theorem Decides.pairwise_sort {S R : α → α → Prop} (h : Decides lt S R) (hxs : xs.Pairwise S)
    (htrans : ∀ p ∈ xs, ∀ q ∈ xs, ∀ r ∈ xs, R p q → R q r → R p r) :
    (sort lt exchange xs).Pairwise R := by
  have hfold : ∀ rest sorted : List α, (∀ p ∈ sorted ++ rest, p ∈ xs) → rest.Pairwise S →
      (∀ p ∈ sorted, ∀ x ∈ rest, S p x) → (sorted.Pairwise fun x p => R p x) →
      (rest.foldl (insert lt exchange) sorted).Pairwise fun x p => R p x := by
    intro rest
    induction rest with
    | nil => exact fun _ _ _ _ h => h
    | cons x rest ih =>
        intro sorted hmem hrest hcross hsorted
        obtain ⟨hx, hrest'⟩ := List.pairwise_cons.mp hrest
        have hperm : ∀ p, p ∈ insert lt exchange sorted x ↔ p ∈ x :: sorted :=
          fun p => (insert_perm sorted x).mem_iff
        apply ih _ _ hrest'
        · intro p hp y hy
          rcases List.mem_cons.mp ((hperm p).mp hp) with rfl | hp
          · exact hx y hy
          · exact hcross p hp y (List.mem_cons_of_mem x hy)
        · apply h.pairwise_insert hsorted fun p hp => hcross p hp x List.mem_cons_self
          intro p hp q hq
          exact htrans p (hmem p (List.mem_append_left _ hp)) q
            (hmem q (List.mem_append_left _ hq)) x (hmem x (by simp))
        · intro p hp
          apply hmem
          rcases List.mem_append.mp hp with hp | hp
          · rcases List.mem_cons.mp ((hperm p).mp hp) with rfl | hp
            · simp
            · exact List.mem_append_left _ hp
          · exact List.mem_append_right _ (List.mem_cons_of_mem x hp)
  exact List.pairwise_reverse.mpr
    (hfold xs [] (by simp) hxs (by simp) List.Pairwise.nil)

/-! ### The effect of the elements -/

/-- Exchanges that keep the effect of two neighbours, as long as the elements are well formed. -/
structure KeepsEffect (lt : α → α → Bool) (swap : α → α → α × α) (act : σ → α → Option σ)
    (Wf : α → Prop) : Prop where
  wf : ∀ {p x}, Wf p → Wf x → Wf (swap p x).1 ∧ Wf (swap p x).2
  effect : ∀ {p x s t}, Wf p → Wf x → lt p x = false → [p, x].foldlM act s = some t →
    [(swap p x).1, (swap p x).2].foldlM act s = some t

variable {act : σ → α → Option σ} {Wf : α → Prop} {s t : σ}

theorem foldlM_concat (xs : List α) (x : α) :
    (xs ++ [x]).foldlM act s = (xs.foldlM act s).bind fun u => act u x := by
  rw [List.foldlM_append]
  cases xs.foldlM act s with
  | none => rfl
  | some u =>
      change (act u x).bind some = act u x
      cases act u x <;> rfl

theorem KeepsEffect.insert (h : KeepsEffect lt swap act Wf) (hsorted : ∀ p ∈ sorted, Wf p)
    (hx : Wf x) (ht : (sorted.reverse ++ [x]).foldlM act s = some t) :
    (insert lt swap sorted x).reverse.foldlM act s = some t ∧
      ∀ p ∈ InsertionSort.insert lt swap sorted x, Wf p := by
  induction sorted generalizing x t with
  | nil => exact ⟨ht, by simpa [InsertionSort.insert] using hx⟩
  | cons p sorted ih =>
      have hp := hsorted p List.mem_cons_self
      rw [InsertionSort.insert]
      split
      · refine ⟨by simpa using ht, ?_⟩
        intro q hq
        rcases List.mem_cons.mp hq with rfl | hq
        · exact hx
        · exact hsorted q hq
      · rename_i hlt
        obtain ⟨hwf, hwf'⟩ := h.wf hp hx
        have hsplit : (p :: sorted).reverse ++ [x] = sorted.reverse ++ [p, x] := by simp
        rw [hsplit, List.foldlM_append] at ht
        obtain ⟨u, hu, hpair⟩ := Option.bind_eq_some_iff.mp ht
        have heffect := h.effect hp hx (Bool.eq_false_iff.mpr hlt) hpair
        obtain ⟨v, hv, hlast⟩ := Option.bind_eq_some_iff.mp heffect
        have hfront : (sorted.reverse ++ [(swap p x).1]).foldlM act s = some v := by
          rw [foldlM_concat, hu]
          exact hv
        obtain ⟨hrest, hall⟩ := ih (fun q hq => hsorted q (List.mem_cons_of_mem p hq)) hwf hfront
        constructor
        · rw [List.reverse_cons, foldlM_concat, hrest]
          obtain ⟨w, hw, hpure⟩ := Option.bind_eq_some_iff.mp hlast
          cases hpure
          exact hw
        · intro q hq
          rcases List.mem_cons.mp hq with rfl | hq
          · exact hwf'
          · exact hall q hq

/-- The sorted elements have the effect of the given ones. -/
theorem KeepsEffect.sort (h : KeepsEffect lt swap act Wf) (hxs : ∀ x ∈ xs, Wf x)
    (ht : xs.foldlM act s = some t) : (sort lt swap xs).foldlM act s = some t ∧
      ∀ x ∈ InsertionSort.sort lt swap xs, Wf x := by
  have hfold : ∀ rest sorted : List α, (∀ p ∈ sorted, Wf p) → (∀ x ∈ rest, Wf x) →
      (sorted.reverse ++ rest).foldlM act s = some t →
      (rest.foldl (InsertionSort.insert lt swap) sorted).reverse.foldlM act s = some t ∧
        ∀ x ∈ rest.foldl (InsertionSort.insert lt swap) sorted, Wf x := by
    intro rest
    induction rest with
    | nil =>
        intro sorted hsorted _ ht
        rw [List.append_nil] at ht
        exact ⟨ht, hsorted⟩
    | cons x rest ih =>
        intro sorted hsorted hrest ht
        have hsplit : sorted.reverse ++ x :: rest = (sorted.reverse ++ [x]) ++ rest := by simp
        rw [hsplit, List.foldlM_append] at ht
        obtain ⟨u, hu, hrun⟩ := Option.bind_eq_some_iff.mp ht
        obtain ⟨hinsert, hwf⟩ := h.insert hsorted (hrest x List.mem_cons_self) hu
        apply ih _ hwf fun y hy => hrest y (List.mem_cons_of_mem x hy)
        rw [List.foldlM_append, hinsert]
        exact hrun
  obtain ⟨heffect, hwf⟩ := hfold xs [] (by simp) hxs ht
  exact ⟨heffect, fun x hx => hwf x (List.mem_reverse.mp hx)⟩

end InsertionSort
