import Mathlib.Data.List.Induction
import Mathlib.Order.Nat
import Nidhugg.Model.VecSet

/-! # Search in sorted vectors

What insertion, erasure and comparison do when the comparison of elements is not a total order.
Elements that are found are equivalent to the one that is looked for; that the vector is sorted
is not used. -/

namespace Nidhugg.VecSet

variable {α : Type} {lt : α → α → Bool} {vec vec' : List α} {t x : α}

/-- Neither element is less than the other one. -/
def Equivalent (lt : α → α → Bool) (x y : α) : Prop := lt x y = false ∧ lt y x = false

theorem findGeqBetween_spec {turns a b : ℕ} (hab : a ≤ b) (hlength : b ≤ vec.length)
    (hturns : b - a < turns) (hb : ∀ x, vec[b]? = some x → lt t x = true)
    (hx : vec[findGeqBetween lt vec t turns a b]? = some x) :
    lt t x = true ∨ Equivalent lt x t := by
  induction turns generalizing a b with
  | zero => omega
  | succ turns ih =>
      rw [findGeqBetween] at hx
      split at hx
      · rename_i hlt
        dsimp only at hx
        have hc : (a + b) / 2 < b := by omega
        have hac : a ≤ (a + b) / 2 := by omega
        split at hx
        · rename_i hnone
          have hlen := List.getElem?_eq_none_iff.mp hnone
          omega
        · rename_i y hy
          split at hx
          · exact ih (by omega) hlength (by omega) hb hx
          · rename_i hyt
            split at hx
            · rename_i hty
              rw [hy, Option.some.injEq] at hx
              subst hx
              exact .inr ⟨Bool.eq_false_iff.mpr hyt, by simpa using hty⟩
            · rename_i hty
              refine ih hac (by omega) (by omega) ?_ hx
              intro z hz
              rw [hy, Option.some.injEq] at hz
              rw [← hz]
              simpa using hty
      · have heq : a = b := by omega
        subst heq
        exact .inl (hb x hx)

theorem findGeq_spec (hx : vec[findGeq lt vec t]? = some x) :
    lt t x = true ∨ Equivalent lt x t := by
  refine findGeqBetween_spec (Nat.zero_le _) le_rfl (by omega) ?_ hx
  intro y hy
  rw [List.getElem?_eq_none_iff.mpr le_rfl] at hy
  cases hy

theorem mem_insert_of_mem (hx : x ∈ vec) : x ∈ insert lt vec t := by
  have hinsert : x ∈ vec.insertIdx (findGeq lt vec t) t := by
    by_cases hle : findGeq lt vec t ≤ vec.length
    · exact (List.mem_insertIdx hle).mpr (.inr hx)
    · rwa [List.insertIdx_of_length_lt (by omega)]
  rw [insert]
  split
  · exact hinsert
  · split
    · exact hx
    · exact hinsert

theorem eq_or_mem_of_mem_insert (hx : x ∈ insert lt vec t) : x = t ∨ x ∈ vec := by
  have hinsert : x ∈ vec.insertIdx (findGeq lt vec t) t → x = t ∨ x ∈ vec := by
    intro hx
    by_cases hle : findGeq lt vec t ≤ vec.length
    · exact (List.mem_insertIdx hle).mp hx
    · rw [List.insertIdx_of_length_lt (by omega)] at hx
      exact .inr hx
  rw [insert] at hx
  split at hx
  · exact hinsert hx
  · split at hx
    · exact .inr hx
    · exact hinsert hx

theorem findGeqBetween_le {turns a b : ℕ} (hab : a ≤ b) (hlength : b ≤ vec.length) :
    findGeqBetween lt vec t turns a b ≤ vec.length := by
  induction turns generalizing a b with
  | zero => exact hab.trans hlength
  | succ turns ih =>
      rw [findGeqBetween]
      split
      · dsimp only
        split
        · omega
        · split
          · exact ih (by omega) hlength
          · split
            · omega
            · exact ih (by omega) (by omega)
      · omega

/-- The element or an equivalent one is in the set afterwards. -/
theorem exists_mem_insert (lt : α → α → Bool) (vec : List α) (t : α) :
    ∃ x ∈ insert lt vec t, x = t ∨ Equivalent lt x t := by
  have hinsert : t ∈ vec.insertIdx (findGeq lt vec t) t := by
    refine (List.mem_insertIdx ?_).mpr (.inl rfl)
    exact findGeqBetween_le (Nat.zero_le _) le_rfl
  rw [insert]
  split
  · exact ⟨t, hinsert, .inl rfl⟩
  · rename_i x hx
    split
    · rename_i hnot
      refine ⟨x, List.mem_of_getElem? hx, .inr ?_⟩
      rcases findGeq_spec hx with hlt | heq
      · rw [hlt] at hnot
        cases hnot
      · exact heq
    · exact ⟨t, hinsert, .inl rfl⟩

theorem erase_spec (h : erase lt vec t = some vec') :
    (∀ x ∈ vec', x ∈ vec) ∧ ∃ x ∈ vec, Equivalent lt x t := by
  rw [erase] at h
  split at h
  · cases h
  · rename_i x hx
    split at h
    · cases h
    · rename_i hnot
      cases h
      refine ⟨fun y hy => List.mem_of_mem_eraseIdx hy, x, List.mem_of_getElem? hx, ?_⟩
      rcases findGeq_spec hx with hlt | heq
      · exact absurd hlt hnot
      · exact heq

theorem exists_of_seqEq {xs ys : List α} (h : seqEq lt xs ys = true) :
    ∀ x ∈ xs, ∃ y ∈ ys, Equivalent lt x y := by
  induction xs generalizing ys with
  | nil =>
      intro x hx
      cases hx
  | cons z xs ih =>
      cases ys with
      | nil => cases h
      | cons y ys =>
          simp only [seqEq, Bool.and_eq_true, Bool.not_eq_true'] at h
          intro x hx
          rcases List.mem_cons.mp hx with rfl | hx
          · exact ⟨y, List.mem_cons_self, h.1.1, h.1.2⟩
          · obtain ⟨w, hw, heq⟩ := ih h.2 x hx
            exact ⟨w, List.mem_cons_of_mem _ hw, heq⟩

/-- Sequences of which neither is less are equal, if this holds of the elements. -/
theorem eq_of_not_seqLt (heq : ∀ x y, Equivalent lt x y → x = y) {xs ys : List α}
    (h : Equivalent (seqLt lt) xs ys) : xs = ys := by
  induction xs generalizing ys with
  | nil =>
      cases ys with
      | nil => rfl
      | cons y ys => cases h.1
  | cons x xs ih =>
      cases ys with
      | nil => cases h.2
      | cons y ys =>
          obtain ⟨h, h'⟩ := h
          simp only [seqLt] at h h'
          by_cases hxy : lt x y = true
          · rw [if_pos hxy] at h
            cases h
          · by_cases hyx : lt y x = true
            · rw [if_pos hyx] at h'
              cases h'
            · rw [if_neg hxy, if_neg hyx] at h
              rw [if_neg hyx, if_neg hxy] at h'
              rw [heq x y ⟨Bool.eq_false_iff.mpr hxy, Bool.eq_false_iff.mpr hyx⟩, ih ⟨h, h'⟩]

end Nidhugg.VecSet

/-! # Strict weak orders

A sorted vector needs a comparison that is a strict weak order on the elements. Then insertion keeps
it sorted, and an element that was inserted is found. -/

namespace Nidhugg.VecSet

variable {α : Type} {S : α → Prop} {lt : α → α → Bool} {vec : List α} {t x y z : α}

/-- A strict weak order on some elements. -/
structure StrictWeakOn (S : α → Prop) (lt : α → α → Bool) : Prop where
  irrefl : ∀ {x}, S x → lt x x = false
  trans : ∀ {x y z}, S x → S y → S z → lt x y = true → lt y z = true → lt x z = true
  equivalent_trans : ∀ {x y z}, S x → S y → S z → Equivalent lt x y → Equivalent lt y z →
    Equivalent lt x z

/-- The elements of the vector increase. -/
abbrev Sorted (lt : α → α → Bool) (vec : List α) : Prop := vec.Pairwise fun x y => lt x y = true

theorem Equivalent.symm (h : Equivalent lt x y) : Equivalent lt y x := ⟨h.2, h.1⟩

namespace StrictWeakOn

theorem asymm (h : StrictWeakOn S lt) (hx : S x) (hy : S y) (hxy : lt x y = true) :
    lt y x = false := by
  rw [← Bool.not_eq_true]
  intro hyx
  have hxx := h.trans hx hy hx hxy hyx
  rw [h.irrefl hx] at hxx
  cases hxx

theorem lt_of_lt_of_equivalent (h : StrictWeakOn S lt) (hx : S x) (hy : S y) (hz : S z)
    (hxy : lt x y = true) (hyz : Equivalent lt y z) : lt x z = true := by
  by_contra hxz
  rw [Bool.not_eq_true] at hxz
  cases hzx : lt z x with
  | true =>
      have hzy := h.trans hz hx hy hzx hxy
      rw [hyz.2] at hzy
      cases hzy
  | false =>
      have hyx := h.equivalent_trans hy hz hx hyz ⟨hzx, hxz⟩
      rw [hyx.2] at hxy
      cases hxy

/-- An element is on one of the sides of two that are ordered. -/
theorem lt_or_lt (h : StrictWeakOn S lt) (hx : S x) (hy : S y) (hz : S z) (hxz : lt x z = true) :
    lt x y = true ∨ lt y z = true := by
  cases hxy : lt x y with
  | true => exact .inl rfl
  | false =>
      right
      by_contra hyz
      rw [Bool.not_eq_true] at hyz
      cases hyx : lt y x with
      | true =>
          rw [h.trans hy hx hz hyx hxz] at hyz
          cases hyz
      | false =>
          cases hzy : lt z y with
          | true =>
              rw [h.trans hx hz hy hxz hzy] at hxy
              cases hxy
          | false =>
              have hequivalent := h.equivalent_trans hx hy hz ⟨hxy, hyx⟩ ⟨hyz, hzy⟩
              rw [hequivalent.1] at hxz
              cases hxz

theorem not_lt_trans (h : StrictWeakOn S lt) (hx : S x) (hy : S y) (hz : S z)
    (hxy : lt x y = false) (hyz : lt y z = false) : lt x z = false := by
  rw [← Bool.not_eq_true]
  intro hxz
  cases h.lt_or_lt hx hy hz hxz with
  | inl hlt => exact Bool.false_ne_true (hxy.symm.trans hlt)
  | inr hlt => exact Bool.false_ne_true (hyz.symm.trans hlt)

/-- Asymmetry and the law of the side are enough. -/
theorem of_asymm (hasymm : ∀ {x y}, S x → S y → lt x y = true → lt y x = false)
    (hside : ∀ {x y z}, S x → S y → S z → lt x z = true → lt x y = true ∨ lt y z = true) :
    StrictWeakOn S lt where
  irrefl := by
    intro x hx
    rw [← Bool.not_eq_true]
    intro hxx
    have hxx' := hasymm hx hx hxx
    rw [hxx] at hxx'
    cases hxx'
  trans := by
    intro x y z hx hy hz hxy hyz
    cases hside hx hz hy hxy with
    | inl hxz => exact hxz
    | inr hzy =>
        rw [hasymm hy hz hyz] at hzy
        cases hzy
  equivalent_trans := by
    intro x y z hx hy hz hxy hyz
    constructor
    · rw [← Bool.not_eq_true]
      intro hxz
      cases hside hx hy hz hxz with
      | inl hlt =>
          rw [hxy.1] at hlt
          cases hlt
      | inr hlt =>
          rw [hyz.1] at hlt
          cases hlt
    · rw [← Bool.not_eq_true]
      intro hzx
      cases hside hz hy hx hzx with
      | inl hlt =>
          rw [hyz.2] at hlt
          cases hlt
      | inr hlt =>
          rw [hxy.2] at hlt
          cases hlt

theorem mono {T : α → Prop} (h : StrictWeakOn S lt) (hT : ∀ x, T x → S x) : StrictWeakOn T lt where
  irrefl := fun hx => h.irrefl (hT _ hx)
  trans := fun hx hy hz => h.trans (hT _ hx) (hT _ hy) (hT _ hz)
  equivalent_trans := fun hx hy hz => h.equivalent_trans (hT _ hx) (hT _ hy) (hT _ hz)

/-- Two orders, of which the second one decides where the first one does not. -/
theorem lex {β γ : Type} {P : β → Prop} {f : β → β → Bool} {g : γ → γ → Bool} (k : α → β)
    (l : α → γ) (hf : StrictWeakOn P f) (hg : StrictWeakOn (fun _ => True) g) :
    StrictWeakOn (fun x => P (k x))
      fun x y => f (k x) (k y) || (!f (k y) (k x) && g (l x) (l y)) := by
  apply of_asymm
  · intro x y hx hy hlt
    cases hxy : f (k x) (k y) with
    | true => simp [hf.asymm hx hy hxy]
    | false =>
        simp only [hxy, Bool.false_or, Bool.and_eq_true, Bool.not_eq_true'] at hlt
        simp [hlt.1, hg.asymm trivial trivial hlt.2]
  · intro x y z hx hy hz hlt
    simp only [Bool.or_eq_true, Bool.and_eq_true, Bool.not_eq_true'] at hlt ⊢
    cases hlt with
    | inl hxz =>
        cases hf.lt_or_lt hx hy hz hxz with
        | inl hxy => exact .inl (.inl hxy)
        | inr hyz => exact .inr (.inl hyz)
    | inr hlt =>
        obtain ⟨hzx, hlt⟩ := hlt
        cases hxy : f (k x) (k y) with
        | true => exact .inl (.inl rfl)
        | false =>
            cases hyz : f (k y) (k z) with
            | true => exact .inr (.inl rfl)
            | false =>
                have hyx := hf.not_lt_trans hy hz hx hyz hzx
                have hzy := hf.not_lt_trans hz hx hy hzx hxy
                cases hg.lt_or_lt trivial (y := l y) trivial trivial hlt with
                | inl h => exact .inl (.inr ⟨hyx, h⟩)
                | inr h => exact .inr (.inr ⟨hzy, h⟩)

end StrictWeakOn

/-- Sequences are compared at the first place where they differ. -/
theorem strictWeakOn_seqLt (h : StrictWeakOn (fun _ => True) lt) :
    StrictWeakOn (fun _ => True) (seqLt lt) := by
  apply StrictWeakOn.of_asymm
  · intro xs ys _ _ hlt
    induction xs generalizing ys with
    | nil =>
        cases ys with
        | nil => cases hlt
        | cons y ys => rfl
    | cons x xs ih =>
        cases ys with
        | nil => cases hlt
        | cons y ys =>
            rw [seqLt] at hlt ⊢
            cases hxy : lt x y with
            | true => rw [h.asymm trivial trivial hxy, if_neg nofun, if_pos rfl]
            | false =>
                rw [hxy, if_neg nofun] at hlt
                cases hyx : lt y x with
                | true =>
                    rw [hyx, if_pos rfl] at hlt
                    cases hlt
                | false =>
                    rw [hyx, if_neg nofun] at hlt
                    rw [if_neg nofun, if_neg nofun]
                    exact ih hlt
  · intro xs ys zs _ _ _ hlt
    induction xs generalizing ys zs with
    | nil =>
        cases ys with
        | nil => exact .inr hlt
        | cons y ys => exact .inl rfl
    | cons x xs ih =>
        cases zs with
        | nil => cases hlt
        | cons z zs =>
            cases ys with
            | nil => exact .inr rfl
            | cons y ys =>
                rw [seqLt] at hlt
                rw [seqLt, seqLt]
                cases hxy : lt x y with
                | true => exact .inl (if_pos rfl)
                | false =>
                    cases hyz : lt y z with
                    | true => exact .inr (if_pos rfl)
                    | false =>
                        -- the first elements of all three are equivalent
                        have hxz := h.not_lt_trans trivial trivial trivial hxy hyz
                        rw [hxz, if_neg nofun] at hlt
                        cases hzx : lt z x with
                        | true =>
                            rw [hzx, if_pos rfl] at hlt
                            cases hlt
                        | false =>
                            rw [hzx, if_neg nofun] at hlt
                            have hyx := h.not_lt_trans trivial trivial trivial hyz hzx
                            have hzy := h.not_lt_trans trivial trivial trivial hzx hxy
                            rw [hyx, hzy]
                            exact ih hlt

/-! ### Search -/

/-- The search passes only elements that are less. -/
theorem lt_findGeqBetween (h : StrictWeakOn S lt) (hS : ∀ x ∈ vec, S x) (ht : S t)
    (hvec : Sorted lt vec) {turns a b : ℕ} (hab : a ≤ b) (hlength : b ≤ vec.length)
    (hturns : b - a < turns) (ha : ∀ i (hi : i < vec.length), i < a → lt vec[i] t = true)
    {i : ℕ} (hi : i < vec.length) (hlt : i < findGeqBetween lt vec t turns a b) :
    lt vec[i] t = true := by
  have hget : ∀ i (hi : i < vec.length), S vec[i] := fun i hi => hS _ (List.getElem_mem hi)
  induction turns generalizing a b with
  | zero => omega
  | succ turns ih =>
      rw [findGeqBetween] at hlt
      split at hlt
      · rename_i hab'
        dsimp only at hlt
        have hc : (a + b) / 2 < vec.length := by omega
        rw [List.getElem?_eq_getElem hc] at hlt
        dsimp only at hlt
        split at hlt
        · rename_i hct
          apply ih (by omega) hlength (by omega) _ hlt
          intro j hj hjc
          rcases Nat.lt_or_eq_of_le (Nat.le_of_lt_succ hjc) with hjc' | rfl
          · exact h.trans (hget j hj) (hget _ hc) ht
              (List.pairwise_iff_getElem.mp hvec j _ hj hc hjc') hct
          · exact hct
        · split at hlt
          · rename_i hct htc
            have hequivalent : Equivalent lt vec[(a + b) / 2] t :=
              ⟨Bool.eq_false_iff.mpr hct, by simpa using htc⟩
            exact h.lt_of_lt_of_equivalent (hget i hi) (hget _ hc) ht
              (List.pairwise_iff_getElem.mp hvec i _ hi hc hlt) hequivalent
          · exact ih (by omega) (by omega) (by omega) ha hlt
      · exact ha i hi hlt

theorem lt_of_lt_findGeq (h : StrictWeakOn S lt) (hS : ∀ x ∈ vec, S x) (ht : S t)
    (hvec : Sorted lt vec) {i : ℕ} (hi : i < vec.length) (hlt : i < findGeq lt vec t) :
    lt vec[i] t = true :=
  lt_findGeqBetween h hS ht hvec (Nat.zero_le _) (Nat.le_refl _) (by omega) (by omega) hi hlt

/-- An element that is there is found, up to equivalence. -/
theorem exists_findGeq (h : StrictWeakOn S lt) (hS : ∀ x ∈ vec, S x) (ht : S t)
    (hvec : Sorted lt vec) (hx : x ∈ vec) (hequivalent : Equivalent lt x t) :
    ∃ y, vec[findGeq lt vec t]? = some y ∧ Equivalent lt y t := by
  obtain ⟨k, hk, rfl⟩ := List.getElem_of_mem hx
  have hle : findGeq lt vec t ≤ k := by
    by_contra hlt
    have hkt := lt_of_lt_findGeq h hS ht hvec hk (Nat.lt_of_not_le hlt)
    rw [hequivalent.1] at hkt
    cases hkt
  have hi : findGeq lt vec t < vec.length := Nat.lt_of_le_of_lt hle hk
  have hget := List.getElem?_eq_getElem hi
  refine ⟨_, hget, ?_⟩
  cases findGeq_spec hget with
  | inr hfound => exact hfound
  | inl hty =>
      have htk : lt t vec[k] = true := by
        cases Nat.lt_or_eq_of_le hle with
        | inl hlt =>
            exact h.trans ht (hS _ (List.getElem_mem hi)) (hS _ hx) hty
              (List.pairwise_iff_getElem.mp hvec _ _ hi hk hlt)
        | inr heq =>
            have hsame : vec[findGeq lt vec t] = vec[k] := by congr
            rwa [hsame] at hty
      rw [hequivalent.2] at htk
      cases htk

/-! ### Insertion -/

theorem sorted_insertIdx (h : StrictWeakOn S lt) (hS : ∀ x ∈ vec, S x) (ht : S t)
    (hvec : Sorted lt vec) {i : ℕ}
    (hbelow : ∀ j (hj : j < vec.length), j < i → lt vec[j] t = true)
    (habove : ∀ x, vec[i]? = some x → lt t x = true) : Sorted lt (vec.insertIdx i t) := by
  induction vec generalizing i with
  | nil => cases i <;> simp [Sorted]
  | cons y vec ih =>
      obtain ⟨hy, hvec⟩ := List.pairwise_cons.mp hvec
      cases i with
      | zero =>
          have hty := habove y rfl
          rw [List.insertIdx_zero]
          apply List.pairwise_cons.mpr
          refine ⟨?_, List.pairwise_cons.mpr ⟨hy, hvec⟩⟩
          intro z hz
          cases List.mem_cons.mp hz with
          | inl heq => exact heq ▸ hty
          | inr hz' =>
              exact h.trans ht (hS y List.mem_cons_self) (hS z hz) hty (hy z hz')
      | succ i =>
          have hyt : lt y t = true := hbelow 0 (by simp) (by omega)
          rw [List.insertIdx_succ_cons]
          apply List.pairwise_cons.mpr
          constructor
          · intro z hz
            by_cases hle : i ≤ vec.length
            · cases (List.mem_insertIdx hle).mp hz with
              | inl heq => exact heq ▸ hyt
              | inr hz => exact hy z hz
            · rw [List.insertIdx_of_length_lt (by omega)] at hz
              exact hy z hz
          · apply ih (fun z hz => hS z (List.mem_cons_of_mem _ hz)) hvec
            · intro j hj hji
              exact hbelow (j + 1) (by simpa using hj) (by omega)
            · intro x hx
              exact habove x (by simpa using hx)

theorem sorted_insert (h : StrictWeakOn S lt) (hS : ∀ x ∈ vec, S x) (ht : S t)
    (hvec : Sorted lt vec) : Sorted lt (insert lt vec t) := by
  have hbelow : ∀ j (hj : j < vec.length), j < findGeq lt vec t → lt vec[j] t = true :=
    fun j hj hlt => lt_of_lt_findGeq h hS ht hvec hj hlt
  rw [insert]
  split
  · rename_i hnone
    apply sorted_insertIdx h hS ht hvec hbelow
    intro x hx
    rw [hnone] at hx
    cases hx
  · rename_i y hy
    split
    · exact hvec
    · rename_i hty
      apply sorted_insertIdx h hS ht hvec hbelow
      intro x hx
      rw [hy] at hx
      cases hx
      simpa using hty

/-- What was inserted can be erased. -/
theorem erase_isSome (h : StrictWeakOn S lt) (hS : ∀ x ∈ vec, S x) (ht : S t)
    (hvec : Sorted lt vec) (hx : x ∈ vec) (hequivalent : Equivalent lt x t) :
    (erase lt vec t).isSome = true := by
  obtain ⟨y, hy, heq⟩ := exists_findGeq h hS ht hvec hx hequivalent
  simp [erase, hy, heq.2]

end Nidhugg.VecSet

/-! # Sorted vectors as sets

For a strict total order the operations of two vectors are the union, the difference and the test
for a common element, and they keep the vector sorted. -/

namespace Nidhugg.VecSet

variable {α : Type} {lt : α → α → Bool} {vec s built : List α} {t x : α}

structure StrictTotal (lt : α → α → Bool) : Prop where
  irrefl : ∀ x, lt x x = false
  trans : ∀ {x y z}, lt x y = true → lt y z = true → lt x z = true
  eq : ∀ {x y}, Equivalent lt x y → x = y

theorem StrictTotal.weak (h : StrictTotal lt) : StrictWeakOn (fun _ => True) lt where
  irrefl := fun _ => h.irrefl _
  trans := fun _ _ _ => h.trans
  equivalent_trans := by
    intro x y z _ _ _ hxy hyz
    obtain rfl := h.eq hxy
    exact hyz

theorem StrictTotal.asymm (h : StrictTotal lt) {x y : α} (hxy : lt x y = true) :
    lt y x = false :=
  h.weak.asymm trivial trivial hxy

theorem strictTotal_nat : StrictTotal fun m n : ℕ => decide (m < n) where
  irrefl := by simp
  trans := by
    intro x y z hxy hyz
    simp only [decide_eq_true_eq] at *
    exact Nat.lt_trans hxy hyz
  eq := by
    intro x y hequivalent
    simp only [Equivalent, decide_eq_false_iff_not] at hequivalent
    omega

/-! ### Single elements -/

theorem mem_insert (h : StrictTotal lt) : x ∈ insert lt vec t ↔ x = t ∨ x ∈ vec := by
  constructor
  · exact eq_or_mem_of_mem_insert
  · intro hx
    cases hx with
    | inl hx =>
        obtain ⟨y, hy, heq⟩ := exists_mem_insert lt vec t
        have hyt : y = t := heq.elim id h.eq
        rw [hx]
        exact hyt ▸ hy
    | inr hx => exact mem_insert_of_mem hx

theorem ofRange_spec (h : StrictTotal lt) (range : List α) :
    Sorted lt (ofRange lt range) ∧ ∀ x, x ∈ ofRange lt range ↔ x ∈ range := by
  unfold ofRange
  induction range using List.reverseRecOn with
  | nil => simp [Sorted]
  | append_singleton range y ih =>
      rw [List.foldl_append, List.foldl_cons, List.foldl_nil]
      generalize List.foldl _ [] range = vec at ih ⊢
      obtain ⟨hvec, hmem⟩ := ih
      split
      · rename_i hlast
        obtain ⟨z, hz, hzy⟩ := (Option.any_eq_true (lt · y) _).mp hlast
        obtain ⟨front, rfl⟩ := List.getLast?_eq_some_iff.mp hz
        constructor
        · apply List.pairwise_append.mpr
          refine ⟨hvec, List.pairwise_singleton _ _, ?_⟩
          intro x hx w hw
          rw [List.mem_singleton.mp hw]
          rcases List.mem_append.mp hx with hx | hx
          · exact h.trans ((List.pairwise_append.mp hvec).2.2 x hx z List.mem_cons_self) hzy
          · rwa [List.mem_singleton.mp hx]
        · intro x
          rw [List.mem_append, hmem, List.mem_append]
      · constructor
        · exact sorted_insert h.weak (fun _ _ => trivial) trivial hvec
        · intro x
          rw [mem_insert h, hmem]
          simp [or_comm]

/-! ### Two sets -/

theorem subset_of_countMissing (h : StrictTotal lt) (hcount : countMissing lt vec s = 0) :
    ∀ x ∈ s, x ∈ vec := by
  fun_induction countMissing lt vec s with
  | case1 x vec y s hlt ih =>
      intro z hz
      exact List.mem_cons_of_mem x (ih hcount z hz)
  | case2 x vec y s hxy hyx ih =>
      have heq : x = y := h.eq ⟨Bool.eq_false_iff.mpr hxy, by simpa using hyx⟩
      intro z hz
      rcases List.mem_cons.mp hz with rfl | hz
      · exact heq ▸ List.mem_cons_self
      · exact List.mem_cons_of_mem x (ih hcount z hz)
  | case3 x vec y s hxy hyx ih => omega
  | case4 vec s hnot =>
      rw [List.length_eq_zero_iff.mp hcount]
      simp

theorem mem_mergeBack (h : StrictTotal lt) :
    x ∈ mergeBack lt vec s built ↔ x ∈ vec ∨ x ∈ s ∨ x ∈ built := by
  fun_induction mergeBack lt vec s built with
  | case1 y vec z s built hlt ih =>
      rw [ih]
      simp only [List.mem_cons]
      tauto
  | case2 y vec z s built hyz hzy ih =>
      have heq : y = z := h.eq ⟨Bool.eq_false_iff.mpr hyz, by simpa using hzy⟩
      rw [ih, heq]
      simp only [List.mem_cons]
      tauto
  | case3 y vec z s built hyz hzy ih =>
      rw [ih]
      simp only [List.mem_cons]
      tauto
  | case4 s built => simp
  | case5 vec built hne => simp

/-- The elements of the vector decrease. -/
abbrev Decreasing (lt : α → α → Bool) (vec : List α) : Prop := vec.Pairwise fun x y => lt y x = true

/-- What is left of the two sets, from the largest element on, and what is built from larger
elements. -/
structure MergeReady (lt : α → α → Bool) (vec s built : List α) : Prop where
  left : Decreasing lt vec
  right : Decreasing lt s
  sorted : Sorted lt built
  less : ∀ x ∈ built, ∀ y, y ∈ vec ∨ y ∈ s → lt y x = true

theorem MergeReady.take {vec' s' : List α} (hready : MergeReady lt vec s built)
    (hx : x ∈ vec ∨ x ∈ s) (hvec : vec'.Sublist vec) (hs : s'.Sublist s)
    (hless : ∀ y, y ∈ vec' ∨ y ∈ s' → lt y x = true) : MergeReady lt vec' s' (x :: built) := by
  constructor
  · exact hready.left.sublist hvec
  · exact hready.right.sublist hs
  · apply List.pairwise_cons.mpr
    exact ⟨fun z hz => hready.less z hz x hx, hready.sorted⟩
  · intro z hz y hy
    rcases List.mem_cons.mp hz with rfl | hz
    · exact hless y hy
    · exact hready.less z hz y (hy.imp (fun hy => hvec.subset hy) fun hy => hs.subset hy)

theorem sorted_reverse_append (hvec : Decreasing lt vec) (hbuilt : Sorted lt built)
    (hless : ∀ x ∈ built, ∀ y ∈ vec, lt y x = true) : Sorted lt (vec.reverse ++ built) := by
  apply List.pairwise_append.mpr
  refine ⟨List.pairwise_reverse.mpr hvec, hbuilt, ?_⟩
  intro x hx y hy
  exact hless y hy x (List.mem_reverse.mp hx)

/-- Elements up to one that is less than `x` are less than `x`. -/
theorem StrictTotal.lt_of_mem_cons (h : StrictTotal lt) {y : α} (hvec : Decreasing lt (y :: vec))
    (hyx : lt y x = true) : ∀ z ∈ y :: vec, lt z x = true := by
  intro z hz
  rcases List.mem_cons.mp hz with rfl | hz
  · exact hyx
  · exact h.trans ((List.pairwise_cons.mp hvec).1 z hz) hyx

theorem sorted_mergeBack (h : StrictTotal lt) (hready : MergeReady lt vec s built) :
    Sorted lt (mergeBack lt vec s built) := by
  fun_induction mergeBack lt vec s built with
  | case1 y vec z s built hyz ih =>
      apply ih
      apply hready.take (.inr List.mem_cons_self) (List.Sublist.refl _) (List.sublist_cons_self z s)
      intro w hw
      cases hw with
      | inl hw => exact h.lt_of_mem_cons hready.left hyz w hw
      | inr hw => exact (List.pairwise_cons.mp hready.right).1 w hw
  | case2 y vec z s built hyz hzy ih =>
      have heq : y = z := h.eq ⟨Bool.eq_false_iff.mpr hyz, by simpa using hzy⟩
      apply ih
      apply hready.take (.inl List.mem_cons_self) (List.sublist_cons_self y vec)
        (List.sublist_cons_self z s)
      intro w hw
      cases hw with
      | inl hw => exact (List.pairwise_cons.mp hready.left).1 w hw
      | inr hw => exact heq ▸ (List.pairwise_cons.mp hready.right).1 w hw
  | case3 y vec z s built hyz hzy ih =>
      have hzy' : lt z y = true := by simpa using hzy
      apply ih
      apply hready.take (.inl List.mem_cons_self) (List.sublist_cons_self y vec)
        (List.Sublist.refl _)
      intro w hw
      cases hw with
      | inl hw => exact (List.pairwise_cons.mp hready.left).1 w hw
      | inr hw => exact h.lt_of_mem_cons hready.right hzy' w hw
  | case4 s built =>
      exact sorted_reverse_append hready.right hready.sorted fun x hx y hy =>
        hready.less x hx y (.inr hy)
  | case5 vec built hne =>
      exact sorted_reverse_append hready.left hready.sorted fun x hx y hy =>
        hready.less x hx y (.inl hy)

theorem mem_insertSet (h : StrictTotal lt) : x ∈ insertSet lt vec s ↔ x ∈ vec ∨ x ∈ s := by
  unfold insertSet
  split
  · simp
  · rw [mem_insert h, List.mem_singleton, or_comm]
  · split
    · rw [mem_mergeBack h]
      simp
    · rename_i hcount
      have hsub := subset_of_countMissing h (Nat.eq_zero_of_not_pos hcount)
      constructor
      · exact .inl
      · intro hx
        exact hx.elim id (hsub x)

theorem sorted_insertSet (h : StrictTotal lt) (hvec : Sorted lt vec) (hs : Sorted lt s) :
    Sorted lt (insertSet lt vec s) := by
  unfold insertSet
  split
  · exact hvec
  · exact sorted_insert h.weak (fun _ _ => trivial) trivial hvec
  · split
    · apply sorted_mergeBack h
      exact ⟨List.pairwise_reverse.mpr hvec, List.pairwise_reverse.mpr hs, List.Pairwise.nil,
        fun x hx => absurd hx List.not_mem_nil⟩
    · exact hvec

/-- An element less than the first one of a sorted vector is not in the vector. -/
theorem StrictTotal.not_mem_of_lt (h : StrictTotal lt) {y : α} (hs : Sorted lt (y :: s))
    (hxy : lt x y = true) : x ∉ y :: s := by
  intro hx
  have hxx : lt x x = true := by
    rcases List.mem_cons.mp hx with heq | hx
    · rwa [← heq] at hxy
    · exact h.trans hxy ((List.pairwise_cons.mp hs).1 x hx)
  rw [h.irrefl] at hxx
  cases hxx

theorem mem_eraseSet (h : StrictTotal lt) (hvec : Sorted lt vec) (hs : Sorted lt s) :
    x ∈ eraseSet lt vec s ↔ x ∈ vec ∧ x ∉ s := by
  fun_induction eraseSet lt vec s with
  | case1 y vec z s hyz ih =>
      have hnot : x = y → x ∉ z :: s := fun heq => heq ▸ h.not_mem_of_lt hs hyz
      have hrest := ih hvec.tail hs
      have hhead : x ∈ y :: vec ↔ x = y ∨ x ∈ vec := List.mem_cons
      have hhead' : x ∈ y :: eraseSet lt vec (z :: s) ↔ x = y ∨ x ∈ eraseSet lt vec (z :: s) :=
        List.mem_cons
      tauto
  | case2 y vec z s hyz hzy ih =>
      have hnot : x = z → x ∉ y :: vec := fun heq => heq ▸ h.not_mem_of_lt hvec hzy
      have hrest := ih hvec hs.tail
      have hhead : x ∈ z :: s ↔ x = z ∨ x ∈ s := List.mem_cons
      tauto
  | case3 y vec z s hyz hzy ih =>
      have heq : y = z := h.eq ⟨Bool.eq_false_iff.mpr hyz, Bool.eq_false_iff.mpr hzy⟩
      have hnot : x ∈ vec → x ≠ z := by
        intro hx hxz
        have hlt := (List.pairwise_cons.mp hvec).1 x hx
        rw [hxz, heq, h.irrefl] at hlt
        cases hlt
      have hrest := ih hvec.tail hs.tail
      have hhead : x ∈ y :: vec ↔ x = z ∨ x ∈ vec := by rw [heq, List.mem_cons]
      have hhead' : x ∈ z :: s ↔ x = z ∨ x ∈ s := List.mem_cons
      tauto
  | case4 vec s hnot =>
      cases vec with
      | nil => simp
      | cons y vec =>
          cases s with
          | nil => simp
          | cons z s => exact (hnot y vec z s rfl rfl).elim

theorem eraseSet_sublist (vec s : List α) : (eraseSet lt vec s).Sublist vec := by
  fun_induction eraseSet lt vec s with
  | case1 y vec z s hyz ih => exact ih.cons_cons y
  | case2 y vec z s hyz hzy ih => exact ih
  | case3 y vec z s hyz hzy ih => exact ih.cons y
  | case4 vec s hnot => exact List.Sublist.refl vec

theorem sorted_eraseSet (hvec : Sorted lt vec) (s : List α) : Sorted lt (eraseSet lt vec s) :=
  hvec.sublist (eraseSet_sublist vec s)

theorem intersects_iff (h : StrictTotal lt) (hvec : Sorted lt vec) (hs : Sorted lt s) :
    intersects lt vec s = true ↔ ∃ x ∈ vec, x ∈ s := by
  fun_induction intersects lt vec s with
  | case1 y vec z s hyz ih =>
      have hnot := h.not_mem_of_lt hs hyz
      rw [ih hvec.tail hs]
      constructor
      · intro hx
        obtain ⟨x, hx, hxs⟩ := hx
        exact ⟨x, List.mem_cons_of_mem y hx, hxs⟩
      · intro hx
        obtain ⟨x, hx, hxs⟩ := hx
        rcases List.mem_cons.mp hx with rfl | hx
        · exact absurd hxs hnot
        · exact ⟨x, hx, hxs⟩
  | case2 y vec z s hyz hzy =>
      have heq : y = z := h.eq ⟨Bool.eq_false_iff.mpr hyz, by simpa using hzy⟩
      simp [heq]
  | case3 y vec z s hyz hzy ih =>
      have hnot := h.not_mem_of_lt hvec (by simpa using hzy)
      rw [ih hvec hs.tail]
      constructor
      · intro hx
        obtain ⟨x, hx, hxs⟩ := hx
        exact ⟨x, hx, List.mem_cons_of_mem z hxs⟩
      · intro hx
        obtain ⟨x, hx, hxs⟩ := hx
        rcases List.mem_cons.mp hxs with rfl | hxs
        · exact absurd hx hnot
        · exact ⟨x, hx, hxs⟩
  | case4 vec s hnot =>
      cases vec with
      | nil => simp
      | cons y vec =>
          cases s with
          | nil => simp
          | cons z s => exact (hnot y vec z s rfl rfl).elim

end Nidhugg.VecSet
