import Mathlib.Data.Set.Card
import Nidhugg.Model.VecSetInPlace
import Nidhugg.Verification.VecSet.Sets

/-! # Single elements in a sorted vector

The loops that move elements make or close a gap at one position. The search finds the position
at which an element belongs. -/

namespace Nidhugg.VecSet

variable {α : Type} {lt : α → α → Bool} {vec : List α} {t x : α}

/-! ### Moving elements -/

theorem insertIdx_eq_append (i : ℕ) (t : α) (hi : i ≤ vec.length) :
    vec.insertIdx i t = vec.take i ++ t :: vec.drop i := by
  induction vec generalizing i with
  | nil =>
      obtain rfl : i = 0 := Nat.le_zero.mp hi
      rfl
  | cons x vec ih =>
      cases i with
      | zero => rfl
      | succ i => simp [ih i (Nat.le_of_succ_le_succ hi)]

theorem moveUp_of_le {i j : ℕ} (h : j ≤ i) (vec : List α) : moveUp i j vec = some vec := by
  cases j with
  | zero => rfl
  | succ j => rw [moveUp, if_neg (Nat.not_lt.mpr h)]

/-- Above position `j` the elements have been moved already. -/
theorem moveUp_take_append_drop (vec : List α) {i j : ℕ} (hi : i ≤ j) (hj : j < vec.length) :
    moveUp i j (vec.take (j + 1) ++ vec.drop j) = some (vec.take (i + 1) ++ vec.drop i) := by
  induction j with
  | zero =>
      obtain rfl : i = 0 := Nat.le_zero.mp hi
      rfl
  | succ j ih =>
      have hj' : j < vec.length := Nat.lt_of_succ_lt hj
      cases Nat.eq_or_lt_of_le hi with
      | inl heq =>
          subst heq
          exact moveUp_of_le (Nat.le_refl _) _
      | inr hlt =>
          have hlength : (vec.take (j + 1)).length = j + 1 := by simp; omega
          have hget : (vec.take (j + 1 + 1) ++ vec.drop (j + 1))[j]? = some vec[j] := by
            rw [List.getElem?_append_left (by simp; omega), List.getElem?_take,
              if_pos (by omega), List.getElem?_eq_getElem hj']
          have hset : (vec.take (j + 1 + 1) ++ vec.drop (j + 1)).set (j + 1) vec[j] =
              vec.take (j + 1) ++ vec.drop j := by
            rw [List.take_succ_eq_append_getElem hj, List.append_assoc,
              List.set_append_right _ _ (by omega), hlength, Nat.sub_self,
              List.drop_eq_getElem_cons hj']
            rfl
          rw [moveUp, if_pos hlt, hget, Option.bind_some, hset]
          exact ih (Nat.le_of_lt_succ hlt) hj'

/-- The gap is filled with the new element. -/
theorem pushAt_eq_insertIdx {i : ℕ} (hi : i ≤ vec.length) :
    pushAt vec i t = some (vec.insertIdx i t) := by
  rw [insertIdx_eq_append i t hi, pushAt]
  cases hback : vec.getLast? with
  | none =>
      obtain rfl := List.getLast?_eq_none_iff.mp hback
      simp
  | some back =>
      obtain ⟨front, rfl⟩ := List.getLast?_eq_some_iff.mp hback
      simp only [List.length_append, List.length_singleton] at hi
      simp only [List.length_append, List.length_singleton, Nat.add_sub_cancel]
      cases Nat.eq_or_lt_of_le hi with
      | inl heq =>
          rw [moveUp_of_le (by omega), heq, Option.map_some,
            List.set_append_right _ _ (by simp), List.take_of_length_le (by simp),
            List.drop_of_length_le (by simp)]
          simp
      | inr hlt =>
          have hmove := moveUp_take_append_drop (front ++ [back])
            (show i ≤ front.length by omega) (by simp)
          rw [List.take_of_length_le (by simp), List.drop_left] at hmove
          have hlength : (front ++ [back]).take i = front.take i :=
            List.take_append_of_le_length (by omega)
          have htake : ((front ++ [back]).take i).length = i := by simp; omega
          have hi' : i < (front ++ [back]).length := by simpa using hlt
          rw [hmove, Option.map_some, List.take_succ_eq_append_getElem hi', List.append_assoc,
            List.set_append_right _ _ (by omega), htake, Nat.sub_self]
          rfl

/-- Up to position `j` the elements behind `p` have been moved. -/
theorem foldlM_moveDown (vec : List α) {p j n : ℕ} (hp : p ≤ j) (hn : j + n + 1 = vec.length) :
    (List.range' j n).foldlM (fun vec j => (vec[j + 1]?).map fun x => vec.set j x)
        ((vec.eraseIdx p).take j ++ vec.drop j) =
      some ((vec.eraseIdx p).take (j + n) ++ vec.drop (j + n)) := by
  induction n generalizing j with
  | zero => rfl
  | succ n ih =>
      have hj : j + 1 < vec.length := by omega
      have hlength : (vec.eraseIdx p).length = vec.length - 1 :=
        List.length_eraseIdx_of_lt (by omega)
      have htake : ((vec.eraseIdx p).take j).length = j := by
        rw [List.length_take, hlength]
        omega
      have hget : ((vec.eraseIdx p).take j ++ vec.drop j)[j + 1]? = some vec[j + 1] := by
        rw [List.getElem?_append_right (by omega), htake, List.getElem?_drop,
          show j + (j + 1 - j) = j + 1 by omega, List.getElem?_eq_getElem hj]
      have hj' : j < (vec.eraseIdx p).length := by omega
      have hmoved : (vec.eraseIdx p)[j] = vec[j + 1] := List.getElem_eraseIdx_of_ge hj' hp
      have hset : ((vec.eraseIdx p).take j ++ vec.drop j).set j vec[j + 1] =
          (vec.eraseIdx p).take (j + 1) ++ vec.drop (j + 1) := by
        rw [List.set_append_right _ _ (by omega), htake, Nat.sub_self,
          List.drop_eq_getElem_cons (by omega : j < vec.length),
          List.take_succ_eq_append_getElem (by omega), hmoved, List.set_cons_zero,
          List.append_assoc]
        rfl
      rw [List.range'_succ, List.foldlM_cons, hget, Option.map_some, hset,
        Option.bind_eq_bind, Option.bind_some, ih (by omega) (by omega)]
      rw [show j + 1 + n = j + (n + 1) by omega]

theorem eraseAt_eq_eraseIdx {p : ℕ} (hp : p < vec.length) :
    eraseAt vec p = some (vec.eraseIdx p) := by
  have hne : vec.isEmpty = false := by
    cases vec with
    | nil => simp at hp
    | cons x vec => rfl
  have hlength : (vec.eraseIdx p).length = vec.length - 1 := List.length_eraseIdx_of_lt hp
  have hmove := foldlM_moveDown vec (Nat.le_refl p)
    (show p + (vec.length - 1 - p) + 1 = vec.length by omega)
  have htake : (vec.eraseIdx p).take p ++ vec.drop p = vec := by
    rw [List.eraseIdx_eq_take_drop_succ, List.take_left' (by simp; omega),
      List.take_append_drop]
  have hlast : (vec.drop (vec.length - 1)).length = 1 := by rw [List.length_drop]; omega
  obtain ⟨x, hx⟩ := List.length_eq_one_iff.mp hlast
  rw [htake, show p + (vec.length - 1 - p) = vec.length - 1 by omega,
    List.take_of_length_le (by omega), hx] at hmove
  rw [eraseAt, hne, hmove]
  simp

/-! ### Searching -/

theorem findGeq_le_length : findGeq lt vec t ≤ vec.length :=
  findGeqBetween_le (Nat.zero_le _) (Nat.le_refl _)

variable (h : StrictTotal lt) (hvec : Sorted lt vec)
include h hvec

theorem lt_of_mem_take_findGeq (hx : x ∈ vec.take (findGeq lt vec t)) : lt x t = true := by
  obtain ⟨i, hi, rfl⟩ := List.getElem_of_mem hx
  rw [List.length_take] at hi
  rw [List.getElem_take]
  exact lt_of_lt_findGeq h.weak (fun _ _ => trivial) trivial hvec (by omega) (by omega)

theorem not_lt_of_mem_drop_findGeq (hx : x ∈ vec.drop (findGeq lt vec t)) :
    lt x t = false := by
  obtain ⟨i, hi, rfl⟩ := List.getElem_of_mem hx
  rw [List.length_drop] at hi
  rw [List.getElem_drop]
  have hlt : findGeq lt vec t < vec.length := by omega
  -- the element that has been found is not less, and no later one is
  have hfound : lt vec[findGeq lt vec t] t = false := by
    cases findGeq_spec (List.getElem?_eq_getElem hlt) with
    | inl hgreater => exact h.asymm hgreater
    | inr hequal => exact hequal.1
  cases i with
  | zero => exact hfound
  | succ i =>
      have hless := List.pairwise_iff_getElem.mp hvec (findGeq lt vec t)
        (findGeq lt vec t + (i + 1)) hlt (by omega) (by omega)
      rw [← Bool.not_eq_true] at hfound ⊢
      exact fun hlt => hfound (h.trans hless hlt)

theorem getElem?_findGeq_eq_some_iff : vec[findGeq lt vec t]? = some t ↔ t ∈ vec := by
  constructor
  · exact List.mem_of_getElem?
  · intro ht
    obtain ⟨y, hy, hequivalent⟩ := exists_findGeq h.weak (fun _ _ => trivial) trivial hvec ht
      ⟨h.irrefl t, h.irrefl t⟩
    rw [hy, h.eq hequivalent]

theorem nodup_of_sorted : vec.Nodup :=
  hvec.imp fun {x y} hxy heq => by
    rw [heq, h.irrefl] at hxy
    cases hxy

omit h hvec

/-! ### Positions as numbers of smaller elements -/

/-- The set that a vector stands for. -/
def elements (vec : List α) : Set α := {x | x ∈ vec}

/-- The number of elements of a set that are less than a given one. -/
noncomputable def rank (lt : α → α → Bool) (S : Set α) (t : α) : ℕ :=
  {x ∈ S | lt x t = true}.ncard

@[simp] theorem mem_elements : x ∈ elements vec ↔ x ∈ vec := Iff.rfl

theorem ncard_elements (hnodup : vec.Nodup) : (elements vec).ncard = vec.length := by
  classical
  have hcoe : elements vec = (vec.toFinset : Set α) := by
    ext x
    simp
  rw [hcoe, Set.ncard_coe_finset, List.toFinset_card_of_nodup hnodup]

/-- If the smaller elements are the first ones of the vector, their number is the position. -/
theorem rank_eq_of_take (hnodup : vec.Nodup) {i : ℕ} (hi : i ≤ vec.length)
    (hless : ∀ x ∈ vec.take i, lt x t = true) (hrest : ∀ x ∈ vec.drop i, lt x t = false) :
    rank lt (elements vec) t = i := by
  have hset : {x ∈ elements vec | lt x t = true} = elements (vec.take i) := by
    ext x
    constructor
    · intro ⟨hx, hlt⟩
      rw [mem_elements, ← List.take_append_drop i vec, List.mem_append] at hx
      cases hx with
      | inl hx => exact hx
      | inr hx =>
          rw [hrest x hx] at hlt
          cases hlt
    · exact fun hx => ⟨List.mem_of_mem_take hx, hless x hx⟩
  rw [rank, hset, ncard_elements (hnodup.sublist (List.take_sublist i vec)), List.length_take,
    Nat.min_eq_left hi]

theorem rank_eq_findGeq (h : StrictTotal lt) (hvec : Sorted lt vec) :
    rank lt (elements vec) t = findGeq lt vec t :=
  rank_eq_of_take (nodup_of_sorted h hvec) findGeq_le_length
    (fun _ => lt_of_mem_take_findGeq h hvec) (fun _ => not_lt_of_mem_drop_findGeq h hvec)

theorem rank_getElem (h : StrictTotal lt) (hvec : Sorted lt vec) {i : ℕ} (hi : i < vec.length) :
    rank lt (elements vec) vec[i] = i := by
  refine rank_eq_of_take (nodup_of_sorted h hvec) hi.le ?_ ?_
  · intro x hx
    obtain ⟨j, hj, rfl⟩ := List.getElem_of_mem hx
    rw [List.length_take] at hj
    rw [List.getElem_take]
    exact List.pairwise_iff_getElem.mp hvec j i _ hi (by omega)
  · intro x hx
    rw [List.drop_eq_getElem_cons hi] at hx
    cases hx with
    | head => exact h.irrefl _
    | tail _ hx =>
        obtain ⟨j, hj, rfl⟩ := List.getElem_of_mem hx
        rw [List.length_drop] at hj
        rw [List.getElem_drop]
        exact h.asymm (List.pairwise_iff_getElem.mp hvec i _ hi (by omega) (by omega))

/-! ### The operations -/

/-- An operation has kept a vector sorted and made it stand for the set. -/
structure Represents (lt : α → α → Bool) (vec : List α) (S : Set α) : Prop where
  sorted : Sorted lt vec
  elements_eq : elements vec = S

theorem represents_elements (hvec : Sorted lt vec) : Represents lt vec (elements vec) :=
  ⟨hvec, rfl⟩

theorem represents_insert (h : StrictTotal lt) (hvec : Sorted lt vec) :
    Represents lt (insert lt vec t) (elements vec ∪ {t}) where
  sorted := sorted_insert h.weak (fun _ _ => trivial) trivial hvec
  elements_eq := by
    ext x
    simp [mem_insert h]

/-- An element that is greater than all others goes to the end. -/
theorem represents_append (hvec : Sorted lt vec) (hless : ∀ x ∈ vec, lt x t = true) :
    Represents lt (vec ++ [t]) (elements vec ∪ {t}) where
  sorted := by
    refine List.pairwise_append.mpr ⟨hvec, List.pairwise_singleton _ t, ?_⟩
    intro x hx y hy
    rw [List.mem_singleton.mp hy]
    exact hless x hx
  elements_eq := by
    ext x
    simp [or_comm]

/-- The last element is the greatest one. -/
theorem less_of_getLast? {back : α} (h : StrictTotal lt) (hvec : Sorted lt vec)
    (hback : vec.getLast? = some back) (hlt : lt back t = true) : ∀ x ∈ vec, lt x t = true := by
  obtain ⟨front, rfl⟩ := List.getLast?_eq_some_iff.mp hback
  intro x hx
  cases List.mem_append.mp hx with
  | inl hx =>
      exact h.trans ((List.pairwise_append.mp hvec).2.2 x hx back List.mem_cons_self) hlt
  | inr hx => exact List.mem_singleton.mp hx ▸ hlt

theorem insertGt_represents (hvec : Sorted lt vec)
    (hless : ∀ x ∈ vec, lt x t = true) :
    ∃ vec', insertGt lt vec t = some vec' ∧ Represents lt vec' (elements vec ∪ {t}) := by
  refine ⟨vec ++ [t], ?_, represents_append hvec hless⟩
  rw [insertGt]
  cases hback : vec.getLast? with
  | none => rfl
  | some back => simp [hless back (List.mem_of_getLast? hback)]

/-- The elements other than the one with a given position. -/
theorem represents_eraseIdx (h : StrictTotal lt) (hvec : Sorted lt vec) (p : ℕ) :
    Represents lt (vec.eraseIdx p)
      {x ∈ elements vec | rank lt (elements vec) x ≠ p} where
  sorted := hvec.sublist (List.eraseIdx_sublist ..)
  elements_eq := by
    ext x
    rw [mem_elements, List.mem_eraseIdx_iff_getElem]
    constructor
    · intro ⟨i, hi, hne, hx⟩
      subst hx
      exact ⟨List.getElem_mem hi, by rwa [rank_getElem h hvec hi]⟩
    · intro ⟨hx, hne⟩
      obtain ⟨i, hi, rfl⟩ := List.getElem_of_mem hx
      rw [rank_getElem h hvec hi] at hne
      exact ⟨i, hi, hne, rfl⟩

theorem eraseAt_represents (h : StrictTotal lt) (hvec : Sorted lt vec) {p : ℕ}
    (hp : p < (elements vec).ncard) :
    ∃ vec', eraseAt vec p = some vec' ∧
      Represents lt vec' {x ∈ elements vec | rank lt (elements vec) x ≠ p} := by
  rw [ncard_elements (nodup_of_sorted h hvec)] at hp
  exact ⟨_, eraseAt_eq_eraseIdx hp, represents_eraseIdx h hvec p⟩

theorem rank_eq_iff (h : StrictTotal lt) (hvec : Sorted lt vec) (hx : x ∈ vec) (ht : t ∈ vec) :
    rank lt (elements vec) x = rank lt (elements vec) t ↔ x = t := by
  obtain ⟨i, hi, rfl⟩ := List.getElem_of_mem hx
  obtain ⟨j, hj, rfl⟩ := List.getElem_of_mem ht
  rw [rank_getElem h hvec hi, rank_getElem h hvec hj,
    (nodup_of_sorted h hvec).getElem_inj_iff]

variable [DecidableEq α]

theorem insertElement_eq (h : StrictTotal lt) (hvec : Sorted lt vec) :
    insertElement lt vec t =
      some (insert lt vec t, rank lt (elements vec) t, decide (t ∉ vec)) := by
  have hmem := getElem?_findGeq_eq_some_iff (t := t) h hvec
  rw [rank_eq_findGeq h hvec, insertElement, insert]
  cases hx : vec[findGeq lt vec t]? with
  | none =>
      rw [hx] at hmem
      simp [pushAt_eq_insertIdx findGeq_le_length, ← hmem]
  | some x =>
      rw [hx, Option.some.injEq] at hmem
      cases htx : lt t x with
      | true =>
          have hne : t ∉ vec := fun ht => by
            rw [hmem.mpr ht, h.irrefl] at htx
            cases htx
          simp [pushAt_eq_insertIdx findGeq_le_length, htx, hne]
      | false =>
          have hequivalent : Equivalent lt x t := by
            cases findGeq_spec hx with
            | inl hlt => exact absurd hlt (by simp [htx])
            | inr hequivalent => exact hequivalent
          have ht : t ∈ vec := hmem.mp (h.eq hequivalent)
          simp [htx, hequivalent.1, ht]

theorem insertGeq_represents (h : StrictTotal lt) (hvec : Sorted lt vec)
    (hle : ∀ x ∈ vec, lt t x = false) :
    ∃ vec', insertGeq lt vec t =
        some (vec', rank lt (elements vec) t, decide (t ∉ vec)) ∧
      Represents lt vec' (elements vec ∪ {t}) := by
  rw [insertGeq]
  cases hback : vec.getLast? with
  | none =>
      obtain rfl := List.getLast?_eq_none_iff.mp hback
      have hrank : rank lt (elements []) t = 0 :=
        rank_eq_of_take List.nodup_nil (Nat.le_refl 0) (by simp) (by simp)
      exact ⟨[t], by simp [hrank], represents_append hvec (by simp)⟩
  | some back =>
      have hmem := List.mem_of_getLast? hback
      simp only [hle back hmem, Bool.false_eq_true, if_false]
      by_cases heq : back = t
      · subst heq
        refine ⟨vec, ?_, hvec, ?_⟩
        · obtain ⟨front, rfl⟩ := List.getLast?_eq_some_iff.mp hback
          have hrank := rank_getElem h hvec (i := front.length) (by simp)
          simp only [List.getElem_concat_length] at hrank
          simp [hrank]
        · ext x
          simp only [Set.union_singleton, Set.mem_insert_iff, mem_elements, iff_or_self]
          intro hx
          rwa [hx]
      · have hlt : lt back t = true := by
          by_contra hnot
          rw [Bool.not_eq_true] at hnot
          exact heq (h.eq ⟨hnot, hle back hmem⟩)
        have hless := less_of_getLast? h hvec hback hlt
        have hrank : rank lt (elements vec) t = vec.length :=
          rank_eq_of_take (nodup_of_sorted h hvec) (Nat.le_refl _)
            (fun x hx => hless x (List.mem_of_mem_take hx)) (by simp)
        have hnew : t ∉ vec := fun ht => by
          have htt := hless t ht
          rw [h.irrefl] at htt
          cases htt
        exact ⟨vec ++ [t], by simp [heq, hrank, hnew], represents_append hvec hless⟩

/-- The elements of a range are inserted one by one. -/
theorem construct_represents (h : StrictTotal lt) (range : List α) :
    ∃ vec, construct lt range = some vec ∧ Represents lt vec {x | x ∈ range} := by
  induction range using List.reverseRecOn with
  | nil => exact ⟨[], rfl, List.Pairwise.nil, rfl⟩
  | append_singleton range t ih =>
      obtain ⟨vec, hvec, hrepresents⟩ := ih
      have hset : elements vec ∪ {t} = {x | x ∈ range ++ [t]} := by
        rw [hrepresents.elements_eq]
        ext x
        simp [or_comm]
      have hinsert : (insertElement lt vec t).map (·.1) = some (insert lt vec t) := by
        rw [insertElement_eq h hrepresents.sorted, Option.map_some]
      have hinserted := represents_insert (t := t) h hrepresents.sorted
      rw [hset] at hinserted
      rw [construct] at hvec ⊢
      rw [List.foldlM_append, hvec, Option.bind_eq_bind, Option.bind_some, List.foldlM_cons]
      simp only [List.foldlM_nil, Option.bind_eq_bind, Option.pure_def, Option.bind_fun_some]
      cases hback : vec.getLast? with
      | none => exact ⟨_, hinsert, hinserted⟩
      | some back =>
          cases hlt : lt back t with
          | false => exact ⟨_, by simpa [hlt] using hinsert, hinserted⟩
          | true =>
              refine ⟨vec ++ [t], by simp [hlt], ?_⟩
              rw [← hset]
              exact represents_append hrepresents.sorted
                (less_of_getLast? h hrepresents.sorted hback hlt)

theorem eraseElement_represents (h : StrictTotal lt) (hvec : Sorted lt vec) :
    ∃ vec', eraseElement lt vec t = some (vec', if t ∈ vec then 1 else 0) ∧
      Represents lt vec' (elements vec \ {t}) := by
  have hmem := getElem?_findGeq_eq_some_iff (t := t) h hvec
  have hkept : t ∉ vec → Represents lt vec (elements vec \ {t}) := by
    intro ht
    refine ⟨hvec, Set.ext fun x => ⟨fun hx => ⟨hx, fun heq => ?_⟩, fun hx => hx.1⟩⟩
    exact ht (Set.mem_singleton_iff.mp heq ▸ hx)
  rw [eraseElement]
  cases hx : vec[findGeq lt vec t]? with
  | none =>
      have ht : t ∉ vec := fun ht => by
        rw [hmem.mpr ht] at hx
        cases hx
      exact ⟨vec, by simp [ht], hkept ht⟩
  | some x =>
      rw [hx, Option.some.injEq] at hmem
      cases htx : lt t x with
      | true =>
          have ht : t ∉ vec := fun ht => by
            rw [hmem.mpr ht, h.irrefl] at htx
            cases htx
          exact ⟨vec, by simp [htx, ht], hkept ht⟩
      | false =>
          have hequivalent : Equivalent lt x t := by
            cases findGeq_spec hx with
            | inl hlt => exact absurd hlt (by simp [htx])
            | inr hequivalent => exact hequivalent
          obtain rfl : x = t := h.eq hequivalent
          have ht : x ∈ vec := hmem.mp rfl
          have hp := (List.getElem?_eq_some_iff.mp hx).1
          refine ⟨vec.eraseIdx (findGeq lt vec x), by simp [htx, ht, eraseAt_eq_eraseIdx hp], ?_⟩
          have herased := represents_eraseIdx h hvec (findGeq lt vec x)
          refine ⟨herased.sorted, herased.elements_eq.trans ?_⟩
          ext y
          rw [← rank_eq_findGeq h hvec]
          constructor
          · intro ⟨hy, hne⟩
            exact ⟨hy, fun heq => hne (by rw [heq])⟩
          · intro ⟨hy, hne⟩
            exact ⟨hy, fun heq => hne ((rank_eq_iff h hvec hy ht).mp heq)⟩

theorem find_eq (h : StrictTotal lt) (hvec : Sorted lt vec) :
    find lt vec t = if t ∈ vec then some (rank lt (elements vec) t) else none := by
  have hmem := getElem?_findGeq_eq_some_iff (t := t) h hvec
  rw [rank_eq_findGeq h hvec, find]
  cases hx : vec[findGeq lt vec t]? with
  | none =>
      rw [hx] at hmem
      simp [← hmem]
  | some x =>
      rw [hx, Option.some.injEq] at hmem
      simp [hmem]

theorem count_eq (h : StrictTotal lt) (hvec : Sorted lt vec) :
    count lt vec t = if t ∈ vec then 1 else 0 := by
  rw [count, find_eq h hvec]
  by_cases ht : t ∈ vec <;> simp [ht]

end Nidhugg.VecSet
