import Nidhugg.Verification.VecSetInPlace.Elements

/-! # Two sorted vectors, one of which is changed in place

The union is filled in from behind, into the room that the elements to come leave free. The
difference is moved together from the front. Both loops give what they would give if they wrote to
another vector, so no element is overwritten before it has been read. -/

namespace Nidhugg.VecSet

variable {α : Type} {lt : α → α → Bool} {vec s rest : List α} {x y : α}

/-! ### The last gap and the first gap of a vector -/

/-- Writing to the last position of a gap makes it smaller. -/
theorem set_last_of_gap (front gap built : List α) (x : α) {n : ℕ} (hgap : gap.length = n + 1) :
    ∃ gap', gap'.length = n ∧ (front ++ gap ++ built).set (front.length + n) x =
      front ++ gap' ++ x :: built := by
  obtain ⟨gap', z, rfl⟩ := List.eq_nil_or_concat gap |>.resolve_left fun h => by simp [h] at hgap
  have hn : gap'.length = n := by simpa using hgap
  refine ⟨gap', hn, ?_⟩
  have hlength : (front ++ gap').length = front.length + n := by simp [hn]
  rw [show front ++ gap'.concat z ++ built = (front ++ gap') ++ z :: built by simp,
    List.set_append_right _ _ hlength.le, hlength, Nat.sub_self]
  rfl

/-- Copying the element behind a gap to its first position moves the gap. -/
theorem set_first_of_gap (front gap rest : List α) (x : α) :
    ∃ gap', gap'.length = gap.length ∧ (front ++ gap ++ x :: rest).set front.length x =
      front ++ [x] ++ gap' ++ rest := by
  cases gap with
  | nil => exact ⟨[], rfl, by simp⟩
  | cons y gap => exact ⟨gap ++ [x], by simp, by simp⟩

/-! ### Union -/

theorem insertSet_represents (h : StrictTotal lt) (hvec : Sorted lt vec) (hs : Sorted lt s) :
    Represents lt (insertSet lt vec s) (elements vec ∪ elements s) where
  sorted := sorted_insertSet h hvec hs
  elements_eq := by
    ext x
    simp [mem_insertSet h]

section Union
variable [DecidableEq α]

/-- The number of elements of `s` that are not in the vector. -/
def missing (vec s : List α) : ℕ := (s.filter fun y => y ∉ vec).length

theorem missing_nil (s : List α) : missing [] s = s.length := by simp [missing]

theorem missing_cons_of_mem (hy : y ∈ vec) : missing vec (y :: s) = missing vec s := by
  simp [missing, hy]

theorem missing_cons_of_not_mem (hy : y ∉ vec) : missing vec (y :: s) = missing vec s + 1 := by
  simp [missing, hy]

theorem missing_cons_left (hx : x ∉ s) : missing (x :: vec) s = missing vec s := by
  have hfilter : s.filter (fun y => y ∉ x :: vec) = s.filter fun y => y ∉ vec := by
    apply List.filter_congr
    intro y hy
    have hne : y ≠ x := fun heq => hx (heq ▸ hy)
    simp [hne]
  rw [missing, hfilter, missing]

/-- An element that both vectors start with is not missing. -/
theorem missing_cons_cons (hx : x ∉ s) : missing (x :: vec) (x :: s) = missing vec s := by
  rw [missing_cons_of_mem List.mem_cons_self, missing_cons_left hx]

theorem missing_reverse (vec s : List α) : missing vec.reverse s.reverse = missing vec s := by
  simp [missing, List.filter_reverse]

theorem countMissing_eq_missing (h : StrictTotal lt) (hvec : Sorted lt vec) (hs : Sorted lt s) :
    countMissing lt vec s = missing vec s := by
  fun_induction countMissing lt vec s with
  | case1 x vec y s hlt ih =>
      rw [ih hvec.tail hs, missing_cons_left (h.not_mem_of_lt hs hlt)]
  | case2 x vec y s hxy hyx ih =>
      obtain rfl : x = y := h.eq ⟨Bool.eq_false_iff.mpr hxy, by simpa using hyx⟩
      rw [ih hvec.tail hs.tail,
        missing_cons_cons (List.nodup_cons.mp (nodup_of_sorted h hs)).1]
  | case3 x vec y s hxy hyx ih =>
      have hlt : lt y x = true := by simpa using hyx
      rw [ih hvec hs.tail, missing_cons_of_not_mem (h.not_mem_of_lt hvec hlt), Nat.add_comm]
  | case4 vec s hnot =>
      cases vec with
      | nil => rw [missing_nil]
      | cons x vec =>
          cases s with
          | nil => rfl
          | cons y s => exact (hnot x vec y s rfl rfl).elim

omit [DecidableEq α] in
theorem getElem?_reverse_cons (x : α) (vec rest : List α) :
    ((x :: vec).reverse ++ rest)[vec.length]? = some x := by
  simp

omit [DecidableEq α] in
/-- When the vector is used up, the rest of the other one is copied. -/
theorem mergeInPlace_right (lt : α → α → Bool) (right gap built : List α)
    (hs : s = right.reverse ++ rest) (hgap : gap.length = right.length) :
    mergeInPlace lt s right.length 0 right.length (gap ++ built) =
      some (right.reverse ++ built) := by
  induction right generalizing gap built rest with
  | nil =>
      obtain rfl := List.length_eq_zero_iff.mp hgap
      simp [mergeInPlace]
  | cons y right ih =>
      obtain ⟨gap', hlength, hset⟩ := set_last_of_gap [] gap built y hgap
      simp only [List.nil_append, List.length_nil, Nat.zero_add] at hset
      have hget : s[right.length]? = some y := hs ▸ getElem?_reverse_cons y right rest
      have hs' : s = right.reverse ++ y :: rest := by simpa using hs
      rw [List.length_cons, mergeInPlace, hget, Option.bind_some, hset, ih gap' _ hs' hlength]
      simp

omit [DecidableEq α] in
/-- When the other vector is used up, the elements are in their places. -/
theorem mergeInPlace_left (lt : α → α → Bool) (s left built : List α) :
    mergeInPlace lt s left.length left.length 0 (left.reverse ++ built) =
      some (left.reverse ++ built) := by
  induction left generalizing built with
  | nil => simp [mergeInPlace]
  | cons x left ih =>
      have hset : ((x :: left).reverse ++ built).set left.length x =
          left.reverse ++ x :: built := by
        rw [List.reverse_cons, List.append_assoc, List.set_append_right _ _ (by simp)]
        simp
      rw [List.length_cons, mergeInPlace, if_neg (Nat.lt_irrefl _), getElem?_reverse_cons,
        Option.bind_some, hset, ih]
      simp

/-- The in-place merge gives what the merge of copies gives, as long as the gap behind the elements
to come is as large as the number of those that are missing. -/
theorem mergeInPlace_eq_mergeBack (h : StrictTotal lt) {left right gap : List α}
    (built : List α) (hleft : Decreasing lt left) (hright : Decreasing lt right)
    (hs : s = right.reverse ++ rest)
    (hgap : gap.length = missing left right) :
    mergeInPlace lt s (left.length + gap.length) left.length right.length
      (left.reverse ++ gap ++ built) = some (mergeBack lt left right built) := by
  -- The largest element of the vector goes behind the gap, which keeps its size
  have hmove : ∀ (x : α) (left gap built : List α), ∃ gap', gap'.length = gap.length ∧
      ((x :: left).reverse ++ gap ++ built).set (left.length + gap.length) x =
        left.reverse ++ gap' ++ x :: built := by
    intro x left gap built
    obtain ⟨gap', hlength, hset⟩ := set_last_of_gap left.reverse (x :: gap) built x
      (by rw [List.length_cons])
    exact ⟨gap', hlength, by simpa using hset⟩
  have hhead : ∀ {x : α} {left gap built : List α},
      ((x :: left).reverse ++ gap ++ built)[left.length]? = some x := by
    intro x left gap built
    rw [List.append_assoc, getElem?_reverse_cons]
  have hnodup : ∀ {x : α} {vec : List α}, Decreasing lt (x :: vec) → x ∉ vec := by
    intro x vec hvec hx
    have hlt := (List.pairwise_cons.mp hvec).1 x hx
    rw [h.irrefl] at hlt
    cases hlt
  have hgreater : ∀ {x y : α} {vec : List α}, Decreasing lt (y :: vec) → lt y x = true →
      x ∉ y :: vec := by
    intro x y vec hvec hlt hx
    have hxx : lt x x = true := by
      cases List.mem_cons.mp hx with
      | inl heq => exact heq ▸ (heq ▸ hlt)
      | inr hx => exact h.trans ((List.pairwise_cons.mp hvec).1 x hx) hlt
    rw [h.irrefl] at hxx
    cases hxx
  fun_induction mergeBack lt left right built generalizing gap rest with
  | case1 x left y right built hlt ih =>
      have hmissing : gap.length = missing (x :: left) right + 1 := by
        rw [hgap, missing_cons_of_not_mem (hgreater hleft hlt)]
      obtain ⟨gap', hlength, hset⟩ := set_last_of_gap (x :: left).reverse gap built y hmissing
      have hs' : s = right.reverse ++ y :: rest := by simpa using hs
      have hy : s[right.length]? = some y := hs ▸ getElem?_reverse_cons y right rest
      have hrest := ih hleft hright.tail hs' hlength
      rw [List.length_reverse, List.length_cons] at hset
      rw [hlength, List.length_cons] at hrest
      rw [hmissing, ← Nat.add_assoc, List.length_cons, List.length_cons, mergeInPlace,
        if_neg (by omega), hhead, Option.bind_some, hy, Option.bind_some, if_pos hlt, hset, hrest]
  | case2 x left y right built hxy hyx ih =>
      obtain rfl : x = y := h.eq ⟨Bool.eq_false_iff.mpr hxy, by simpa using hyx⟩
      obtain ⟨gap', hlength, hset⟩ := hmove x left gap built
      have hs' : s = right.reverse ++ x :: rest := by simpa using hs
      have hy : s[right.length]? = some x := hs ▸ getElem?_reverse_cons x right rest
      have hrest := ih hleft.tail hright.tail hs'
        (by rw [hlength, hgap, missing_cons_cons (hnodup hright)])
      rw [hlength] at hrest
      rw [List.length_cons, Nat.add_right_comm, List.length_cons, mergeInPlace,
        if_neg (by omega), hhead, Option.bind_some, hy, Option.bind_some, if_neg hxy, if_pos hyx,
        hset, hrest]
  | case3 x left y right built hxy hyx ih =>
      have hlt : lt y x = true := by simpa using hyx
      obtain ⟨gap', hlength, hset⟩ := hmove x left gap built
      have hy : s[right.length]? = some y := hs ▸ getElem?_reverse_cons y right rest
      have hrest := ih hleft.tail hright hs
        (by rw [hlength, hgap, missing_cons_left (hgreater hright hlt)])
      rw [hlength, List.length_cons] at hrest
      rw [List.length_cons, Nat.add_right_comm, List.length_cons, mergeInPlace,
        if_neg (by omega), hhead, Option.bind_some, hy, Option.bind_some, if_neg hxy, if_neg hyx,
        hset, hrest]
  | case4 right built =>
      rw [missing_nil] at hgap
      simp only [List.length_nil, Nat.zero_add, List.reverse_nil, List.nil_append, hgap]
      exact mergeInPlace_right lt right gap built hs hgap
  | case5 left built hne =>
      obtain rfl := List.length_eq_zero_iff.mp hgap
      simp only [List.length_nil, Nat.add_zero, List.append_nil]
      exact mergeInPlace_left lt s left built

theorem ncard_diff_eq_missing (h : StrictTotal lt) (vec : List α) (hs : Sorted lt s) :
    (elements s \ elements vec).ncard = missing vec s := by
  have hset : elements s \ elements vec = elements (s.filter fun y => y ∉ vec) := by
    ext x
    simp
  rw [hset, missing, ncard_elements ((nodup_of_sorted h hs).filter _)]

/-- `insert` of a set leaves the union and counts the new elements. -/
theorem insertAll_eq (h : StrictTotal lt) (hvec : Sorted lt vec) (hs : Sorted lt s) :
    insertAll lt vec s =
      some (insertSet lt vec s, (elements s \ elements vec).ncard) := by
  rw [ncard_diff_eq_missing h vec hs]
  match s with
  | [] => rfl
  | [y] =>
      rw [insertAll, insertElement_eq h hvec]
      by_cases hy : y ∈ vec
      · simp [hy, missing, insertSet]
      · simp [hy, missing, insertSet]
  | y :: z :: s =>
      simp only [insertAll, insertSet, countMissing_eq_missing h hvec hs]
      by_cases hpos : 0 < missing vec (y :: z :: s)
      · have hgap : (List.replicate (missing vec (y :: z :: s)) y).length =
            missing vec.reverse (y :: z :: s).reverse := by
          rw [List.length_replicate, missing_reverse]
        have hs' : y :: z :: s = (y :: z :: s).reverse.reverse ++ [] := by simp
        have hmerge := mergeInPlace_eq_mergeBack h [] (List.pairwise_reverse.mpr hvec)
          (List.pairwise_reverse.mpr hs) hs' hgap
        simp only [List.length_reverse, List.length_replicate, List.reverse_reverse,
          List.append_nil] at hmerge
        rw [if_pos hpos, if_pos hpos, hmerge, Option.map_some]
      · rw [if_neg hpos, if_neg hpos]

end Union

/-! ### Difference -/

theorem copyDown_append (front gap rest : List α) (x : α) :
    ∃ gap', gap'.length = gap.length ∧
      copyDown (front ++ gap ++ x :: rest) (front ++ gap).length front.length x =
        front ++ [x] ++ gap' ++ rest := by
  rw [copyDown]
  split
  · exact set_first_of_gap front gap rest x
  · rename_i heq
    have hgap : gap = [] := by simpa using heq
    exact ⟨[], by simp [hgap], by simp [hgap]⟩

/-- The elements that have been read are those kept, at the front, and as many others as have been
erased. -/
theorem eraseLoop_eq_eraseSet (lt : α → α → Bool) (s : List α) (b : ℕ)
    (front gap rest : List α) :
    ∃ front' gap' rest',
      eraseLoop lt s (front ++ gap).length b front.length gap.length (front ++ gap ++ rest) =
        some (front' ++ gap' ++ rest', (front' ++ gap').length, front'.length, gap'.length) ∧
      front' ++ rest' = front ++ eraseSet lt rest (s.drop b) ∧
      gap'.length + (front' ++ rest').length = gap.length + (front ++ rest).length := by
  induction hlength : rest.length + (s.length - b) using Nat.strong_induction_on
    generalizing b front gap rest with
  | _ n ih =>
      cases rest with
      | nil =>
          refine ⟨front, gap, [], ?_, by simp [eraseSet], rfl⟩
          rw [eraseLoop, dif_neg (by simp)]
      | cons x rest =>
          by_cases hb : b < s.length
          · have ha : (front ++ gap).length < (front ++ gap ++ x :: rest).length := by simp
            have hx : (front ++ gap ++ x :: rest)[(front ++ gap).length] = x := by simp
            rw [eraseLoop, dif_pos ⟨ha, hb⟩, List.drop_eq_getElem_cons hb, eraseSet]
            simp only [hx]
            cases hxy : lt x s[b] with
            | true =>
                obtain ⟨gap', hgap, hcopy⟩ := copyDown_append front gap rest x
                obtain ⟨front₁, gap₁, rest₁, hrun, hresult, htotal⟩ := ih _ (by
                  rw [← hlength, List.length_cons]; omega) b (front ++ [x]) gap' rest rfl
                have hnext : (front ++ [x]).length = front.length + 1 := by simp
                refine ⟨front₁, gap₁, rest₁, ?_, ?_, by simpa [hgap] using htotal⟩
                · have hsame : (front ++ [x] ++ gap').length = (front ++ gap).length + 1 := by
                    simp only [List.length_append, List.length_singleton, hgap]
                    omega
                  rw [hsame, hgap, hnext] at hrun
                  rw [if_pos rfl, hcopy, hrun]
                · rw [hresult, List.drop_eq_getElem_cons hb]
                  simp
            | false =>
                cases hyx : lt s[b] x with
                | true =>
                    obtain ⟨front₁, gap₁, rest₁, hrun, hresult, htotal⟩ := ih _ (by
                      rw [← hlength]; omega) (b + 1) front gap (x :: rest) rfl
                    exact ⟨front₁, gap₁, rest₁, by simpa using hrun, by simpa using hresult,
                      htotal⟩
                | false =>
                    obtain ⟨front₁, gap₁, rest₁, hrun, hresult, htotal⟩ := ih _ (by
                      rw [← hlength, List.length_cons]; omega) (b + 1) front (gap ++ [x]) rest rfl
                    refine ⟨front₁, gap₁, rest₁, ?_, by simpa using hresult, ?_⟩
                    · simpa [Nat.add_assoc] using hrun
                    · rw [htotal]
                      simp only [List.length_append, List.length_cons, List.length_nil]
                      omega
          · refine ⟨front, gap, x :: rest, ?_, ?_, rfl⟩
            · rw [eraseLoop, dif_neg (fun hlt => hb hlt.2)]
            · rw [List.drop_of_length_le (Nat.le_of_not_lt hb)]
              simp [eraseSet]

theorem moveTail_eq_append (front gap rest : List α) :
    moveTail (front ++ gap ++ rest) (front ++ gap).length front.length =
      some (front ++ rest) := by
  have hmove : ∀ front gap : List α, ∃ gap' : List α,
      (List.range' (front ++ gap).length rest.length).foldlM (fun (s : List α × ℕ) a =>
        (s.1[a]?).map fun x => (s.1.set s.2 x, s.2 + 1)) (front ++ gap ++ rest, front.length) =
      some (front ++ rest ++ gap', (front ++ rest).length) := by
    induction rest with
    | nil => exact fun front gap => ⟨gap, by simp⟩
    | cons x rest ih =>
        intro front gap
        obtain ⟨gap', hgap, hset⟩ := set_first_of_gap front gap rest x
        obtain ⟨gap'', hrun⟩ := ih (front ++ [x]) gap'
        refine ⟨gap'', ?_⟩
        have hget : (front ++ gap ++ x :: rest)[(front ++ gap).length]? = some x := by simp
        have hnext : (front ++ [x] ++ gap').length = (front ++ gap).length + 1 := by
          simp only [List.length_append, List.length_singleton, hgap]
          omega
        have hfront : (front ++ [x]).length = front.length + 1 := by simp
        rw [hnext, hfront] at hrun
        rw [List.length_cons, List.range'_succ, List.foldlM_cons]
        simp only [hget, Option.map_some, hset, Option.bind_eq_bind, Option.bind_some, hrun]
        simp
  obtain ⟨gap', hrun⟩ := hmove front gap
  have hrest : (front ++ gap ++ rest).length - (front ++ gap).length = rest.length := by
    simp only [List.length_append]
    omega
  rw [moveTail, hrest, hrun, Option.map_some, List.take_left]

theorem eraseSet_represents (h : StrictTotal lt) (hvec : Sorted lt vec) (hs : Sorted lt s) :
    Represents lt (eraseSet lt vec s) (elements vec \ elements s) where
  sorted := sorted_eraseSet hvec s
  elements_eq := by
    ext x
    simp [mem_eraseSet h hvec hs]

/-- `erase` of a set leaves the difference and counts the erased elements. -/
theorem eraseAll_eq (h : StrictTotal lt) (hvec : Sorted lt vec) (hs : Sorted lt s) :
    eraseAll lt vec s =
      some (eraseSet lt vec s, (elements vec ∩ elements s).ncard) := by
  have hcard : (elements vec ∩ elements s).ncard + (eraseSet lt vec s).length = vec.length := by
    have hfinite : (elements vec).Finite := List.finite_toSet vec
    have hrepresents := eraseSet_represents h hvec hs
    rw [← ncard_elements (nodup_of_sorted h hrepresents.sorted), hrepresents.elements_eq,
      Set.ncard_inter_add_ncard_sdiff_eq_ncard _ _ hfinite, ncard_elements (nodup_of_sorted h hvec)]
  rw [eraseAll]
  split
  · rename_i hempty
    have hsame : eraseSet lt vec s = vec := by
      cases vec with
      | nil => simp [eraseSet]
      | cons x vec =>
          obtain rfl : s = [] := by simpa using hempty
          simp [eraseSet]
    rw [hsame] at hcard ⊢
    rw [show (elements vec ∩ elements s).ncard = 0 by omega]
  · obtain ⟨front, gap, rest, hrun, hresult, htotal⟩ := eraseLoop_eq_eraseSet lt s 0 [] [] vec
    simp only [List.nil_append, List.length_nil, List.drop_zero] at hrun hresult
    simp only [List.nil_append, List.length_nil, Nat.zero_add] at htotal
    have hcount : gap.length = (elements vec ∩ elements s).ncard := by
      rw [hresult] at htotal
      omega
    rw [hrun, Option.bind_some]
    simp only [← hresult, hcount]
    split
    · rw [moveTail_eq_append, Option.map_some]
    · rename_i heq
      obtain rfl : gap = [] := by simpa using heq
      simp

/-! ### Inclusion -/

theorem subsetFrom_iff (h : StrictTotal lt) (hvec : Sorted lt vec) (hs : Sorted lt s) (a b : ℕ) :
    subsetFrom lt vec s a b = true ↔ ∀ x ∈ vec.drop a, x ∈ s.drop b := by
  fun_induction subsetFrom lt vec s a b with
  | case1 a b ha hshort =>
      simp only [Bool.false_eq_true, false_iff]
      intro hsubset
      have hle := (List.subperm_of_subset
        ((nodup_of_sorted h hvec).sublist (List.drop_sublist a vec)) hsubset).length_le
      rw [List.length_drop, List.length_drop] at hle
      omega
  | case2 a b ha hshort x y hxy =>
      have hb : b < s.length := by omega
      have hdrop := hs.sublist (List.drop_sublist b s)
      rw [List.drop_eq_getElem_cons hb] at hdrop
      simp only [Bool.false_eq_true, false_iff]
      intro hsubset
      have hx := hsubset x (by rw [List.drop_eq_getElem_cons ha]; exact List.mem_cons_self)
      rw [List.drop_eq_getElem_cons hb] at hx
      exact h.not_mem_of_lt hdrop hxy hx
  | case3 a b ha hshort x y hxy hyx ih =>
      have hb : b < s.length := by omega
      have heq : x = y := h.eq ⟨Bool.eq_false_iff.mpr hxy, by simpa using hyx⟩
      have hnodup := (nodup_of_sorted h hvec).sublist (List.drop_sublist a vec)
      rw [List.drop_eq_getElem_cons ha] at hnodup
      have hx := (List.nodup_cons.mp hnodup).1
      rw [ih, List.drop_eq_getElem_cons ha, List.drop_eq_getElem_cons hb, List.forall_mem_cons]
      constructor
      · intro hsubset
        exact ⟨List.mem_cons.mpr (.inl heq), fun z hz => List.mem_cons_of_mem _ (hsubset z hz)⟩
      · rintro ⟨-, hsubset⟩ z hz
        cases List.mem_cons.mp (hsubset z hz) with
        | inl hzy => exact absurd hz ((hzy.trans heq.symm) ▸ hx)
        | inr hz => exact hz
  | case4 a b ha hshort x y hxy hyx ih =>
      have hb : b < s.length := by omega
      have hlt : lt y x = true := by simpa using hyx
      have hdrop := hvec.sublist (List.drop_sublist a vec)
      rw [List.drop_eq_getElem_cons ha] at hdrop
      have hy := h.not_mem_of_lt hdrop hlt
      rw [ih, List.drop_eq_getElem_cons hb, List.drop_eq_getElem_cons ha]
      refine forall₂_congr fun z hz => ?_
      have hne : z ≠ y := fun heq => hy (heq ▸ hz)
      rw [List.mem_cons, or_iff_right hne]
  | case5 a b ha => simp [List.drop_of_length_le (Nat.le_of_not_lt ha)]

/-- `subset_of` decides inclusion. -/
theorem subsetOf_iff (h : StrictTotal lt) (hvec : Sorted lt vec) (hs : Sorted lt s) :
    subsetOf lt vec s = true ↔ elements vec ⊆ elements s := by
  have hiff : elements vec ⊆ elements s ↔ ∀ x ∈ vec, x ∈ s := Iff.rfl
  rw [subsetOf, hiff]
  split
  · rename_i hlt
    simp only [Bool.false_eq_true, false_iff]
    intro hsubset
    have hle := (List.subperm_of_subset (nodup_of_sorted h hvec) hsubset).length_le
    omega
  · rw [subsetFrom_iff h hvec hs]
    simp

end Nidhugg.VecSet

/-! # Sequences of operations on sorted vectors

The mathematical sets, the operations on them and the answers they give. As long as the operations
meet their preconditions, the vectors stand for these sets and give these answers. -/

namespace Nidhugg.VecSet

variable {α : Type} {lt : α → α → Bool}

/-- The preconditions that the code asserts, and that a position to be erased exists. -/
def Op.Allowed (lt : α → α → Bool) (S : ℕ → Set α) : Op α → Prop
  | .insertGeq x t => ∀ u ∈ S x, lt t u = false
  | .insertGt x t => ∀ u ∈ S x, lt u t = true
  | .eraseAt x p => p < (S x).ncard
  | .construct .. | .insert .. | .insertSet .. | .erase .. | .eraseSet .. | .find .. | .count ..
  | .subsetOf .. | .intersects .. => True

/-- The sets after an operation. -/
def Op.after (lt : α → α → Bool) (S : ℕ → Set α) : Op α → ℕ → Set α
  | .construct x range => Function.update S x {t | t ∈ range}
  | .insert x t | .insertGeq x t | .insertGt x t => Function.update S x (S x ∪ {t})
  | .insertSet x y => Function.update S x (S x ∪ S y)
  | .erase x t => Function.update S x (S x \ {t})
  | .eraseAt x p => Function.update S x {t ∈ S x | rank lt (S x) t ≠ p}
  | .eraseSet x y => Function.update S x (S x \ S y)
  | .find .. | .count .. | .subsetOf .. | .intersects .. => S

open Classical in
/-- The answer of an operation on sets. -/
noncomputable def Op.answer (lt : α → α → Bool) (S : ℕ → Set α) : Op α → Answer
  | .construct .. | .insertGt .. | .eraseAt .. => .done
  | .insert x t | .insertGeq x t => .position (rank lt (S x) t) (decide (t ∉ S x))
  | .insertSet x y => .number (S y \ S x).ncard
  | .erase x t | .count x t => .number (if t ∈ S x then 1 else 0)
  | .eraseSet x y => .number (S x ∩ S y).ncard
  | .find x t => .found (if t ∈ S x then some (rank lt (S x) t) else none)
  | .subsetOf x y => .decided (decide (S x ⊆ S y))
  | .intersects x y => .decided (decide (S x ∩ S y).Nonempty)

/-- Every operation of the sequence meets its precondition. -/
def AllAllowed (lt : α → α → Bool) : (ℕ → Set α) → List (Op α) → Prop
  | _, [] => True
  | S, op :: ops => op.Allowed lt S ∧ AllAllowed lt (op.after lt S) ops

def setsAfter (lt : α → α → Bool) (S : ℕ → Set α) (ops : List (Op α)) : ℕ → Set α :=
  ops.foldl (fun S op => op.after lt S) S

noncomputable def answers (lt : α → α → Bool) : (ℕ → Set α) → List (Op α) → List Answer
  | _, [] => []
  | S, op :: ops => op.answer lt S :: answers lt (op.after lt S) ops

/-! ### One operation -/

theorem represents_update {vecs : ℕ → List α} {vec : List α} {x : ℕ} {T : Set α}
    (hvecs : ∀ z, Sorted lt (vecs z)) (hvec : Represents lt vec T) (z : ℕ) :
    Represents lt (Function.update vecs x vec z)
      (Function.update (fun z => elements (vecs z)) x T z) := by
  by_cases hz : z = x
  · subst hz
    simpa using hvec
  · simpa [hz] using represents_elements (hvecs z)

variable [DecidableEq α]

/-- One operation answers as the operation on the sets does, and leaves the vectors of the sets
that this one leaves. -/
theorem step_represents (h : StrictTotal lt) {vecs : ℕ → List α} (hvecs : ∀ z, Sorted lt (vecs z))
    (op : Op α) (hallowed : op.Allowed lt fun z => elements (vecs z)) :
    ∃ vecs', step lt vecs op = some (vecs', op.answer lt fun z => elements (vecs z)) ∧
      ∀ z, Represents lt (vecs' z) (op.after lt (fun z => elements (vecs z)) z) := by
  have hsame : ∀ z, Represents lt (vecs z) (elements (vecs z)) :=
    fun z => represents_elements (hvecs z)
  cases op with
  | construct x range =>
      obtain ⟨vec, hrun, hvec⟩ := construct_represents h range
      exact ⟨_, by rw [step, hrun, Option.map_some]; rfl, represents_update hvecs hvec⟩
  | insert x t =>
      refine ⟨_, ?_, represents_update hvecs (represents_insert (t := t) h (hvecs x))⟩
      rw [step, insertElement_eq h (hvecs x), Option.map_some]
      simp [Op.answer]
  | insertGeq x t =>
      obtain ⟨vec, hrun, hvec⟩ := insertGeq_represents h (hvecs x) hallowed
      refine ⟨_, ?_, represents_update hvecs hvec⟩
      rw [step, hrun, Option.map_some]
      simp [Op.answer]
  | insertGt x t =>
      obtain ⟨vec, hrun, hvec⟩ := insertGt_represents (hvecs x) hallowed
      exact ⟨_, by rw [step, hrun, Option.map_some]; rfl, represents_update hvecs hvec⟩
  | insertSet x y =>
      refine ⟨_, ?_, represents_update hvecs (insertSet_represents h (hvecs x) (hvecs y))⟩
      rw [step, insertAll_eq h (hvecs x) (hvecs y), Option.map_some]
      rfl
  | erase x t =>
      obtain ⟨vec, hrun, hvec⟩ := eraseElement_represents (t := t) h (hvecs x)
      refine ⟨_, ?_, represents_update hvecs hvec⟩
      rw [step, hrun, Option.map_some]
      simp [Op.answer]
  | eraseAt x p =>
      obtain ⟨vec, hrun, hvec⟩ := eraseAt_represents h (hvecs x) hallowed
      exact ⟨_, by rw [step, hrun, Option.map_some]; rfl, represents_update hvecs hvec⟩
  | eraseSet x y =>
      refine ⟨_, ?_, represents_update hvecs (eraseSet_represents h (hvecs x) (hvecs y))⟩
      rw [step, eraseAll_eq h (hvecs x) (hvecs y), Option.map_some]
      rfl
  | find x t =>
      refine ⟨vecs, ?_, hsame⟩
      rw [step, find_eq h (hvecs x)]
      simp [Op.answer]
  | count x t =>
      refine ⟨vecs, ?_, hsame⟩
      rw [step, count_eq h (hvecs x)]
      simp [Op.answer]
  | subsetOf x y =>
      refine ⟨vecs, ?_, hsame⟩
      have hiff := subsetOf_iff h (hvecs x) (hvecs y)
      simp [step, Op.answer, ← hiff]
  | intersects x y =>
      refine ⟨vecs, ?_, hsame⟩
      have hiff := intersects_iff h (hvecs x) (hvecs y)
      have hnonempty : (elements (vecs x) ∩ elements (vecs y)).Nonempty ↔
          intersects lt (vecs x) (vecs y) = true := hiff.symm
      simp [step, Op.answer, hnonempty]

/-! ### Sequences -/

theorem run_represents (h : StrictTotal lt) (ops : List (Op α)) {vecs : ℕ → List α}
    {S : ℕ → Set α} (hvecs : ∀ z, Represents lt (vecs z) (S z)) (hallowed : AllAllowed lt S ops) :
    ∃ vecs', run lt vecs ops = some (vecs', answers lt S ops) ∧
      ∀ z, Represents lt (vecs' z) (setsAfter lt S ops z) := by
  induction ops generalizing vecs S with
  | nil => exact ⟨vecs, rfl, hvecs⟩
  | cons op ops ih =>
      obtain rfl : (fun z => elements (vecs z)) = S := funext fun z => (hvecs z).elements_eq
      obtain ⟨vecs₁, hstep, hvecs₁⟩ := step_represents h (fun z => (hvecs z).sorted) op hallowed.1
      obtain ⟨vecs₂, hrun, hvecs₂⟩ := ih hvecs₁ hallowed.2
      refine ⟨vecs₂, ?_, hvecs₂⟩
      rw [run, hstep, Option.bind_some]
      simp only [hrun, Option.map_some]
      rfl

/-- Starting from empty sets, the vectors stay sorted and stand for the mathematical sets, and no
assertion fails. -/
theorem run_empty_represents (h : StrictTotal lt) (ops : List (Op α))
    (hallowed : AllAllowed lt (fun _ => ∅) ops) :
    ∃ vecs, run lt (fun _ => []) ops = some (vecs, answers lt (fun _ => ∅) ops) ∧
      ∀ x, Sorted lt (vecs x) ∧ {t | t ∈ vecs x} = setsAfter lt (fun _ => ∅) ops x := by
  have hempty : ∀ z : ℕ, Represents lt ([] : List α) ∅ := fun _ =>
    ⟨List.Pairwise.nil, Set.eq_empty_of_forall_notMem fun _ => List.not_mem_nil⟩
  obtain ⟨vecs, hrun, hvecs⟩ := run_represents h ops hempty hallowed
  exact ⟨vecs, hrun, fun x => ⟨(hvecs x).sorted, (hvecs x).elements_eq⟩⟩

theorem run_empty_represents_nat :
    ∃ vecs, run (fun m n : ℕ => decide (m < n)) (fun _ => [])
        [.construct 0 [2, 1, 2], .construct 1 [3, 2], .insertSet 0 1, .insertGt 0 5, .eraseAt 0 0] =
          some (vecs, answers (fun m n => decide (m < n)) (fun _ => ∅)
            [.construct 0 [2, 1, 2], .construct 1 [3, 2], .insertSet 0 1, .insertGt 0 5,
              .eraseAt 0 0]) ∧
      ∀ x, Sorted (fun m n => decide (m < n)) (vecs x) ∧
        {t | t ∈ vecs x} = setsAfter (fun m n => decide (m < n)) (fun _ => ∅)
          [.construct 0 [2, 1, 2], .construct 1 [3, 2], .insertSet 0 1, .insertGt 0 5,
            .eraseAt 0 0] x := by
  apply run_empty_represents strictTotal_nat
  refine ⟨trivial, trivial, trivial, ?_, ?_, trivial⟩
  · intro u hu
    simp [Op.after] at hu
    rw [decide_eq_true_eq]
    omega
  · refine (Set.ncard_pos ((Set.finite_le_nat 5).subset ?_)).mpr ⟨5, by simp [Op.after]⟩
    intro u hu
    simp [Op.after] at hu
    change u ≤ 5
    omega

end Nidhugg.VecSet
