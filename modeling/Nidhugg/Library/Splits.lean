import Mathlib.Data.Finset.Insert

/-! # The splits of a list

All ways to divide a list into included and excluded elements. Only some elements can be excluded,
and nothing is included that depends on an element that has been excluded before it. -/

namespace Splits

variable {α : Type*} (mayExclude : α → Bool) (depends : α → α → Bool)

/-- The splits of a list, after some elements have been included and others excluded. -/
def splits : List α → List α → List α → List (List α × List α)
  | [], included, excluded => [(included, excluded)]
  | k :: ks, included, excluded =>
      (if mayExclude k then splits ks included (excluded ++ [k]) else []) ++
        (if excluded.all (!depends k ·) then splits ks (included ++ [k]) excluded else [])

/-- The elements of a set can be excluded together. -/
structure Excludable (ks : List α) (X : Finset α) : Prop where
  allowed : ∀ x ∈ ks, x ∈ X → mayExclude x = true
  closed : ∀ k ∈ ks, k ∉ X → ∀ x ∈ ks, x ∈ X → depends k x = false

variable {mayExclude depends} {k : α} {ks : List α} {X : Finset α}

theorem Excludable.tail (h : Excludable mayExclude depends (k :: ks) X) :
    Excludable mayExclude depends ks X where
  allowed x hx := h.allowed x (List.mem_cons_of_mem k hx)
  closed l hl hlX x hx := h.closed l (List.mem_cons_of_mem k hl) hlX x (List.mem_cons_of_mem k hx)

theorem Excludable.include_head (h : Excludable mayExclude depends ks X) (hk : k ∉ X)
    (hlater : ∀ x ∈ ks, depends k x = false) : Excludable mayExclude depends (k :: ks) X where
  allowed x hx hxX := by
    cases hx with
    | head => exact absurd hxX hk
    | tail _ hx => exact h.allowed x hx hxX
  closed l hl hlX x hx hxX := by
    cases hx with
    | head => exact absurd hxX hk
    | tail _ hx =>
        cases hl with
        | head => exact hlater x hx
        | tail _ hl => exact h.closed l hl hlX x hx hxX

variable [DecidableEq α]

theorem mem_insert_iff_of_mem (hk : k ∉ ks) {x : α} (hx : x ∈ ks) : x ∈ insert k X ↔ x ∈ X := by
  rw [Finset.mem_insert, or_iff_right]
  exact fun h => hk (h ▸ hx)

theorem Excludable.exclude (h : Excludable mayExclude depends ks X) (hk : k ∉ ks)
    (hallowed : mayExclude k = true) (hclosed : ∀ l ∈ ks, l ∉ X → depends l k = false) :
    Excludable mayExclude depends (k :: ks) (insert k X) where
  allowed x hx hxX := by
    cases hx with
    | head => exact hallowed
    | tail _ hx => exact h.allowed x hx ((mem_insert_iff_of_mem hk hx).mp hxX)
  closed l hl hlX x hx hxX := by
    cases hl with
    | head => exact absurd (Finset.mem_insert_self k X) hlX
    | tail _ hl =>
        rw [mem_insert_iff_of_mem hk hl] at hlX
        cases hx with
        | head => exact hclosed l hl hlX
        | tail _ hx => exact h.closed l hl hlX x hx ((mem_insert_iff_of_mem hk hx).mp hxX)

/-- Every split comes from a set of excluded elements. -/
theorem exists_of_mem_splits (hks : ks.Nodup)
    (hlater : ks.Pairwise fun k x => depends k x = false) {included excluded : List α}
    {s : List α × List α} (hs : s ∈ splits mayExclude depends ks included excluded) :
    ∃ X, (∀ x ∈ X, x ∈ ks) ∧ Excludable mayExclude depends ks X ∧
      (∀ k ∈ ks, k ∉ X → ∀ x ∈ excluded, depends k x = false) ∧
      s = (included ++ ks.filter (· ∉ X), excluded ++ ks.filter (· ∈ X)) := by
  induction ks generalizing included excluded with
  | nil => exact ⟨∅, by simp, ⟨by simp, by simp⟩, by simp, by simpa [splits] using hs⟩
  | cons k ks ih =>
      have hk : k ∉ ks := (List.nodup_cons.mp hks).1
      have hkx : ∀ x ∈ ks, depends k x = false := (List.pairwise_cons.mp hlater).1
      have ih := @ih (List.nodup_cons.mp hks).2 (List.pairwise_cons.mp hlater).2
      rw [splits] at hs
      cases List.mem_append.mp hs with
      | inl hs =>
          split at hs
          · rename_i hallowed
            obtain ⟨X, hsubset, hX, hdep, rfl⟩ := ih hs
            refine ⟨insert k X, ?_, hX.exclude hk hallowed ?_, ?_, ?_⟩
            · intro x hx
              cases Finset.mem_insert.mp hx with
              | inl hx => simp [hx]
              | inr hx => exact List.mem_cons_of_mem k (hsubset x hx)
            · exact fun l hl hlX => hdep l hl hlX k (by simp)
            · intro l hl hlX x hx
              cases hl with
              | head => exact absurd (Finset.mem_insert_self k X) hlX
              | tail _ hl =>
                  rw [mem_insert_iff_of_mem hk hl] at hlX
                  exact hdep l hl hlX x (List.mem_append_left _ hx)
            · have hin : ks.filter (· ∈ insert k X) = ks.filter (· ∈ X) :=
                List.filter_congr fun x hx => by simp only [mem_insert_iff_of_mem hk hx]
              have hout : ks.filter (· ∉ insert k X) = ks.filter (· ∉ X) :=
                List.filter_congr fun x hx => by simp only [mem_insert_iff_of_mem hk hx]
              rw [List.filter_cons_of_neg (by simp), List.filter_cons_of_pos (by simp), hin, hout,
                List.append_assoc, List.singleton_append]
          · cases hs
      | inr hs =>
          split at hs
          · rename_i hall
            simp only [List.all_eq_true, Bool.not_eq_true'] at hall
            obtain ⟨X, hsubset, hX, hdep, rfl⟩ := ih hs
            have hkX : k ∉ X := fun h => hk (hsubset k h)
            refine ⟨X, ?_, hX.include_head hkX hkx, ?_, by simp [hkX]⟩
            · exact fun x hx => List.mem_cons_of_mem k (hsubset x hx)
            · intro l hl hlX
              cases hl with
              | head => exact hall
              | tail _ hl => exact hdep l hl hlX
          · cases hs

theorem mem_splits_of_excludable (hX : Excludable mayExclude depends ks X)
    {included excluded : List α}
    (hdep : ∀ k ∈ ks, k ∉ X → ∀ x ∈ excluded, depends k x = false) :
    (included ++ ks.filter (· ∉ X), excluded ++ ks.filter (· ∈ X)) ∈
      splits mayExclude depends ks included excluded := by
  induction ks generalizing included excluded with
  | nil => simp [splits]
  | cons k ks ih =>
      have hrest : ∀ l ∈ ks, l ∉ X → ∀ x ∈ excluded, depends l x = false :=
        fun l hl => hdep l (List.mem_cons_of_mem k hl)
      rw [splits, List.mem_append]
      by_cases hk : k ∈ X
      · have hclosed : ∀ l ∈ ks, l ∉ X → ∀ x ∈ excluded ++ [k], depends l x = false := by
          intro l hl hlX x hx
          cases List.mem_append.mp hx with
          | inl hx => exact hrest l hl hlX x hx
          | inr hx =>
              rw [List.mem_singleton.mp hx]
              exact hX.closed l (List.mem_cons_of_mem k hl) hlX k List.mem_cons_self hk
        left
        rw [if_pos (hX.allowed k List.mem_cons_self hk)]
        simpa [hk] using ih hX.tail hclosed
      · have hall : excluded.all (!depends k ·) = true := by
          simpa using hdep k List.mem_cons_self hk
        right
        rw [if_pos hall]
        have hmem := @ih hX.tail (included ++ [k]) excluded hrest
        simpa [hk] using hmem

/-- The splits of a list from the start. -/
theorem mem_splits_iff (hks : ks.Nodup) (hlater : ks.Pairwise fun k x => depends k x = false)
    (s : List α × List α) :
    s ∈ splits mayExclude depends ks [] [] ↔
      ∃ X, (∀ x ∈ X, x ∈ ks) ∧ Excludable mayExclude depends ks X ∧
        s = (ks.filter (· ∉ X), ks.filter (· ∈ X)) := by
  constructor
  · intro hs
    obtain ⟨X, hsubset, hX, -, heq⟩ := exists_of_mem_splits hks hlater hs
    exact ⟨X, hsubset, hX, heq⟩
  · rintro ⟨X, -, hX, rfl⟩
    exact mem_splits_of_excludable hX (by simp)

omit [DecidableEq α] in
theorem excluded_of_mem_splits {included excluded : List α} {s : List α × List α}
    (hs : s ∈ splits mayExclude depends ks included excluded) :
    ∃ xs, s.2 = excluded ++ xs ∧ ∀ x ∈ xs, x ∈ ks := by
  induction ks generalizing included excluded with
  | nil =>
      cases List.mem_singleton.mp hs
      exact ⟨[], by simp, by simp⟩
  | cons k ks ih =>
      rw [splits] at hs
      cases List.mem_append.mp hs with
      | inl hs =>
          split at hs
          · obtain ⟨xs, heq, hxs⟩ := ih hs
            refine ⟨k :: xs, by simp [heq], fun x hx => ?_⟩
            cases hx with
            | head => exact List.mem_cons_self
            | tail _ hx => exact List.mem_cons_of_mem k (hxs x hx)
          · cases hs
      | inr hs =>
          split at hs
          · obtain ⟨xs, heq, hxs⟩ := ih hs
            exact ⟨xs, heq, fun x hx => List.mem_cons_of_mem k (hxs x hx)⟩
          · cases hs

omit [DecidableEq α] in
/-- Splits differ in what they exclude. -/
theorem nodup_splits (hks : ks.Nodup) (included excluded : List α) :
    ((splits mayExclude depends ks included excluded).map (·.2)).Nodup := by
  induction ks generalizing included excluded with
  | nil => simp [splits]
  | cons k ks ih =>
      have hk : k ∉ ks := (List.nodup_cons.mp hks).1
      have ih := ih (List.nodup_cons.mp hks).2
      rw [splits, List.map_append, List.nodup_append]
      refine ⟨?_, ?_, ?_⟩
      · split
        · exact ih included (excluded ++ [k])
        · simp
      · split
        · exact ih (included ++ [k]) excluded
        · simp
      · intro e he e' he' heq
        obtain ⟨s, hs, rfl⟩ := List.mem_map.mp he
        obtain ⟨s', hs', rfl⟩ := List.mem_map.mp he'
        split at hs
        · split at hs'
          · -- Only the first one excludes `k`.
            obtain ⟨xs, hxs, -⟩ := excluded_of_mem_splits hs
            obtain ⟨ys, hys, hmem⟩ := excluded_of_mem_splits hs'
            rw [hxs, hys, List.append_assoc, List.append_cancel_left_eq] at heq
            exact hk (hmem k (heq ▸ List.mem_cons_self))
          · cases hs'
        · cases hs

end Splits
