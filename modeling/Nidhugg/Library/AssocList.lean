import Mathlib.Data.List.Basic

/-! # Association lists

Writing the value of a key in place or adding it at any position, and what that does to
lookups and to the keys. -/

namespace AssocList

variable {K T : Type*}

def keys (l : List (K × T)) : List K := l.map Prod.fst

@[simp]
theorem keys_nil : keys ([] : List (K × T)) = [] := rfl

@[simp]
theorem keys_cons (e : K × T) (l : List (K × T)) : keys (e :: l) = e.1 :: keys l := rfl

@[simp]
theorem keys_append (l l' : List (K × T)) : keys (l ++ l') = keys l ++ keys l' :=
  List.map_append

theorem lookup_cons_of_ne [DecidableEq K] {k x : K} (h : x ≠ k) (v : T) (l : List (K × T)) :
    ((k, v) :: l).lookup x = l.lookup x := by
  rw [List.lookup_cons, beq_eq_false_iff_ne.mpr h]

theorem lookup_eq_none_iff [DecidableEq K] {k : K} {l : List (K × T)} :
    l.lookup k = none ↔ k ∉ keys l := by
  induction l with
  | nil => simp
  | cons e l ih =>
      obtain ⟨k', v⟩ := e
      by_cases h : k = k'
      · simp [h]
      · simp [lookup_cons_of_ne h, h, ih]

theorem lookup_of_mem [DecidableEq K] {k : K} {v : T} {l : List (K × T)} (hnodup : (keys l).Nodup)
    (hmem : (k, v) ∈ l) : l.lookup k = some v := by
  induction l with
  | nil => simp at hmem
  | cons e l ih =>
      rw [keys_cons, List.nodup_cons] at hnodup
      cases hmem with
      | head => simp
      | tail _ hmem =>
          have hne : k ≠ e.1 := by
            intro heq
            exact hnodup.1 (heq ▸ List.mem_map_of_mem hmem)
          exact (lookup_cons_of_ne hne e.2 l).trans (ih hnodup.2 hmem)

def erase [DecidableEq K] (l : List (K × T)) (k : K) : List (K × T) := l.filter fun e => e.1 ≠ k

/-- Writes the value of a key. -/
def insert [DecidableEq K] (l : List (K × T)) (k : K) (v : T) : List (K × T) := (k, v) :: erase l k

theorem lookup_erase [DecidableEq K] (l : List (K × T)) (k x : K) :
    (erase l k).lookup x = if x = k then none else l.lookup x := by
  induction l with
  | nil => simp [erase]
  | cons e l ih =>
      obtain ⟨k', v⟩ := e
      by_cases hk : k' = k
      · subst hk
        rw [erase, List.filter_cons_of_neg (by simp)]
        by_cases hx : x = k'
        · rw [if_pos hx] at ih ⊢
          exact ih
        · rw [if_neg hx] at ih ⊢
          rw [lookup_cons_of_ne hx]
          exact ih
      · rw [erase, List.filter_cons_of_pos (by simpa using hk)]
        by_cases hx : x = k'
        · subst hx
          simp [hk]
        · rw [lookup_cons_of_ne hx, lookup_cons_of_ne hx]
          exact ih

theorem lookup_insert [DecidableEq K] (l : List (K × T)) (k x : K) (v : T) :
    (insert l k v).lookup x = if x = k then some v else l.lookup x := by
  by_cases hx : x = k
  · simp [insert, hx]
  · rw [insert, lookup_cons_of_ne hx, lookup_erase, if_neg hx, if_neg hx]

theorem mem_of_lookup [DecidableEq K] {k : K} {v : T} {l : List (K × T)}
    (h : l.lookup k = some v) : (k, v) ∈ l := by
  induction l with
  | nil => simp at h
  | cons e l ih =>
      obtain ⟨k', v'⟩ := e
      by_cases hk : k = k'
      · subst hk
        simp only [List.lookup_cons_self, Option.some.injEq] at h
        simp [h]
      · rw [lookup_cons_of_ne hk] at h
        exact List.mem_cons_of_mem _ (ih h)

theorem mem_insert [DecidableEq K] {l : List (K × T)} {k : K} {v : T} {e : K × T} :
    e ∈ insert l k v ↔ e = (k, v) ∨ (e ∈ l ∧ e.1 ≠ k) := by
  simp [insert, erase]

theorem mem_erase [DecidableEq K] {l : List (K × T)} {k : K} {e : K × T} :
    e ∈ erase l k ↔ e ∈ l ∧ e.1 ≠ k := by
  simp [erase]

/-- `l'` is `l` with the value of `k` written: in place if the key is there, else as a new
element that starts from `init`. The flag tells whether the key is new. -/
inductive Upserts (k : K) (write : T → T) (init : T) :
    List (K × T) → List (K × T) → Bool → Prop where
  | found (l : List (K × T)) (v : T) (r : List (K × T)) :
      k ∉ keys l → Upserts k write init (l ++ (k, v) :: r) (l ++ (k, write v) :: r) false
  | added (l r : List (K × T)) :
      k ∉ keys (l ++ r) → Upserts k write init (l ++ r) (l ++ (k, write init) :: r) true

namespace Upserts

variable {k : K} {write : T → T} {init : T} {l l' : List (K × T)} {new : Bool}

theorem append (h : Upserts k write init l l' new) {a b : List (K × T)} (ha : k ∉ keys a)
    (hb : k ∉ keys b) : Upserts k write init (a ++ l ++ b) (a ++ l' ++ b) new := by
  cases h with
  | found l v r hl =>
      have hal : k ∉ keys (a ++ l) := by simp [ha, hl]
      simpa using (found (a ++ l) v (r ++ b) hal : Upserts k write init _ _ _)
  | added l r hlr =>
      have hall : k ∉ keys (a ++ l ++ (r ++ b)) := by
        simp only [keys_append, List.mem_append] at hlr ⊢
        tauto
      simpa using (added (a ++ l) (r ++ b) hall : Upserts k write init _ _ _)

theorem new_iff (h : Upserts k write init l l' new) : new = true ↔ k ∉ keys l := by
  cases h with
  | found l v r hl => simp
  | added l r hlr => simpa using hlr

theorem lookup_eq [DecidableEq K] (h : Upserts k write init l l' new) (x : K) :
    l'.lookup x = if x = k then some (write ((l.lookup k).getD init)) else l.lookup x := by
  cases h with
  | found l v r hl =>
      have hnone := lookup_eq_none_iff.mpr hl
      by_cases hx : x = k
      · simp [hx, List.lookup_append, hnone]
      · simp [hx, List.lookup_append, lookup_cons_of_ne hx]
  | added l r hlr =>
      have hnone := lookup_eq_none_iff.mpr hlr
      rw [List.lookup_append, Option.or_eq_none_iff] at hnone
      by_cases hx : x = k
      · simp [hx, List.lookup_append, hnone]
      · simp [hx, List.lookup_append, lookup_cons_of_ne hx]

theorem keys_perm (h : Upserts k write init l l' new) :
    (keys l').Perm (if new then k :: keys l else keys l) := by
  cases h with
  | found l v r hl => simp
  | added l r hlr => simp

theorem mem_keys_iff (h : Upserts k write init l l' new) {x : K} :
    x ∈ keys l' ↔ x = k ∨ x ∈ keys l := by
  rw [h.keys_perm.mem_iff]
  have hnew := h.new_iff
  cases new with
  | true => simp
  | false =>
      have hk : k ∈ keys l := by simpa using hnew
      simp only [Bool.false_eq_true, if_false]
      constructor
      · exact .inr
      · rintro (rfl | hx)
        · exact hk
        · exact hx

end Upserts

end AssocList
