import Mathlib.Algebra.BigOperators.Group.List.Basic
import Mathlib.Order.Nat

/-! # Sequences of keyed blocks

A list of blocks, each with a key and a size. The units of a key are counted across the
sequence, and each unit belongs to the block at some position. -/

namespace BlockSequence

variable {α κ : Type*} [DecidableEq κ] (key : α → κ) (size : α → ℕ) (k : κ)

/-- The number of units of a key. -/
def total : List α → ℕ
  | [] => 0
  | b :: bs => (if key b = k then size b else 0) + total bs

/-- The positions of the blocks of a key, one for each unit. The first block is at `n`. -/
def positions (n : ℕ) : List α → List ℕ
  | [] => []
  | b :: bs => (if key b = k then List.replicate (size b) n else []) ++ positions (n + 1) bs

variable {key size k}

@[simp]
theorem total_append (xs ys : List α) :
    total key size k (xs ++ ys) = total key size k xs + total key size k ys := by
  induction xs with
  | nil => simp [total]
  | cons b bs ih => simp [total, ih, Nat.add_assoc]

theorem total_take_succ {bs : List α} {j : ℕ} {b : α} (hb : bs[j]? = some b) :
    total key size k (bs.take (j + 1)) =
      total key size k (bs.take j) + if key b = k then size b else 0 := by
  rw [List.take_add_one, hb, Option.toList_some, total_append]
  rfl

theorem total_take_le (bs : List α) {i j : ℕ} (h : i ≤ j) :
    total key size k (bs.take i) ≤ total key size k (bs.take j) := by
  have hsplit := List.take_append_drop i (bs.take j)
  rw [List.take_take, min_eq_left h] at hsplit
  rw [← hsplit, total_append]
  exact Nat.le_add_right _ _

@[simp]
theorem length_positions (n : ℕ) (bs : List α) :
    (positions key size k n bs).length = total key size k bs := by
  induction bs generalizing n with
  | nil => rfl
  | cons b bs ih =>
      simp only [positions, total, List.length_append, ih]
      split <;> simp

theorem positions_append (n : ℕ) (xs ys : List α) :
    positions key size k n (xs ++ ys) =
      positions key size k n xs ++ positions key size k (n + xs.length) ys := by
  induction xs generalizing n with
  | nil => simp [positions]
  | cons b bs ih =>
      simp only [List.cons_append, positions, ih, List.append_assoc, List.length_cons]
      rw [Nat.add_right_comm, Nat.add_assoc n]

theorem positions_concat (bs : List α) (b : α) :
    positions key size k 0 (bs ++ [b]) = positions key size k 0 bs ++
      if key b = k then List.replicate (size b) bs.length else [] := by
  simp [positions_append, positions]

theorem total_modify {f : α → α} (hkey : ∀ b, key (f b) = key b) (hsize : ∀ b, size (f b) = size b)
    (bs : List α) (i : ℕ) : total key size k (bs.modify i f) = total key size k bs := by
  induction bs generalizing i with
  | nil => simp
  | cons b bs ih =>
      cases i with
      | zero => simp [total, hkey, hsize]
      | succ i => simp [total, ih]

theorem positions_modify {f : α → α} (hkey : ∀ b, key (f b) = key b)
    (hsize : ∀ b, size (f b) = size b) (bs : List α) (i n : ℕ) :
    positions key size k n (bs.modify i f) = positions key size k n bs := by
  induction bs generalizing i n with
  | nil => simp
  | cons b bs ih =>
      cases i with
      | zero => simp [positions, hkey, hsize]
      | succ i => simp [positions, ih]

/-- Only keys and sizes matter. -/
theorem total_congr {bs cs : List α} (hkeys : bs.map key = cs.map key)
    (hsizes : bs.map size = cs.map size) : total key size k bs = total key size k cs := by
  induction bs generalizing cs with
  | nil => rw [List.map_eq_nil_iff.mp hkeys.symm]
  | cons b bs ih =>
      cases cs with
      | nil => cases hkeys
      | cons c cs =>
          rw [List.map_cons, List.map_cons, List.cons.injEq] at hkeys hsizes
          rw [total, total, hkeys.1, hsizes.1, ih hkeys.2 hsizes.2]

theorem positions_congr {bs cs : List α} (hkeys : bs.map key = cs.map key)
    (hsizes : bs.map size = cs.map size) (n : ℕ) :
    positions key size k n bs = positions key size k n cs := by
  induction bs generalizing cs n with
  | nil => rw [List.map_eq_nil_iff.mp hkeys.symm]
  | cons b bs ih =>
      cases cs with
      | nil => cases hkeys
      | cons c cs =>
          rw [List.map_cons, List.map_cons, List.cons.injEq] at hkeys hsizes
          rw [positions, positions, hkeys.1, hsizes.1, ih hkeys.2 hsizes.2]

/-- The block that holds a unit. -/
theorem getElem?_positions {n m : ℕ} {bs : List α} {i : ℕ} :
    (positions key size k n bs)[m]? = some i ↔
      ∃ j b, i = n + j ∧ bs[j]? = some b ∧ key b = k ∧ total key size k (bs.take j) ≤ m ∧
        m < total key size k (bs.take j) + size b := by
  induction bs generalizing n m with
  | nil => simp [positions]
  | cons b bs ih =>
      have hlen : (if key b = k then List.replicate (size b) n else []).length =
          if key b = k then size b else 0 := by split <;> simp
      by_cases hm : m < if key b = k then size b else 0
      · have hb : key b = k := by
          by_contra hb
          simp [hb] at hm
        rw [if_pos hb] at hm
        simp only [positions, hb, if_true]
        rw [List.getElem?_append_left (by simpa using hm), List.getElem?_replicate, if_pos hm]
        constructor
        · intro hi
          exact ⟨0, b, by simpa using hi.symm, rfl, hb, by simp [total], by simpa [total] using hm⟩
        · rintro ⟨j, c, rfl, hc, -, hle, -⟩
          cases j with
          | zero => rfl
          | succ j =>
              simp only [List.take_succ_cons, total, hb, if_true] at hle
              omega
      · rw [positions, List.getElem?_append_right (by rw [hlen]; omega), hlen, ih]
        constructor
        · rintro ⟨j, c, rfl, hc, hk, hle, hlt⟩
          refine ⟨j + 1, c, by omega, hc, hk, ?_, ?_⟩
          · simp only [List.take_succ_cons, total]
            omega
          · simp only [List.take_succ_cons, total]
            omega
        · rintro ⟨j, c, rfl, hc, hk, hle, hlt⟩
          cases j with
          | zero =>
              obtain rfl : b = c := by simpa using hc
              simp only [List.take_zero, total, hk, if_true] at hm hlt
              omega
          | succ j =>
              simp only [List.take_succ_cons, total] at hle hlt
              exact ⟨j, c, by omega, hc, hk, by omega, by omega⟩

end BlockSequence
