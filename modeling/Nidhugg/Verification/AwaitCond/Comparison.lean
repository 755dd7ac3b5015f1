import Nidhugg.Verification.RmwAction.Commutation

/-! # The comparison of an await

The two comparisons of byte strings order the words that the strings encode, so that a condition
tests the relation of integers that its operator names. -/

namespace Nidhugg.TsoTraceBuilder

open RmwAction (memcmp apcmp sapcmp signBit mostFirst word)

variable {n : ℕ}

/-- The relation of integers that an operator stands for. -/
def Satisfies {w : ℕ} (op : AwaitOp) (x y : BitVec w) : Prop :=
  match op with
  | .eq => x.toNat = y.toNat
  | .ne => x.toNat ≠ y.toNat
  | .ult => x.toNat < y.toNat
  | .ule => x.toNat ≤ y.toNat
  | .ugt => x.toNat > y.toNat
  | .uge => x.toNat ≥ y.toNat
  | .slt => x.toInt < y.toInt
  | .sle => x.toInt ≤ y.toInt
  | .sgt => x.toInt > y.toInt
  | .sge => x.toInt ≥ y.toInt

/-! ### The comparisons as orders -/

theorem memcmp_swap (xs ys : List Byte) : memcmp ys xs = (memcmp xs ys).swap := by
  induction xs generalizing ys with
  | nil => cases ys <;> rfl
  | cons x xs ih =>
      cases ys with
      | nil => rfl
      | cons y ys =>
          rw [memcmp, memcmp, ih]
          simp only [BitVec.lt_def]
          rcases lt_trichotomy x.toNat y.toNat with h | h | h
          · simp [h, h.not_gt]
          · simp [h]
          · simp [h, h.not_gt]

theorem apcmp_swap (bigEndian : Bool) (xs ys : List Byte) :
    apcmp bigEndian ys xs = (apcmp bigEndian xs ys).swap :=
  memcmp_swap _ _

theorem sapcmp_swap (bigEndian : Bool) (xs ys : List Byte) :
    sapcmp bigEndian ys xs = (sapcmp bigEndian xs ys).swap := by
  unfold sapcmp
  cases signBit bigEndian xs <;> cases signBit bigEndian ys
  · exact apcmp_swap bigEndian xs ys
  · rfl
  · rfl
  · exact apcmp_swap bigEndian xs ys

/-- A comparison that is antisymmetric is determined by when it answers that the first argument is
greater. -/
theorem eq_compare {α : Type*} [LinearOrder α] {o o' : Ordering} {x y : α} (hswap : o' = o.swap)
    (h : o = .gt ↔ y < x) (h' : o' = .gt ↔ x < y) : o = compare x y := by
  rcases lt_trichotomy x y with hlt | heq | hgt
  · rw [compare_lt_iff_lt.mpr hlt]
    rw [hswap, Ordering.swap_eq_gt] at h'
    exact h'.mpr hlt
  · rw [compare_eq_iff_eq.mpr heq]
    cases o with
    | lt => exact absurd (h'.mp hswap) heq.not_lt
    | eq => rfl
    | gt => exact absurd (h.mp rfl) heq.not_gt
  · rw [compare_gt_iff_gt.mpr hgt]
    exact h.mpr hgt

theorem apcmp_eq_compare (bigEndian : Bool) (xs ys : Bytes n) :
    apcmp bigEndian xs.1 ys.1 = compare (word bigEndian xs).toNat (word bigEndian ys).toNat := by
  have hgt := RmwAction.apcmp_eq_gt bigEndian (xs.2.trans ys.2.symm)
  have hlt := RmwAction.apcmp_eq_gt bigEndian (ys.2.trans xs.2.symm)
  rw [← RmwAction.toNat_word, ← RmwAction.toNat_word] at hgt hlt
  exact eq_compare (apcmp_swap bigEndian xs.1 ys.1) hgt hlt

theorem sapcmp_eq_compare (bigEndian : Bool) (xs ys : Bytes n) :
    sapcmp bigEndian xs.1 ys.1 = compare (word bigEndian xs).toInt (word bigEndian ys).toInt := by
  have hgt := RmwAction.sapcmp_eq_gt bigEndian (xs.2.trans ys.2.symm)
  have hlt := RmwAction.sapcmp_eq_gt bigEndian (ys.2.trans xs.2.symm)
  rw [← RmwAction.toInt_word, ← RmwAction.toInt_word] at hgt hlt
  exact eq_compare (sapcmp_swap bigEndian xs.1 ys.1) hgt hlt

/-! ### The condition -/

/-- The bytes are compared as the numbers that they encode. -/
theorem satisfiedBy_eq (bigEndian : Bool) (cond : AwaitCond n) (data : Bytes n) :
    cond.satisfiedBy bigEndian data.1 =
      AssumeAwait.satisfiedBy cond.op (word bigEndian cond.operand) (word bigEndian data) := by
  have hunsigned := apcmp_eq_compare bigEndian data cond.operand
  have hsigned := sapcmp_eq_compare bigEndian data cond.operand
  rw [AwaitCond.satisfiedBy, AssumeAwait.satisfiedByBytes, AssumeAwait.satisfiedBy]
  generalize word bigEndian data = x at *
  generalize word bigEndian cond.operand = y at *
  cases (AssumeAwait.opBits cond.op).getLsbD 3 with
  | false =>
      simp only [Bool.false_eq_true, if_false, hunsigned, BitVec.ult, ← BitVec.toNat_inj]
      rcases lt_trichotomy x.toNat y.toNat with h | h | h
      · simp [compare_lt_iff_lt.mpr h, h]
      · simp [h]
      · simp [compare_gt_iff_gt.mpr h, h.ne', h.not_gt]
  | true =>
      simp only [if_true, hsigned, BitVec.slt, ← BitVec.toInt_inj]
      rcases lt_trichotomy x.toInt y.toInt with h | h | h
      · simp [compare_lt_iff_lt.mpr h, h]
      · simp [h]
      · simp [compare_gt_iff_gt.mpr h, h.ne', h.not_gt]

/-- A condition holds of a byte string exactly if its operator relates the integers that the string
and the operand encode. -/
theorem satisfiedBy_iff (bigEndian : Bool) (cond : AwaitCond n) (data : Bytes n) :
    cond.satisfiedBy bigEndian data.1 = true ↔
      Satisfies cond.op (word bigEndian data) (word bigEndian cond.operand) := by
  rw [satisfiedBy_eq]
  generalize word bigEndian data = x
  generalize word bigEndian cond.operand = y
  cases cond.op with
  | eq | ne | ult | ule | ugt | uge =>
      simp only [AssumeAwait.satisfiedBy, AssumeAwait.opBits, Satisfies, BitVec.ult,
        ← BitVec.toNat_inj]
      grind
  | slt | sle | sgt | sge =>
      simp only [AssumeAwait.satisfiedBy, AssumeAwait.opBits, Satisfies, BitVec.slt,
        ← BitVec.toInt_inj]
      grind

end Nidhugg.TsoTraceBuilder
