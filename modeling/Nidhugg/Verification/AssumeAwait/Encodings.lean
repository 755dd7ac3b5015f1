import Nidhugg.Model.AssumeAwait
import Nidhugg.Verification.LoopPurity.Predicates
import Mathlib.Data.List.Induction

/-! # How truth values are encoded in integers

The pass looks through extensions, complements and comparisons with constants as if they all kept
the encoding of truth values. What matters of an integer is whether it is zero, has all bits set, or
neither; each layer acts on these patterns. -/

namespace Nidhugg.AssumeAwait

open LoopPurity (ICmp checkPredicateSatisfaction)

/-! ### Patterns -/

inductive Pattern where
  | zero
  | ones
  | mixed
deriving DecidableEq

def patternOf {w : ℕ} (x : BitVec w) : Pattern :=
  if x = 0 then .zero else if x = BitVec.allOnes w then .ones else .mixed

def Pattern.ofBool (b : Bool) : Pattern := if b then .ones else .zero

theorem allOnes_ne_zero {w : ℕ} (hw : 0 < w) : BitVec.allOnes w ≠ 0 := by
  intro h
  have hbit := congrArg (fun x : BitVec w => x.getLsbD 0) h
  simp [hw] at hbit

theorem patternOf_eq_zero_iff {w : ℕ} {x : BitVec w} : patternOf x = .zero ↔ x = 0 := by
  rw [patternOf]
  split
  · simp_all
  · split
    · simp_all
    · simp_all

theorem patternOf_eq_ones_iff {w : ℕ} (hw : 0 < w) {x : BitVec w} :
    patternOf x = .ones ↔ x = BitVec.allOnes w := by
  have hne := allOnes_ne_zero hw
  rw [patternOf]
  split
  · rename_i hx
    rw [hx]
    simp only [reduceCtorEq, false_iff]
    exact Ne.symm hne
  · split
    · simp_all
    · simp_all

/-- The pattern of a value is determined by whether it is zero and whether it has all bits set. -/
theorem patternOf_eq {w : ℕ} (hw : 0 < w) {x : BitVec w} {pattern : Pattern}
    (hzero : x = 0 ↔ pattern = .zero) (hones : x = BitVec.allOnes w ↔ pattern = .ones) :
    patternOf x = pattern := by
  cases pattern with
  | zero => exact patternOf_eq_zero_iff.mpr (hzero.mpr rfl)
  | ones => exact (patternOf_eq_ones_iff hw).mpr (hones.mpr rfl)
  | mixed =>
      have hx : ¬x = 0 := fun hx => nomatch hzero.mp hx
      have hx' : ¬x = BitVec.allOnes w := fun hx => nomatch hones.mp hx
      rw [patternOf, if_neg hx, if_neg hx']

theorem patternOf_ofBool (b : Bool) : patternOf (BitVec.ofBool b) = .ofBool b := by
  cases b with
  | true => rfl
  | false => rfl

/-! ### Layers -/

/-- What the pass looks through between a test and the argument of the assumption. -/
inductive Layer where
  | zeroExtend
  | signExtend
  | complement
  | equalsZero
  | equalsOnes
  | differsZero
  | differsOnes
  /-- The disjunction with a false test of the monitor. -/
  | disjunction
deriving DecidableEq

/-- Whether the pass negates the test. -/
def Layer.negates : Layer → Bool
  | .complement | .equalsZero | .differsOnes => true
  | _ => false

/-- The pattern of the result. -/
def Layer.apply : Pattern → Layer → Pattern
  | .zero, .zeroExtend => .zero
  | _, .zeroExtend => .mixed
  | .zero, .complement => .ones
  | .ones, .complement => .zero
  | pattern, .equalsZero => .ofBool (pattern = .zero)
  | pattern, .equalsOnes => .ofBool (pattern = .ones)
  | pattern, .differsZero => .ofBool (pattern ≠ .zero)
  | pattern, .differsOnes => .ofBool (pattern ≠ .ones)
  | pattern, _ => pattern

theorem patternOf_setWidth {v w : ℕ} (h : 0 < v ∧ v < w) (x : BitVec v) :
    patternOf (x.setWidth w) = Layer.apply (patternOf x) .zeroExtend := by
  have hzero : x.setWidth w = 0 ↔ x = 0 := by
    constructor
    · intro heq
      have hnat := congrArg BitVec.toNat heq
      rw [BitVec.toNat_setWidth_of_le (Nat.le_of_lt h.2)] at hnat
      exact BitVec.eq_of_toNat_eq hnat
    · rintro rfl
      simp
  have hones : x.setWidth w ≠ BitVec.allOnes w := by
    intro heq
    have hbit := congrArg (fun y : BitVec w => y.getLsbD v) heq
    simp [h.2] at hbit
  apply patternOf_eq (Nat.lt_trans h.1 h.2)
  · rw [hzero, ← patternOf_eq_zero_iff]
    cases patternOf x with
    | zero => simp [Layer.apply]
    | ones => simp [Layer.apply]
    | mixed => simp [Layer.apply]
  · cases patternOf x with
    | zero => simp [Layer.apply, hones]
    | ones => simp [Layer.apply, hones]
    | mixed => simp [Layer.apply, hones]

theorem patternOf_signExtend {v w : ℕ} (h : 0 < v ∧ v < w) (x : BitVec v) :
    patternOf (x.signExtend w) = Layer.apply (patternOf x) .signExtend := by
  have hback : ∀ y : BitVec v, (y.signExtend w).setWidth v = y := by
    intro y
    apply BitVec.eq_of_getLsbD_eq
    intro i hi
    rw [BitVec.getLsbD_setWidth, BitVec.getLsbD_signExtend]
    simp [hi, Nat.lt_trans hi h.2]
  have hinjective : ∀ y : BitVec v, x.signExtend w = y.signExtend w ↔ x = y := by
    intro y
    constructor
    · intro heq
      rw [← hback x, heq, hback]
    · rintro rfl
      rfl
  have hzero : (0 : BitVec v).signExtend w = 0 := by
    apply BitVec.eq_of_getLsbD_eq
    intro i hi
    rw [BitVec.getLsbD_signExtend]
    simp
  have hones : (BitVec.allOnes v).signExtend w = BitVec.allOnes w := by
    apply BitVec.eq_of_getLsbD_eq
    intro i hi
    rw [BitVec.getLsbD_signExtend]
    by_cases hiv : i < v
    · simp [hi, hiv]
    · simp [hi, hiv, BitVec.msb_allOnes h.1]
  have hpattern : Layer.apply (patternOf x) .signExtend = patternOf x := by
    cases patternOf x with
    | zero => rfl
    | ones => rfl
    | mixed => rfl
  rw [hpattern]
  apply patternOf_eq (Nat.lt_trans h.1 h.2)
  · rw [← hzero, hinjective, patternOf_eq_zero_iff]
  · rw [← hones, hinjective, patternOf_eq_ones_iff h.1]

theorem patternOf_not {w : ℕ} (hw : 0 < w) (x : BitVec w) :
    patternOf (~~~x) = Layer.apply (patternOf x) .complement := by
  have hzero : ~~~x = 0 ↔ x = BitVec.allOnes w := by
    rw [← BitVec.not_inj, BitVec.not_not]
    simp
  have hones : ~~~x = BitVec.allOnes w ↔ x = 0 := by
    rw [← BitVec.not_inj, BitVec.not_not]
    simp
  apply patternOf_eq hw
  · rw [hzero, ← patternOf_eq_ones_iff hw]
    cases patternOf x with
    | zero => simp [Layer.apply]
    | ones => simp [Layer.apply]
    | mixed => simp [Layer.apply]
  · rw [hones, ← patternOf_eq_zero_iff]
    cases patternOf x with
    | zero => simp [Layer.apply]
    | ones => simp [Layer.apply]
    | mixed => simp [Layer.apply]

theorem eval_of_isFalse {w : ℕ} {v : Value w} (h : v.isFalse = true) (σ : Valuation) :
    v.eval σ = 0 := by
  cases v with
  | const c => exact of_decide_eq_true h
  | _ => cases h

theorem eval_of_isTrue {w : ℕ} {v : Value w} (h : v.isTrue = true) (σ : Valuation) :
    v.eval σ = BitVec.allOnes w := by
  cases v with
  | const c => exact of_decide_eq_true h
  | _ => cases h

theorem check_eq {w : ℕ} (x y : BitVec w) :
    checkPredicateSatisfaction ⟨w, x⟩ .eq ⟨w, y⟩ = decide (x = y) := by
  rw [checkPredicateSatisfaction]
  congr 1
  simp

theorem check_ne {w : ℕ} (x y : BitVec w) :
    checkPredicateSatisfaction ⟨w, x⟩ .ne ⟨w, y⟩ = decide (x ≠ y) := by
  rw [checkPredicateSatisfaction]
  congr 1
  simp

/-- The layer of a comparison for equality with a constant. -/
def equalsLayer (isFalse : Bool) : Layer := if isFalse then .equalsZero else .equalsOnes

def differsLayer (isFalse : Bool) : Layer := if isFalse then .differsZero else .differsOnes

theorem patternOf_equals {w : ℕ} {y : Value w} (hw : 0 < w) (h : y.isFalse = true ∨ y.isTrue = true)
    (x : BitVec w) (σ : Valuation) :
    patternOf (BitVec.ofBool (decide (x = y.eval σ))) =
      Layer.apply (patternOf x) (equalsLayer y.isFalse) := by
  rw [patternOf_ofBool, equalsLayer]
  cases hfalse : y.isFalse with
  | true =>
      rw [eval_of_isFalse hfalse, if_pos rfl]
      simp only [← patternOf_eq_zero_iff]
      cases patternOf x with
      | zero => rfl
      | ones => rfl
      | mixed => rfl
  | false =>
      rw [hfalse] at h
      rw [eval_of_isTrue (h.resolve_left (by simp)), if_neg (by simp)]
      simp only [← patternOf_eq_ones_iff hw]
      cases patternOf x with
      | zero => rfl
      | ones => rfl
      | mixed => rfl

theorem patternOf_differs {w : ℕ} {y : Value w} (hw : 0 < w)
    (h : y.isFalse = true ∨ y.isTrue = true) (x : BitVec w) (σ : Valuation) :
    patternOf (BitVec.ofBool (decide (x ≠ y.eval σ))) =
      Layer.apply (patternOf x) (differsLayer y.isFalse) := by
  rw [patternOf_ofBool, differsLayer]
  cases hfalse : y.isFalse with
  | true =>
      rw [eval_of_isFalse hfalse, if_pos rfl]
      simp only [ne_eq, ← patternOf_eq_zero_iff]
      cases patternOf x with
      | zero => rfl
      | ones => rfl
      | mixed => rfl
  | false =>
      rw [hfalse] at h
      rw [eval_of_isTrue (h.resolve_left (by simp)), if_neg (by simp)]
      simp only [ne_eq, ← patternOf_eq_ones_iff hw]
      cases patternOf x with
      | zero => rfl
      | ones => rfl
      | mixed => rfl

/-! ### Readings -/

/-- Whether a sequence of layers negates. -/
def negated (ls : List Layer) : Bool := ls.foldl (fun n l => xor n l.negates) false

/-- The pattern at the end of a sequence of layers. -/
def patternAfter (ls : List Layer) (b : Bool) : Pattern := ls.foldl Layer.apply (.ofBool b)

theorem negated_append (ls : List Layer) (l : Layer) :
    negated (ls ++ [l]) = xor (negated ls) l.negates := by
  rw [negated, List.foldl_append]
  rfl

theorem patternAfter_append (ls : List Layer) (l : Layer) (b : Bool) :
    patternAfter (ls ++ [l]) b = Layer.apply (patternAfter ls b) l := by
  rw [patternAfter, List.foldl_append]
  rfl

/-- How a truth value is encoded. -/
inductive Reading where
  /-- All bits for true and zero for false. -/
  | ones
  /-- Neither zero nor all bits for true, and zero for false. -/
  | extended
  /-- All bits for true, and neither zero nor all bits for false. -/
  | complemented
  /-- Zero, whatever the truth value is. -/
  | lostZero
  | lostOnes
  | lostMixed
deriving DecidableEq

def Reading.pattern : Reading → Bool → Pattern
  | .ones, b => .ofBool b
  | .extended, b => if b then .mixed else .zero
  | .complemented, b => if b then .ones else .mixed
  | .lostZero, _ => .zero
  | .lostOnes, _ => .ones
  | .lostMixed, _ => .mixed

/-- The encoding after a layer. -/
def Reading.step : Reading → Layer → Reading
  | .ones, .zeroExtend => .extended
  | .complemented, .zeroExtend => .lostMixed
  | .lostOnes, .zeroExtend => .lostMixed
  | .extended, .complement => .complemented
  | .complemented, .complement => .extended
  | .lostZero, .complement => .lostOnes
  | .lostOnes, .complement => .lostZero
  | .extended, .equalsZero => .ones
  | .complemented, .equalsZero => .lostZero
  | .lostZero, .equalsZero => .lostOnes
  | .lostOnes, .equalsZero => .lostZero
  | .lostMixed, .equalsZero => .lostZero
  | .extended, .equalsOnes => .lostZero
  | .complemented, .equalsOnes => .ones
  | .lostMixed, .equalsOnes => .lostZero
  | .extended, .differsZero => .ones
  | .complemented, .differsZero => .lostOnes
  | .lostMixed, .differsZero => .lostOnes
  | .extended, .differsOnes => .lostOnes
  | .complemented, .differsOnes => .ones
  | .lostZero, .differsOnes => .lostOnes
  | .lostOnes, .differsOnes => .lostZero
  | .lostMixed, .differsOnes => .lostOnes
  | reading, _ => reading

def reading (ls : List Layer) : Reading := ls.foldl Reading.step .ones

theorem apply_pattern (r : Reading) (b : Bool) (l : Layer) :
    Layer.apply (r.pattern b) l = (r.step l).pattern (xor b l.negates) := by
  cases r <;> cases b <;> cases l <;> rfl

/-- The layers turn a truth value into its reading. -/
theorem patternAfter_eq (ls : List Layer) (b : Bool) :
    patternAfter ls b = (reading ls).pattern (xor b (negated ls)) := by
  induction ls using List.reverseRecOn with
  | nil =>
      cases b with
      | true => rfl
      | false => rfl
  | append_singleton ls l ih =>
      have hreading : reading (ls ++ [l]) = (reading ls).step l := by
        rw [reading, List.foldl_append]
        rfl
      rw [patternAfter_append, ih, apply_pattern, hreading, negated_append, Bool.xor_assoc]

end Nidhugg.AssumeAwait
