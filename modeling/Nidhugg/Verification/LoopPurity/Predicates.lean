import Mathlib.Data.Int.Notation
import Nidhugg.Model.LoopPurity

/-! # The meaning of comparisons

A valuation gives values to the SSA values of a loop. The meet of two comparisons implies both of
them, except for comparisons of one value with two constants in the same direction: there `meet`
returns the weaker one. It implies the other one if the value is not in the gap between them. -/

namespace Nidhugg.LoopPurity

/-- How two floating point numbers compare, with the bit of a predicate that is asked for. -/
inductive FloatOrder where
  | equal | greater | less | unordered
deriving DecidableEq

def FloatOrder.bit : FloatOrder → ℕ
  | .equal => 0
  | .greater => 1
  | .less => 2
  | .unordered => 3

def FloatOrder.swap : FloatOrder → FloatOrder
  | .equal => .equal
  | .greater => .less
  | .less => .greater
  | .unordered => .unordered

/-- Integers for the values and comparisons of the floating point numbers among them. -/
structure Valuation (constant : ℕ → Option APInt) where
  int : ℕ → APInt
  float : ℕ → ℕ → FloatOrder
  int_constant : ∀ v c, constant v = some c → int v = c
  float_swap : ∀ v w, float w v = (float v w).swap
  float_self : ∀ v, float v v = .equal ∨ float v v = .unordered

/-- Every two floating-point values are equal. -/
def Valuation.ofInt {constant : ℕ → Option APInt} (int : ℕ → APInt)
    (int_constant : ∀ v c, constant v = some c → int v = c) : Valuation constant where
  int := int
  float _ _ := .equal
  int_constant := int_constant
  float_swap _ _ := rfl
  float_self _ := .inl rfl

variable {constant : ℕ → Option APInt} (σ : Valuation constant)

/-- Null pointers stand for one number. They occur only in `FCMP_TRUE` and `FCMP_FALSE`. -/
def Valuation.intOf (v : Option ℕ) : APInt := (v.map σ.int).getD ⟨0, 0⟩

def Valuation.floatOf : Option ℕ → Option ℕ → FloatOrder
  | some v, some w => σ.float v w
  | _, _ => .equal

theorem Valuation.intOf_constant {v : Option ℕ} {c : APInt} (h : v.bind constant = some c) :
    σ.intOf v = c := by
  obtain ⟨w, rfl, hw⟩ := Option.bind_eq_some_iff.mp h
  exact σ.int_constant w c hw

theorem Valuation.floatOf_swap (v w : Option ℕ) : σ.floatOf w v = (σ.floatOf v w).swap := by
  cases v with
  | none =>
      cases w with
      | none => rfl
      | some w => rfl
  | some v =>
      cases w with
      | none => rfl
      | some w => exact σ.float_swap v w

theorem Valuation.floatOf_self (v : Option ℕ) :
    σ.floatOf v v = .equal ∨ σ.floatOf v v = .unordered := by
  cases v with
  | none => exact .inl rfl
  | some v => exact σ.float_self v

namespace BinaryPredicate

/-- A comparison is true under a valuation. -/
def holds (p : BinaryPredicate) : Bool :=
  match p.op with
  | .fcmp bits => bits.getLsbD (σ.floatOf p.lhs p.rhs).bit
  | .icmp op => checkPredicateSatisfaction (σ.intOf p.lhs) op (σ.intOf p.rhs)

variable {σ}

theorem holds_of_isTrue {p : BinaryPredicate} (h : p.isTrue) : p.holds σ := by
  have hop : p.op = .fcmp 15 := by simpa [isTrue] using h
  rw [holds, hop]
  cases σ.floatOf p.lhs p.rhs with
  | equal => rfl
  | greater => rfl
  | less => rfl
  | unordered => rfl

theorem not_holds_of_isFalse {p : BinaryPredicate} (h : p.isFalse) : p.holds σ = false := by
  have hop : p.op = .fcmp 0 := by simpa [isFalse] using h
  rw [holds, hop]
  exact BitVec.getLsbD_zero

theorem holds_static (b : Bool) : (static b).holds σ = b := by
  cases b with
  | false => exact not_holds_of_isFalse rfl
  | true => exact holds_of_isTrue rfl

theorem check_swapped (a b : APInt) (op : ICmp) :
    checkPredicateSatisfaction b op.swapped a = checkPredicateSatisfaction a op b := by
  cases op with
  | eq => exact decide_eq_decide.mpr eq_comm
  | ne => exact decide_eq_decide.mpr ne_comm
  | ugt => rfl
  | uge => rfl
  | ult => rfl
  | ule => rfl
  | sgt => rfl
  | sge => rfl
  | slt => rfl
  | sle => rfl

theorem check_inverse (a b : APInt) (op : ICmp) :
    checkPredicateSatisfaction a op.inverse b = !checkPredicateSatisfaction a op b := by
  rw [Bool.eq_iff_iff]
  cases op <;> simp [ICmp.inverse, checkPredicateSatisfaction]

theorem holds_swap (p : BinaryPredicate) : p.swap.holds σ = p.holds σ := by
  cases hop : p.op with
  | icmp op =>
      have hswap : p.swap.op = .icmp op.swapped := by rw [swap, hop, Predicate.swapped]
      rw [holds, holds, hop, hswap]
      exact check_swapped _ _ _
  | fcmp bits =>
      have hbits : ∀ (bits : BitVec 4) (order : FloatOrder),
          (bits &&& 0b1001 ||| (bits &&& 0b0010) <<< 1 ||| (bits &&& 0b0100) >>> 1).getLsbD
            order.swap.bit = bits.getLsbD order.bit := by
        intro bits order
        cases order <;> revert bits <;> decide
      have hswap : p.swap.op = (Predicate.fcmp bits).swapped := by rw [swap, hop]
      rw [holds, holds, hop, hswap, Predicate.swapped]
      dsimp only
      rw [show p.swap.lhs = p.rhs from rfl, show p.swap.rhs = p.lhs from rfl,
        σ.floatOf_swap p.lhs p.rhs]
      exact hbits _ _

theorem holds_negate (p : BinaryPredicate) : p.negate.holds σ = !p.holds σ := by
  cases hop : p.op with
  | icmp op =>
      have hneg : p.negate.op = .icmp op.inverse := by rw [negate, hop, Predicate.inverse]
      rw [holds, holds, hop, hneg]
      dsimp only
      rw [show p.negate.lhs = p.lhs from rfl, show p.negate.rhs = p.rhs from rfl]
      exact check_inverse _ _ _
  | fcmp bits =>
      have hbits : ∀ (bits : BitVec 4) (order : FloatOrder),
          (~~~bits).getLsbD order.bit = !bits.getLsbD order.bit := by
        intro bits order
        cases order <;> revert bits <;> decide
      have hneg : p.negate.op = .fcmp (~~~bits) := by rw [negate, hop, Predicate.inverse]
      rw [holds, holds, hop, hneg]
      exact hbits _ _

theorem holds_normalise (p : BinaryPredicate) : p.normalise.holds σ = p.holds σ := by
  rw [normalise]
  split
  · rename_i h
    rcases Bool.or_eq_true _ _ ▸ h with h | h
    · rw [holds_of_isTrue h, holds_of_isTrue (p := { p with lhs := none, rhs := none }) h]
    · rw [not_holds_of_isFalse h,
        not_holds_of_isFalse (p := { p with lhs := none, rhs := none }) h]
  · rfl

/-- A comparison of a value with itself. -/
theorem holds_of_equal {p : BinaryPredicate} (hrhs : p.rhs = p.lhs) :
    (isFalseWhenEqual p.op → p.holds σ = false) ∧ (isTrueWhenEqual p.op → p.holds σ = true) := by
  rw [holds, hrhs]
  cases p.op with
  | icmp op =>
      cases op <;> simp [isFalseWhenEqual, isTrueWhenEqual, checkPredicateSatisfaction]
  | fcmp bits =>
      rcases σ.floatOf_self p.lhs with horder | horder
      · rw [horder]
        dsimp only
        revert bits
        decide
      · rw [horder]
        dsimp only
        revert bits
        decide

theorem holds_collapseTautologies (p : BinaryPredicate) :
    (collapseTautologies constant p).holds σ = p.holds σ := by
  rw [collapseTautologies]
  split
  · rfl
  split
  · rename_i _ h
    rw [Bool.and_eq_true, decide_eq_true_eq] at h
    rw [holds_static, (holds_of_equal h.1).1 h.2]
  split
  · rename_i _ _ h
    rw [Bool.and_eq_true, decide_eq_true_eq] at h
    rw [holds_static, (holds_of_equal h.1).2 h.2]
  split
  · rename_i lhs rhs op hlhs hrhs hop
    rw [holds_static, holds, hop, σ.intOf_constant hlhs, σ.intOf_constant hrhs]
  · rfl

end BinaryPredicate

/-! ### Comparisons with constants -/

/-- The direction of an order comparison. -/
inductive Direction where
  | signedLess | signedGreater | unsignedLess | unsignedGreater
deriving DecidableEq

def ICmp.direction : ICmp → Option Direction
  | .eq => none
  | .ne => none
  | .ugt => some .unsignedGreater
  | .uge => some .unsignedGreater
  | .ult => some .unsignedLess
  | .ule => some .unsignedLess
  | .sgt => some .signedGreater
  | .sge => some .signedGreater
  | .slt => some .signedLess
  | .sle => some .signedLess

/-- The number that an order compares. -/
def Direction.key (c : APInt) : Direction → ℤ
  | .signedLess | .signedGreater => c.val.toInt
  | .unsignedLess | .unsignedGreater => c.val.toNat

/-- The least number on the greater side of a bound. -/
def ICmp.edge (c : APInt) : ICmp → ℤ
  | .slt | .sge | .eq | .ne => c.val.toInt
  | .sle | .sgt => c.val.toInt + 1
  | .ult | .uge => c.val.toNat
  | .ule | .ugt => c.val.toNat + 1

/-- A number is between two bounds by different constants. -/
structure Direction.Gap (dir : Direction) (v : APInt) (op op' : ICmp) (a b : APInt) : Prop where
  different : dir.key a ≠ dir.key b
  above : min (op.edge a) (op'.edge b) ≤ dir.key v
  below : dir.key v < max (op.edge a) (op'.edge b)

namespace BinaryPredicate

/-- Two comparisons, turned around so that a value that both compare is on the left. -/
def facing (p q : BinaryPredicate) : BinaryPredicate × BinaryPredicate :=
  let res := if p.rhs = q.lhs || p.rhs = q.rhs then p.swap else p
  (res, if res.lhs = q.lhs then q else q.swap)

/-- The value on the left is bounded by a constant on the right. -/
structure Bounds (constant : ℕ → Option APInt) (p : BinaryPredicate) (dir : Direction) (op : ICmp)
    (c : APInt) : Prop where
  predicate : p.op = .icmp op
  direction : op.direction = some dir
  rhs : p.rhs.bind constant = some c

/-- Two comparisons bound a value in the same direction, and it is between the bounds. -/
def InGap (σ : Valuation constant) (p q : BinaryPredicate) : Prop :=
  (facing p q).1.lhs = (facing p q).2.lhs ∧ ∃ dir op op' a b,
    Bounds constant (facing p q).1 dir op a ∧ Bounds constant (facing p q).2 dir op' b ∧
      dir.Gap (σ.intOf (facing p q).1.lhs) op op' a b

variable {σ : Valuation constant} {p q : BinaryPredicate}

theorem swap_swap (p : BinaryPredicate) : p.swap.swap = p := by
  obtain ⟨op, lhs, rhs⟩ := p
  have hop : op.swapped.swapped = op := by
    cases op with
    | icmp op =>
        cases op with
        | eq => rfl
        | ne => rfl
        | ugt => rfl
        | uge => rfl
        | ult => rfl
        | ule => rfl
        | sgt => rfl
        | sge => rfl
        | slt => rfl
        | sle => rfl
    | fcmp bits =>
        have hbits : ∀ bits : BitVec 4, (Predicate.fcmp bits).swapped.swapped = .fcmp bits := by
          decide
        exact hbits bits
  rw [swap, swap, hop]

/-- The weaker of two comparisons in one direction implies the other one as well, unless the value
is between them. -/
theorem weaker_iff {v a b : APInt} {op op' : ICmp} {dir : Direction}
    (hop : op.direction = some dir) (hop' : op'.direction = some dir) :
    ((if checkPredicateSatisfaction a op b then checkPredicateSatisfaction v op' b
      else checkPredicateSatisfaction v op a) = true →
        checkPredicateSatisfaction v op a = true ∧ checkPredicateSatisfaction v op' b = true) ↔
      ¬ dir.Gap v op op' a b := by
  have hgap : dir.Gap v op op' a b ↔ dir.key a ≠ dir.key b ∧
      min (op.edge a) (op'.edge b) ≤ dir.key v ∧ dir.key v < max (op.edge a) (op'.edge b) :=
    ⟨fun h => ⟨h.different, h.above, h.below⟩, fun h => ⟨h.1, h.2.1, h.2.2⟩⟩
  rw [hgap]
  cases dir <;> cases op <;> cases op' <;>
    simp only [ICmp.direction, reduceCtorEq, Option.some.injEq] at hop hop' <;>
    simp only [checkPredicateSatisfaction, Direction.key, ICmp.edge, decide_eq_true_eq] <;>
    split <;> simp only [decide_eq_true_eq] <;> omega

/-- Comparisons with the same or with inverted strictness have the same direction. -/
theorem direction_of_invertStrictness {op op' : ICmp} (heq : op ≠ .eq) (hne : op ≠ .ne)
    (h : op' = op ∨ .icmp op' = icmpopInvertStrictness op) :
    ∃ dir, op.direction = some dir ∧ op'.direction = some dir := by
  cases op <;> cases op' <;> first
    | exact ⟨_, rfl, rfl⟩
    | exact absurd rfl heq
    | exact absurd rfl hne
    | exact absurd h (by decide)

/-! ### The meet -/

/-- The bits of a comparison are among those of another one. -/
def below (op op' : ICmp) : Bool := icmpopToBits op &&& icmpopToBits op' = icmpopToBits op

theorem check_of_below {op op' : ICmp} (hbelow : below op op' = true) {v w : APInt}
    (h : checkPredicateSatisfaction v op w = true) : checkPredicateSatisfaction v op' w = true := by
  cases op <;> cases op' <;> first
    | exact absurd hbelow (by decide)
    | exact h
    | (simp only [checkPredicateSatisfaction, decide_eq_true_eq, ne_eq] at h ⊢
       first
        | omega
        | (subst h
           omega)
        | (intro heq
           rw [heq] at h
           omega))

/-- The bits of the result of `bits_to_icmpop` are among those of both comparisons. -/
def belowBoth (op op' : ICmp) : Predicate → Bool
  | .icmp r => below r op && below r op'
  | .fcmp bits => bits = 0

theorem bitsToIcmpop_below (op op' : ICmp) :
    belowBoth op op' (bitsToIcmpop (icmpopToBits op &&& icmpopToBits op')).1 = true := by
  cases op <;> cases op' <;> rfl

theorem meetSame_sound {res o : BinaryPredicate} (hlhs : res.lhs = o.lhs) (hrhs : res.rhs = o.rhs)
    (h : (meetSame res o).1.holds σ = true) : res.holds σ = true ∧ o.holds σ = true := by
  obtain ⟨resOp, lhs, rhs⟩ := res
  obtain ⟨oOp, _, _⟩ := o
  obtain rfl := hlhs
  obtain rfl := hrhs
  cases resOp with
  | fcmp a =>
      cases oOp with
      | fcmp b =>
          simp only [meetSame, holds_normalise] at h
          simpa [holds] using h
      | icmp b =>
          rw [meetSame, holds_static] at h
          cases h
  | icmp a =>
      cases oOp with
      | fcmp b =>
          rw [meetSame, holds_static] at h
          cases h
      | icmp b =>
          simp only [meetSame, holds_normalise] at h
          have hbelow := bitsToIcmpop_below a b
          cases hop : (bitsToIcmpop (icmpopToBits a &&& icmpopToBits b)).1 with
          | fcmp bits =>
              rw [hop, belowBoth, decide_eq_true_eq] at hbelow
              rw [hop, hbelow, not_holds_of_isFalse rfl] at h
              cases h
          | icmp r =>
              rw [hop, belowBoth, Bool.and_eq_true] at hbelow
              rw [hop] at h
              exact ⟨check_of_below hbelow.1 h, check_of_below hbelow.2 h⟩

/-- The meet of comparisons of one value with two constants. -/
theorem meetConstants_sound {res o other : BinaryPredicate} {resOp oOp : ICmp} {rr or : APInt}
    (hresOp : res.op = .icmp resOp) (hoOp : o.op = .icmp oOp) (hlhs : res.lhs = o.lhs)
    (hrr : res.rhs.bind constant = some rr) (hor : o.rhs.bind constant = some or)
    (hgap : ∀ dir, resOp.direction = some dir → oOp.direction = some dir →
      ¬ dir.Gap (σ.intOf res.lhs) resOp oOp rr or)
    (h : (meetConstants res o other resOp oOp rr or).1.holds σ = true) :
    res.holds σ = true ∧ o.holds σ = true := by
  have hres : res.holds σ = checkPredicateSatisfaction (σ.intOf res.lhs) resOp rr := by
    rw [holds, hresOp, σ.intOf_constant hrr]
  have ho : o.holds σ = checkPredicateSatisfaction (σ.intOf res.lhs) oOp or := by
    rw [holds, hoOp, σ.intOf_constant hor, hlhs]
  rw [hres, ho]
  rw [meetConstants] at h
  split at h
  · -- the value is the constant on the left
    rename_i heq
    subst heq
    split at h
    · rename_i hcheck
      rw [hres] at h
      have hvalue : σ.intOf res.lhs = rr := by simpa [checkPredicateSatisfaction] using h
      exact ⟨h, by rwa [hvalue]⟩
    · rw [holds_static] at h
      cases h
  split at h
  · rename_i _ heq
    subst heq
    split at h
    · rename_i hcheck
      rw [ho] at h
      have hvalue : σ.intOf res.lhs = or := by simpa [checkPredicateSatisfaction] using h
      exact ⟨by rwa [hvalue], h⟩
    · rw [holds_static] at h
      cases h
  split at h
  · -- the excluded constant does not satisfy the other comparison
    rename_i _ _ hne
    subst hne
    split at h
    · rw [holds_static] at h
      cases h
    · rename_i hcheck
      rw [hres] at h
      refine ⟨h, ?_⟩
      rw [checkPredicateSatisfaction, decide_eq_true_eq]
      intro hvalue
      exact hcheck (hvalue ▸ h)
  split at h
  · rename_i _ _ _ hne
    subst hne
    split at h
    · rw [holds_static] at h
      cases h
    · rename_i hcheck
      rw [ho] at h
      refine ⟨?_, h⟩
      rw [checkPredicateSatisfaction, decide_eq_true_eq]
      intro hvalue
      exact hcheck (hvalue ▸ h)
  split at h
  · -- the weaker comparison is returned
    rename_i heq _ _ hne hsame
    rw [Bool.or_eq_true, decide_eq_true_eq, decide_eq_true_eq] at hsame
    obtain ⟨dir, hdir, hdir'⟩ := direction_of_invertStrictness heq hne hsame
    apply (weaker_iff hdir hdir').mpr (hgap dir hdir hdir')
    split at h
    · rename_i hcheck
      rw [if_pos hcheck]
      rwa [ho] at h
    · rename_i hcheck
      rw [if_neg hcheck]
      rwa [hres] at h
  · rw [meetOther, holds_static] at h
    cases h

theorem meetAligned_sound {other : BinaryPredicate} (hlhs : p.lhs = q.lhs)
    (hgap : ∀ dir op op' a b, Bounds constant p dir op a → Bounds constant q dir op' b →
      ¬ dir.Gap (σ.intOf p.lhs) op op' a b)
    (h : (meetAligned constant p q other).1.holds σ = true) :
    p.holds σ = true ∧ q.holds σ = true := by
  rw [meetAligned] at h
  split at h
  · rename_i hrhs
    exact meetSame_sound hlhs hrhs h
  split at h
  · rename_i hrr hor hresOp hoOp
    refine meetConstants_sound hresOp hoOp hlhs hrr hor ?_ h
    intro dir hdir hdir'
    exact hgap dir _ _ _ _ ⟨hresOp, hdir, hrr⟩ ⟨hoOp, hdir', hor⟩
  · rw [meetOther, holds_static] at h
    cases h

/-- `meet` turns the comparisons so that they face each other. -/
theorem meet_eq (p q : BinaryPredicate) : meet constant p q =
    if q.isTrue || p = q then (p, false)
    else if p.isTrue then (q, false)
    else if (facing p q).1.lhs = (facing p q).2.lhs then
      meetAligned constant (facing p q).1 (facing p q).2 q
    else meetOther q := by
  rw [meet, facing]
  dsimp only
  by_cases hlhs : (if (p.rhs = q.lhs || p.rhs = q.rhs) = true then p.swap else p).lhs = q.lhs
  · rw [if_pos hlhs, if_pos hlhs, if_pos hlhs]
  · rw [if_neg hlhs, if_neg hlhs]
    rfl

theorem facing_left (p q : BinaryPredicate) : (facing p q).1 = p ∨ (facing p q).1 = p.swap := by
  rw [facing]
  dsimp only
  split
  · exact .inr rfl
  · exact .inl rfl

theorem facing_right (p q : BinaryPredicate) : (facing p q).2 = q ∨ (facing p q).2 = q.swap := by
  rw [facing]
  dsimp only
  generalize (if (p.rhs = q.lhs || p.rhs = q.rhs) = true then p.swap else p) = res
  split
  · exact .inl rfl
  · exact .inr rfl

theorem holds_facing_left (p q : BinaryPredicate) : (facing p q).1.holds σ = p.holds σ := by
  cases facing_left p q with
  | inl heq => rw [heq]
  | inr heq => rw [heq, holds_swap]

theorem holds_facing_right (p q : BinaryPredicate) : (facing p q).2.holds σ = q.holds σ := by
  cases facing_right p q with
  | inl heq => rw [heq]
  | inr heq => rw [heq, holds_swap]

/-- The meet implies both comparisons, unless a value is in the gap between them. -/
theorem holds_of_meet (hgap : ¬ InGap σ p q) (h : (meet constant p q).1.holds σ = true) :
    p.holds σ = true ∧ q.holds σ = true := by
  rw [meet_eq] at h
  split at h
  · rename_i htrue
    rw [Bool.or_eq_true, decide_eq_true_eq] at htrue
    cases htrue with
    | inl htrue => exact ⟨h, holds_of_isTrue htrue⟩
    | inr heq => exact ⟨h, heq ▸ h⟩
  split at h
  · rename_i _ htrue
    exact ⟨holds_of_isTrue htrue, h⟩
  split at h
  · rename_i hlhs
    rw [← holds_facing_left p q, ← holds_facing_right p q]
    refine meetAligned_sound hlhs ?_ h
    intro dir op op' a b ha hb hin
    exact hgap ⟨hlhs, dir, op, op', a, b, ha, hb, hin⟩
  · rw [meetOther, holds_static] at h
    cases h

theorem normalise_icmp (r : ICmp) (lhs rhs : Option ℕ) :
    normalise ⟨.icmp r, lhs, rhs⟩ = ⟨.icmp r, lhs, rhs⟩ := rfl

theorem normalise_fcmp {bits : BitVec 4} (hop : p.op = .fcmp bits) :
    p.normalise.op = .fcmp bits := by
  rw [normalise]
  split
  · exact hop
  · exact hop

end BinaryPredicate

end Nidhugg.LoopPurity
