import Nidhugg.Verification.LoopPurity.Absorption

/-! # Exact meets

A meet that is not marked as an underapproximation is the conjunction of the two comparisons, but
not for a signed and an unsigned order of the same values: their bits have only equality in common,
and the meet is marked as exact. -/

namespace Nidhugg.LoopPurity

variable {constant : ℕ → Option APInt} {σ : Valuation constant}

theorem APInt.eq_of_toInt {v w : APInt} (hwidth : v.width = w.width)
    (h : v.val.toInt = w.val.toInt) : v = w := by
  obtain ⟨width, v⟩ := v
  obtain ⟨_, w⟩ := w
  obtain rfl : width = _ := hwidth
  exact congrArg (APInt.mk _) (BitVec.eq_of_toInt_eq h)

theorem APInt.eq_of_toNat {v w : APInt} (hwidth : v.width = w.width)
    (h : v.val.toNat = w.val.toNat) : v = w := by
  obtain ⟨width, v⟩ := v
  obtain ⟨_, w⟩ := w
  obtain rfl : width = _ := hwidth
  exact congrArg (APInt.mk _) (BitVec.eq_of_toNat_eq h)

def Direction.signed : Direction → Bool
  | .signedLess | .signedGreater => true
  | .unsignedLess | .unsignedGreater => false

/-- One comparison is an order of signed numbers and the other one of unsigned numbers. -/
def ICmp.mixed (op op' : ICmp) : Bool :=
  match op.direction, op'.direction with
  | some dir, some dir' => dir.signed != dir'.signed
  | _, _ => false

namespace BinaryPredicate

variable {p q res o : BinaryPredicate}

/-- The operands of a comparison have one type. -/
def Typed (σ : Valuation constant) (p : BinaryPredicate) : Prop :=
  (σ.intOf p.lhs).width = (σ.intOf p.rhs).width

/-- A signed and an unsigned order hold for two values that are not equal. -/
structure Lossy (σ : Valuation constant) (p q : BinaryPredicate) : Prop where
  lhs : (facing p q).1.lhs = (facing p q).2.lhs
  rhs : (facing p q).1.rhs = (facing p q).2.rhs
  mixed : ∃ op op', (facing p q).1.op = .icmp op ∧ (facing p q).2.op = .icmp op' ∧
    op.mixed op' = true
  different : σ.intOf (facing p q).1.lhs ≠ σ.intOf (facing p q).1.rhs
  left : p.holds σ = true
  right : q.holds σ = true

/-! ### Comparisons of the same values -/

theorem check_and_self {v : APInt} {a b : ICmp} (ha : checkPredicateSatisfaction v a v = true)
    (hb : checkPredicateSatisfaction v b v = true) :
    ∃ r, (bitsToIcmpop (icmpopToBits a &&& icmpopToBits b)).1 = .icmp r ∧
      checkPredicateSatisfaction v r v = true := by
  cases a <;> cases b <;> simp [checkPredicateSatisfaction] at ha hb <;>
    exact ⟨_, rfl, by simp [checkPredicateSatisfaction]⟩

theorem check_and {v w : APInt} {a b : ICmp} (hwidth : v.width = w.width)
    (hexact : (bitsToIcmpop (icmpopToBits a &&& icmpopToBits b)).2 = false)
    (hmixed : a.mixed b = true → v = w) (ha : checkPredicateSatisfaction v a w = true)
    (hb : checkPredicateSatisfaction v b w = true) :
    ∃ r, (bitsToIcmpop (icmpopToBits a &&& icmpopToBits b)).1 = .icmp r ∧
      checkPredicateSatisfaction v r w = true := by
  by_cases heq : v = w
  · subst heq
    exact check_and_self ha hb
  · have hint : v.val.toInt ≠ w.val.toInt := fun h => heq (APInt.eq_of_toInt hwidth h)
    have hnat : v.val.toNat ≠ w.val.toNat := fun h => heq (APInt.eq_of_toNat hwidth h)
    have hseparate : a.mixed b = false := Bool.eq_false_iff.mpr fun h => heq (hmixed h)
    cases a <;> cases b <;> first
      | exact absurd hseparate (by decide)
      | exact absurd hexact (by decide)
      | exact absurd (of_decide_eq_true ha) heq
      | exact absurd (of_decide_eq_true hb) heq
      | exact ⟨_, rfl, decide_eq_true heq⟩
      | (refine ⟨_, rfl, ?_⟩
         simp only [checkPredicateSatisfaction, decide_eq_true_eq] at ha hb ⊢
         omega)
      | (simp only [checkPredicateSatisfaction, decide_eq_true_eq] at ha hb
         omega)

/-- The meet of a signed and an unsigned order holds only for equal values. -/
theorem eq_of_check_mixed {v w : APInt} {a b r : ICmp} (hmixed : a.mixed b = true)
    (hr : (bitsToIcmpop (icmpopToBits a &&& icmpopToBits b)).1 = .icmp r)
    (h : checkPredicateSatisfaction v r w = true) : v = w := by
  cases a <;> cases b <;> first
    | exact absurd hmixed (by decide)
    | cases hr
  all_goals exact of_decide_eq_true h

theorem meetSame_complete (hlhs : res.lhs = o.lhs) (hrhs : res.rhs = o.rhs)
    (htyped : Typed σ res) (hexact : (meetSame res o).2 = false)
    (hmixed : ∀ op op', res.op = .icmp op → o.op = .icmp op' → op.mixed op' = true →
      σ.intOf res.lhs = σ.intOf res.rhs)
    (hres : res.holds σ = true) (ho : o.holds σ = true) : (meetSame res o).1.holds σ = true := by
  obtain ⟨resOp, lhs, rhs⟩ := res
  obtain ⟨oOp, _, _⟩ := o
  obtain rfl := hlhs
  obtain rfl := hrhs
  cases resOp with
  | fcmp a =>
      cases oOp with
      | fcmp b =>
          rw [meetSame, holds_normalise]
          simpa [holds] using And.intro hres ho
      | icmp b => cases hexact
  | icmp a =>
      cases oOp with
      | fcmp b => cases hexact
      | icmp b =>
          obtain ⟨r, hr, hcheck⟩ := check_and htyped hexact (hmixed a b rfl rfl) hres ho
          rw [meetSame, holds_normalise, holds, hr]
          exact hcheck

/-! ### The meet -/

theorem meetOther_complete {other result : BinaryPredicate} (hexact : (meetOther other).2 = false)
    (hother : other.holds σ = true) : result.holds σ = true := by
  rw [meetOther, Bool.not_eq_false'] at hexact
  rw [not_holds_of_isFalse hexact] at hother
  cases hother

theorem meetConstants_complete {other : BinaryPredicate} {resOp oOp : ICmp} {rr or : APInt}
    (hresOp : res.op = .icmp resOp) (hoOp : o.op = .icmp oOp) (hlhs : res.lhs = o.lhs)
    (hrr : res.rhs.bind constant = some rr) (hor : o.rhs.bind constant = some or)
    (hexact : (meetConstants res o other resOp oOp rr or).2 = false)
    (hres : res.holds σ = true) (ho : o.holds σ = true) (hother : other.holds σ = true) :
    (meetConstants res o other resOp oOp rr or).1.holds σ = true := by
  have hres' : checkPredicateSatisfaction (σ.intOf res.lhs) resOp rr = true := by
    rw [← hres, holds, hresOp, σ.intOf_constant hrr]
  have ho' : checkPredicateSatisfaction (σ.intOf res.lhs) oOp or = true := by
    rw [← ho, holds, hoOp, σ.intOf_constant hor, hlhs]
  rw [meetConstants] at hexact ⊢
  split
  · -- the constant on the left satisfies the other comparison
    rename_i heq
    subst heq
    have hvalue : σ.intOf res.lhs = rr := of_decide_eq_true hres'
    rw [if_pos (hvalue ▸ ho')]
    exact hres
  rename_i heq
  rw [if_neg heq] at hexact
  split
  · rename_i heq'
    subst heq'
    have hvalue : σ.intOf res.lhs = or := of_decide_eq_true ho'
    rw [if_pos (hvalue ▸ hres')]
    exact ho
  rename_i heq'
  rw [if_neg heq'] at hexact
  split
  · rename_i hne
    rw [if_pos hne] at hexact
    split
    · rename_i hcheck
      rw [if_pos hcheck] at hexact
      cases hexact
    · exact hres
  rename_i hne
  rw [if_neg hne] at hexact
  split
  · rename_i hne'
    rw [if_pos hne'] at hexact
    split
    · rename_i hcheck
      rw [if_pos hcheck] at hexact
      cases hexact
    · exact ho
  rename_i hne'
  rw [if_neg hne'] at hexact
  split
  · rename_i hdirection
    rw [if_pos hdirection] at hexact
    cases hexact
  · rename_i hdirection
    rw [if_neg hdirection] at hexact
    exact meetOther_complete hexact hother

theorem meetAligned_complete {other : BinaryPredicate} (hlhs : res.lhs = o.lhs)
    (htyped : Typed σ res) (hexact : (meetAligned constant res o other).2 = false)
    (hmixed : res.rhs = o.rhs → ∀ op op', res.op = .icmp op → o.op = .icmp op' →
      op.mixed op' = true → σ.intOf res.lhs = σ.intOf res.rhs)
    (hres : res.holds σ = true) (ho : o.holds σ = true) (hother : other.holds σ = true) :
    (meetAligned constant res o other).1.holds σ = true := by
  rw [meetAligned] at hexact ⊢
  split
  · rename_i hrhs
    rw [if_pos hrhs] at hexact
    exact meetSame_complete hlhs hrhs htyped hexact (hmixed hrhs) hres ho
  · rename_i hrhs
    rw [if_neg hrhs] at hexact
    split
    · rename_i hrr hor hresOp hoOp
      simp only [hrr, hor, hresOp, hoOp] at hexact
      exact meetConstants_complete hresOp hoOp hlhs hrr hor hexact hres ho hother
    · rename_i hconstants
      split at hexact
      · rename_i hrr hor hresOp hoOp
        exact absurd hoOp (hconstants _ _ _ _ hrr hor hresOp)
      · exact meetOther_complete hexact hother

theorem Typed.swap (h : Typed σ p) : Typed σ p.swap := Eq.symm h

theorem typed_facing_left (h : Typed σ p) : Typed σ (facing p q).1 := by
  cases facing_left p q with
  | inl heq =>
      rw [heq]
      exact h
  | inr heq =>
      rw [heq]
      exact h.swap

/-- An exact meet holds if both comparisons do. -/
theorem meet_complete (htyped : Typed σ p) (hexact : (meet constant p q).2 = false)
    (hlossy : ¬ Lossy σ p q) (hp : p.holds σ = true) (hq : q.holds σ = true) :
    (meet constant p q).1.holds σ = true := by
  rw [meet_eq] at hexact ⊢
  split
  · exact hp
  rename_i htrivial
  rw [if_neg htrivial] at hexact
  split
  · exact hq
  rename_i htrue
  rw [if_neg htrue] at hexact
  split
  · rename_i hlhs
    rw [if_pos hlhs] at hexact
    refine meetAligned_complete hlhs (typed_facing_left htyped) hexact ?_ ?_ ?_ hq
    · intro hrhs op op' hop hop' hmixed
      by_contra hdifferent
      exact hlossy ⟨hlhs, hrhs, ⟨op, op', hop, hop', hmixed⟩, hdifferent, hp, hq⟩
    · rw [holds_facing_left, hp]
    · rw [holds_facing_right, hq]
  · rename_i hlhs
    rw [if_neg hlhs] at hexact
    exact meetOther_complete hexact hq

theorem InGap.approximate (h : InGap σ p q) : (meet constant p q).2 = true := by
  obtain ⟨hlhs, dir, op, op', a, b, ha, hb, hgap⟩ := h
  rw [meet_of_bounds hlhs ha hb hgap.different]

/-- Turning a comparison around keeps whether its order is signed. -/
theorem not_mixed_turned (r : ICmp) :
    ∀ op ∈ [r, r.swapped], ∀ op' ∈ [r, r.swapped], op.mixed op' = false := by
  cases r <;> decide

theorem ne_of_mixed {op op' : ICmp} (hleft : (facing p q).1.op = .icmp op)
    (hright : (facing p q).2.op = .icmp op') (hmixed : op.mixed op' = true) : p ≠ q := by
  intro heq
  subst heq
  obtain ⟨r, hr, hop⟩ := op_of_turned (facing_left p p) hleft
  obtain ⟨r', hr', hop'⟩ := op_of_turned (facing_right p p) hright
  obtain rfl : r = r' := Predicate.icmp.inj (hr.symm.trans hr')
  rw [not_mixed_turned r op (by simpa using hop) op' (by simpa using hop')] at hmixed
  cases hmixed

/-- The meet of a signed and an unsigned order of the same values. -/
theorem meet_of_mixed {op op' : ICmp} (hlhs : (facing p q).1.lhs = (facing p q).2.lhs)
    (hrhs : (facing p q).1.rhs = (facing p q).2.rhs) (hleft : (facing p q).1.op = .icmp op)
    (hright : (facing p q).2.op = .icmp op') (hmixed : op.mixed op' = true) :
    meet constant p q = meetSame (facing p q).1 (facing p q).2 := by
  have hp : ¬ p.isTrue := not_isTrue_of_turned (facing_left p q) hleft
  have hq : ¬ q.isTrue := not_isTrue_of_turned (facing_right p q) hright
  have hpq : p ≠ q := ne_of_mixed hleft hright hmixed
  rw [meet_eq, if_neg (by simp [hq, hpq]), if_neg hp, if_pos hlhs, meetAligned, if_pos hrhs]

theorem Lossy.not_holds (h : Lossy σ p q) : (meet constant p q).1.holds σ = false := by
  obtain ⟨op, op', hleft, hright, hmixed⟩ := h.mixed
  rw [meet_of_mixed h.lhs h.rhs hleft hright hmixed, meetSame, hleft, hright]
  dsimp only
  rw [holds_normalise]
  cases hr : (bitsToIcmpop (icmpopToBits op &&& icmpopToBits op')).1 with
  | fcmp bits =>
      have hbelow := bitsToIcmpop_below op op'
      rw [hr, belowBoth, decide_eq_true_eq] at hbelow
      rw [hbelow]
      exact not_holds_of_isFalse rfl
  | icmp r =>
      rw [← Bool.not_eq_true]
      intro hholds
      exact h.different (eq_of_check_mixed hmixed hr hholds)

/-- A meet that is not marked is the conjunction, except for orders of both kinds. -/
theorem holds_meet_iff (htyped : Typed σ p) (hexact : (meet constant p q).2 = false) :
    ((meet constant p q).1.holds σ = true ↔ p.holds σ = true ∧ q.holds σ = true) ↔
      ¬ Lossy σ p q := by
  constructor
  · intro h hlossy
    have hholds := h.mpr ⟨hlossy.left, hlossy.right⟩
    rw [hlossy.not_holds] at hholds
    cases hholds
  · intro hlossy
    constructor
    · apply holds_of_meet
      intro hgap
      rw [hgap.approximate] at hexact
      cases hexact
    · intro h
      exact meet_complete htyped hexact hlossy h.1 h.2

/-! ### Types -/

theorem typed_static (b : Bool) : Typed σ (static b) := rfl

theorem typed_normalise (h : Typed σ p) : Typed σ p.normalise := by
  rw [normalise]
  split
  · exact rfl
  · exact h

theorem typed_facing_right (h : Typed σ q) : Typed σ (facing p q).2 := by
  cases facing_right p q with
  | inl heq =>
      rw [heq]
      exact h
  | inr heq =>
      rw [heq]
      exact h.swap

theorem typed_meetSame (h : Typed σ res) : Typed σ (meetSame res o).1 := by
  rw [meetSame]
  split
  · exact typed_normalise h
  · exact typed_normalise h
  · exact typed_static false

theorem typed_meetConstants {other : BinaryPredicate} {resOp oOp : ICmp} {rr or : APInt}
    (hres : Typed σ res) (ho : Typed σ o) :
    Typed σ (meetConstants res o other resOp oOp rr or).1 := by
  rw [meetConstants]
  split
  · dsimp only
    split
    · exact hres
    · exact typed_static false
  split
  · dsimp only
    split
    · exact ho
    · exact typed_static false
  split
  · split
    · exact typed_static false
    · exact hres
  split
  · split
    · exact typed_static false
    · exact ho
  split
  · dsimp only
    split
    · exact ho
    · exact hres
  · exact typed_static false

theorem typed_meetAligned {other : BinaryPredicate} (hres : Typed σ res) (ho : Typed σ o) :
    Typed σ (meetAligned constant res o other).1 := by
  rw [meetAligned]
  split
  · exact typed_meetSame hres
  split
  · exact typed_meetConstants hres ho
  · exact typed_static false

theorem typed_meet (hp : Typed σ p) (hq : Typed σ q) : Typed σ (meet constant p q).1 := by
  rw [meet_eq]
  split
  · exact hp
  split
  · exact hq
  split
  · exact typed_meetAligned (typed_facing_left hp) (typed_facing_right hq)
  · exact typed_static false

end BinaryPredicate

end Nidhugg.LoopPurity
