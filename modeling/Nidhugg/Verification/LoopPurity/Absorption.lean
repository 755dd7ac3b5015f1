import Nidhugg.Verification.LoopPurity.Conditions

/-! # Bounds in one direction

For two bounds of a value in the same direction `meet` returns the one that it should drop. The
values in the gap between the bounds satisfy only the weaker one. -/

namespace Nidhugg.LoopPurity

namespace BinaryPredicate

variable {constant : ℕ → Option APInt} {σ : Valuation constant} {p q : BinaryPredicate}

/-- Two comparisons bound a value in the same direction by different constants. -/
def OneDirection (constant : ℕ → Option APInt) (p q : BinaryPredicate) : Prop :=
  (facing p q).1.lhs = (facing p q).2.lhs ∧ ∃ dir op op' a b,
    Bounds constant (facing p q).1 dir op a ∧ Bounds constant (facing p q).2 dir op' b ∧
      dir.key a ≠ dir.key b

theorem InGap.oneDirection (h : InGap σ p q) : OneDirection constant p q := by
  obtain ⟨hlhs, dir, op, op', a, b, ha, hb, hgap⟩ := h
  exact ⟨hlhs, dir, op, op', a, b, ha, hb, hgap.different⟩

/-! ### The weaker bound -/

theorem meetConstants_of_direction {res o other : BinaryPredicate} {resOp oOp : ICmp}
    {rr or : APInt} {dir : Direction} (hdir : resOp.direction = some dir)
    (hdir' : oOp.direction = some dir) : meetConstants res o other resOp oOp rr or =
      (if checkPredicateSatisfaction rr resOp or then o else res, true) := by
  cases resOp <;> cases oOp <;> first
    | rfl
    | exact absurd (hdir.trans hdir'.symm) (by decide)
    | cases hdir

/-- A comparison of integers is one in both directions. -/
theorem op_of_turned {m : BinaryPredicate} {op : ICmp} (hm : m = p ∨ m = p.swap)
    (h : m.op = .icmp op) : ∃ r, p.op = .icmp r ∧ (op = r ∨ op = r.swapped) := by
  cases hm with
  | inl heq => exact ⟨op, heq ▸ h, .inl rfl⟩
  | inr heq =>
      rw [heq, swap] at h
      cases hp : p.op with
      | fcmp bits =>
          rw [hp] at h
          cases h
      | icmp r =>
          rw [hp] at h
          cases h
          exact ⟨r, rfl, .inr rfl⟩

theorem not_isTrue_of_turned {m : BinaryPredicate} {op : ICmp} (hm : m = p ∨ m = p.swap)
    (h : m.op = .icmp op) : ¬ p.isTrue := by
  obtain ⟨r, hr, -⟩ := op_of_turned hm h
  intro htrue
  cases hr.symm.trans (of_decide_eq_true htrue)

/-- A comparison that faces itself has the same value on the right. -/
theorem rhs_facing_self (hlhs : (facing p p).1.lhs = (facing p p).2.lhs) :
    (facing p p).1.rhs = (facing p p).2.rhs := by
  have hleft : (facing p p).1 = p.swap := by
    rw [facing, decide_eq_true (rfl : p.rhs = p.rhs), Bool.or_true]
    rfl
  cases facing_right p p with
  | inl heq =>
      rw [hleft, heq] at hlhs ⊢
      exact hlhs.symm
  | inr heq => rw [hleft, heq]

/-- What `meet` returns for two bounds in the same direction. -/
theorem meet_of_bounds {dir : Direction} {op op' : ICmp} {a b : APInt}
    (hlhs : (facing p q).1.lhs = (facing p q).2.lhs) (ha : Bounds constant (facing p q).1 dir op a)
    (hb : Bounds constant (facing p q).2 dir op' b) (hdifferent : dir.key a ≠ dir.key b) :
    meet constant p q =
      (if checkPredicateSatisfaction a op b then (facing p q).2 else (facing p q).1, true) := by
  have hconstants : ¬ (facing p q).1.rhs = (facing p q).2.rhs := by
    intro hrhs
    have hsome := ha.rhs.symm.trans (hrhs ▸ hb.rhs)
    exact hdifferent (congrArg (fun c => dir.key c) (Option.some.inj hsome))
  have hp : ¬ p.isTrue := not_isTrue_of_turned (facing_left p q) ha.predicate
  have hq : ¬ q.isTrue := not_isTrue_of_turned (facing_right p q) hb.predicate
  have hpq : p ≠ q := by
    intro heq
    subst heq
    exact hconstants (rhs_facing_self hlhs)
  rw [meet_eq, if_neg (by simp [hq, hpq]), if_neg hp, if_pos hlhs, meetAligned, if_neg hconstants]
  simp only [ha.rhs, hb.rhs, ha.predicate, hb.predicate]
  exact meetConstants_of_direction ha.direction hb.direction

theorem Bounds.holds_eq {dir : Direction} {op : ICmp} {c : APInt} (h : Bounds constant p dir op c) :
    p.holds σ = checkPredicateSatisfaction (σ.intOf p.lhs) op c := by
  rw [holds, h.predicate, σ.intOf_constant h.rhs]

/-- The meet implies both comparisons, for a valuation with no value in the gap between them. -/
theorem holds_of_meet_iff : ((meet constant p q).1.holds σ = true →
    p.holds σ = true ∧ q.holds σ = true) ↔ ¬ InGap σ p q := by
  constructor
  · intro h hin
    obtain ⟨hlhs, dir, op, op', a, b, ha, hb, hgap⟩ := hin
    refine (weaker_iff ha.direction hb.direction).mp ?_ hgap
    intro hweaker
    have hleft : p.holds σ = checkPredicateSatisfaction (σ.intOf (facing p q).1.lhs) op a := by
      rw [← holds_facing_left p q, ha.holds_eq]
    have hright : q.holds σ = checkPredicateSatisfaction (σ.intOf (facing p q).1.lhs) op' b := by
      rw [← holds_facing_right p q, hb.holds_eq, hlhs]
    rw [← hleft, ← hright]
    apply h
    rw [meet_of_bounds hlhs ha hb hgap.different]
    split at hweaker
    · rename_i hcheck
      rw [if_pos hcheck, holds_facing_right, hright, hweaker]
    · rename_i hcheck
      rw [if_neg hcheck, holds_facing_left, hleft, hweaker]
  · exact holds_of_meet

end BinaryPredicate

/-- A loop with the constants three and five. -/
def smallLoop : Env where
  predecessors _ := []
  sort _ vec := vec
  perm _ vec := .refl vec
  constant
    | 1 => some ⟨32, 3⟩
    | 2 => some ⟨32, 5⟩
    | _ => none

/-- All values that are not constants are four. -/
def allFour : Valuation smallLoop.constant :=
  .ofInt (fun v => (smallLoop.constant v).getD ⟨32, 4⟩) fun v c hc => by
    rw [hc, Option.getD_some]

/-- Four is between the bounds three and five. -/
theorem BinaryPredicate.not_holds_of_meet_allFour : ¬ ∀ p q : BinaryPredicate,
    (meet smallLoop.constant p q).1.holds allFour = true →
      p.holds allFour = true ∧ q.holds allFour = true := by
  intro h
  have hboth := h ⟨.icmp .slt, some 0, some 1⟩ ⟨.icmp .slt, some 0, some 2⟩ rfl
  exact absurd hboth.1 (by decide)

end Nidhugg.LoopPurity

/-! # Absorption

`implies` compares the conjuncts the wrong way round. It is right only where the comparison that
its comment asks for accepts as well, or where a bound is met with a tighter one, because `meet`
returns the weaker of them. -/

namespace Nidhugg.LoopPurity

open BinaryPredicate VecSet

variable {constant : ℕ → Option APInt} {env : Env}

/-! ### Comparisons of conjuncts -/

namespace BinaryPredicate

variable {σ : Valuation constant} {p q : BinaryPredicate}

/-- The weaker of two bounds in one direction holds if one of them does. -/
theorem weaker_eq_or {v a b : APInt} {op op' : ICmp} {dir : Direction}
    (hop : op.direction = some dir) (hop' : op'.direction = some dir)
    (hdifferent : dir.key a ≠ dir.key b) :
    (if checkPredicateSatisfaction a op b then checkPredicateSatisfaction v op' b
      else checkPredicateSatisfaction v op a) =
        (checkPredicateSatisfaction v op a || checkPredicateSatisfaction v op' b) := by
  rw [Bool.eq_iff_iff, Bool.or_eq_true]
  cases dir <;> cases op <;> cases op' <;>
    simp only [ICmp.direction, reduceCtorEq, Option.some.injEq] at hop hop' <;>
    simp only [checkPredicateSatisfaction, Direction.key, decide_eq_true_eq] at * <;>
    split <;> simp only [decide_eq_true_eq] <;> omega

theorem OneDirection.holds_meet (h : OneDirection constant p q) :
    (meet constant p q).1.holds σ = (p.holds σ || q.holds σ) := by
  obtain ⟨hlhs, dir, op, op', a, b, ha, hb, hdifferent⟩ := h
  have hleft : p.holds σ = checkPredicateSatisfaction (σ.intOf (facing p q).1.lhs) op a := by
    rw [← holds_facing_left p q, ha.holds_eq]
  have hright : q.holds σ = checkPredicateSatisfaction (σ.intOf (facing p q).1.lhs) op' b := by
    rw [← holds_facing_right p q, hb.holds_eq, hlhs]
  rw [meet_of_bounds hlhs ha hb hdifferent, hleft, hright,
    ← weaker_eq_or ha.direction hb.direction hdifferent]
  split
  · rw [holds_facing_right, hright]
  · rw [holds_facing_left, hleft]

/-- Bounds in one direction are not accepted for another reason. -/
theorem OneDirection.meet_eq_of_le (h : OneDirection constant p q)
    (hle : le constant p q = true) : (meet constant p q).1 = p := by
  obtain ⟨hlhs, dir, op, op', a, b, ha, hb, hdifferent⟩ := h
  rw [le, Bool.or_eq_true, Bool.or_eq_true, Bool.or_eq_true, decide_eq_true_eq,
    decide_eq_true_eq] at hle
  rcases hle with ((htrue | hfalse) | heq) | hmeet
  · exact absurd htrue (not_isTrue_of_turned (facing_right p q) hb.predicate)
  · obtain ⟨r, hr, -⟩ := op_of_turned (facing_left p q) ha.predicate
    cases hr.symm.trans (of_decide_eq_true hfalse)
  · subst heq
    have hsome := ha.rhs.symm.trans (rhs_facing_self hlhs ▸ hb.rhs)
    exact absurd (congrArg (fun c => dir.key c) (Option.some.inj hsome)) hdifferent
  · exact hmeet

/-- The comparisons show that the first one implies the second one. -/
def Supports (constant : ℕ → Option APInt) (t o : BinaryPredicate) : Prop :=
  (le constant t o = true ∧ ¬ OneDirection constant t o) ∨
    (le constant o t = true ∧ OneDirection constant o t)

theorem supports_self (p : BinaryPredicate) : Supports constant p p := by
  left
  constructor
  · simp [le]
  · intro h
    obtain ⟨hlhs, dir, op, op', a, b, ha, hb, hdifferent⟩ := h
    have hsome := ha.rhs.symm.trans (rhs_facing_self hlhs ▸ hb.rhs)
    exact hdifferent (congrArg (fun c => dir.key c) (Option.some.inj hsome))

theorem Supports.holds (h : Supports constant p q) (hp : p.holds σ = true) :
    q.holds σ = true := by
  cases h with
  | inl h =>
      obtain ⟨hle, hdirection⟩ := h
      rw [le, Bool.or_eq_true, Bool.or_eq_true, Bool.or_eq_true, decide_eq_true_eq,
        decide_eq_true_eq] at hle
      rcases hle with ((htrue | hfalse) | heq) | hmeet
      · exact holds_of_isTrue htrue
      · rw [not_holds_of_isFalse hfalse] at hp
        cases hp
      · exact heq ▸ hp
      · rw [← hmeet] at hp
        exact (holds_of_meet (fun hgap => hdirection hgap.oneDirection) hp).2
  | inr h =>
      obtain ⟨hle, hdirection⟩ := h
      rw [← hdirection.meet_eq_of_le hle, hdirection.holds_meet, hp, Bool.or_true]

end BinaryPredicate

/-! ### Disjuncts -/

variable {σ : Valuation env.constant} {c d : ConjunctionLoc} {x y : Disjunction}

/-- All conjuncts of a disjunct are implied by conjuncts of another one. -/
def Backed (env : Env) (c d : ConjunctionLoc) : Prop :=
  ∀ o ∈ d.conjuncts, ∃ t ∈ c.conjuncts, Supports env.constant t o

/-- What `implies` accepts is also right in the direction that its comment asks for. -/
def RightlyImplies (env : Env) (c d : ConjunctionLoc) : Prop :=
  env.implies c d = true → Backed env c d

theorem Backed.allHold (h : Backed env c d) (hall : AllHold σ c.conjuncts) :
    AllHold σ d.conjuncts := by
  intro o ho
  obtain ⟨t, ht, hsupports⟩ := h o ho
  exact hsupports.holds (hall t ht)

/-- More conjuncts imply fewer. -/
theorem backed_of_subset (h : d.conjuncts ⊆ c.conjuncts) : Backed env c d :=
  fun o ho => ⟨o, h ho, supports_self o⟩

theorem RightlyImplies.allHold (h : RightlyImplies env c d) (hlt : env.conjunctionLt c d = true)
    (hall : AllHold σ c.conjuncts) : AllHold σ d.conjuncts := by
  rw [Env.conjunctionLt, Bool.and_eq_true] at hlt
  exact (h hlt.2).allHold hall

/-- A disjunct holds. -/
def Holds (σ : Valuation env.constant) (x : Disjunction) : Prop := ∃ d ∈ x, AllHold σ d.conjuncts

/-- `addCond` loses nothing. -/
theorem holds_addCond (hforward : ∀ c ∈ x, RightlyImplies env d c)
    (hback : ∀ c ∈ x, RightlyImplies env c d) :
    Holds σ (env.addCond x d) ↔ Holds σ x ∨ AllHold σ d.conjuncts := by
  rw [Env.addCond]
  split
  · rename_i hskip
    refine (or_iff_left_of_imp ?_).symm
    intro hall
    cases Bool.or_eq_true _ _ ▸ hskip with
    | inl hfalse => exact absurd hall (not_allHold_of_isFalse hfalse)
    | inr hany =>
        obtain ⟨c, hc, hlt⟩ := List.any_eq_true.mp hany
        exact ⟨c, hc, (hforward c hc).allHold hlt hall⟩
  · constructor
    · intro h
      obtain ⟨c, hc, hall⟩ := h
      cases eq_or_mem_of_mem_insert hc with
      | inl heq => exact .inr (heq ▸ hall)
      | inr hc => exact .inl ⟨c, (List.mem_filter.mp hc).1, hall⟩
    · have hnew : AllHold σ d.conjuncts → Holds σ (VecSet.insert env.lexicalLt
          (x.filter fun c => !env.conjunctionLt c d) d) := by
        intro hall
        obtain ⟨c, hc, heq⟩ := exists_mem_insert env.lexicalLt
          (x.filter fun c => !env.conjunctionLt c d) d
        refine ⟨c, hc, ?_⟩
        cases heq with
        | inl heq => exact heq ▸ hall
        | inr heq =>
            rw [(samePoint_of_equivalent heq).1]
            exact hall
      intro h
      cases h with
      | inr hall => exact hnew hall
      | inl h =>
          obtain ⟨c, hc, hall⟩ := h
          cases hlt : env.conjunctionLt c d with
          | true => exact hnew ((hback c hc).allHold hlt hall)
          | false =>
              refine ⟨c, mem_insert_of_mem (List.mem_filter.mpr ⟨hc, ?_⟩), hall⟩
              rw [hlt]
              rfl

theorem mem_addCond {disjuncts : Disjunction} (h : c ∈ env.addCond disjuncts d) :
    c = d ∨ c ∈ disjuncts := by
  rw [Env.addCond] at h
  split at h
  · exact .inr h
  · cases eq_or_mem_of_mem_insert h with
    | inl heq => exact .inl heq
    | inr h => exact .inr (List.mem_filter.mp h).1

theorem holds_foldl_addCond
    (hright : ∀ c ∈ x ++ y, ∀ d ∈ x ++ y, RightlyImplies env c d) :
    Holds σ (y.foldl env.addCond x) ↔ Holds σ x ∨ Holds σ y := by
  induction y generalizing x with
  | nil =>
      refine (or_iff_left ?_).symm
      intro h
      obtain ⟨d, hd, -⟩ := h
      cases hd
  | cons d y ih =>
      have hd : d ∈ x ++ d :: y := List.mem_append_right _ List.mem_cons_self
      have hmem : ∀ c, c ∈ env.addCond x d ++ y → c ∈ x ++ d :: y := by
        intro c hc
        cases List.mem_append.mp hc with
        | inl hc =>
            cases mem_addCond hc with
            | inl heq => exact heq ▸ hd
            | inr hc => exact List.mem_append_left _ hc
        | inr hc => exact List.mem_append_right _ (List.mem_cons_of_mem _ hc)
      rw [List.foldl_cons, ih fun c hc d hd => hright c (hmem c hc) d (hmem d hd),
        holds_addCond (fun c hc => hright d hd c (List.mem_append_left _ hc))
          fun c hc => hright c (List.mem_append_left _ hc) d hd]
      have hcons : Holds σ (d :: y) ↔ AllHold σ d.conjuncts ∨ Holds σ y := by simp [Holds]
      rw [hcons, or_assoc]

/-- `implies` is sound, and `operator|` exact, for disjuncts whose comparisons are right. -/
theorem implies_sound_and_or_exact (hcd : RightlyImplies env c d)
    (hxy : ∀ c ∈ x ++ y, ∀ d ∈ x ++ y, RightlyImplies env c d)
    (hlength : (y.foldl env.addCond x).length ≤ Env.maxDisjunctionTerms) :
    (env.implies c d = true → ∀ σ : Valuation env.constant,
      AllHold σ c.conjuncts → AllHold σ d.conjuncts) ∧
    ∀ σ : Valuation env.constant, Holds σ (env.or x y) ↔ Holds σ x ∨ Holds σ y := by
  constructor
  · intro himplies σ hall
    exact (hcd himplies).allHold hall
  · intro σ
    rw [Env.or, Env.bound, if_neg (Nat.not_lt_of_le hlength)]
    exact holds_foldl_addCond hxy

def belowFive : ConjunctionLoc := ⟨[⟨.icmp .slt, some 0, some 2⟩], none⟩

def belowFiveNotThree : ConjunctionLoc :=
  ⟨[⟨.icmp .ne, some 0, some 1⟩, ⟨.icmp .slt, some 0, some 2⟩], none⟩

theorem rightlyImplies_belowFive :
    ∀ c ∈ [belowFive] ++ [belowFiveNotThree], ∀ d ∈ [belowFive] ++ [belowFiveNotThree],
      RightlyImplies smallLoop c d := by
  intro c hc d hd himplies
  simp only [List.cons_append, List.nil_append, List.mem_cons, List.not_mem_nil, or_false] at hc hd
  rcases hc with rfl | rfl <;> rcases hd with rfl | rfl
  · exact backed_of_subset (List.Subset.refl _)
  · exact absurd himplies (by decide)
  · exact backed_of_subset (List.subset_cons_self _ _)
  · exact backed_of_subset (List.Subset.refl _)

theorem implies_sound_and_or_exact_belowFive :
    (smallLoop.implies belowFiveNotThree belowFive = true →
      ∀ σ : Valuation smallLoop.constant,
        AllHold σ belowFiveNotThree.conjuncts → AllHold σ belowFive.conjuncts) ∧
    ∀ σ : Valuation smallLoop.constant,
      Holds σ (smallLoop.or [belowFive] [belowFiveNotThree]) ↔
        Holds σ [belowFive] ∨ Holds σ [belowFiveNotThree] :=
  implies_sound_and_or_exact
    (rightlyImplies_belowFive _ (by simp) _ (by simp)) rightlyImplies_belowFive (by decide)

/-- A bound is taken to imply an equality. -/
theorem not_implies_sound_allFour : ¬ ∀ c d : ConjunctionLoc, smallLoop.implies c d = true →
    AllHold allFour c.conjuncts → AllHold allFour d.conjuncts := by
  intro h
  have hall := h belowFive ⟨[⟨.icmp .eq, some 0, some 1⟩], none⟩ (by decide)
    (List.forall_mem_singleton.mpr (by decide))
  exact absurd (hall _ List.mem_cons_self) (by decide)

end Nidhugg.LoopPurity
