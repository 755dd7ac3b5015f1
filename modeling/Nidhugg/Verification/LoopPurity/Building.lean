import Nidhugg.Verification.LoopPurity.Exactness

/-! # Building conjunctions

`addConjunct` starts over with an exact meet, which is a stronger comparison, or the same one turned
around. It goes on for ever exactly if the latter happens twice in a row. A conjunction that is
built is equivalent to all comparisons that were added, if no meet along the way loses anything. -/

namespace Nidhugg.LoopPurity

open BinaryPredicate VecSet

variable {env : Env} {σ : Valuation env.constant} {turns : ℕ} {cond m : BinaryPredicate}
  {conjuncts conds result : List BinaryPredicate}

/-! ### Restarts -/

/-- The number of cases that a comparison allows: a smaller one is stronger. -/
def Predicate.weight : Predicate → ℕ
  | .fcmp bits => (bits.getLsbD 0).toNat + (bits.getLsbD 1).toNat + (bits.getLsbD 2).toNat +
      (bits.getLsbD 3).toNat
  | .icmp .eq => 1
  | .icmp .ugt | .icmp .ult | .icmp .sgt | .icmp .slt => 2
  | .icmp .uge | .icmp .ule | .icmp .sge | .icmp .sle => 3
  | .icmp .ne => 4

def BinaryPredicate.rank (p : BinaryPredicate) : ℕ :=
  if p = .static false then 0 else p.op.weight + 1

/-- A constant has one address. -/
def UniqueConstants (constant : ℕ → Option APInt) : Prop :=
  ∀ v w c, constant v = some c → constant w = some c → v = w

theorem weight_swapped (op : Predicate) : op.swapped.weight = op.weight := by
  cases op with
  | fcmp bits =>
      have hbits : ∀ bits : BitVec 4,
          (Predicate.fcmp bits).swapped.weight = (Predicate.fcmp bits).weight := by decide
      exact hbits bits
  | icmp op => cases op <;> rfl

theorem weight_and (a b : BitVec 4) :
    a &&& b = b ∨ (Predicate.fcmp (a &&& b)).weight < (Predicate.fcmp b).weight := by
  revert a b
  decide

theorem weight_bitsToIcmpop (a b : ICmp) :
    (bitsToIcmpop (icmpopToBits a &&& icmpopToBits b)).1 = .icmp b ∨
      (bitsToIcmpop (icmpopToBits a &&& icmpopToBits b)).1 = .fcmp 0 ∨
        (bitsToIcmpop (icmpopToBits a &&& icmpopToBits b)).1.weight <
          (Predicate.icmp b).weight := by
  cases a <;> cases b <;> decide

theorem weight_of_turned {p q : BinaryPredicate} (h : p = q ∨ p = q.swap) :
    p.op.weight = q.op.weight := by
  cases h with
  | inl heq => rw [heq]
  | inr heq =>
      rw [heq]
      exact weight_swapped q.op

theorem rank_le (p : BinaryPredicate) : p.rank ≤ p.op.weight + 1 := by
  rw [rank]
  split
  · exact Nat.zero_le _
  · exact Nat.le_refl _

theorem rank_static : (BinaryPredicate.static false).rank = 0 := if_pos rfl

theorem rank_eq {p : BinaryPredicate} (h : p ≠ .static false) : p.rank = p.op.weight + 1 :=
  if_neg h

/-- What a restart tries is stronger than before, or it is only turned around. -/
def Restarted (cond m : BinaryPredicate) : Prop := m = cond.swap ∨ m.rank < cond.rank

theorem restarted_static (hne : BinaryPredicate.static false ≠ cond) :
    Restarted cond (.static false) := by
  right
  rw [rank_static, rank_eq hne.symm]
  exact Nat.succ_pos _

theorem restarted_of_weight (h : m.op.weight < cond.op.weight) : Restarted cond m := by
  have hne : cond ≠ .static false := by
    intro heq
    rw [heq] at h
    cases h
  have hle := rank_le m
  right
  rw [rank_eq hne]
  omega

theorem restarted_of_turned (h : m = cond ∨ m = cond.swap) (hne : m ≠ cond) : Restarted cond m :=
  .inl (h.resolve_left hne)

theorem meetSame_restarted {res o : BinaryPredicate} (hlhs : res.lhs = o.lhs)
    (hrhs : res.rhs = o.rhs) (ho : o = cond ∨ o = cond.swap) (htrue : ¬ cond.isTrue)
    (hexact : (meetSame res o).2 = false) (hne : (meetSame res o).1 ≠ cond) :
    Restarted cond (meetSame res o).1 := by
  have hweight := weight_of_turned ho
  have hfull : o.op ≠ .fcmp 15 := by
    intro hop
    apply htrue
    cases ho with
    | inl heq => exact decide_eq_true (heq ▸ hop)
    | inr heq =>
        have hcond : cond = o.swap := by rw [heq, swap_swap]
        rw [hcond, BinaryPredicate.isTrue, swap, hop]
        rfl
  obtain ⟨resOp, lhs, rhs⟩ := res
  obtain ⟨oOp, _, _⟩ := o
  obtain rfl := hlhs
  obtain rfl := hrhs
  cases resOp with
  | fcmp a =>
      cases oOp with
      | icmp b => cases hexact
      | fcmp b =>
          rw [meetSame] at hne ⊢
          dsimp only at hne ⊢
          cases weight_and a b with
          | inl heq =>
              rw [heq] at hne ⊢
              rw [normalise] at hne ⊢
              split at hne
              · rename_i hstatic
                rw [if_pos hstatic]
                have hzero : b = 0 := by
                  cases Bool.or_eq_true _ _ ▸ hstatic with
                  | inl htrue => exact absurd (of_decide_eq_true htrue) hfull
                  | inr hfalse => exact Predicate.fcmp.inj (of_decide_eq_true hfalse)
                subst hzero
                exact restarted_static hne
              · rename_i hstatic
                rw [if_neg hstatic]
                exact restarted_of_turned ho hne
          | inr hlt =>
              apply restarted_of_weight
              rw [normalise_fcmp rfl, ← hweight]
              exact hlt
  | icmp a =>
      cases oOp with
      | fcmp b => cases hexact
      | icmp b =>
          rw [meetSame] at hne ⊢
          dsimp only at hne ⊢
          have hcases := weight_bitsToIcmpop a b
          cases hr : (bitsToIcmpop (icmpopToBits a &&& icmpopToBits b)).1 with
          | fcmp bits =>
              rw [hr] at hne hcases
              have hzero : bits = 0 := by
                have hbelow := bitsToIcmpop_below a b
                rwa [hr, belowBoth, decide_eq_true_eq] at hbelow
              subst hzero
              exact restarted_static hne
          | icmp r =>
              rw [hr] at hne hcases
              rw [normalise_icmp] at hne ⊢
              rcases hcases with heq | heq | hlt
              · rw [heq] at hne ⊢
                exact restarted_of_turned ho hne
              · cases heq
              · exact restarted_of_weight (hweight ▸ hlt)

theorem weight_eq_lt {op : ICmp} (h : op ≠ .eq) :
    (Predicate.icmp .eq).weight < (Predicate.icmp op).weight := by
  cases op <;> first
    | exact absurd rfl h
    | decide

theorem weight_lt_ne {op : ICmp} (h : op ≠ .ne) :
    (Predicate.icmp op).weight < (Predicate.icmp .ne).weight := by
  cases op <;> first
    | exact absurd rfl h
    | decide

theorem meetConstants_restarted {res o other : BinaryPredicate} {resOp oOp : ICmp} {rr or : APInt}
    (hresOp : res.op = .icmp resOp) (hoOp : o.op = .icmp oOp) (hconstants : rr ≠ or)
    (ho : o = cond ∨ o = cond.swap)
    (hexact : (meetConstants res o other resOp oOp rr or).2 = false)
    (hne : (meetConstants res o other resOp oOp rr or).1 ≠ cond) :
    Restarted cond (meetConstants res o other resOp oOp rr or).1 := by
  have hweight := weight_of_turned ho
  rw [hoOp] at hweight
  rw [meetConstants] at hexact hne ⊢
  split at hne
  · rename_i heq
    rw [if_pos heq] at hexact ⊢
    split at hne
    · rename_i hcheck
      rw [if_pos hcheck]
      apply restarted_of_weight
      rw [hresOp, ← hweight, heq]
      apply weight_eq_lt
      intro hsame
      rw [hsame] at hcheck
      exact hconstants (of_decide_eq_true hcheck)
    · rename_i hcheck
      rw [if_neg hcheck]
      exact restarted_static hne
  rename_i heq
  rw [if_neg heq] at hexact ⊢
  split at hne
  · rename_i heq'
    rw [if_pos heq'] at hexact ⊢
    split at hne
    · rename_i hcheck
      rw [if_pos hcheck]
      exact restarted_of_turned ho hne
    · rename_i hcheck
      rw [if_neg hcheck]
      exact restarted_static hne
  rename_i heq'
  rw [if_neg heq'] at hexact ⊢
  split at hne
  · rename_i hexcluded
    rw [if_pos hexcluded] at hexact ⊢
    split at hne
    · rename_i hcheck
      rw [if_pos hcheck]
      exact restarted_static hne
    · rename_i hcheck
      rw [if_neg hcheck]
      apply restarted_of_weight
      rw [hresOp, ← hweight, hexcluded]
      apply weight_lt_ne
      intro hsame
      rw [hsame] at hcheck
      exact hcheck (decide_eq_true hconstants.symm)
  rename_i hexcluded
  rw [if_neg hexcluded] at hexact ⊢
  split at hne
  · rename_i hexcluded'
    rw [if_pos hexcluded'] at hexact ⊢
    split at hne
    · rename_i hcheck
      rw [if_pos hcheck]
      exact restarted_static hne
    · rename_i hcheck
      rw [if_neg hcheck]
      exact restarted_of_turned ho hne
  rename_i hexcluded'
  rw [if_neg hexcluded'] at hexact ⊢
  split at hne
  · rename_i hdirection
    rw [if_pos hdirection] at hexact
    cases hexact
  · rename_i hdirection
    rw [if_neg hdirection]
    exact restarted_static hne

theorem meetAligned_restarted {res o other : BinaryPredicate} (hunique : UniqueConstants env.constant)
    (hlhs : res.lhs = o.lhs) (ho : o = cond ∨ o = cond.swap) (htrue : ¬ cond.isTrue)
    (hexact : (meetAligned env.constant res o other).2 = false)
    (hne : (meetAligned env.constant res o other).1 ≠ cond) :
    Restarted cond (meetAligned env.constant res o other).1 := by
  rw [meetAligned] at hexact hne ⊢
  split at hne
  · rename_i hrhs
    rw [if_pos hrhs] at hexact ⊢
    exact meetSame_restarted hlhs hrhs ho htrue hexact hne
  rename_i hrhs
  rw [if_neg hrhs] at hexact ⊢
  split at hne
  · rename_i rr or resOp oOp hrr hor hresOp hoOp
    simp only [hrr, hor, hresOp, hoOp] at hexact ⊢
    refine meetConstants_restarted hresOp hoOp ?_ ho hexact hne
    intro heq
    obtain ⟨v, hv, hrr'⟩ := Option.bind_eq_some_iff.mp hrr
    obtain ⟨w, hw, hor'⟩ := Option.bind_eq_some_iff.mp hor
    apply hrhs
    rw [hv, hw, hunique v w rr hrr' (heq ▸ hor')]
  · exact restarted_static hne

/-- An exact meet that is new is stronger than the new condition, or turns it around. -/
theorem meet_restarted {c : BinaryPredicate} (hunique : UniqueConstants env.constant)
    (hmeet : BinaryPredicate.meet env.constant c cond = (m, false)) (hc : m ≠ c)
    (hcond : m ≠ cond) : Restarted cond m := by
  have hm : (BinaryPredicate.meet env.constant c cond).1 = m := congrArg Prod.fst hmeet
  have hexact : (BinaryPredicate.meet env.constant c cond).2 = false := congrArg Prod.snd hmeet
  rw [← hm] at hc hcond ⊢
  rw [meet_eq] at hc hcond hexact ⊢
  split at hcond
  · rename_i htrivial
    rw [if_pos htrivial] at hc
    exact absurd rfl hc
  rename_i htrivial
  rw [if_neg htrivial] at hexact ⊢
  split at hcond
  · exact absurd rfl hcond
  rename_i htrue
  rw [if_neg htrue] at hexact ⊢
  split at hcond
  · rename_i hlhs
    rw [if_pos hlhs] at hexact ⊢
    refine meetAligned_restarted hunique hlhs (facing_right c cond) ?_ hexact hcond
    intro hcondTrue
    rw [hcondTrue] at htrivial
    exact htrivial rfl
  · rename_i hlhs
    rw [if_neg hlhs]
    exact restarted_static hcond

/-! ### Termination -/

/-- The runs of `addConjunct` that end. -/
inductive Adds (env : Env) (conjuncts : List BinaryPredicate) :
    BinaryPredicate → List BinaryPredicate → Prop
  | tautology {cond : BinaryPredicate} (htrue : cond.isTrue = true) :
      Adds env conjuncts cond conjuncts
  | covered {cond : BinaryPredicate} (htrue : cond.isTrue = false)
      (hscan : env.scan cond conjuncts = .covered) : Adds env conjuncts cond conjuncts
  | restart {cond m : BinaryPredicate} {result : List BinaryPredicate}
      (htrue : cond.isTrue = false) (hscan : env.scan cond conjuncts = .restart m)
      (hm : Adds env conjuncts m result) : Adds env conjuncts cond result
  | keep {cond : BinaryPredicate} {newset : List BinaryPredicate} (htrue : cond.isTrue = false)
      (hscan : env.scan cond conjuncts = .keep newset) :
      Adds env conjuncts cond (VecSet.insert BinaryPredicate.lexicalLt newset cond)

/-- The comparisons that `addConjunct` tries to add, which restarts give. -/
inductive Tries (env : Env) (conjuncts : List BinaryPredicate) :
    BinaryPredicate → BinaryPredicate → Prop
  | start (cond : BinaryPredicate) : Tries env conjuncts cond cond
  | restart {cond m tried : BinaryPredicate} (htrue : cond.isTrue = false)
      (hscan : env.scan cond conjuncts = .restart m) (hm : Tries env conjuncts m tried) :
      Tries env conjuncts cond tried

/-- A restart turns the condition around, and the next one turns it back. -/
structure TurnsBack (env : Env) (conjuncts : List BinaryPredicate) (cond : BinaryPredicate) :
    Prop where
  nontrivial : cond.isTrue = false
  turned : env.scan cond conjuncts = .restart cond.swap
  back : env.scan cond.swap conjuncts = .restart cond

theorem adds_of_addConjunct (h : env.addConjunct turns conjuncts cond = some result) :
    Adds env conjuncts cond result := by
  induction turns generalizing cond with
  | zero => cases h
  | succ turns ih =>
      rw [Env.addConjunct] at h
      split at h
      · rename_i htrue
        cases h
        exact .tautology htrue
      rename_i htrue
      rw [Bool.not_eq_true] at htrue
      split at h
      · rename_i hscan
        cases h
        exact .covered htrue hscan
      · rename_i m hscan
        exact .restart htrue hscan (ih h)
      · rename_i newset hscan
        cases h
        exact .keep htrue hscan

theorem Adds.addConjunct (h : Adds env conjuncts cond result) :
    ∃ enough, ∀ turns, enough ≤ turns → env.addConjunct turns conjuncts cond = some result := by
  induction h with
  | tautology htrue =>
      refine ⟨1, ?_⟩
      intro turns hturns
      obtain ⟨turns, rfl⟩ := Nat.exists_eq_add_of_le' hturns
      rw [Env.addConjunct, if_pos htrue]
  | covered htrue hscan =>
      refine ⟨1, ?_⟩
      intro turns hturns
      obtain ⟨turns, rfl⟩ := Nat.exists_eq_add_of_le' hturns
      rw [Env.addConjunct, if_neg (by simp [htrue]), hscan]
  | restart htrue hscan _ ih =>
      obtain ⟨enough, henough⟩ := ih
      refine ⟨enough + 1, ?_⟩
      intro turns hturns
      obtain ⟨turns, rfl⟩ := Nat.exists_eq_add_of_le' (Nat.le_trans (Nat.le_add_left 1 _) hturns)
      rw [Env.addConjunct, if_neg (by simp [htrue]), hscan]
      exact henough turns (Nat.le_of_succ_le_succ hturns)
  | keep htrue hscan =>
      refine ⟨1, ?_⟩
      intro turns hturns
      obtain ⟨turns, rfl⟩ := Nat.exists_eq_add_of_le' hturns
      rw [Env.addConjunct, if_neg (by simp [htrue]), hscan]

/-- One turn of `addConjunct` ends or starts over. -/
theorem adds_or_restart (env : Env) (conjuncts : List BinaryPredicate) (cond : BinaryPredicate) :
    (∃ result, Adds env conjuncts cond result) ∨
      cond.isTrue = false ∧ ∃ m, env.scan cond conjuncts = .restart m := by
  cases htrue : cond.isTrue with
  | true => exact .inl ⟨_, .tautology htrue⟩
  | false =>
      cases hscan : env.scan cond conjuncts with
      | covered => exact .inl ⟨_, .covered htrue hscan⟩
      | restart m => exact .inr ⟨rfl, m, rfl⟩
      | keep newset => exact .inl ⟨_, .keep htrue hscan⟩

theorem restarted_of_scan (hunique : UniqueConstants env.constant)
    (hscan : env.scan cond conjuncts = .restart m) : Restarted cond m := by
  obtain ⟨c, -, hmeet, hc, hcond⟩ := scan_restart hscan
  exact meet_restarted hunique hmeet hc hcond

theorem rank_swap_le (p : BinaryPredicate) (h : p ≠ .static false) : p.swap.rank ≤ p.rank := by
  rw [rank_eq h, ← weight_of_turned (.inr rfl : p.swap = p ∨ p.swap = p.swap)]
  exact rank_le p.swap

/-- Without two turns in a row, the restarts make the condition stronger and stronger. -/
theorem exists_adds (hunique : UniqueConstants env.constant)
    (hturns : ∀ tried, Tries env conjuncts cond tried → ¬ TurnsBack env conjuncts tried) :
    ∃ result, Adds env conjuncts cond result := by
  induction hrank : cond.rank using Nat.strong_induction_on generalizing cond with
  | _ rank ih =>
      subst hrank
      have hstronger : ∀ m, Tries env conjuncts cond m → m.rank < cond.rank →
          (∀ tried, Tries env conjuncts m tried → Tries env conjuncts cond tried) →
          ∃ result, Adds env conjuncts m result := by
        intro m _ hlt htries
        exact ih m.rank hlt (fun tried h => hturns tried (htries tried h)) rfl
      cases adds_or_restart env conjuncts cond with
      | inl hends => exact hends
      | inr hrestart =>
          obtain ⟨htrue, m, hscan⟩ := hrestart
          have hends : ∃ result, Adds env conjuncts m result := by
            cases restarted_of_scan hunique hscan with
            | inr hlt =>
                exact hstronger m (.restart htrue hscan (.start m)) hlt
                  fun tried h => .restart htrue hscan h
            | inl hturned =>
                subst hturned
                cases adds_or_restart env conjuncts cond.swap with
                | inl hends => exact hends
                | inr hrestart =>
                    obtain ⟨htrue', m, hscan'⟩ := hrestart
                    have hends : ∃ result, Adds env conjuncts m result := by
                      cases restarted_of_scan hunique hscan' with
                      | inl hback =>
                          rw [swap_swap] at hback
                          subst hback
                          exact absurd ⟨htrue, hscan, hscan'⟩ (hturns _ (.start _))
                      | inr hlt =>
                          refine hstronger m
                            (.restart htrue hscan (.restart htrue' hscan' (.start m)))
                            (Nat.lt_of_lt_of_le hlt ?_)
                            fun tried h => .restart htrue hscan (.restart htrue' hscan' h)
                          apply rank_swap_le
                          intro hstatic
                          rw [hstatic] at hlt
                          exact Nat.not_lt_zero _ (rank_static ▸ hlt)
                    obtain ⟨result, hresult⟩ := hends
                    exact ⟨result, .restart htrue' hscan' hresult⟩
          obtain ⟨result, hresult⟩ := hends
          exact ⟨result, .restart htrue hscan hresult⟩

theorem not_isTrue_swap {p : BinaryPredicate} (h : p.isTrue = false) : p.swap.isTrue = false := by
  rw [← Bool.not_eq_true] at h ⊢
  intro htrue
  apply h
  have hop : p.swap.op = .fcmp 15 := of_decide_eq_true htrue
  rw [← swap_swap p, swap, hop]
  rfl

theorem TurnsBack.ne_of_adds {tried : BinaryPredicate} (h : TurnsBack env conjuncts cond)
    (hadds : Adds env conjuncts tried result) : tried ≠ cond ∧ tried ≠ cond.swap := by
  have htrue := h.nontrivial
  have htrue' := not_isTrue_swap h.nontrivial
  induction hadds with
  | tautology htautology =>
      constructor
      · intro heq
        rw [heq, htrue] at htautology
        cases htautology
      · intro heq
        rw [heq, htrue'] at htautology
        cases htautology
  | covered _ hscan =>
      constructor
      · intro heq
        cases (heq ▸ hscan).symm.trans h.turned
      · intro heq
        cases (heq ▸ hscan).symm.trans h.back
  | restart _ hscan _ ih =>
      constructor
      · intro heq
        cases (heq ▸ hscan).symm.trans h.turned
        exact ih.2 rfl
      · intro heq
        cases (heq ▸ hscan).symm.trans h.back
        exact ih.1 rfl
  | keep _ hscan =>
      constructor
      · intro heq
        cases (heq ▸ hscan).symm.trans h.turned
      · intro heq
        cases (heq ▸ hscan).symm.trans h.back

/-! ### Meaning -/

/-- No meet on the way to a conjunction loses a case. -/
structure Lossless (σ : Valuation env.constant) (conjuncts : List BinaryPredicate)
    (cond : BinaryPredicate) : Prop where
  gap : ∀ tried, Tries env conjuncts cond tried → ∀ c ∈ metWith env tried conjuncts,
    ¬ InGap σ c tried
  lossy : ∀ tried, Tries env conjuncts cond tried → ∀ c ∈ metWith env tried conjuncts,
    ¬ Lossy σ c tried

theorem Lossless.restart (h : Lossless σ conjuncts cond) (htrue : cond.isTrue = false)
    (hscan : env.scan cond conjuncts = .restart m) : Lossless σ conjuncts m :=
  ⟨fun tried htries => h.gap tried (.restart htrue hscan htries),
    fun tried htries => h.lossy tried (.restart htrue hscan htries)⟩

theorem allHold_cons {p : BinaryPredicate} :
    AllHold σ (p :: conjuncts) ↔ p.holds σ = true ∧ AllHold σ conjuncts :=
  List.forall_mem_cons

theorem allHold_append : AllHold σ (conjuncts ++ conds) ↔ AllHold σ conjuncts ∧ AllHold σ conds :=
  List.forall_mem_append

/-- Conjuncts that are equivalent to others and have well-typed operands. -/
structure Represents (σ : Valuation env.constant) (result conjuncts : List BinaryPredicate) :
    Prop where
  typed : ∀ p ∈ result, Typed σ p
  holds : AllHold σ result ↔ AllHold σ conjuncts

theorem Adds.represents (hadds : Adds env conjuncts cond result)
    (hconjuncts : ∀ p ∈ conjuncts, Typed σ p) (hcond : Typed σ cond)
    (hlossless : Lossless σ conjuncts cond) : Represents σ result (cond :: conjuncts) := by
  induction hadds with
  | tautology htrue =>
      refine ⟨hconjuncts, ?_⟩
      rw [allHold_cons]
      exact (and_iff_right (holds_of_isTrue htrue)).symm
  | covered htrue hscan =>
      obtain ⟨c, hmet, hmeet⟩ := scan_covered hscan
      refine ⟨hconjuncts, ?_⟩
      rw [allHold_cons]
      refine (and_iff_right_of_imp ?_).symm
      intro hall
      have hholds := hall c (mem_of_mem_metWith hmet)
      rw [← hmeet] at hholds
      exact (holds_of_meet (hlossless.gap _ (.start _) c hmet) hholds).2
  | restart htrue hscan _ ih =>
      obtain ⟨c, hmet, hmeet, -⟩ := scan_restart hscan
      have hc := mem_of_mem_metWith hmet
      have hm := congrArg Prod.fst hmeet
      dsimp only at hm
      have htyped := typed_meet (hconjuncts c hc) hcond
      rw [hm] at htyped
      have hspec := ih htyped (hlossless.restart htrue hscan)
      refine ⟨hspec.typed, hspec.holds.trans ?_⟩
      have hboth := (holds_meet_iff (hconjuncts c hc) (congrArg Prod.snd hmeet)).mpr
        (hlossless.lossy _ (.start _) c hmet)
      rw [hm] at hboth
      rw [allHold_cons, allHold_cons, hboth]
      constructor
      · intro h
        exact ⟨h.1.2, h.2⟩
      · intro h
        exact ⟨⟨h.2 c hc, h.1⟩, h.2⟩
  | keep htrue hscan =>
      obtain ⟨hsub, hkept⟩ := scan_keep hscan
      constructor
      · intro p hp
        cases eq_or_mem_of_mem_insert hp with
        | inl heq => exact heq ▸ hcond
        | inr hp => exact hconjuncts p (hsub p hp)
      rw [allHold_cons]
      constructor
      · intro hall
        have hnew := holds_of_insert hall
        refine ⟨hnew, ?_⟩
        intro p hp
        cases hkept p hp with
        | inl hkeep => exact hall p (mem_insert_of_mem hkeep)
        | inr hmet =>
            rw [← hmet.2] at hnew
            exact (holds_of_meet (hlossless.gap _ (.start _) p hmet.1) hnew).1
      · intro h p hp
        cases eq_or_mem_of_mem_insert hp with
        | inl heq => exact heq ▸ h.1
        | inr hp => exact h.2 p (hsub p hp)

/-- Comparisons that are added one after the other without a loss, and without a condition that is
turned around and back. -/
inductive Careful (σ : Valuation env.constant) :
    List BinaryPredicate → List BinaryPredicate → Prop
  | nil {conjuncts : List BinaryPredicate} : Careful σ conjuncts []
  | cons {conjuncts conds : List BinaryPredicate} {cond : BinaryPredicate}
      (hturns : ∀ tried, Tries env conjuncts cond tried → ¬ TurnsBack env conjuncts tried)
      (hlossless : Lossless σ conjuncts cond)
      (hrest : ∀ result, Adds env conjuncts cond result → Careful σ result conds) :
      Careful σ conjuncts (cond :: conds)

theorem Careful.represents (h : Careful σ conjuncts conds)
    (hunique : UniqueConstants env.constant) (hconjuncts : ∀ p ∈ conjuncts, Typed σ p)
    (hconds : ∀ p ∈ conds, Typed σ p) : ∃ result, Represents σ result (conjuncts ++ conds) ∧
      ∃ enough, ∀ turns, enough ≤ turns →
        env.addConjuncts turns conjuncts conds = some result := by
  induction h with
  | @nil conjuncts =>
      refine ⟨conjuncts, ⟨hconjuncts, ?_⟩, 0, fun turns _ => rfl⟩
      rw [List.append_nil]
  | @cons conjuncts conds cond hturns hlossless _ ih =>
      obtain ⟨hcond, hconds'⟩ := List.forall_mem_cons.mp hconds
      obtain ⟨result, hadds⟩ := exists_adds hunique hturns
      have hfirst := hadds.represents hconjuncts hcond hlossless
      obtain ⟨result', hrest, enough', henough'⟩ := ih result hadds hfirst.typed hconds'
      obtain ⟨enough, henough⟩ := hadds.addConjunct
      refine ⟨result', ⟨hrest.typed, hrest.holds.trans ?_⟩, max enough enough', ?_⟩
      · rw [allHold_append, hfirst.holds, allHold_append, allHold_cons, allHold_cons]
        tauto
      · intro turns hle
        rw [Env.addConjuncts, List.foldlM_cons,
          henough turns (Nat.le_trans (Nat.le_max_left ..) hle)]
        exact henough' turns (Nat.le_trans (Nat.le_max_right ..) hle)

/-- Conjunctions are built exactly, and so are meets that are not marked. -/
theorem addConjuncts_exact (hunique : UniqueConstants env.constant)
    (hconjuncts : ∀ p ∈ conjuncts, Typed σ p) (hconds : ∀ p ∈ conds, Typed σ p)
    (hcareful : Careful σ conjuncts conds) :
    (∃ result, (∃ enough, ∀ turns, enough ≤ turns →
      env.addConjuncts turns conjuncts conds = some result) ∧
        (AllHold σ result ↔ AllHold σ conjuncts ∧ AllHold σ conds)) ∧
      ∀ p q, Typed σ p → (BinaryPredicate.meet env.constant p q).2 = false →
        (((BinaryPredicate.meet env.constant p q).1.holds σ = true ↔
          p.holds σ = true ∧ q.holds σ = true) ↔ ¬ Lossy σ p q) := by
  constructor
  · obtain ⟨result, hresult, hends⟩ := hcareful.represents hunique hconjuncts hconds
    exact ⟨result, hends, hresult.holds.trans allHold_append⟩
  · intro p q htyped hexact
    exact holds_meet_iff htyped hexact

theorem smallLoop_unique : UniqueConstants smallLoop.constant := by
  intro v w c hv hw
  rcases v with _ | _ | _ | v <;> cases hv <;> rcases w with _ | _ | _ | w <;> first
    | rfl
    | exact absurd hw (by decide)
    | cases hw

/-- Two opposite orders, which become an equality. -/
theorem careful_opposite : Careful allFour [⟨.icmp .sle, some 0, some 3⟩]
    [⟨.icmp .sge, some 0, some 3⟩] := by
  have htries : ∀ tried, Tries smallLoop [⟨.icmp .sle, some 0, some 3⟩]
      ⟨.icmp .sge, some 0, some 3⟩ tried →
        tried = ⟨.icmp .sge, some 0, some 3⟩ ∨ tried = ⟨.icmp .eq, some 3, some 0⟩ := by
    intro tried h
    cases h with
    | start => exact .inl rfl
    | restart _ hscan hm =>
        cases hscan
        cases hm with
        | start => exact .inr rfl
        | restart _ hscan _ => cases hscan
  refine .cons ?_ ⟨?_, ?_⟩ fun _ _ => .nil
  · intro tried h hback
    cases htries tried h with
    | inl heq => cases (heq ▸ hback).turned
    | inr heq => cases (heq ▸ hback).turned
  · intro tried h c hc hgap
    obtain ⟨-, dir, op, op', a, b, ha, -⟩ := hgap
    obtain rfl := List.mem_singleton.mp (mem_of_mem_metWith hc)
    cases htries tried h with
    | inl heq => cases (heq ▸ ha).rhs
    | inr heq => cases (heq ▸ ha).rhs
  · intro tried h c hc hlossy
    obtain ⟨op, op', hop, hop', hmixed⟩ := hlossy.mixed
    obtain rfl := List.mem_singleton.mp (mem_of_mem_metWith hc)
    cases htries tried h with
    | inl heq =>
        subst heq
        cases hop
        cases hop'
        cases hmixed
    | inr heq =>
        subst heq
        cases hop
        cases hop'
        cases hmixed

theorem addConjuncts_exact_opposite :
    (∃ result, (∃ enough, ∀ turns, enough ≤ turns →
      smallLoop.addConjuncts turns [⟨.icmp .sle, some 0, some 3⟩] [⟨.icmp .sge, some 0, some 3⟩] =
        some result) ∧ (AllHold allFour result ↔
          AllHold allFour [⟨.icmp .sle, some 0, some 3⟩] ∧
            AllHold allFour [⟨.icmp .sge, some 0, some 3⟩])) ∧
      ∀ p q, Typed allFour p → (BinaryPredicate.meet smallLoop.constant p q).2 = false →
        (((BinaryPredicate.meet smallLoop.constant p q).1.holds allFour = true ↔
          p.holds allFour = true ∧ q.holds allFour = true) ↔ ¬ Lossy allFour p q) :=
  addConjuncts_exact smallLoop_unique (List.forall_mem_singleton.mpr rfl)
    (List.forall_mem_singleton.mpr rfl) careful_opposite

/-- Adding an equality to an excluded value and a bound never ends. -/
theorem not_addConjuncts_equality : ¬ ∃ turns result, smallLoop.addConjuncts turns []
    [⟨.icmp .ne, some 0, some 1⟩, ⟨.icmp .sle, some 0, some 2⟩, ⟨.icmp .eq, some 0, some 2⟩] =
      some result := by
  intro h
  obtain ⟨turns, result, hresult⟩ := h
  have hback : TurnsBack smallLoop [⟨.icmp .ne, some 0, some 1⟩, ⟨.icmp .sle, some 0, some 2⟩]
      ⟨.icmp .eq, some 0, some 2⟩ := ⟨rfl, rfl, rfl⟩
  cases turns with
  | zero => cases hresult
  | succ turns =>
      have hlast : (smallLoop.addConjunct (turns + 1)
          [⟨.icmp .ne, some 0, some 1⟩, ⟨.icmp .sle, some 0, some 2⟩]
            ⟨.icmp .eq, some 0, some 2⟩).bind some = some result := hresult
      rw [Option.bind_fun_some] at hlast
      exact (hback.ne_of_adds (adds_of_addConjunct hlast)).1 rfl

end Nidhugg.LoopPurity
