import Nidhugg.Library.FoldInvariant
import Nidhugg.Verification.LoopPurity.Predicates
import Nidhugg.Verification.VecSet.Sets

/-! # The meaning of conjunctions and disjunctions

All operations on conditions leave out or strengthen disjuncts, as long as they meet no comparisons
with a value in the gap between them. What a disjunct guarantees is a property of its insertion
point. -/

namespace Nidhugg.LoopPurity

open BinaryPredicate VecSet

variable {env : Env} {σ : Valuation env.constant} {turns : ℕ}

def AllHold (σ : Valuation env.constant) (conjuncts : List BinaryPredicate) : Prop :=
  ∀ p ∈ conjuncts, p.holds σ = true

/-! ### Conjunctions -/

theorem toNat_injective {a b : Predicate} (h : a.toNat = b.toNat) : a = b := by
  have hfcmp : ∀ (bits : BitVec 4) (op : ICmp),
      (Predicate.fcmp bits).toNat ≠ (Predicate.icmp op).toNat := by
    intro bits op
    have hlt : (Predicate.fcmp bits).toNat < 16 := bits.isLt
    have hge : 32 ≤ (Predicate.icmp op).toNat := by
      cases op <;> decide
    omega
  cases a with
  | fcmp bits =>
      cases b with
      | fcmp bits' => rw [BitVec.eq_of_toNat_eq h]
      | icmp op => exact absurd h (hfcmp bits op)
  | icmp op =>
      cases b with
      | fcmp bits => exact absurd h.symm (hfcmp bits op)
      | icmp op' =>
          cases op <;> cases op' <;> first
            | rfl
            | cases h

theorem address_injective {a b : Option ℕ}
    (h : (a.map (· + 1)).getD 0 = (b.map (· + 1)).getD 0) : a = b := by
  cases a with
  | none =>
      cases b with
      | none => rfl
      | some b => cases h
  | some a =>
      cases b with
      | none => cases h
      | some b => rw [Nat.succ_injective h]

/-- The order of comparisons is total. -/
theorem eq_of_equivalent {p q : BinaryPredicate} (h : Equivalent BinaryPredicate.lexicalLt p q) :
    p = q := by
  obtain ⟨hpq, hqp⟩ := h
  simp only [BinaryPredicate.lexicalLt, Bool.or_eq_false_iff, Bool.and_eq_false_iff,
    decide_eq_false_iff_not] at hpq hqp
  have hlhs : (p.lhs.map (· + 1)).getD 0 = (q.lhs.map (· + 1)).getD 0 := by omega
  have hop : p.op.toNat = q.op.toNat := by omega
  have hrhs : (p.rhs.map (· + 1)).getD 0 = (q.rhs.map (· + 1)).getD 0 := by omega
  have hlhs' := address_injective hlhs
  have hop' := toNat_injective hop
  have hrhs' := address_injective hrhs
  cases p
  cases q
  simp_all only

/-- The conjuncts that a scan meets with the new condition. -/
def metWith (env : Env) (cond : BinaryPredicate) : List BinaryPredicate → List BinaryPredicate
  | [] => []
  | c :: conjuncts =>
      let (m, underapprox) := meet env.constant c cond
      if m = c then [c]
      else if m = cond || underapprox then c :: metWith env cond conjuncts
      else [c]

theorem mem_of_mem_metWith {cond c : BinaryPredicate} {conjuncts : List BinaryPredicate}
    (h : c ∈ metWith env cond conjuncts) : c ∈ conjuncts := by
  induction conjuncts with
  | nil => exact h
  | cons d conjuncts ih =>
      rw [metWith] at h
      dsimp only at h
      split at h
      · exact List.mem_cons.mpr (.inl (List.mem_singleton.mp h))
      split at h
      · cases List.mem_cons.mp h with
        | inl heq => exact List.mem_cons.mpr (.inl heq)
        | inr h => exact List.mem_cons_of_mem _ (ih h)
      · exact List.mem_cons.mpr (.inl (List.mem_singleton.mp h))

theorem mem_metWith_cons (cond c : BinaryPredicate) (conjuncts : List BinaryPredicate) :
    c ∈ metWith env cond (c :: conjuncts) := by
  rw [metWith]
  dsimp only
  split
  · exact List.mem_singleton_self c
  split
  · exact List.mem_cons_self
  · exact List.mem_singleton_self c

/-- A scan that goes on meets the other conjuncts. -/
theorem metWith_cons {cond c : BinaryPredicate} {conjuncts : List BinaryPredicate}
    (hm : (BinaryPredicate.meet env.constant c cond).1 ≠ c)
    (hon : (BinaryPredicate.meet env.constant c cond).1 = cond ∨
      (BinaryPredicate.meet env.constant c cond).2 = true) :
    metWith env cond (c :: conjuncts) = c :: metWith env cond conjuncts := by
  rw [metWith]
  dsimp only
  rw [if_neg hm, if_pos (by simpa using hon)]

theorem scan_covered {cond : BinaryPredicate} {conjuncts : List BinaryPredicate}
    (h : env.scan cond conjuncts = .covered) :
    ∃ c ∈ metWith env cond conjuncts, (BinaryPredicate.meet env.constant c cond).1 = c := by
  induction conjuncts with
  | nil => cases h
  | cons c conjuncts ih =>
      rw [Env.scan] at h
      dsimp only at h
      split at h
      · rename_i hm
        exact ⟨c, mem_metWith_cons cond c conjuncts, hm⟩
      rename_i hm
      have hrest : (BinaryPredicate.meet env.constant c cond).1 = cond ∨
          (BinaryPredicate.meet env.constant c cond).2 = true →
          env.scan cond conjuncts = .covered → ∃ d ∈ metWith env cond (c :: conjuncts),
            (BinaryPredicate.meet env.constant d cond).1 = d := by
        intro hon hcovered
        obtain ⟨d, hd, hmeet⟩ := ih hcovered
        rw [metWith_cons hm hon]
        exact ⟨d, List.mem_cons_of_mem _ hd, hmeet⟩
      split at h
      · rename_i hcond
        exact hrest (.inl hcond) h
      split at h
      · rename_i hunderapprox
        cases hscan : env.scan cond conjuncts with
        | covered => exact hrest (.inr hunderapprox) hscan
        | restart m =>
            rw [hscan] at h
            cases h
        | keep newset =>
            rw [hscan] at h
            cases h
      · cases h

theorem scan_restart {cond m : BinaryPredicate} {conjuncts : List BinaryPredicate}
    (h : env.scan cond conjuncts = .restart m) : ∃ c ∈ metWith env cond conjuncts,
      BinaryPredicate.meet env.constant c cond = (m, false) ∧ m ≠ c ∧ m ≠ cond := by
  induction conjuncts with
  | nil => cases h
  | cons c conjuncts ih =>
      rw [Env.scan] at h
      dsimp only at h
      split at h
      · cases h
      rename_i hm
      have hrest : (BinaryPredicate.meet env.constant c cond).1 = cond ∨
          (BinaryPredicate.meet env.constant c cond).2 = true →
          env.scan cond conjuncts = .restart m → ∃ d ∈ metWith env cond (c :: conjuncts),
            BinaryPredicate.meet env.constant d cond = (m, false) ∧ m ≠ d ∧ m ≠ cond := by
        intro hon hrestart
        obtain ⟨d, hd, hmeet⟩ := ih hrestart
        rw [metWith_cons hm hon]
        exact ⟨d, List.mem_cons_of_mem _ hd, hmeet⟩
      split at h
      · rename_i hcond
        exact hrest (.inl hcond) h
      rename_i hcond
      split at h
      · rename_i hunderapprox
        cases hscan : env.scan cond conjuncts with
        | covered =>
            rw [hscan] at h
            cases h
        | restart m' =>
            rw [hscan] at h
            cases h
            exact hrest (.inr hunderapprox) hscan
        | keep newset =>
            rw [hscan] at h
            cases h
      · rename_i hexact
        cases h
        exact ⟨c, mem_metWith_cons cond c conjuncts,
          Prod.ext rfl (Bool.eq_false_iff.mpr hexact), hm, hcond⟩

theorem scan_keep {cond : BinaryPredicate} {conjuncts newset : List BinaryPredicate}
    (h : env.scan cond conjuncts = .keep newset) : (∀ c ∈ newset, c ∈ conjuncts) ∧
      ∀ c ∈ conjuncts, c ∈ newset ∨
        c ∈ metWith env cond conjuncts ∧ (BinaryPredicate.meet env.constant c cond).1 = cond := by
  induction conjuncts generalizing newset with
  | nil =>
      cases h
      exact ⟨fun c hc => hc, fun c hc => .inl hc⟩
  | cons c conjuncts ih =>
      rw [Env.scan] at h
      dsimp only at h
      split at h
      · cases h
      rename_i hm
      split at h
      · rename_i hcond
        obtain ⟨hsub, hall⟩ := ih h
        rw [metWith_cons hm (.inl hcond)]
        constructor
        · exact fun d hd => List.mem_cons_of_mem _ (hsub d hd)
        · intro d hd
          cases List.mem_cons.mp hd with
          | inl heq => exact .inr ⟨List.mem_cons.mpr (.inl heq), heq ▸ hcond⟩
          | inr hd =>
              cases hall d hd with
              | inl hnew => exact .inl hnew
              | inr hmet => exact .inr ⟨List.mem_cons_of_mem _ hmet.1, hmet.2⟩
      split at h
      · rename_i hunderapprox
        cases hscan : env.scan cond conjuncts with
        | covered =>
            rw [hscan] at h
            cases h
        | restart m =>
            rw [hscan] at h
            cases h
        | keep newset' =>
            rw [hscan] at h
            cases h
            obtain ⟨hsub, hall⟩ := ih hscan
            rw [metWith_cons hm (.inr hunderapprox)]
            constructor
            · intro d hd
              cases List.mem_cons.mp hd with
              | inl heq => exact List.mem_cons.mpr (.inl heq)
              | inr hd => exact List.mem_cons_of_mem _ (hsub d hd)
            · intro d hd
              cases List.mem_cons.mp hd with
              | inl heq => exact .inl (List.mem_cons.mpr (.inl heq))
              | inr hd =>
                  cases hall d hd with
                  | inl hnew => exact .inl (List.mem_cons_of_mem _ hnew)
                  | inr hmet => exact .inr ⟨List.mem_cons_of_mem _ hmet.1, hmet.2⟩
      · cases h

/-- A comparison that is inserted holds, even if an equivalent one was there. -/
theorem holds_of_insert {newset : List BinaryPredicate} {cond : BinaryPredicate}
    (hall : AllHold σ (VecSet.insert BinaryPredicate.lexicalLt newset cond)) :
    cond.holds σ = true := by
  obtain ⟨p, hp, heq⟩ := exists_mem_insert BinaryPredicate.lexicalLt newset cond
  cases heq with
  | inl heq => exact heq ▸ hall p hp
  | inr heq =>
      rw [← eq_of_equivalent heq]
      exact hall p hp

/-! ### The pairs that are met -/

namespace Env

variable (env : Env) (turns : ℕ)

/-- The pairs that `addConjunct` calls `meet` with. -/
def addConjunctMeets : ℕ → List BinaryPredicate → BinaryPredicate →
    List (BinaryPredicate × BinaryPredicate)
  | 0, _, _ => []
  | turns + 1, conjuncts, cond =>
      if cond.isTrue then []
      else (metWith env cond conjuncts).map (·, cond) ++
        match env.scan cond conjuncts with
        | .restart m => addConjunctMeets turns conjuncts m
        | _ => []

def addConjunctsMeets : List BinaryPredicate → List BinaryPredicate →
    List (BinaryPredicate × BinaryPredicate)
  | _, [] => []
  | conjuncts, cond :: conds =>
      env.addConjunctMeets turns conjuncts cond ++
        (env.addConjunct turns conjuncts cond).toList.flatMap (addConjunctsMeets · conds)

def andConjunctionsMeets (a b : ConjunctionLoc) : List (BinaryPredicate × BinaryPredicate) :=
  match env.meetPoints a.insertionPoint b.insertionPoint with
  | none => []
  | some _ => env.addConjunctsMeets turns a.conjuncts b.conjuncts

/-- The pairs that are met to build the conjunctions of two conditions. -/
def andMeets (a b : Disjunction) : List (BinaryPredicate × BinaryPredicate) :=
  let (_, left, right) := env.commonTerms a b
  right.flatMap fun r => left.flatMap fun l => env.andConjunctionsMeets turns r l

def mapMeets (f : BinaryPredicate → BinaryPredicate) (d : Disjunction) :
    List (BinaryPredicate × BinaryPredicate) :=
  d.flatMap fun c => env.addConjunctsMeets turns [] (c.conjuncts.map f)

end Env

/-- No pair bounds a value that is in the gap between the bounds. -/
def Apart {constant : ℕ → Option APInt} (σ : Valuation constant)
    (pairs : List (BinaryPredicate × BinaryPredicate)) : Prop :=
  ∀ pair ∈ pairs, ¬ InGap σ pair.1 pair.2

variable {constant : ℕ → Option APInt} {τ : Valuation constant}

theorem apart_append {pairs pairs' : List (BinaryPredicate × BinaryPredicate)} :
    Apart τ (pairs ++ pairs') ↔ Apart τ pairs ∧ Apart τ pairs' := List.forall_mem_append

theorem apart_flatMap {α : Type} {xs : List α}
    {f : α → List (BinaryPredicate × BinaryPredicate)} :
    Apart τ (xs.flatMap f) ↔ ∀ x ∈ xs, Apart τ (f x) := List.forall_mem_flatMap

theorem addConjunct_implies {conjuncts result : List BinaryPredicate} {cond : BinaryPredicate}
    (hapart : Apart σ (env.addConjunctMeets turns conjuncts cond))
    (h : env.addConjunct turns conjuncts cond = some result) (hall : AllHold σ result) :
    AllHold σ (cond :: conjuncts) := by
  induction turns generalizing cond with
  | zero => cases h
  | succ turns ih =>
      rw [Env.addConjunct] at h
      rw [Env.addConjunctMeets] at hapart
      split at h
      · rename_i htrue
        cases h
        exact List.forall_mem_cons.mpr ⟨holds_of_isTrue htrue, hall⟩
      rename_i htrue
      rw [if_neg htrue, apart_append] at hapart
      have hmet : ∀ c ∈ metWith env cond conjuncts, ¬ InGap σ c cond :=
        fun c hc => hapart.1 _ (List.mem_map_of_mem hc)
      split at h
      · -- a conjunct implies the new one
        rename_i hscan
        cases h
        obtain ⟨c, hc, hmeet⟩ := scan_covered hscan
        have hholds := hall c (mem_of_mem_metWith hc)
        rw [← hmeet] at hholds
        exact List.forall_mem_cons.mpr ⟨(holds_of_meet (hmet c hc) hholds).2, hall⟩
      · -- the meet implies the new one
        rename_i m hscan
        rw [hscan] at hapart
        obtain ⟨c, hc, hmeet, -⟩ := scan_restart hscan
        obtain ⟨hm, hconjuncts⟩ := List.forall_mem_cons.mp (ih hapart.2 h)
        have hholds : (BinaryPredicate.meet env.constant c cond).1.holds σ = true := by rwa [hmeet]
        exact List.forall_mem_cons.mpr ⟨(holds_of_meet (hmet c hc) hholds).2, hconjuncts⟩
      · -- the new one implies those that are gone
        rename_i newset hscan
        cases h
        obtain ⟨-, hkept⟩ := scan_keep hscan
        have hnew := holds_of_insert hall
        refine List.forall_mem_cons.mpr ⟨hnew, ?_⟩
        intro p hp
        obtain hkeep | ⟨hmem, hmeet⟩ := hkept p hp
        · exact hall p (mem_insert_of_mem hkeep)
        · rw [← hmeet] at hnew
          exact (holds_of_meet (hmet p hmem) hnew).1

theorem addConjuncts_implies {conjuncts conds result : List BinaryPredicate}
    (hapart : Apart σ (env.addConjunctsMeets turns conjuncts conds))
    (h : env.addConjuncts turns conjuncts conds = some result) (hall : AllHold σ result) :
    AllHold σ (conjuncts ++ conds) := by
  induction conds generalizing conjuncts with
  | nil =>
      cases h
      rwa [List.append_nil]
  | cons cond conds ih =>
      rw [Env.addConjuncts, List.foldlM_cons] at h
      obtain ⟨conjuncts', hcond, hrest⟩ := Option.bind_eq_some_iff.mp h
      rw [Env.addConjunctsMeets, apart_append, apart_flatMap] at hapart
      obtain ⟨hall', hconds⟩ :=
        List.forall_mem_append.mp (ih (hapart.2 conjuncts' (by simp [hcond])) hrest)
      obtain ⟨hfirst, hconjuncts⟩ :=
        List.forall_mem_cons.mp (addConjunct_implies hapart.1 hcond hall')
      exact List.forall_mem_append.mpr ⟨hconjuncts, List.forall_mem_cons.mpr ⟨hfirst, hconds⟩⟩

/-- Insertion points that the order of disjuncts does not tell apart. -/
def SamePoint (env : Env) (i j : Option Location) : Prop := Equivalent env.pointLt i j

theorem SamePoint.none_iff {i j : Option Location} (h : SamePoint env i j) :
    i = none ↔ j = none := by
  obtain ⟨hij, hji⟩ := h
  cases i with
  | none =>
      cases j with
      | none => simp
      | some j => simp [Graph.pointLt, Graph.pointLe] at hji
  | some i =>
      cases j with
      | none => simp [Graph.pointLt, Graph.pointLe] at hij
      | some j => simp

/-- Disjuncts that count as equal have the same conjuncts. -/
theorem samePoint_of_equivalent {a b : ConjunctionLoc} (h : Equivalent env.lexicalLt a b) :
    a.conjuncts = b.conjuncts ∧ SamePoint env a.insertionPoint b.insertionPoint := by
  obtain ⟨hab, hba⟩ := h
  simp only [Env.lexicalLt, Bool.or_eq_false_iff] at hab hba
  have hpoint : SamePoint env a.insertionPoint b.insertionPoint := ⟨hab.1, hba.1⟩
  refine ⟨?_, hpoint⟩
  apply eq_of_not_seqLt fun x y => eq_of_equivalent
  constructor
  · simpa [hba.1] using hab.2
  · simpa [hab.1] using hba.2

/-! ### Disjunctions -/

/-- A disjunct whose conjuncts hold guarantees a property of its insertion point. -/
def Guarantees (σ : Valuation env.constant) (P : Option Location → Prop) (d : ConjunctionLoc) :
    Prop := AllHold σ d.conjuncts → P d.insertionPoint

def Covers (σ : Valuation env.constant) (P : Option Location → Prop) (disjuncts : Disjunction) :
    Prop := ∀ d ∈ disjuncts, Guarantees σ P d

variable {P Q R : Option Location → Prop} {a b d : ConjunctionLoc} {left right : Disjunction}

theorem Guarantees.imp (h : Guarantees σ P d) (himp : ∀ i, P i → Q i) : Guarantees σ Q d :=
  fun hall => himp _ (h hall)

theorem Covers.imp (h : Covers σ P left) (himp : ∀ i, P i → Q i) : Covers σ Q left :=
  fun d hd => (h d hd).imp himp

theorem covers_nil : Covers σ P [] := by
  intro d hd
  cases hd

theorem not_allHold_of_isFalse (h : d.isFalse) : ¬ AllHold σ d.conjuncts := by
  intro hall
  rw [ConjunctionLoc.isFalse] at h
  split at h
  · rename_i p hp
    have hholds := hall p (by rw [hp]; exact List.mem_cons_self)
    rw [not_holds_of_isFalse h] at hholds
    cases hholds
  · cases h

theorem guarantees_of_isFalse (h : d.isFalse) : Guarantees σ P d :=
  fun hall => absurd hall (not_allHold_of_isFalse h)

theorem guarantees_static_false : Guarantees σ P (ConjunctionLoc.static false) :=
  guarantees_of_isFalse rfl

theorem Guarantees.normalise (h : Guarantees σ P d) :
    Guarantees σ P (if d.isFalse then { d with insertionPoint := none } else d) := by
  split
  · rename_i hfalse
    exact guarantees_of_isFalse hfalse
  · exact h

/-- The conjunction of two disjuncts. -/
theorem andConjunctions_guarantees (ha : Guarantees σ P a) (hb : Guarantees σ Q b)
    (hapart : Apart σ (env.andConjunctionsMeets turns a b))
    (hmeet : ∀ i j r, P i → Q j → env.meetPoints i j = some r → R r)
    (h : env.andConjunctions turns a b = some d) : Guarantees σ R d := by
  rw [Env.andConjunctions] at h
  rw [Env.andConjunctionsMeets] at hapart
  split at h
  · cases h
    exact guarantees_static_false
  · rename_i point hpoint
    rw [hpoint] at hapart
    obtain ⟨conjuncts, hconjuncts, hres⟩ := Option.bind_eq_some_iff.mp h
    have hgood : Guarantees σ R ⟨conjuncts, point⟩ := by
      intro hall
      obtain ⟨hleft, hright⟩ :=
        List.forall_mem_append.mp (addConjuncts_implies hapart hconjuncts hall)
      exact hmeet _ _ _ (ha hleft) (hb hright) hpoint
    have hres' : Guarantees σ R (if Env.maxConjunctionTerms < conjuncts.length then .static false
        else ⟨conjuncts, point⟩) := by
      split
      · exact guarantees_static_false
      · exact hgood
    rw [Option.pure_def, Option.some.injEq] at hres
    rw [← hres]
    exact hres'.normalise

theorem addCond_covers (hleft : Covers σ P left) (hd : Guarantees σ P d) :
    Covers σ P (env.addCond left d) := by
  rw [Env.addCond]
  split
  · exact hleft
  · intro c hc
    rcases eq_or_mem_of_mem_insert hc with rfl | hc
    · exact hd
    · exact hleft c (List.mem_filter.mp hc).1

theorem foldl_addCond_covers (hleft : Covers σ P left) (hright : Covers σ P right) :
    Covers σ P (right.foldl env.addCond left) := by
  induction right generalizing left with
  | nil => exact hleft
  | cons d right ih =>
      exact ih (addCond_covers hleft (hright d List.mem_cons_self))
        fun c hc => hright c (List.mem_cons_of_mem _ hc)

theorem bound_covers (hleft : Covers σ P left) : Covers σ P (env.bound left) := by
  rw [Env.bound]
  split
  · intro d hd
    have hd' := List.mem_of_mem_take ((env.perm _ _).mem_iff.mp hd)
    exact hleft d ((env.perm _ _).mem_iff.mp hd')
  · exact hleft

theorem or_covers (hleft : Covers σ P left) (hright : Covers σ P right) :
    Covers σ P (env.or left right) :=
  bound_covers (foldl_addCond_covers hleft hright)

/-- The common terms guarantee what equivalent terms on both sides do. -/
theorem commonTerms_spec {common left' right' : Disjunction}
    (h : env.commonTerms left right = (common, left', right')) :
    (∀ d ∈ common, d ∈ left ∧ ∃ c ∈ right, Equivalent env.lexicalLt c d) ∧
      (∀ d ∈ left', d ∈ left) ∧ ∀ d ∈ right', d ∈ right := by
  induction left generalizing right common left' right' with
  | nil =>
      cases h
      exact ⟨fun d hd => absurd hd List.not_mem_nil, fun d hd => hd, fun d hd => hd⟩
  | cons l left ih =>
      rw [Env.commonTerms] at h
      split at h
      · rename_i right₁ herase
        obtain ⟨hsub, hfound⟩ := erase_spec herase
        cases h
        have hrest : env.commonTerms left right₁ = env.commonTerms left right₁ := rfl
        obtain ⟨hcommon, hleft, hright⟩ := ih hrest
        refine ⟨?_, fun d hd => List.mem_cons_of_mem _ (hleft d hd),
          fun d hd => hsub d (hright d hd)⟩
        intro d hd
        rcases List.mem_cons.mp hd with rfl | hd
        · exact ⟨List.mem_cons_self, hfound⟩
        · obtain ⟨hmem, c, hc, heq⟩ := hcommon d hd
          exact ⟨List.mem_cons_of_mem _ hmem, c, hsub c hc, heq⟩
      · cases h
        have hrest : env.commonTerms left right = env.commonTerms left right := rfl
        obtain ⟨hcommon, hleft, hright⟩ := ih hrest
        refine ⟨?_, ?_, hright⟩
        · intro d hd
          obtain ⟨hmem, hc⟩ := hcommon d hd
          exact ⟨List.mem_cons_of_mem _ hmem, hc⟩
        · intro d hd
          rcases List.mem_cons.mp hd with rfl | hd
          · exact List.mem_cons_self
          · exact List.mem_cons_of_mem _ (hleft d hd)

/-- A disjunct that counts as equal to another one gives both guarantees. -/
theorem Guarantees.of_equivalent (ha : Guarantees σ P a) (hb : Guarantees σ Q b)
    (heq : Equivalent env.lexicalLt a b)
    (hsame : ∀ i j, P i → Q j → SamePoint env i j → R i) : Guarantees σ R a := by
  obtain ⟨hconjuncts, hpoint⟩ := samePoint_of_equivalent heq
  intro hall
  exact hsame _ _ (ha hall) (hb (hconjuncts ▸ hall)) hpoint

theorem and_covers (hapart : Apart σ (env.andMeets turns left right)) (hleft : Covers σ P left)
    (hright : Covers σ Q right)
    (hmeet : ∀ i j r, P i → Q j → env.meetPoints j i = some r → R r)
    (hsame : ∀ i j, P i → Q j → SamePoint env i j → R i) {result : Disjunction}
    (h : env.and turns left right = some result) : Covers σ R result := by
  rw [Env.and] at h
  rw [Env.andMeets] at hapart
  cases hterms : env.commonTerms left right with
  | mk common rest =>
      obtain ⟨left', right'⟩ := rest
      rw [hterms] at h hapart
      obtain ⟨res, hres, hbound⟩ := Option.bind_eq_some_iff.mp h
      obtain ⟨hcommon, hleft', hright'⟩ := commonTerms_spec hterms
      rw [Option.pure_def, Option.some.injEq] at hbound
      rw [← hbound]
      apply bound_covers
      -- the common terms come first
      have hstart : Covers σ R (common.foldl env.addCond []) := by
        refine foldl_addCond_covers covers_nil ?_
        intro d hd
        obtain ⟨hmem, c, hc, heq⟩ := hcommon d hd
        exact (hleft d hmem).of_equivalent (hright c hc) ⟨heq.2, heq.1⟩ hsame
      -- then all pairs of the others
      refine FoldInvariant.of_foldlM right' ?_ hstart hres
      intro start r res hr hstart hfold
      refine FoldInvariant.of_foldlM left' ?_ hstart hfold
      intro start l res hl hstart hstep
      obtain ⟨d, hd, heq⟩ := Option.bind_eq_some_iff.mp hstep
      rw [Option.pure_def, Option.some.injEq] at heq
      rw [← heq]
      refine addCond_covers hstart ?_
      have hpair := apart_flatMap.mp (apart_flatMap.mp hapart r hr) l hl
      exact andConjunctions_guarantees (hright r (hright' r hr)) (hleft l (hleft' l hl)) hpair
        (fun i j s hi hj hs => hmeet j i s hj hi hs) hd

/-- Comparisons are replaced by others with the same meaning. -/
theorem map_covers {f : BinaryPredicate → BinaryPredicate}
    (hapart : Apart σ (env.mapMeets turns f left)) (hf : ∀ p, (f p).holds σ = p.holds σ)
    (hleft : Covers σ P left) {result : Disjunction} (h : env.map turns f left = some result) :
    Covers σ P result := by
  rw [Env.map] at h
  obtain ⟨terms, hterms, heq⟩ := Option.bind_eq_some_iff.mp h
  rw [Option.pure_def, Option.some.injEq] at heq
  rw [← heq]
  refine foldl_addCond_covers covers_nil ?_
  clear h heq
  induction left generalizing terms with
  | nil =>
      cases hterms
      exact covers_nil
  | cons d left ih =>
      rw [List.mapM_cons] at hterms
      obtain ⟨d', hd', hrest⟩ := Option.bind_eq_some_iff.mp hterms
      obtain ⟨terms', hterms', heq⟩ := Option.bind_eq_some_iff.mp hrest
      rw [Option.pure_def, Option.some.injEq] at heq
      subst heq
      rw [Env.mapMeets, List.flatMap_cons, apart_append] at hapart
      have hfirst : Guarantees σ P d' := by
        obtain ⟨conjuncts, hconjuncts, heq⟩ := Option.bind_eq_some_iff.mp hd'
        rw [Option.pure_def, Option.some.injEq] at heq
        subst heq
        intro hall
        have himplied := addConjuncts_implies hapart.1 hconjuncts hall
        apply hleft d List.mem_cons_self
        intro p hp
        rw [← hf p]
        exact himplied (f p) (by simpa using ⟨p, hp, rfl⟩)
      intro c hc
      rcases List.mem_cons.mp hc with rfl | hc
      · exact hfirst
      · exact ih hapart.2 (fun c hc => hleft c (List.mem_cons_of_mem _ hc)) terms' hterms' c hc

end Nidhugg.LoopPurity
