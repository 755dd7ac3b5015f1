import Nidhugg.Verification.LoopPurity.Paths

/-! # Soundness of the loop purity analysis -/

namespace Nidhugg.LoopPurity

open BinaryPredicate VecSet

namespace Loop

variable {loop : Loop} {σ : Valuation loop.constant} {std : StdSort} {turns : ℕ}

/-! ### Branches -/

/-- `getBranchCondition` keeps the meaning of a condition. -/
theorem holds_getBranchCondition (cond : Condition) :
    (loop.getBranchCondition cond).holds σ = cond.holds σ := by
  induction cond with
  | cmp op lhs rhs => rfl
  | xor cond bit ih =>
      cases bit with
      | false =>
          rw [getBranchCondition, ih, Condition.holds]
          cases cond.holds σ <;> rfl
      | true =>
          rw [getBranchCondition, holds_negate, ih, Condition.holds]
          cases cond.holds σ <;> rfl
  | value v =>
      rw [getBranchCondition, holds_collapseTautologies, Condition.holds, holds]
      dsimp only [checkPredicateSatisfaction, Valuation.intOf, Option.map_some, Option.getD_some]
      rw [σ.int_constant _ _ loop.constant_trueValue]

/-! ### The pairs that are met -/

section Meets

variable (loop std turns)

/-- The pairs that `getIn` calls `meet` with while it builds a condition. -/
def getInMeets (conds : ℕ → Disjunction) (b : ℕ) :
    Option ℕ → List (BinaryPredicate × BinaryPredicate)
  | none | some 0 => []
  | some t =>
      if t ≤ b then []
      else (loop.env std).mapMeets turns
        (fun term => collapseTautologies loop.constant term.normalise) (conds t)

/-- The pairs that a branch meets, with the conditions from both sides. -/
def branchMeets (cond : Condition) (trueSucc falseSucc : Option ℕ) (trueIn falseIn : Disjunction) :
    List (BinaryPredicate × BinaryPredicate) :=
  let brCond := loop.getBranchCondition cond
  if (loop.env std).eq trueIn falseIn then []
  else match trueSucc, falseSucc with
    | none, some f =>
        if falseIn.isTrue then []
        else (loop.env std).andMeets turns falseIn [.ofPoint (some (loop.firstInsertionPt f))]
    | some t, none =>
        if trueIn.isTrue then []
        else (loop.env std).andMeets turns trueIn [.ofPoint (some (loop.firstInsertionPt t))]
    | _, _ =>
        (loop.env std).andMeets turns ((loop.env std).or falseIn (.ofPredicate brCond))
          ((loop.env std).or trueIn (.ofPredicate brCond.negate))

/-- The pairs that the loop of `computeOut` over the successors meets. -/
def successorsMeets (conds : ℕ → Disjunction) (b : ℕ) :
    Disjunction → List (Option ℕ) → List (BinaryPredicate × BinaryPredicate)
  | _, [] => []
  | cond, s :: successors =>
      loop.getInMeets std turns conds b s ++
        (loop.getIn std turns conds b s).toList.flatMap fun i =>
          (loop.env std).andMeets turns cond i ++
            ((loop.env std).and turns cond i).toList.flatMap
              (successorsMeets conds b · successors)

def computeOutMeets (conds : ℕ → Disjunction) (b : ℕ) :
    Terminator → List (BinaryPredicate × BinaryPredicate)
  | .branch cond trueSucc falseSucc =>
      loop.getInMeets std turns conds b trueSucc ++ loop.getInMeets std turns conds b falseSucc ++
        (loop.getIn std turns conds b trueSucc).toList.flatMap fun trueIn =>
          (loop.getIn std turns conds b falseSucc).toList.flatMap fun falseIn =>
            loop.branchMeets std turns cond trueSucc falseSucc trueIn falseIn
  | .other successors | .invoke successors =>
      loop.successorsMeets std turns conds b (.static true) successors

def purityMeets (next : Location) : Instruction → List (BinaryPredicate × BinaryPredicate)
  | .rmw op value arg zero ones safe =>
      let ret : Disjunction := .ofPredicate (rmwPredicate op value arg zero ones)
      let point : Disjunction := [.ofPoint (some next)]
      (if safe then [] else (loop.env std).andMeets turns ret point) ++
        (if safe then some ret else (loop.env std).and turns ret point).toList.flatMap
          ((loop.env std).mapMeets turns (collapseTautologies loop.constant))
  | .cmpxchg (some success) falseValue safe =>
      if safe then []
      else (loop.env std).andMeets turns (.ofPredicate ⟨.icmp .eq, some success, some falseValue⟩)
        [.ofPoint (some next)]
  | _ => []

def throughMeets (b : ℕ) :
    ℕ → List Instruction → Disjunction → List (BinaryPredicate × BinaryPredicate)
  | _, [], _ => []
  | place, i :: instructions, cond =>
      throughMeets b (place + 1) instructions cond ++
        loop.purityMeets std turns ⟨b, place + 1⟩ i ++
        (loop.throughInstructions std turns b (place + 1) instructions cond).toList.flatMap
          fun after => (loop.instructionPurity std turns ⟨b, place + 1⟩ i).toList.flatMap
            ((loop.env std).andMeets turns after)

def analyseBlockMeets (conds : ℕ → Disjunction) (b : ℕ) (block : Block) :
    List (BinaryPredicate × BinaryPredicate) :=
  loop.computeOutMeets std turns conds b block.terminator ++
    (loop.computeOut std turns conds b block.terminator).toList.flatMap
      (loop.throughMeets std turns b 0 block.instructions)

def analyseFromMeets : ℕ → List (BinaryPredicate × BinaryPredicate)
  | 0 => []
  | count + 1 =>
      let b := loop.blocks.length - (count + 1)
      analyseFromMeets count ++ (loop.analyseFrom std turns count).toList.flatMap fun conds =>
        (loop.blocks[b]?).toList.flatMap (loop.analyseBlockMeets std turns conds b)

/-- The pairs that the analysis calls `meet` with while it builds the conditions. -/
def analyseLoopMeets : List (BinaryPredicate × BinaryPredicate) :=
  loop.analyseFromMeets std turns loop.blocks.length

end Meets

/-! ### Insertion points -/

theorem isBefore_le {g : Graph} {i j : Location} (h : g.isBefore i j = true) :
    i.block < j.block ∨ (i.block = j.block ∧ i.place < j.place) := by
  rw [Graph.isBefore] at h
  split at h
  · rename_i heq
    exact .inr ⟨heq, by simpa using h⟩
  split at h
  · cases h
  · omega

/-- The meet of two insertion points is the later one. -/
theorem meetPoints_cases {g : Graph} {i j r : Option Location} (h : g.meetPoints i j = some r) :
    (i = none ∧ r = j) ∨ (j = none ∧ r = i) ∨
      ∃ a b, i = some a ∧ j = some b ∧
        ((a = b ∧ r = some a) ∨ (g.isBefore a b = true ∧ r = some b) ∨
          (g.isBefore b a = true ∧ r = some a)) := by
  cases i with
  | none =>
      cases h
      exact .inl ⟨rfl, rfl⟩
  | some a =>
      cases j with
      | none =>
          cases h
          exact .inr (.inl ⟨rfl, rfl⟩)
      | some b =>
          rw [Graph.meetPoints] at h
          refine .inr (.inr ⟨a, b, rfl, rfl, ?_⟩)
          split at h
          · rename_i heq
            cases h
            exact .inl ⟨heq, rfl⟩
          split at h
          · rename_i hab
            cases h
            exact .inr (.inl ⟨hab, rfl⟩)
          split at h
          · rename_i hba
            cases h
            exact .inr (.inr ⟨hba, rfl⟩)
          · cases h

/-! ### What the conditions say -/

/-- What a disjunct with this insertion point says at a place: the iteration is pure from there
on, and it does not leave the loop behind the insertion point. -/
structure Safe (loop : Loop) (σ : Valuation loop.constant) (b place : ℕ)
    (point : Option Location) : Prop where
  weak : loop.Good σ Weak b place
  strong : point = none → loop.Good σ Strong b place
  behind : ∀ e, point = some e → loop.Good σ Strong e.block e.place ∧ b ≤ e.block

/-- What a disjunct says at the end of a block about some edges. -/
structure SafeEdges (loop : Loop) (σ : Valuation loop.constant) (b : ℕ)
    (edges : Option ℕ → Prop) (point : Option Location) : Prop where
  weak : ∀ s, edges s → loop.GoodEdge σ Weak b s
  strong : point = none → ∀ s, edges s → loop.GoodEdge σ Strong b s
  behind : ∀ e, point = some e → loop.Good σ Strong e.block e.place ∧ b ≤ e.block

variable {b place : ℕ} {edges edges' : Option ℕ → Prop}

theorem SafeEdges.mono {point : Option Location} (h : loop.SafeEdges σ b edges point)
    (hsub : ∀ s, edges' s → edges s) : loop.SafeEdges σ b edges' point where
  weak := fun s hs => h.weak s (hsub s hs)
  strong := fun hpoint s hs => h.strong hpoint s (hsub s hs)
  behind := h.behind

theorem safeEdges_of_empty (h : ∀ s, ¬ edges s) : loop.SafeEdges σ b edges none where
  weak := fun s hs => absurd hs (h s)
  strong := fun _ s hs => absurd hs (h s)
  behind := by
    intro e he
    cases he

theorem SafeEdges.safe {point : Option Location} (h : loop.SafeEdges σ b (loop.Follows σ b) point)
    (hplace : ∀ block, loop.blocks[b]? = some block → block.instructions.length ≤ place) :
    loop.Safe σ b place point where
  weak := good_of_edges hplace h.weak
  strong := fun hpoint => good_of_edges hplace (h.strong hpoint)
  behind := h.behind

/-- The meet of insertion points speaks about the edges of both sides. -/
theorem SafeEdges.meet {i j r : Option Location} (hi : loop.SafeEdges σ b edges i)
    (hj : loop.SafeEdges σ b edges' j) (hr : (loop.env std).meetPoints j i = some r) :
    loop.SafeEdges σ b (fun s => edges s ∨ edges' s) r where
  weak := by
    intro s hs
    rcases hs with hs | hs
    · exact hi.weak s hs
    · exact hj.weak s hs
  strong := by
    intro hnone s hs
    rcases meetPoints_cases hr with ⟨hj', rfl⟩ | ⟨hi', rfl⟩ | ⟨a, c, ha, hc, h⟩
    · rcases hs with hs | hs
      · exact hi.strong hnone s hs
      · exact hj.strong hj' s hs
    · rcases hs with hs | hs
      · exact hi.strong hi' s hs
      · exact hj.strong hnone s hs
    · rcases h with ⟨-, rfl⟩ | ⟨-, rfl⟩ | ⟨-, rfl⟩ <;> cases hnone
  behind := by
    intro e he
    rcases meetPoints_cases hr with ⟨-, rfl⟩ | ⟨-, rfl⟩ | ⟨a, c, ha, hc, h⟩
    · exact hi.behind e he
    · exact hj.behind e he
    · rcases h with ⟨-, rfl⟩ | ⟨-, rfl⟩ | ⟨-, rfl⟩
      · exact hj.behind e (ha.trans he)
      · exact hi.behind e (hc.trans he)
      · exact hj.behind e (ha.trans he)

/-- Insertion points that are not told apart speak about the edges of both sides. -/
theorem SafeEdges.same {i j : Option Location} (hi : loop.SafeEdges σ b edges i)
    (hj : loop.SafeEdges σ b edges' j) (hsame : SamePoint (loop.env std) i j) :
    loop.SafeEdges σ b (fun s => edges s ∨ edges' s) i where
  weak := by
    intro s hs
    rcases hs with hs | hs
    · exact hi.weak s hs
    · exact hj.weak s hs
  strong := by
    intro hnone s hs
    rcases hs with hs | hs
    · exact hi.strong hnone s hs
    · exact hj.strong (hsame.none_iff.mp hnone) s hs
  behind := hi.behind

/-! ### The conditions at the end of a block -/

/-- All disjuncts of a condition say what their insertion points stand for. -/
abbrev Sound (loop : Loop) (std : StdSort) (σ : Valuation loop.constant)
    (P : Option Location → Prop) (disjuncts : Disjunction) : Prop :=
  @Covers (loop.env std) σ P disjuncts

variable {conds : ℕ → Disjunction}

theorem sound_nil {P : Option Location → Prop} : loop.Sound std σ P [] := covers_nil

theorem sound_ofPoint {P : Option Location → Prop} {point : Option Location} (h : P point) :
    loop.Sound std σ P [.ofPoint point] := by
  intro d hd
  rw [List.mem_singleton.mp hd]
  exact fun _ => h

theorem sound_ofPredicate {P : Option Location → Prop} {p : BinaryPredicate}
    (h : p.holds σ = true → P none) : loop.Sound std σ P (.ofPredicate p) := by
  rw [Disjunction.ofPredicate]
  split
  · exact sound_nil
  · intro d hd
    rw [List.mem_singleton.mp hd, ConjunctionLoc.ofPredicate]
    split
    · rename_i htrue
      exact fun _ => h (holds_of_isTrue htrue)
    · exact fun hall => h (hall p List.mem_cons_self)

theorem sound_static {P : Option Location → Prop} {value : Bool} (h : value = true → P none) :
    loop.Sound std σ P (.static value) := by
  cases value with
  | false => exact sound_nil
  | true =>
      intro d hd
      rw [List.mem_singleton.mp hd]
      exact fun _ => h rfl

/-- A condition that is true has no conjuncts and no insertion point. -/
theorem of_isTrue {P : Option Location → Prop} {disjuncts : Disjunction}
    (hsound : loop.Sound std σ P disjuncts) (h : disjuncts.isTrue = true) : P none := by
  cases disjuncts with
  | nil => cases h
  | cons c rest =>
      cases rest with
      | nil =>
          rw [Disjunction.isTrue, ConjunctionLoc.isTrue, Bool.and_eq_true, List.isEmpty_iff,
            Option.isNone_iff_eq_none] at h
          have hc := hsound c List.mem_cons_self
          rw [← h.2]
          apply hc
          rw [h.1]
          exact fun p hp => absurd hp List.not_mem_nil
      | cons c' rest => cases h

theorem getIn_succ (t : ℕ) : loop.getIn std turns conds b (some (t + 1)) =
    if t + 1 ≤ b then some []
    else (loop.env std).map turns
      (fun term => collapseTautologies loop.constant term.normalise) (conds (t + 1)) := rfl

theorem getInMeets_succ (t : ℕ) : loop.getInMeets std turns conds b (some (t + 1)) =
    if t + 1 ≤ b then []
    else (loop.env std).mapMeets turns
      (fun term => collapseTautologies loop.constant term.normalise) (conds (t + 1)) := rfl

theorem getIn_forward_sound {t : ℕ} (hlt : b < t)
    (hapart : Apart σ (loop.getInMeets std turns conds b (some t)))
    (hconds : loop.Sound std σ (loop.Safe σ t 0) (conds t)) {result : Disjunction}
    (h : loop.getIn std turns conds b (some t) = some result) :
    loop.Sound std σ (loop.Safe σ t 0) result := by
  obtain ⟨t, rfl⟩ : ∃ t', t = t' + 1 := ⟨t - 1, by omega⟩
  rw [getIn_succ, if_neg (by omega)] at h
  rw [getInMeets_succ, if_neg (by omega)] at hapart
  refine map_covers hapart ?_ hconds h
  intro p
  exact (holds_collapseTautologies _).trans (holds_normalise p)

/-- A condition from an edge that does not go forward is constant. -/
theorem getIn_eq_static {s : Option ℕ} (hs : ∀ t, s = some t → t ≤ b) {result : Disjunction}
    (h : loop.getIn std turns conds b s = some result) :
    result = [] ∨ (s = some 0 ∧ result = .static (loop.leakFree b)) := by
  cases s with
  | none =>
      cases h
      exact .inl rfl
  | some t =>
      cases t with
      | zero =>
          cases h
          exact .inr ⟨rfl, rfl⟩
      | succ t =>
          rw [getIn_succ, if_pos (hs _ rfl)] at h
          cases h
          exact .inl rfl

theorem Safe.edge {t : ℕ} {point : Option Location} (h : loop.Safe σ t 0 point) (hlt : b < t) :
    loop.SafeEdges σ b (· = some t) point where
  weak := by
    intro s hs
    rw [hs]
    exact ⟨fun h0 => by omega, fun _ hle => by omega, fun _ => h.weak⟩
  strong := by
    intro hpoint s hs
    rw [hs]
    exact ⟨fun h0 => by omega, fun _ hle => by omega, fun _ => h.strong hpoint⟩
  behind := fun e he => ⟨(h.behind e he).1, hlt.le.trans (h.behind e he).2⟩

theorem safeEdges_returned (h : loop.leakFree b = true) :
    loop.SafeEdges σ b (· = some 0) none where
  weak := by
    intro s hs
    rw [hs]
    exact ⟨fun _ => .inr (by rw [h]), fun hne => absurd rfl hne, fun hlt => by omega⟩
  strong := by
    intro _ s hs
    rw [hs]
    exact ⟨fun _ => by rw [h, Strong], fun hne => absurd rfl hne, fun hlt => by omega⟩
  behind := by
    intro e he
    cases he

theorem getIn_sound (hconds : ∀ t, b < t → loop.Sound std σ (loop.Safe σ t 0) (conds t))
    {s : Option ℕ} (hapart : Apart σ (loop.getInMeets std turns conds b s))
    {result : Disjunction} (h : loop.getIn std turns conds b s = some result) :
    loop.Sound std σ (loop.SafeEdges σ b (· = s)) result := by
  by_cases hforward : ∃ t, s = some t ∧ b < t
  · obtain ⟨t, rfl, hlt⟩ := hforward
    exact (getIn_forward_sound hlt hapart (hconds t hlt) h).imp fun _ hi => hi.edge hlt
  · have hback : ∀ t, s = some t → t ≤ b := by
      intro t ht
      by_contra hle
      exact hforward ⟨t, ht, by omega⟩
    rcases getIn_eq_static hback h with rfl | ⟨rfl, rfl⟩
    · exact sound_nil
    · exact sound_static fun hfree => safeEdges_returned hfree

/-- The condition of a branch of which one side leaves the loop. -/
theorem exit_sound (hconds : ∀ t, b < t → loop.Sound std σ (loop.Safe σ t 0) (conds t)) {t : ℕ}
    {stay result : Disjunction} (hstay : loop.getIn std turns conds b (some t) = some stay)
    (hin : Apart σ (loop.getInMeets std turns conds b (some t))) (htrue : ¬ stay.isTrue = true)
    (hapart : Apart σ
      ((loop.env std).andMeets turns stay [.ofPoint (some (loop.firstInsertionPt t))]))
    (h : (loop.env std).and turns stay [.ofPoint (some (loop.firstInsertionPt t))] = some result) :
    loop.Sound std σ (loop.SafeEdges σ b fun s => s = some t ∨ s = none) result := by
  by_cases hlt : b < t
  · have hsound := getIn_forward_sound hlt hin (hconds t hlt) hstay
    have hleft : loop.GoodEdge σ Weak b none := .inl rfl
    refine and_covers hapart hsound
      (sound_ofPoint (P := (· = some (loop.firstInsertionPt t))) rfl) ?_ ?_ h
    · intro i j r hi hj hr
      subst hj
      have hedge := hi.edge hlt
      -- the insertion point is not before the first one of the block
      have hbehind : ∃ e, r = some e ∧ loop.Good σ Strong e.block e.place ∧ b ≤ e.block := by
        rcases meetPoints_cases hr with ⟨hj, -⟩ | ⟨hi', rfl⟩ | ⟨a, c, ha, hc, h⟩
        · cases hj
        · exact ⟨_, rfl, (hi.strong hi').later (Nat.zero_le _), hlt.le⟩
        · cases ha
          have hstrong := hi.behind c hc
          rcases h with ⟨rfl, rfl⟩ | ⟨-, rfl⟩ | ⟨hbefore, rfl⟩
          · exact ⟨_, rfl, hedge.behind _ hc⟩
          · exact ⟨_, rfl, hedge.behind _ hc⟩
          · refine ⟨_, rfl, ?_, hlt.le⟩
            have hblock : (loop.firstInsertionPt t).block = t := rfl
            rcases isBefore_le hbefore with hlt' | ⟨heq, hplace⟩
            · have hle := hstrong.2
              omega
            · exact heq ▸ hstrong.1.later hplace.le
      obtain ⟨e, rfl, hgood⟩ := hbehind
      refine ⟨?_, fun hnone => absurd hnone (Option.some_ne_none e), ?_⟩
      · intro s hs
        rcases hs with rfl | rfl
        · exact hedge.weak _ rfl
        · exact hleft
      · intro e' he'
        cases he'
        exact hgood
    · intro i j hi hj hsame
      subst hj
      have hedge := hi.edge hlt
      refine ⟨?_, ?_, hedge.behind⟩
      · intro s hs
        rcases hs with rfl | rfl
        · exact hedge.weak _ rfl
        · exact hleft
      · intro hnone
        cases hsame.none_iff.mp hnone
  · -- there are no disjuncts
    have hnil : stay = [] := by
      rcases getIn_eq_static (fun t' ht' => by cases ht'; omega) hstay with hnil | ⟨-, hstatic⟩
      · exact hnil
      · cases hfree : loop.leakFree b with
        | false => rw [hstatic, hfree]; rfl
        | true =>
            rw [hstatic, hfree] at htrue
            exact absurd rfl htrue
    subst hnil
    exact and_covers hapart (sound_nil (P := fun _ => False))
      (sound_ofPoint (P := fun _ => True) trivial) (fun i j r hi _ _ => hi.elim)
      (fun i j hi _ _ => hi.elim) h

theorem computeOut_branch_sound
    (hconds : ∀ t, b < t → loop.Sound std σ (loop.Safe σ t 0) (conds t)) {cond : Condition}
    {trueSucc falseSucc : Option ℕ} {result : Disjunction}
    (hapart : Apart σ
      (loop.computeOutMeets std turns conds b (.branch cond trueSucc falseSucc)))
    (h : loop.computeOut std turns conds b (.branch cond trueSucc falseSucc) = some result) :
    loop.Sound std σ (loop.SafeEdges σ b
      fun s => s = if cond.holds σ then trueSucc else falseSucc) result := by
  have hbranch := holds_getBranchCondition (σ := σ) cond
  have hbranch' : (loop.getBranchCondition cond).negate.holds σ = !cond.holds σ := by
    rw [holds_negate, hbranch]
  rw [computeOut] at h
  obtain ⟨trueIn, htrueIn, h⟩ := Option.bind_eq_some_iff.mp h
  obtain ⟨falseIn, hfalseIn, h⟩ := Option.bind_eq_some_iff.mp h
  rw [computeOutMeets, apart_append, apart_append, htrueIn, hfalseIn] at hapart
  obtain ⟨⟨hapartTrue, hapartFalse⟩, hapart⟩ := hapart
  simp only [Option.toList_some, List.flatMap_singleton, branchMeets] at hapart
  have htrue := getIn_sound hconds hapartTrue htrueIn
  have hfalse := getIn_sound hconds hapartFalse hfalseIn
  dsimp only at h
  split at h
  · -- both sides have the same condition
    rename_i heq
    cases h
    intro d hd
    obtain ⟨c, hc, hequiv⟩ := exists_of_seqEq heq d hd
    refine (htrue d hd).of_equivalent (hfalse c hc) hequiv ?_
    intro i j hi hj hsame
    refine (hi.same hj hsame).mono ?_
    intro s hs
    split at hs
    · exact .inl hs
    · exact .inr hs
  rename_i hne
  rw [if_neg hne] at hapart
  split at h
  · -- the iteration leaves the loop on the true side
    rename_i f
    split at h
    · rename_i htaut
      cases h
      refine sound_ofPredicate ?_
      intro hholds
      refine (of_isTrue hfalse htaut).mono ?_
      intro s hs
      rw [hbranch', Bool.not_eq_true'] at hholds
      rwa [hholds] at hs
    · rename_i htaut
      dsimp only at hapart
      rw [if_neg htaut] at hapart
      refine (exit_sound hconds hfalseIn hapartFalse htaut hapart h).imp ?_
      intro i hi
      refine hi.mono ?_
      intro s hs
      split at hs
      · exact .inr hs
      · exact .inl hs
  · rename_i t
    split at h
    · rename_i htaut
      cases h
      refine sound_ofPredicate ?_
      intro hholds
      refine (of_isTrue htrue htaut).mono ?_
      intro s hs
      rw [hbranch] at hholds
      rwa [hholds] at hs
    · rename_i htaut
      dsimp only at hapart
      rw [if_neg htaut] at hapart
      refine (exit_sound hconds htrueIn hapartTrue htaut hapart h).imp ?_
      intro i hi
      refine hi.mono ?_
      intro s hs
      split at hs
      · exact .inl hs
      · exact .inr hs
  · -- both sides stay in the loop: each side is left out if the branch goes the other way
    rename_i hnone hsome
    have hmeets : Apart σ ((loop.env std).andMeets turns
        ((loop.env std).or falseIn (.ofPredicate (loop.getBranchCondition cond)))
        ((loop.env std).or trueIn (.ofPredicate (loop.getBranchCondition cond).negate))) := by
      split at hapart
      · exact absurd rfl (hnone _ rfl)
      · exact absurd rfl (hsome _ rfl)
      · exact hapart
    have hleft : loop.Sound std σ (loop.SafeEdges σ b fun s => cond.holds σ = false ∧ s = falseSucc)
        ((loop.env std).or falseIn (.ofPredicate (loop.getBranchCondition cond))) := by
      refine or_covers (hfalse.imp fun i hi => hi.mono fun s hs => hs.2) ?_
      refine sound_ofPredicate ?_
      intro hholds
      refine safeEdges_of_empty ?_
      intro s hs
      rw [hbranch, hs.1] at hholds
      cases hholds
    have hright : loop.Sound std σ (loop.SafeEdges σ b fun s => cond.holds σ = true ∧ s = trueSucc)
        ((loop.env std).or trueIn (.ofPredicate (loop.getBranchCondition cond).negate)) := by
      refine or_covers (htrue.imp fun i hi => hi.mono fun s hs => hs.2) ?_
      refine sound_ofPredicate ?_
      intro hholds
      refine safeEdges_of_empty ?_
      intro s hs
      rw [hbranch', hs.1] at hholds
      cases hholds
    have hedges : ∀ s, (s = if cond.holds σ then trueSucc else falseSucc) →
        (cond.holds σ = false ∧ s = falseSucc) ∨ (cond.holds σ = true ∧ s = trueSucc) := by
      intro s hs
      split at hs
      · rename_i hholds
        exact .inr ⟨hholds, hs⟩
      · rename_i hholds
        exact .inl ⟨Bool.eq_false_iff.mpr hholds, hs⟩
    refine and_covers hmeets hleft hright ?_ ?_ h
    · intro i j r hi hj hr
      exact (hi.meet hj hr).mono hedges
    · intro i j hi hj hsame
      exact (hi.same hj hsame).mono hedges

/-- The loop of `computeOut` over the successors of a block. -/
theorem foldlM_successors_sound
    (hconds : ∀ t, b < t → loop.Sound std σ (loop.Safe σ t 0) (conds t))
    {successors : List (Option ℕ)} {start result : Disjunction}
    (hapart : Apart σ (loop.successorsMeets std turns conds b start successors))
    (hstart : loop.Sound std σ (loop.SafeEdges σ b edges) start)
    (h : successors.foldlM (fun cond s => do
      (loop.env std).and turns cond (← loop.getIn std turns conds b s)) start = some result) :
    loop.Sound std σ (loop.SafeEdges σ b fun s => edges s ∨ s ∈ successors) result := by
  induction successors generalizing start edges with
  | nil =>
      cases h
      refine hstart.imp ?_
      intro i hi
      refine hi.mono ?_
      intro s hs
      rcases hs with hs | hs
      · exact hs
      · cases hs
  | cons s successors ih =>
      rw [List.foldlM_cons] at h
      obtain ⟨next, hnext, hrest⟩ := Option.bind_eq_some_iff.mp h
      obtain ⟨cond, hcond, hand⟩ := Option.bind_eq_some_iff.mp hnext
      rw [successorsMeets, apart_append, hcond, Option.toList_some, List.flatMap_singleton,
        apart_append, hand, Option.toList_some, List.flatMap_singleton] at hapart
      obtain ⟨hin, hmeets, hafter⟩ := hapart
      have hsound := getIn_sound hconds hin hcond
      have hboth : loop.Sound std σ (loop.SafeEdges σ b fun s' => edges s' ∨ s' = s) next :=
        and_covers hmeets hstart hsound (fun i j r hi hj hr => hi.meet hj hr)
          (fun i j hi hj hsame => hi.same hj hsame) hand
      refine (ih hafter hboth hrest).imp ?_
      intro i hi
      refine hi.mono ?_
      intro s' hs'
      rcases hs' with hs' | hs'
      · exact .inl (.inl hs')
      · rcases List.mem_cons.mp hs' with hs' | hs'
        · exact .inl (.inr hs')
        · exact .inr hs'

theorem computeOut_sound
    (hconds : ∀ t, b < t → loop.Sound std σ (loop.Safe σ t 0) (conds t)) {block : Block}
    (hblock : loop.blocks[b]? = some block)
    (hapart : Apart σ (loop.computeOutMeets std turns conds b block.terminator))
    {result : Disjunction}
    (h : loop.computeOut std turns conds b block.terminator = some result) :
    loop.Sound std σ (loop.Safe σ b block.instructions.length) result := by
  -- the edges that are taken are those of the terminator
  have hfollows : ∀ s, loop.Follows σ b s → loop.Takes σ block.terminator s := by
    rintro s ⟨block', hblock', htakes⟩
    rw [hblock, Option.some.injEq] at hblock'
    rwa [hblock']
  have hplace : ∀ block', loop.blocks[b]? = some block' →
      block'.instructions.length ≤ block.instructions.length := by
    intro block' hblock'
    rw [hblock, Option.some.injEq] at hblock'
    rw [hblock']
  have hedges : loop.Sound std σ (loop.SafeEdges σ b (loop.Takes σ block.terminator)) result := by
    cases hterm : block.terminator with
    | branch cond trueSucc falseSucc =>
        rw [hterm] at h hapart
        exact computeOut_branch_sound hconds hapart h
    | other successors | invoke successors =>
        rw [hterm] at h hapart
        have hstart : loop.Sound std σ (loop.SafeEdges σ b fun _ => False) (.static true) :=
          sound_static fun _ => safeEdges_of_empty fun _ hs => hs
        refine (foldlM_successors_sound hconds hapart hstart h).imp ?_
        intro i hi
        exact hi.mono fun s hs => .inr hs
  exact hedges.imp fun i hi => (hi.mono hfollows).safe hplace

/-! ### The conditions in a block -/

/-- What the condition of an instruction says. -/
def Passes (σ : Valuation loop.constant) (i : Instruction) (next : Location)
    (point : Option Location) : Prop := i.Pure σ ∧ (point = none ∨ point = some next)

theorem and_ofPoint_sound {i : Instruction} {next : Location} {p : BinaryPredicate}
    (hpure : p.holds σ = true → i.Pure σ) {safe : Bool}
    (hapart : Apart σ (if safe then []
      else (loop.env std).andMeets turns (.ofPredicate p) [.ofPoint (some next)]))
    {result : Disjunction}
    (h : (if safe then some (.ofPredicate p)
      else (loop.env std).and turns (.ofPredicate p) [.ofPoint (some next)]) = some result) :
    loop.Sound std σ (Passes σ i next) result := by
  have hpred : loop.Sound std σ (fun point => i.Pure σ ∧ point = none) (.ofPredicate p) :=
    sound_ofPredicate fun hholds => ⟨hpure hholds, rfl⟩
  split at h
  · cases h
    exact hpred.imp fun point hpoint => ⟨hpoint.1, .inl hpoint.2⟩
  · rename_i hsafe
    rw [if_neg hsafe] at hapart
    refine and_covers hapart hpred (sound_ofPoint (P := (· = some next)) rfl) ?_ ?_ h
    · intro j k r hj hk hr
      rw [hj.2, hk] at hr
      cases hr
      exact ⟨hj.1, .inr rfl⟩
    · intro j k hj hk hsame
      exact ⟨hj.1, .inl hj.2⟩

theorem instructionPurity_sound {next : Location} {i : Instruction}
    (hapart : Apart σ (loop.purityMeets std turns next i)) {result : Disjunction}
    (h : loop.instructionPurity std turns next i = some result) :
    loop.Sound std σ (Passes σ i next) result := by
  cases i with
  | pure =>
      cases h
      exact sound_static fun _ => ⟨trivial, .inl rfl⟩
  | read safe =>
      cases safe with
      | true =>
          cases h
          rw [if_pos rfl]
          exact sound_static fun _ => ⟨trivial, .inl rfl⟩
      | false =>
          cases h
          exact sound_ofPoint ⟨trivial, .inr rfl⟩
  | rmw op value arg zero ones safe =>
      rw [instructionPurity] at h
      obtain ⟨ret, hret, hmap⟩ := Option.bind_eq_some_iff.mp h
      rw [purityMeets, apart_append, hret, Option.toList_some, List.flatMap_singleton] at hapart
      have hsound : loop.Sound std σ (Passes σ (.rmw op value arg zero ones safe) next) ret :=
        and_ofPoint_sound (i := .rmw op value arg zero ones safe) (fun hholds => hholds)
          hapart.1 hret
      exact map_covers hapart.2 (fun p => holds_collapseTautologies p) hsound hmap
  | cmpxchg success falseValue safe =>
      cases success with
      | none =>
          cases h
          exact sound_nil
      | some success =>
          exact and_ofPoint_sound (i := .cmpxchg (some success) falseValue safe)
            (fun hholds => hholds) hapart h
  | impure =>
      cases h
      exact sound_nil

/-- One more instruction in front of a place. -/
theorem Safe.cons {i : Instruction} {rest : List Instruction} {block : Block}
    (hblock : loop.blocks[b]? = some block)
    (hdrop : block.instructions.drop place = i :: rest) {point point' r : Option Location}
    (hpoint : loop.Safe σ b (place + 1) point)
    (hpoint' : Passes σ i ⟨b, place + 1⟩ point')
    (hnone : r = none → point = none)
    (hsome : ∀ e, r = some e → point = some e ∨
      (loop.Good σ Strong b (place + 1) ∧ e = ⟨b, place + 1⟩)) :
    loop.Safe σ b place r where
  weak := hpoint.weak.cons hblock hdrop hpoint'.1
  strong := fun hr => (hpoint.strong (hnone hr)).cons hblock hdrop hpoint'.1
  behind := by
    intro e he
    rcases hsome e he with hpoint'' | ⟨hgood, rfl⟩
    · exact hpoint.behind e hpoint''
    · exact ⟨hgood, Nat.le_refl b⟩

theorem throughInstructions_sound {block : Block}
    (hblock : loop.blocks[b]? = some block) {instructions : List Instruction}
    (hdrop : block.instructions.drop place = instructions) {cond result : Disjunction}
    (hapart : Apart σ (loop.throughMeets std turns b place instructions cond))
    (hcond : loop.Sound std σ (loop.Safe σ b block.instructions.length) cond)
    (h : loop.throughInstructions std turns b place instructions cond = some result) :
    loop.Sound std σ (loop.Safe σ b place) result := by
  induction instructions generalizing place result with
  | nil =>
      cases h
      refine hcond.imp ?_
      intro i hi
      have hle := List.drop_eq_nil_iff.mp hdrop
      exact ⟨hi.weak.later hle, fun hnone => (hi.strong hnone).later hle, hi.behind⟩
  | cons i instructions ih =>
      rw [throughInstructions] at h
      obtain ⟨after, hafter, h⟩ := Option.bind_eq_some_iff.mp h
      obtain ⟨purity, hpurity, hand⟩ := Option.bind_eq_some_iff.mp h
      have hrest : block.instructions.drop (place + 1) = instructions := by
        rw [← List.drop_drop, hdrop]
        rfl
      rw [throughMeets, apart_append, apart_append, hafter, hpurity] at hapart
      simp only [Option.toList_some, List.flatMap_singleton] at hapart
      obtain ⟨⟨hbehind, hinstruction⟩, hmeets⟩ := hapart
      refine and_covers hmeets (ih hrest hbehind hafter)
        (instructionPurity_sound hinstruction hpurity) ?_ ?_ hand
      · intro j k r hj hk hr
        refine hj.cons hblock hdrop hk ?_ ?_
        · intro hnone
          subst hnone
          rcases meetPoints_cases hr with ⟨-, hj'⟩ | ⟨hj', -⟩ | ⟨a, c, -, -, h⟩
          · exact hj'.symm
          · exact hj'
          · rcases h with ⟨-, h⟩ | ⟨-, h⟩ | ⟨-, h⟩ <;> cases h
        · intro e he
          subst he
          rcases hk.2 with rfl | rfl
          · cases hr
            exact .inl rfl
          · rcases meetPoints_cases hr with ⟨hk', -⟩ | ⟨hj', he⟩ | ⟨a, c, ha, hc, h⟩
            · cases hk'
            · cases he
              exact .inr ⟨hj.strong hj', rfl⟩
            · cases ha
              rcases h with ⟨rfl, he⟩ | ⟨-, he⟩ | ⟨hbefore, he⟩
              · cases he
                exact .inl hc
              · cases he
                exact .inl hc
              · -- a point that is before this place is in the same block
                cases he
                have hstrong := hj.behind c hc
                rcases isBefore_le hbefore with hlt | ⟨heq, hlt⟩
                · have hle := hstrong.2
                  dsimp only at hlt
                  omega
                · obtain ⟨block, place⟩ := c
                  cases heq
                  exact .inr ⟨hstrong.1.later hlt.le, rfl⟩
      · intro j k hj hk hsame
        exact hj.cons hblock hdrop hk (fun hnone => hnone) (fun e he => .inl he)

/-! ### The whole loop -/

theorem analyseFrom_sound {count : ℕ} (hcount : count ≤ loop.blocks.length)
    (hapart : Apart σ (loop.analyseFromMeets std turns count))
    (h : loop.analyseFrom std turns count = some conds) :
    ∀ t, loop.blocks.length - count ≤ t → loop.Sound std σ (loop.Safe σ t 0) (conds t) := by
  induction count generalizing conds with
  | zero =>
      cases h
      exact fun _ _ => sound_nil
  | succ count ih =>
      rw [analyseFrom] at h
      obtain ⟨before, hbefore, h⟩ := Option.bind_eq_some_iff.mp h
      rw [analyseFromMeets, apart_append, hbefore, Option.toList_some, List.flatMap_singleton]
        at hapart
      have hih := ih (by omega) hapart.1 hbefore
      have hlt : loop.blocks.length - (count + 1) < loop.blocks.length := by omega
      rw [List.getElem?_eq_getElem hlt] at h
      obtain ⟨cond, hcond, h⟩ := Option.bind_eq_some_iff.mp h
      cases h
      intro t ht
      by_cases heq : t = loop.blocks.length - (count + 1)
      · subst heq
        rw [Function.update_self]
        obtain ⟨out, hout, hthrough⟩ := Option.bind_eq_some_iff.mp hcond
        have hblock := List.getElem?_eq_getElem hlt
        have hmeets := hapart.2
        rw [hblock, Option.toList_some, List.flatMap_singleton, analyseBlockMeets, apart_append,
          hout, Option.toList_some, List.flatMap_singleton] at hmeets
        have hsound := computeOut_sound (fun t ht => hih t (by omega)) hblock hmeets.1 hout
        exact throughInstructions_sound hblock rfl hmeets.2 hsound hthrough
      · rw [Function.update_of_ne heq]
        exact hih t (by omega)

theorem Safe.pureIteration {point : Option Location} (h : loop.Safe σ 0 0 point)
    (hinvoke : ∀ path outcome, loop.Run σ 0 path outcome → ∀ b ∈ path, ¬ loop.Invokes b) :
    loop.PureIteration σ point := by
  intro path outcome hrun hpoint
  obtain ⟨-, hpure⟩ := h.weak.allPure hrun
  refine ⟨?_, hpure, hinvoke path outcome hrun⟩
  cases point with
  | none => exact ((h.strong rfl).allPure hrun).1
  | some e =>
      obtain ⟨rest, hrest⟩ := hrun.exists_suffix (hpoint e rfl)
      exact ((h.behind e rfl).1.run rest outcome hrest).1

/-- An iteration for which a disjunct of the condition of the header holds comes to an end and is
pure, if the analysis has met no comparisons with a value in the gap between them and the iteration
does not come to a call that ends a block. -/
theorem analyseLoop_sound (loop : Loop) (σ : Valuation loop.constant) (std : StdSort) (turns : ℕ)
    (hapart : Apart σ (loop.analyseLoopMeets std turns))
    (hinvoke : ∀ path outcome, loop.Run σ 0 path outcome → ∀ b ∈ path, ¬ loop.Invokes b)
    (conds : ℕ → Disjunction) (h : loop.analyseLoop std turns = some conds) (d : ConjunctionLoc)
    (hd : d ∈ conds 0) (hholds : ∀ p ∈ d.conjuncts, p.holds σ = true) :
    (∃ path outcome, loop.Run σ 0 path outcome) ∧ loop.PureIteration σ d.insertionPoint := by
  have hsound := analyseFrom_sound (Nat.le_refl _) hapart h 0 (by omega)
  exact ⟨exists_run loop.header, (hsound d hd hholds).pureIteration hinvoke⟩

/-! ### A loop that tests two bounds -/

/-- The first block tests `x < 3`, the second one `x < 5`; the third one is impure. -/
def twoBounds : Loop where
  blocks := [⟨[], [.pure], .branch (.cmp (.icmp .slt) 10 3) (some 1) (some 2)⟩,
    ⟨[], [], .branch (.cmp (.icmp .slt) 10 5) (some 0) none⟩,
    ⟨[], [.impure], .other [some 0]⟩]
  constant
    | 1 => some ⟨1, 1⟩
    | 3 => some ⟨32, 3⟩
    | 5 => some ⟨32, 5⟩
    | _ => none
  trueValue := 1
  constant_trueValue := rfl
  header := by decide
  successors_ne_nil := by simp [Terminator.successors]
  successors_lt := by simp [Terminator.successors]

/-- The value of `x`. -/
def twoBoundsValuation (x : BitVec 32) : Valuation twoBounds.constant :=
  .ofInt (fun v => (twoBounds.constant v).getD ⟨32, x⟩) fun v c hc => by
    rw [hc, Option.getD_some]

/-- A sort that leaves the elements in place. -/
def keepOrder : StdSort := ⟨fun _ vec => vec, fun _ vec => List.Perm.refl vec⟩

theorem twoBounds_condition : ∃ conds, twoBounds.analyseLoop keepOrder 10 = some conds ∧
    conds 0 = [⟨[⟨.icmp .slt, some 10, some 5⟩], none⟩] := by
  have h : (twoBounds.analyseLoop keepOrder 10).map (fun conds => conds 0) =
      some [⟨[⟨.icmp .slt, some 10, some 5⟩], none⟩] := by decide
  exact Option.map_eq_some_iff.mp h

/-- The condition `x < 5` holds for 4, but the iteration goes through the impure block. -/
theorem twoBounds_not_pure : ∃ conds, twoBounds.analyseLoop keepOrder 10 = some conds ∧
    ∃ d ∈ conds 0, (∀ p ∈ d.conjuncts, p.holds (twoBoundsValuation 4) = true) ∧
      ¬ twoBounds.PureIteration (twoBoundsValuation 4) d.insertionPoint := by
  obtain ⟨conds, hconds, hheader⟩ := twoBounds_condition
  refine ⟨conds, hconds, _, by rw [hheader]; exact List.mem_cons_self, ?_, ?_⟩
  · intro p hp
    rw [List.mem_singleton.mp hp]
    rfl
  · intro hpure
    have hrun : twoBounds.Run (twoBoundsValuation 4) 0 [0, 2]
        (.returned (twoBounds.leakFree 2)) := by
      refine .forward (t := 2) ⟨_, rfl, rfl⟩ (by decide) (.returned ⟨_, rfl, ?_⟩)
      exact List.mem_cons_self
    obtain ⟨-, hall, -⟩ := hpure _ _ hrun fun e he => by cases he
    exact hall 2 (by decide) _ rfl .impure List.mem_cons_self

/-- The pairs that are met have no gap at 2. -/
theorem twoBounds_apart :
    Apart (twoBoundsValuation 2) (twoBounds.analyseLoopMeets keepOrder 10) := by
  have hmeets : twoBounds.analyseLoopMeets keepOrder 10 =
      [(⟨.icmp .sge, some 10, some 3⟩, ⟨.icmp .slt, some 10, some 3⟩),
        (⟨.icmp .sge, some 10, some 3⟩, .static false),
        (⟨.icmp .slt, some 10, some 5⟩, ⟨.icmp .slt, some 10, some 3⟩)] := by decide
  rw [hmeets]
  intro pair hpair hgap
  obtain ⟨-, dir, op, op', a, b, ha, hb, hgap⟩ := hgap
  simp only [List.mem_cons, List.not_mem_nil, or_false] at hpair
  rcases hpair with rfl | rfl | rfl
  · cases ha.predicate
    cases hb.predicate
    cases ha.direction
    cases hb.direction
  · cases hb.predicate
  · cases ha.predicate
    cases hb.predicate
    cases ha.direction
    cases ha.rhs
    cases hb.rhs
    exact absurd hgap.above (by decide)

theorem twoBounds_not_invokes (b : ℕ) : ¬ twoBounds.Invokes b := by
  intro h
  obtain ⟨block, successors, hblock, hterm⟩ := h
  have hmem := List.mem_of_getElem? hblock
  simp only [twoBounds, List.mem_cons, List.not_mem_nil, or_false] at hmem
  rcases hmem with rfl | rfl | rfl <;> cases hterm

theorem twoBounds_pure : ∃ conds, twoBounds.analyseLoop keepOrder 10 = some conds ∧
    twoBounds.PureIteration (twoBoundsValuation 2) none := by
  obtain ⟨conds, hconds, hheader⟩ := twoBounds_condition
  refine ⟨conds, hconds, ?_⟩
  refine (analyseLoop_sound twoBounds (twoBoundsValuation 2) keepOrder 10 twoBounds_apart
    (fun _ _ _ b _ => twoBounds_not_invokes b) conds hconds
    ⟨[⟨.icmp .slt, some 10, some 5⟩], none⟩ ?_ ?_).2
  · rw [hheader]
    exact List.mem_cons_self
  · intro p hp
    rw [List.mem_singleton.mp hp]
    rfl

end Loop

end Nidhugg.LoopPurity
