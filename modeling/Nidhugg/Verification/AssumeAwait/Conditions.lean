import Mathlib.Data.Nat.Init
import Nidhugg.Verification.AssumeAwait.Encodings

/-! # The conditions that the pass finds

The layers between the argument of an assumption and the test that `get_condition` or
`simplify_condition` finds, and what they do to the value of the test. -/

namespace Nidhugg.AssumeAwait

open LoopPurity (ICmp checkPredicateSatisfaction)

variable {v w : ℕ} {m : Option (Value 1)}

/-! ### Layers -/

/-- The layers of an integer comparison with a constant. -/
def constantLayers (constant : Value w) (inner : Option (List Layer)) : Option (List Layer) :=
  if constant.isFalse ∨ constant.isTrue then
    inner.map (· ++ [equalsLayer constant.isFalse])
  else none

/-- The layers that `get_condition` looks through, the innermost first. -/
def layers : {w : ℕ} → Value w → Option (Value 1) → Option (List Layer)
  | _, .icmp _ pred x y, monitor =>
      if pred = .eq then
        ((constantLayers y (layers x monitor)).or (constantLayers x (layers y monitor))).or (some [])
      else some []
  | _, .zext _ _ x, monitor => (layers x monitor).map (· ++ [.zeroExtend])
  | _, .sext _ _ x, monitor => (layers x monitor).map (· ++ [.signExtend])
  | _, .xor _ x y, monitor =>
      if x.isTrue then (layers y monitor).map (· ++ [.complement])
      else if y.isTrue then (layers x monitor).map (· ++ [.complement]) else none
  | _, .or _ x y, none =>
      match monitorTest y with
      | some m => (layers x (some m)).map (· ++ [.disjunction])
      | none => match monitorTest x with
        | some m => (layers y (some m)).map (· ++ [.disjunction])
        | none => none
  | _, _, _ => none

/-- The layers outside the disjunction with the monitor. -/
def outside (ls : List Layer) : List Layer := (ls.dropWhile (· ≠ .disjunction)).tail

theorem outside_append {ls : List Layer} {l : Layer} (h : .disjunction ∈ ls) :
    outside (ls ++ [l]) = outside ls ++ [l] := by
  induction ls with
  | nil => cases h
  | cons k ls ih =>
      by_cases hk : k = .disjunction
      · subst hk
        simp [outside]
      · have hmem : .disjunction ∈ ls := (List.mem_cons.mp h).resolve_left (Ne.symm hk)
        have hrest := ih hmem
        rw [outside, outside] at hrest ⊢
        rw [List.cons_append, List.dropWhile_cons_of_pos (by simpa using hk),
          List.dropWhile_cons_of_pos (by simpa using hk), hrest]

theorem outside_of_last {ls : List Layer} (h : .disjunction ∉ ls) :
    outside (ls ++ [.disjunction]) = [] := by
  induction ls with
  | nil => rfl
  | cons k ls ih =>
      rw [List.mem_cons, not_or] at h
      rw [outside, List.cons_append, List.dropWhile_cons_of_pos (by simpa using Ne.symm h.1)]
      exact ih h.2

/-! ### What the layers compute -/

/-- The outcome of the comparison. -/
def Condition.holds (c : Condition) (σ : Valuation) : Bool :=
  checkPredicateSatisfaction ⟨_, c.x.eval σ⟩ c.pred ⟨_, c.y.eval σ⟩

def Condition.Ordered (c : Condition) : Prop :=
  (c.x.Ordered ∧ c.y.Ordered) ∧ ∀ mv ∈ c.monitor, mv.Ordered

def Condition.negatedIf (n : Bool) (c : Condition) : Condition :=
  { c with negate := xor n c.negate }

theorem Condition.negatedIf_true (c : Condition) : c.negated = c.negatedIf true := by
  rw [negated, negatedIf, Bool.true_xor]

theorem Condition.negatedIf_false (c : Condition) : id c = c.negatedIf false := by
  rw [negatedIf, Bool.false_xor]
  rfl

/-- A value is the result of the layers for a condition. -/
structure Reads (a : Value w) (m : Option (Value 1)) (c : Condition) (ls : List Layer) : Prop where
  width : 0 < w
  negate : c.negate = negated ls
  pattern : ∀ σ, (.disjunction ∈ ls → ∀ mv ∈ c.monitor, mv.eval σ ≠ 0) →
    patternOf (a.eval σ) = patternAfter ls (c.holds σ)
  plain : .disjunction ∉ ls → c.monitor = m
  monitored : .disjunction ∈ ls → m = none ∧ ∃ mv, c.monitor = some mv ∧
    ∀ σ, mv.eval σ = 0 → patternOf (a.eval σ) = patternAfter (outside ls) true
  ordered : a.Ordered → (∀ mv ∈ m, mv.Ordered) → c.Ordered

/-- A condition and its layers are found together. -/
inductive Found (a : Value w) (m : Option (Value 1)) :
    Option Condition → Option (List Layer) → Prop
  | absent : Found a m none none
  | present {c : Condition} {ls : List Layer} (h : Reads a m c ls) : Found a m (some c) (some ls)

theorem Reads.append {x : Value v} {a : Value w} {c : Condition} {ls : List Layer} {l : Layer}
    (h : Reads x m c ls) (hw : 0 < w) (hl : l ≠ .disjunction)
    (hpattern : ∀ σ, patternOf (a.eval σ) = Layer.apply (patternOf (x.eval σ)) l)
    (hordered : a.Ordered → x.Ordered) :
    Reads a m (c.negatedIf l.negates) (ls ++ [l]) where
  width := hw
  negate := by rw [negated_append, Condition.negatedIf, h.negate, Bool.xor_comm]
  pattern := by
    intro σ hmonitor
    rw [hpattern, patternAfter_append, h.pattern σ fun hmem => hmonitor (by simp [hmem])]
    rfl
  plain := fun hmem => h.plain fun hmem' => hmem (by simp [hmem'])
  monitored := by
    intro hmem
    have hmem : .disjunction ∈ ls := by simpa [Ne.symm hl] using hmem
    obtain ⟨hm, mv, hmv, hvalue⟩ := h.monitored hmem
    refine ⟨hm, mv, hmv, fun σ hσ => ?_⟩
    rw [hpattern, outside_append hmem, patternAfter_append, hvalue σ hσ]
  ordered := fun ha hm => h.ordered (hordered ha) hm

theorem Found.append {x : Value v} {a : Value w} {c : Option Condition} {ls : Option (List Layer)}
    {l : Layer} {f : Condition → Condition} (h : Found x m c ls) (hw : 0 < v → 0 < w)
    (hl : l ≠ .disjunction) (hf : ∀ c, f c = c.negatedIf l.negates)
    (hpattern : ∀ σ, 0 < v → patternOf (a.eval σ) = Layer.apply (patternOf (x.eval σ)) l)
    (hordered : a.Ordered → x.Ordered) : Found a m (c.map f) (ls.map (· ++ [l])) := by
  cases h with
  | absent => exact .absent
  | @present c ls h =>
      rw [Option.map_some, Option.map_some, hf]
      exact .present (h.append (hw h.width) hl (fun σ => hpattern σ h.width) hordered)

theorem Found.or {a : Value w} {c c' : Option Condition} {ls ls' : Option (List Layer)}
    (h : Found a m c ls) (h' : Found a m c' ls') : Found a m (c.or c') (ls.or ls') := by
  cases h with
  | absent => exact h'
  | present h => exact .present h

/-! ### `get_condition` -/

/-- The test of a monitor is its negation. -/
theorem eval_of_monitorTest {y : Value w} {mv : Value 1} (h : monitorTest y = some mv) :
    0 < w ∧ (∀ σ, mv.eval σ ≠ 0 → y.eval σ = 0) ∧
      (∀ σ, mv.eval σ = 0 → y.eval σ = BitVec.allOnes w) ∧ (y.Ordered → mv.Ordered) := by
  unfold monitorTest at h
  split at h
  · rename_i place m c
    split at h
    · rename_i hc
      cases h
      have hvalue : ∀ σ, (Value.icmp place ICmp.ne mv c).eval σ =
          BitVec.ofBool (decide (mv.eval σ ≠ BitVec.allOnes 1)) := by
        intro σ
        rw [Value.eval, eval_of_isTrue hc, check_ne]
      have hbit : ∀ x : BitVec 1, x = 0 ∨ x = BitVec.allOnes 1 := by decide
      refine ⟨Nat.one_pos, fun σ hσ => ?_, fun σ hσ => ?_, fun hordered => hordered.2.1⟩
      · rw [hvalue, (hbit (mv.eval σ)).resolve_left hσ]
        rfl
      · rw [hvalue, hσ]
        rfl
    · cases h
  · cases h

theorem Found.disjunction {x a : Value w} {mv : Value 1} {c : Option Condition}
    {ls : Option (List Layer)} (h : Found x (some mv) c ls)
    (htrue : ∀ σ, mv.eval σ ≠ 0 → a.eval σ = x.eval σ)
    (hfalse : ∀ σ, mv.eval σ = 0 → a.eval σ = BitVec.allOnes w)
    (hordered : a.Ordered → x.Ordered ∧ mv.Ordered) :
    Found a none c (ls.map (· ++ [.disjunction])) := by
  cases h with
  | absent => exact .absent
  | @present c ls h =>
      have hnone : .disjunction ∉ ls := fun hmem => nomatch (h.monitored hmem).1
      have hmonitor := h.plain hnone
      refine .present ⟨h.width, ?_, ?_, ?_, ?_, ?_⟩
      · rw [negated_append, h.negate]
        exact (Bool.xor_false _).symm
      · intro σ hσ
        rw [htrue σ (hσ (by simp) mv hmonitor), patternAfter_append,
          h.pattern σ fun hmem => absurd hmem hnone]
        cases patternAfter ls (c.holds σ) with
        | zero => rfl
        | ones => rfl
        | mixed => rfl
      · intro hmem
        exact absurd (by simp) hmem
      · refine fun _ => ⟨rfl, mv, hmonitor, fun σ hσ => ?_⟩
        rw [hfalse σ hσ, outside_of_last hnone]
        exact (patternOf_eq_ones_iff h.width).mpr rfl
      · intro ha _
        obtain ⟨hx, hmv⟩ := hordered ha
        refine h.ordered hx ?_
        rintro mv' hmv'
        cases hmv'
        exact hmv

theorem Found.constant {x y : Value v} {a : Value 1} {c : Option Condition}
    {ls : Option (List Layer)} (h : Found x m c ls)
    (heval : ∀ σ, a.eval σ = BitVec.ofBool (decide (x.eval σ = y.eval σ)))
    (hordered : a.Ordered → x.Ordered) :
    Found a m (if y.isFalse then c.map Condition.negated else if y.isTrue then c else none)
      (constantLayers y ls) := by
  rw [constantLayers]
  cases hfalse : y.isFalse with
  | true =>
      rw [if_pos rfl, if_pos (.inl rfl)]
      refine h.append (fun _ => Nat.one_pos) (by simp [equalsLayer]) (fun c => ?_) ?_ hordered
      · exact c.negatedIf_true
      · intro σ hv
        have hpattern := patternOf_equals hv (.inl hfalse) (x.eval σ) σ
        rw [heval, hpattern, hfalse]
  | false =>
      rw [if_neg (by simp)]
      cases htrue : y.isTrue with
      | true =>
          rw [if_pos rfl, if_pos (.inr rfl)]
          have happend : Found a m (c.map id) (ls.map (· ++ [equalsLayer false])) := by
            refine h.append (fun _ => Nat.one_pos) (by simp [equalsLayer]) (fun c => ?_) ?_ hordered
            · exact c.negatedIf_false
            · intro σ hv
              have hpattern := patternOf_equals hv (.inr htrue) (x.eval σ) σ
              rw [heval, hpattern, hfalse]
          rwa [Option.map_id] at happend
      | false =>
          rw [if_neg (by simp), if_neg (by simp)]
          exact .absent

theorem found_getCondition (a : Value w) (m : Option (Value 1)) :
    Found a m (getCondition a m) (layers a m) := by
  induction a generalizing m with
  | const c => exact .absent
  | named place => exact .absent
  | extract place k => exact .absent
  | icmp place pred x y ihx ihy =>
      have hown : Found (Value.icmp place pred x y) m
          (some ⟨_, pred, x, y, false, m⟩) (some []) := by
        refine .present ⟨Nat.one_pos, rfl, ?_, fun _ => rfl, ?_, fun hordered hm => ⟨hordered.2, hm⟩⟩
        · intro σ _
          rw [Value.eval, patternOf_ofBool]
          rfl
        · intro hmem
          cases hmem
      rw [getCondition, layers]
      by_cases heq : pred = .eq
      · subst heq
        rw [if_pos rfl, if_pos rfl]
        have hfirst := (ihx m).constant (a := Value.icmp place .eq x y) (y := y)
          (fun σ => by rw [Value.eval, check_eq]) (fun hordered => hordered.2.1)
        have hsecond := (ihy m).constant (a := Value.icmp place .eq x y) (y := x)
          (fun σ => by rw [Value.eval, check_eq]; simp only [eq_comm]) (fun hordered => hordered.2.2)
        exact (hfirst.or hsecond).or hown
      · rw [if_neg heq, if_neg heq]
        exact hown
  | @zext v w place h x ih =>
      rw [getCondition, layers]
      have happend : Found (Value.zext place h x) m ((getCondition x m).map id)
          ((layers x m).map (· ++ [.zeroExtend])) := by
        refine (ih m).append (fun _ => Nat.lt_trans h.1 h.2) (by simp) (fun c => ?_) ?_
          (fun hordered => hordered.2)
        · exact c.negatedIf_false
        · intro σ _
          exact patternOf_setWidth h (x.eval σ)
      rwa [Option.map_id] at happend
  | @sext v w place h x ih =>
      rw [getCondition, layers]
      have happend : Found (Value.sext place h x) m ((getCondition x m).map id)
          ((layers x m).map (· ++ [.signExtend])) := by
        refine (ih m).append (fun _ => Nat.lt_trans h.1 h.2) (by simp) (fun c => ?_) ?_
          (fun hordered => hordered.2)
        · exact c.negatedIf_false
        · intro σ _
          exact patternOf_signExtend h (x.eval σ)
      rwa [Option.map_id] at happend
  | xor place x y ihx ihy =>
      rw [getCondition, layers]
      by_cases hx : x.isTrue = true
      · rw [if_pos hx, if_pos hx]
        refine (ihy m).append id (by simp) (fun c => ?_) ?_ (fun hordered => hordered.2.2)
        · exact c.negatedIf_true
        · intro σ hw
          rw [Value.eval, eval_of_isTrue hx, BitVec.allOnes_xor]
          exact patternOf_not hw _
      · rw [if_neg hx, if_neg hx]
        by_cases hy : y.isTrue = true
        · rw [if_pos hy, if_pos hy]
          refine (ihx m).append id (by simp) (fun c => ?_) ?_ (fun hordered => hordered.2.1)
          · exact c.negatedIf_true
          · intro σ hw
            rw [Value.eval, eval_of_isTrue hy, BitVec.xor_allOnes]
            exact patternOf_not hw _
        · rw [if_neg hy, if_neg hy]
          exact .absent
  | or place x y ihx ihy =>
      cases m with
      | some m => exact .absent
      | none =>
          rw [getCondition, layers]
          cases hy : monitorTest y with
          | some mv =>
              obtain ⟨-, htrue, hfalse, hmv⟩ := eval_of_monitorTest hy
              refine (ihx (some mv)).disjunction (a := Value.or place x y) ?_ ?_ fun hordered =>
                ⟨hordered.2.1, hmv hordered.2.2⟩
              · intro σ hσ
                rw [Value.eval, htrue σ hσ]
                exact BitVec.or_zero
              · intro σ hσ
                rw [Value.eval, hfalse σ hσ, BitVec.or_allOnes]
          | none =>
              cases hx : monitorTest x with
              | some mv =>
                  obtain ⟨-, htrue, hfalse, hmv⟩ := eval_of_monitorTest hx
                  refine (ihy (some mv)).disjunction (a := Value.or place x y) ?_ ?_
                    fun hordered => ⟨hordered.2.2, hmv hordered.2.1⟩
                  · intro σ hσ
                    rw [Value.eval, htrue σ hσ]
                    exact BitVec.zero_or
                  · intro σ hσ
                    rw [Value.eval, hfalse σ hσ, BitVec.allOnes_or]
              | none => exact .absent

/-! ### `simplify_condition` -/

/-- The layer of a comparison with a constant. -/
def comparisonLayer (pred : ICmp) (isFalse : Bool) : Layer :=
  if pred = .eq then equalsLayer isFalse else differsLayer isFalse

/-- The layers that `simplify_condition` looks through, the innermost first. -/
def simplifyLayers : {w : ℕ} → Value w → List Layer
  | _, .icmp _ pred x y =>
      if pred = .eq ∨ pred = .ne then
        if y.isFalse ∨ y.isTrue then simplifyLayers x ++ [comparisonLayer pred y.isFalse]
        else if x.isFalse ∨ x.isTrue then simplifyLayers y ++ [comparisonLayer pred x.isFalse]
        else []
      else []
  | _, .zext _ _ x => simplifyLayers x ++ [.zeroExtend]
  | _, .sext _ _ x => simplifyLayers x ++ [.signExtend]
  | _, .xor _ x y =>
      if x.isTrue then simplifyLayers y ++ [.complement]
      else if y.isTrue then simplifyLayers x ++ [.complement]
      else []
  | _, _ => []

/-- A value is the result of the layers for another one. -/
structure Simplifies (a : Value w) (r : Simplified) (ls : List Layer) : Prop where
  negate : r.negate = negated ls
  pattern : ∀ σ, 0 < r.width → 0 < w ∧
    patternOf (a.eval σ) = ls.foldl Layer.apply (patternOf (r.value.eval σ))
  plain : .disjunction ∉ ls

theorem Simplifies.refl (a : Value w) : Simplifies a ⟨false, w, a⟩ [] :=
  ⟨rfl, fun _ hw => ⟨hw, rfl⟩, by simp⟩

theorem Simplifies.append {x : Value v} {a : Value w} {r : Simplified} {ls : List Layer}
    (h : Simplifies x r ls) (l : Layer) (hw : 0 < v → 0 < w) (hl : l ≠ .disjunction)
    (hpattern : ∀ σ, 0 < v → patternOf (a.eval σ) = Layer.apply (patternOf (x.eval σ)) l) :
    Simplifies a (r.negatedIf l.negates) (ls ++ [l]) where
  negate := by rw [negated_append, Simplified.negatedIf, h.negate, Bool.xor_comm]
  pattern := by
    intro σ hr
    obtain ⟨hv, heq⟩ := h.pattern σ hr
    refine ⟨hw hv, ?_⟩
    rw [hpattern σ hv, heq, List.foldl_append]
    rfl
  plain := by simp [h.plain, Ne.symm hl]

theorem Simplified.negatedIf_false (r : Simplified) : r.negatedIf false = r := by
  rw [negatedIf, Bool.false_xor]

/-- A comparison with a constant on either side. -/
theorem Simplifies.constant {x y : Value v} {a : Value 1} {r : Simplified} {ls : List Layer}
    {pred : ICmp} (h : Simplifies x r ls) (hpred : pred = .eq ∨ pred = .ne)
    (hconstant : y.isFalse = true ∨ y.isTrue = true)
    (heq : pred = .eq → ∀ σ, a.eval σ = BitVec.ofBool (decide (x.eval σ = y.eval σ)))
    (hne : pred = .ne → ∀ σ, a.eval σ = BitVec.ofBool (decide (x.eval σ ≠ y.eval σ))) :
    Simplifies a (r.negatedIf (xor y.isFalse (pred = .ne)))
      (ls ++ [comparisonLayer pred y.isFalse]) := by
  have hnegates : xor y.isFalse (pred = .ne) = (comparisonLayer pred y.isFalse).negates := by
    rcases hpred with rfl | rfl
    · cases y.isFalse with
      | true => rfl
      | false => rfl
    · cases y.isFalse with
      | true => rfl
      | false => rfl
  rw [hnegates]
  apply h.append _ (fun _ => Nat.one_pos)
  · rcases hpred with rfl | rfl
    · cases y.isFalse with
      | true => simp [comparisonLayer, equalsLayer]
      | false => simp [comparisonLayer, equalsLayer]
    · cases y.isFalse with
      | true => simp [comparisonLayer, differsLayer]
      | false => simp [comparisonLayer, differsLayer]
  · intro σ hv
    rcases hpred with rfl | rfl
    · rw [heq rfl]
      exact patternOf_equals hv hconstant (x.eval σ) σ
    · rw [hne rfl]
      exact patternOf_differs hv hconstant (x.eval σ) σ

theorem simplifies_simplifyCondition (a : Value w) :
    Simplifies a (simplifyCondition a) (simplifyLayers a) := by
  induction a with
  | const c => exact .refl _
  | named place => exact .refl _
  | extract place k => exact .refl _
  | or place x y => exact .refl _
  | icmp place pred x y ihx ihy =>
      rw [simplifyCondition, simplifyLayers]
      by_cases hpred : pred = .eq ∨ pred = .ne
      · rw [if_pos hpred, if_pos hpred]
        by_cases hy : y.isFalse = true ∨ y.isTrue = true
        · rw [if_pos hy, if_pos hy]
          apply ihx.constant hpred hy
          · rintro rfl σ
            rw [Value.eval, check_eq]
          · rintro rfl σ
            rw [Value.eval, check_ne]
        · rw [if_neg hy, if_neg hy]
          by_cases hx : x.isFalse = true ∨ x.isTrue = true
          · rw [if_pos hx, if_pos hx]
            apply ihy.constant hpred hx
            · rintro rfl σ
              rw [Value.eval, check_eq]
              simp only [eq_comm]
            · rintro rfl σ
              rw [Value.eval, check_ne]
              simp only [ne_comm]
          · rw [if_neg hx, if_neg hx]
            exact .refl _
      · rw [if_neg hpred, if_neg hpred]
        exact .refl _
  | @zext v w place h x ih =>
      rw [simplifyCondition, simplifyLayers, ← (simplifyCondition x).negatedIf_false]
      apply ih.append .zeroExtend (fun _ => Nat.lt_trans h.1 h.2) (by simp)
      intro σ _
      exact patternOf_setWidth h (x.eval σ)
  | @sext v w place h x ih =>
      rw [simplifyCondition, simplifyLayers, ← (simplifyCondition x).negatedIf_false]
      apply ih.append .signExtend (fun _ => Nat.lt_trans h.1 h.2) (by simp)
      intro σ _
      exact patternOf_signExtend h (x.eval σ)
  | xor place x y ihx ihy =>
      rw [simplifyCondition, simplifyLayers]
      by_cases hx : x.isTrue = true
      · rw [if_pos hx, if_pos hx]
        apply ihy.append .complement id (by simp)
        intro σ hw
        rw [Value.eval, eval_of_isTrue hx, BitVec.allOnes_xor]
        exact patternOf_not hw _
      · rw [if_neg hx, if_neg hx]
        by_cases hy : y.isTrue = true
        · rw [if_pos hy, if_pos hy]
          apply ihx.append .complement id (by simp)
          intro σ hw
          rw [Value.eval, eval_of_isTrue hy, BitVec.xor_allOnes]
          exact patternOf_not hw _
        · rw [if_neg hy, if_neg hy]
          exact .refl _

end Nidhugg.AssumeAwait
