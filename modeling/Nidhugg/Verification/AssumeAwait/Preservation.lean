import Nidhugg.Verification.AssumeAwait.Conditions

/-! # When the rewriting preserves the block

The await passes exactly if the assumption does, with the same memory and values, and an assumption
that blocks leaves the memory unchanged: under which condition on the block, the values before the
access and the content of the memory this is so. -/

namespace Nidhugg.AssumeAwait

open LoopPurity (ICmp checkPredicateSatisfaction)

variable {n w : ℕ} {b : Block} {noXchgAwait : Bool} {r : Rewrite}

/-! ### Values before the access -/

theorem Place.dominates_trans {p q t : Place} (h : p.dominates q = true) (h' : q.dominates t = true) :
    p.dominates t = true := by
  cases p with
  | argument k => rfl
  | outer k => rfl
  | inst j =>
      cases q with
      | argument k => cases h
      | outer k => cases h
      | inst k =>
          cases t with
          | argument i => cases h'
          | outer i => cases h'
          | inst i =>
              have hjk : j < k := of_decide_eq_true h
              have hki : k < i := of_decide_eq_true h'
              exact decide_eq_true (Nat.lt_trans hjk hki)

theorem Value.usableAt_trans {v : Value w} {p q : Place} (h : v.usableAt p = true)
    (h' : p.dominates q = true) : v.usableAt q = true := by
  rw [usableAt, Option.all_eq_true] at h ⊢
  intro place hplace
  exact Place.dominates_trans (h place hplace) h'

/-- Values that are defined before the access do not depend on it. -/
theorem Value.eval_after (s : Setting n) {position : ℕ} {result memory : BitVec n} {success : Bool}
    {v : Value w} (hordered : v.Ordered) (husable : v.usableAt (.inst position) = true) :
    v.eval (s.after position result success memory) = v.eval s.before := by
  induction v with
  | const c => rfl
  | named place =>
      have hdominates : place.dominates (.inst position) = true := husable
      have hne : place ≠ .inst position := by
        rintro rfl
        exact absurd (of_decide_eq_true hdominates) (Nat.lt_irrefl position)
      simp only [Value.eval, Setting.after, if_neg hne, if_pos hdominates]
  | extract place k =>
      have hk : k < position := of_decide_eq_true (Place.dominates_trans hordered husable)
      simp only [Value.eval, Setting.after, if_neg (Nat.ne_of_lt hk), if_pos hk]
  | icmp place pred x y ihx ihy =>
      obtain ⟨⟨hx, hy⟩, hxo, hyo⟩ := hordered
      rw [Value.eval, Value.eval, ihx hxo (usableAt_trans hx husable),
        ihy hyo (usableAt_trans hy husable)]
  | zext place h x ih =>
      rw [Value.eval, Value.eval, ih hordered.2 (usableAt_trans hordered.1 husable)]
  | sext place h x ih =>
      rw [Value.eval, Value.eval, ih hordered.2 (usableAt_trans hordered.1 husable)]
  | xor place x y ihx ihy =>
      obtain ⟨⟨hx, hy⟩, hxo, hyo⟩ := hordered
      rw [Value.eval, Value.eval, ihx hxo (usableAt_trans hx husable),
        ihy hyo (usableAt_trans hy husable)]
  | or place x y ihx ihy =>
      obtain ⟨⟨hx, hy⟩, hxo, hyo⟩ := hordered
      rw [Value.eval, Value.eval, ihx hxo (usableAt_trans hx husable),
        ihy hyo (usableAt_trans hy husable)]

/-! ### Awaits -/

theorem satisfiedBy_unsigned {op : AwaitOp} (h : (opBits op).getLsbD 3 = false)
    (operand data : BitVec n) :
    satisfiedBy op operand data =
      if data.toNat < operand.toNat then (opBits op).getLsbD 2
      else if data.toNat = operand.toNat then (opBits op).getLsbD 1
      else (opBits op).getLsbD 0 := by
  simp only [satisfiedBy, h, Bool.false_eq_true, if_false, BitVec.ult, decide_eq_true_eq,
    BitVec.toNat_inj]

theorem satisfiedBy_signed {op : AwaitOp} (h : (opBits op).getLsbD 3 = true)
    (operand data : BitVec n) :
    satisfiedBy op operand data =
      if data.toInt < operand.toInt then (opBits op).getLsbD 2
      else if data.toInt = operand.toInt then (opBits op).getLsbD 1
      else (opBits op).getLsbD 0 := by
  simp only [satisfiedBy, h, if_true, BitVec.slt, decide_eq_true_eq, BitVec.toInt_inj]

/-- The await tests the predicate. -/
theorem satisfiedBy_getOp (pred : ICmp) (operand data : BitVec n) :
    satisfiedBy (getOp pred) operand data =
      checkPredicateSatisfaction ⟨n, data⟩ pred ⟨n, operand⟩ := by
  have hnat : data = operand ↔ data.toNat = operand.toNat := BitVec.toNat_inj.symm
  cases pred with
  | eq =>
      rw [satisfiedBy_unsigned rfl, check_eq]
      rcases Nat.lt_trichotomy data.toNat operand.toNat with h | h | h
      · simp [h, hnat, Nat.ne_of_lt h, getOp, opBits]
      · simp [h, hnat, getOp, opBits]
      · simp [Nat.lt_asymm h, hnat, Nat.ne_of_gt h, getOp, opBits]
  | ne =>
      rw [satisfiedBy_unsigned rfl, check_ne]
      rcases Nat.lt_trichotomy data.toNat operand.toNat with h | h | h
      · simp [h, hnat, Nat.ne_of_lt h, getOp, opBits]
      · simp [h, hnat, getOp, opBits]
      · simp [Nat.lt_asymm h, hnat, Nat.ne_of_gt h, getOp, opBits]
  | ugt | uge | ult | ule =>
      rw [satisfiedBy_unsigned rfl, checkPredicateSatisfaction, getOp, opBits]
      rcases Nat.lt_trichotomy data.toNat operand.toNat with h | h | h
      · simp [h, Nat.le_of_lt h, Nat.lt_asymm h, Nat.not_le_of_lt h]
      · simp [h]
      · simp [h, Nat.le_of_lt h, Nat.lt_asymm h, Nat.not_le_of_lt h, Nat.ne_of_gt h]
  | sgt | sge | slt | sle =>
      rw [satisfiedBy_signed rfl, checkPredicateSatisfaction, getOp, opBits]
      rcases Int.lt_trichotomy data.toInt operand.toInt with h | h | h
      · simp [h, Int.le_of_lt h, Int.lt_asymm h, Int.not_le_of_gt h]
      · simp [h]
      · simp [h, Int.le_of_lt h, Int.lt_asymm h, Int.not_le_of_gt h, Int.ne_of_gt h]

/-! ### What is rewritten -/

/-- The await is reached: there is no monitor, or it is true. -/
def Rewrite.waits (r : Rewrite) (s : Setting r.width) : Bool :=
  r.monitor.all fun m => m.eval s.before ≠ 0

/-- The condition of the await. -/
def Rewrite.holds (r : Rewrite) (s : Setting r.width) : Bool :=
  satisfiedBy r.op (r.argVal.eval s.before) s.content

/-- The layers between the access and the assumption. -/
def Block.path (b : Block) : List Layer :=
  if (tryRewriteAssumeCmpXchg b).isSome then simplifyLayers b.arg
  else (layers b.arg none).getD []

/-- Whether a truth value is encoded as something other than zero. -/
def Reading.nonzero : Reading → Bool → Bool
  | .ones, t | .extended, t => t
  | .complemented, _ | .lostOnes, _ | .lostMixed, _ => true
  | .lostZero, _ => false

theorem Reading.nonzero_eq (r : Reading) (t : Bool) : r.nonzero t = true ↔ r.pattern t ≠ .zero := by
  cases r <;> cases t <;> decide

/-- The value of the assumption after the access, in terms of the path. -/
structure Tests (b : Block) (r : Rewrite) (s : Setting r.width) : Prop where
  waiting : r.waits s = true → (b.arg.eval (r.access.perform s r.position).2 ≠ 0 ↔
    (reading b.path).nonzero (r.holds s) = true)
  skipping : r.waits s = false → (b.arg.eval (r.access.perform s r.position).2 ≠ 0 ↔
    (reading (outside b.path)).nonzero (!negated (outside b.path)) = true)

theorem patternOf_ne_zero_iff {x : BitVec w} {ls : List Layer} {t : Bool}
    (h : patternOf x = patternAfter ls t) :
    x ≠ 0 ↔ (reading ls).nonzero (xor t (negated ls)) = true := by
  rw [Reading.nonzero_eq, ← patternAfter_eq, ← h, ne_eq, ne_eq, patternOf_eq_zero_iff]

/-- The values after a load or an exchange. -/
theorem perform_of_isPermissibleLoad {v : Value n} {k : ℕ} {access : Access n}
    (h : isPermissibleLoad noXchgAwait b v = some (k, access)) (s : Setting n) :
    ∃ memory, access.perform s k = (memory, s.after k s.content false memory) ∧
      v.eval (s.after k s.content false memory) = s.content := by
  have hvalue : ∀ memory, (Value.named (.inst k)).eval (s.after k s.content false memory) =
      s.content := by
    intro memory
    simp [Value.eval, Setting.after]
  unfold isPermissibleLoad at h
  split at h
  · split at h
    · split at h
      · cases h
        exact ⟨_, rfl, hvalue _⟩
      · cases h
    · split at h
      · split at h
        · cases h
        · cases h
          exact ⟨_, rfl, hvalue _⟩
      · cases h
    · cases h
  · cases h

theorem isPermissibleMonitor_usable {k : ℕ} {m : Option (Value 1)}
    (h : isPermissibleMonitor k m = true) : ∀ mv ∈ m, mv.usableAt (.inst k) = true := by
  rintro mv rfl
  simp only [isPermissibleMonitor] at h
  rw [Value.usableAt, Option.all_eq_true]
  intro place hplace
  rw [hplace] at h
  cases place with
  | argument i => cases h
  | outer i => exact h
  | inst i => exact h

/-- A rewriting that is found through `get_condition`. -/
theorem tests_of_operand {c : Condition} {pred : ICmp} {operand argVal : Value c.width}
    (hcmpxchg : tryRewriteAssumeCmpXchg b = none) (hc : getCondition b.arg none = some c)
    (hcheck : ∀ σ, checkPredicateSatisfaction ⟨_, operand.eval σ⟩ pred ⟨_, argVal.eval σ⟩ =
      c.holds σ)
    (hordered : c.Ordered → argVal.Ordered)
    (h : tryRewriteOperand noXchgAwait b c pred operand argVal = some r)
    (s : Setting r.width) : Tests b r s := by
  have hfound := found_getCondition b.arg none
  rw [hc] at hfound
  generalize hls : layers b.arg none = ls at hfound
  cases hfound with
  | @present _ ls hreads =>
      have hpath : b.path = ls := by
        rw [Block.path, hcmpxchg, hls]
        rfl
      have hcordered : c.Ordered := hreads.ordered b.ordered (by simp)
      simp only [tryRewriteOperand, Option.bind_eq_bind, Option.bind_eq_some_iff] at h
      obtain ⟨⟨k, access⟩, hload, h⟩ := h
      split at h
      · rename_i hpermissible
        simp only [Bool.and_eq_true] at hpermissible
        obtain ⟨⟨⟨harg, hmonitor⟩, -⟩, -⟩ := hpermissible
        cases h
        obtain ⟨memory, hperform, hvalue⟩ := perform_of_isPermissibleLoad hload s
        have hargVal : argVal.eval (s.after k s.content false memory) = argVal.eval s.before :=
          Value.eval_after s (hordered hcordered) harg
        have hmv : ∀ mv ∈ c.monitor, mv.eval (s.after k s.content false memory) =
            mv.eval s.before := fun mv hmem =>
          Value.eval_after s (hcordered.2 mv hmem) (isPermissibleMonitor_usable hmonitor mv hmem)
        have hholds : Rewrite.holds ⟨c.width, k, access, c.monitor,
            getOp (if c.negate then pred.inverse else pred), argVal⟩ s =
            xor (c.holds (s.after k s.content false memory)) (negated ls) := by
          rw [Rewrite.holds, satisfiedBy_getOp, ← hreads.negate, ← hcheck, hvalue, hargVal]
          cases c.negate with
          | true => rw [if_pos rfl, LoopPurity.BinaryPredicate.check_inverse, Bool.xor_true]
          | false => rw [if_neg (by simp), Bool.xor_false]
        constructor
        · intro hwaits
          rw [hperform, hholds, hpath]
          apply patternOf_ne_zero_iff
          apply hreads.pattern
          intro _ mv hmem
          rw [hmv mv hmem]
          simp only [Rewrite.waits, Option.all_eq_true, decide_eq_true_eq] at hwaits
          exact hwaits mv hmem
        · intro hskips
          have hmem : .disjunction ∈ ls := by
            by_contra hnone
            simp [Rewrite.waits, hreads.plain hnone] at hskips
          obtain ⟨-, mv, hsome, hzero⟩ := hreads.monitored hmem
          have hmvzero : mv.eval s.before = 0 := by
            simpa [Rewrite.waits, hsome] using hskips
          rw [hperform, hpath, ← Bool.true_xor]
          apply patternOf_ne_zero_iff
          apply hzero
          rw [hmv mv hsome, hmvzero]
      · cases h

/-- A rewriting of a compare-exchange. -/
theorem tests_of_cmpxchg (h : tryRewriteAssumeCmpXchg b = some r) (s : Setting r.width) :
    Tests b r s := by
  have hpath : b.path = simplifyLayers b.arg := by
    rw [Block.path, h]
    rfl
  have hsimplifies := simplifies_simplifyCondition b.arg
  unfold tryRewriteAssumeCmpXchg at h
  split at h
  · rename_i place k hsimplify
    rw [hsimplify] at hsimplifies
    split at h
    · rename_i width expected new hinst
      split at h
      · cases h
        constructor
        · intro _
          have hpattern := (hsimplifies.pattern
            ((Access.cmpxchg expected new).perform s k).2 Nat.one_pos).2
          have hsuccess : (Value.extract place k).eval
              ((Access.cmpxchg expected new).perform s k).2 =
              BitVec.ofBool (decide (s.content = expected.eval s.before)) := by
            simp [Value.eval, Access.perform, Setting.after]
          have hholds : Rewrite.holds ⟨width, k, .cmpxchg expected new, none, .eq, expected⟩ s =
              xor (decide (s.content = expected.eval s.before)) (negated (simplifyLayers b.arg)) := by
            rw [← hsimplifies.negate, Bool.xor_false, Rewrite.holds]
            exact (satisfiedBy_getOp .eq _ _).trans (check_eq _ _)
          rw [hholds, hpath]
          apply patternOf_ne_zero_iff
          rw [hpattern, hsuccess, patternOf_ofBool]
          rfl
        · intro hskips
          cases hskips
      · cases h
    · cases h
  · cases h

theorem tests_of_tryRewriteAssume (h : tryRewriteAssume noXchgAwait b = some r)
    (s : Setting r.width) : Tests b r s := by
  rw [tryRewriteAssume] at h
  cases hcmpxchg : tryRewriteAssumeCmpXchg b with
  | some r' =>
      rw [hcmpxchg] at h
      cases h
      exact tests_of_cmpxchg hcmpxchg s
  | none =>
      rw [hcmpxchg, Option.none_or, Option.bind_eq_some_iff] at h
      obtain ⟨c, hc, h⟩ := h
      rcases Option.or_eq_some_iff.mp h with h | ⟨-, h⟩
      · exact tests_of_operand hcmpxchg hc (fun _ => rfl) (fun hordered => hordered.1.2) h s
      · refine tests_of_operand hcmpxchg hc (fun σ => ?_) (fun hordered => hordered.1.1) h s
        exact LoopPurity.BinaryPredicate.check_swapped _ _ _

/-! ### Main result -/

def Outcome.isPassed : Outcome n → Bool
  | .passed _ _ => true
  | .blocked _ => false

/-- The rewritten block passes exactly if the original one does, then both leave the same memory
and the same values, and the original one leaves the memory unchanged if it blocks. -/
def Preserves (b : Block) (r : Rewrite) (s : Setting r.width) : Prop :=
  ((r.execute s).isPassed = true ↔ (b.execute r.position r.access s).isPassed = true) ∧
    (∀ memory values, b.execute r.position r.access s = .passed memory values →
      r.execute s = .passed memory values) ∧
    ∀ memory, b.execute r.position r.access s = .blocked memory → memory = s.content

/-- The condition for this. -/
structure Harmless (b : Block) (r : Rewrite) (s : Setting r.width) : Prop where
  /-- The outcome of the await's condition is encoded as zero exactly if it is false. -/
  encoded : r.waits s = true → (reading b.path).nonzero (r.holds s) = r.holds s
  /-- A false monitor makes the argument of the assumption nonzero. -/
  skipped : r.waits s = false →
    (reading (outside b.path)).nonzero (!negated (outside b.path)) = true
  /-- An exchange that has to wait would write what the memory contains. -/
  unchanged : r.waits s = true → r.holds s = false →
    ∀ new, r.access = .xchg new → new.eval s.before = s.content

theorem access_of_isPermissibleLoad {v : Value n} {k : ℕ} {access : Access n}
    (h : isPermissibleLoad noXchgAwait b v = some (k, access)) (expected new : Value n) :
    access ≠ .cmpxchg expected new := by
  unfold isPermissibleLoad at h
  split at h
  · split at h
    · split at h
      · cases h
        exact fun haccess => nomatch haccess
      · cases h
    · split at h
      · split at h
        · cases h
        · cases h
          exact fun haccess => nomatch haccess
      · cases h
    · cases h
  · cases h

theorem access_of_tryRewriteOperand {c : Condition} {pred : ICmp} {operand argVal : Value c.width}
    (h : tryRewriteOperand noXchgAwait b c pred operand argVal = some r)
    (expected new : Value r.width) : r.access ≠ .cmpxchg expected new := by
  simp only [tryRewriteOperand, Option.bind_eq_bind, Option.bind_eq_some_iff] at h
  obtain ⟨⟨k, access⟩, hload, h⟩ := h
  split at h
  · cases h
    exact access_of_isPermissibleLoad hload expected new
  · cases h

/-- The condition of the await for a compare-exchange. -/
theorem holds_of_cmpxchg (h : tryRewriteAssume noXchgAwait b = some r) {expected new : Value r.width}
    (haccess : r.access = .cmpxchg expected new) (s : Setting r.width) :
    r.holds s = decide (s.content = expected.eval s.before) := by
  rw [tryRewriteAssume] at h
  cases hcmpxchg : tryRewriteAssumeCmpXchg b with
  | none =>
      rw [hcmpxchg, Option.none_or, Option.bind_eq_some_iff] at h
      obtain ⟨c, -, h⟩ := h
      rcases Option.or_eq_some_iff.mp h with h | ⟨-, h⟩
      · exact absurd haccess (access_of_tryRewriteOperand h expected new)
      · exact absurd haccess (access_of_tryRewriteOperand h expected new)
  | some r' =>
      rw [hcmpxchg] at h
      cases h
      unfold tryRewriteAssumeCmpXchg at hcmpxchg
      split at hcmpxchg
      · split at hcmpxchg
        · split at hcmpxchg
          · cases hcmpxchg
            cases haccess
            exact (satisfiedBy_getOp .eq _ _).trans (check_eq _ _)
          · cases hcmpxchg
        · cases hcmpxchg
      · cases hcmpxchg

/-- If the condition of the await holds, it has the effect of the access. -/
theorem await_eq_perform (h : tryRewriteAssume noXchgAwait b = some r) {s : Setting r.width}
    (hholds : r.holds s = true) :
    r.access.await s r.position =
      .passed (r.access.perform s r.position).1 (r.access.perform s r.position).2 := by
  cases haccess : r.access with
  | load => rfl
  | xchg new => rfl
  | cmpxchg expected new =>
      rw [holds_of_cmpxchg h haccess, decide_eq_true_eq] at hholds
      simp [Access.await, Access.perform, hholds]

/-- If it does not, only an exchange changes the memory. -/
theorem memory_of_not_holds (h : tryRewriteAssume noXchgAwait b = some r) {s : Setting r.width}
    (hholds : r.holds s = false) :
    (r.access.perform s r.position).1 = s.content ↔
      ∀ new, r.access = .xchg new → new.eval s.before = s.content := by
  cases haccess : r.access with
  | load => simp [Access.perform]
  | xchg new =>
      constructor
      · intro hmemory new' hnew
        cases hnew
        exact hmemory
      · intro hall
        exact hall new rfl
  | cmpxchg expected new =>
      rw [holds_of_cmpxchg h haccess, decide_eq_false_iff_not] at hholds
      simp [Access.perform, hholds]

/-- For every block with a rewriting, all values before the access and every content of the memory,
the rewriting preserves the behaviour if and only if it is harmless. -/
theorem preserves_iff_harmless (h : tryRewriteAssume noXchgAwait b = some r) (s : Setting r.width) :
    Preserves b r s ↔ Harmless b r s := by
  have htests := tests_of_tryRewriteAssume h s
  have hexecute : b.execute r.position r.access s =
      if b.arg.eval (r.access.perform s r.position).2 = 0 then
        .blocked (r.access.perform s r.position).1
      else .passed (r.access.perform s r.position).1 (r.access.perform s r.position).2 := rfl
  have hrewritten : r.execute s =
      if r.waits s then
        if r.holds s then r.access.await s r.position else .blocked s.content
      else .passed (r.access.perform s r.position).1 (r.access.perform s r.position).2 := rfl
  -- a rewritten block that has the effect of the access needs an assumption that passes
  have hpassed : r.execute s =
      .passed (r.access.perform s r.position).1 (r.access.perform s r.position).2 →
      (Preserves b r s ↔ b.arg.eval (r.access.perform s r.position).2 ≠ 0) := by
    intro heq
    rw [Preserves, heq, hexecute]
    by_cases hzero : b.arg.eval (r.access.perform s r.position).2 = 0
    · simp [hzero, Outcome.isPassed]
    · rw [if_neg hzero]
      refine ⟨fun _ => hzero, fun _ => ⟨Iff.rfl, fun _ _ heq => heq, ?_⟩⟩
      intro memory hblocked
      cases hblocked
  cases hwaits : r.waits s with
  | false =>
      rw [hpassed (by rw [hrewritten, hwaits]; rfl), htests.skipping hwaits]
      constructor
      · intro hskipped
        exact ⟨fun hw => by simp [hwaits] at hw, fun _ => hskipped, fun hw => by simp [hwaits] at hw⟩
      · intro hharmless
        exact hharmless.skipped hwaits
  | true =>
      cases hholds : r.holds s with
      | true =>
          rw [hpassed (by rw [hrewritten, hwaits, hholds, ← await_eq_perform h hholds]; rfl),
            htests.waiting hwaits, hholds]
          constructor
          · intro hencoded
            exact ⟨fun _ => by rw [hholds, hencoded], fun hw => by simp [hwaits] at hw,
              fun _ hf => by simp [hholds] at hf⟩
          · intro hharmless
            have hencoded := hharmless.encoded hwaits
            rwa [hholds] at hencoded
      | false =>
          have htest := htests.waiting hwaits
          have hmemory := memory_of_not_holds h hholds
          rw [hholds] at htest
          rw [Preserves, hrewritten, hwaits, hholds, hexecute]
          by_cases hzero : b.arg.eval (r.access.perform s r.position).2 = 0
          · have hnonzero : (reading b.path).nonzero false = false := by
              rw [Bool.eq_false_iff]
              exact fun hn => htest.mpr hn hzero
            simp only [hzero, if_true, Outcome.isPassed]
            constructor
            · rintro ⟨-, -, hblocked⟩
              exact ⟨fun _ => by rw [hholds, hnonzero], fun hw => by simp [hwaits] at hw,
                fun _ _ => hmemory.mp (hblocked _ rfl)⟩
            · intro hharmless
              refine ⟨by simp, by simp, ?_⟩
              rintro memory hblocked
              cases hblocked
              exact hmemory.mpr (hharmless.unchanged hwaits hholds)
          · have hnonzero := htest.mp hzero
            simp only [if_neg hzero, Outcome.isPassed]
            constructor
            · rintro ⟨hpasses, -⟩
              simp at hpasses
            · intro hharmless
              have hencoded := hharmless.encoded hwaits
              rw [hholds, hnonzero] at hencoded
              cases hencoded

/-- No values are used. -/
def noValues : Valuation := ⟨fun _ w => 0#w, fun _ => false⟩

/-- `assume(atomic_exchange(&lock, 1) == 0)` -/
def acquire : Block where
  insts := [.xchg 8 (.const 1), .other false]
  width := 1
  arg := .icmp (.inst 1) .eq (.named (.inst 0)) (.const (0#8))
  ordered := ⟨⟨rfl, rfl⟩, trivial, trivial⟩

def awaitUnlocked : Rewrite := ⟨8, 0, .xchg (.const 1), none, .eq, .const 0⟩

/-- The lock is taken. -/
def locked : Setting 8 := ⟨noValues, 1, fun _ _ _ => noValues⟩

theorem preserves_acquire : tryRewriteAssume false acquire = some awaitUnlocked ∧
    Preserves acquire awaitUnlocked locked := by
  have hrewrite : tryRewriteAssume false acquire = some awaitUnlocked := rfl
  refine ⟨hrewrite, (preserves_iff_harmless hrewrite locked).mpr ⟨?_, ?_, ?_⟩⟩
  · decide
  · decide
  · intro _ _ new hnew
    cases hnew
    rfl

theorem one_lt_width : 0 < 1 ∧ 1 < 32 := by decide

/-- `assume(~(x == 0))`, which always passes. -/
def complementedTest : Block where
  insts := [.load 32 false, .other false, .other false, .other false]
  width := 32
  arg := .xor (.inst 3) (.zext (.inst 2) one_lt_width
    (.icmp (.inst 1) .eq (.named (.inst 0)) (.const (0#32)))) (.const (BitVec.allOnes 32))
  ordered := ⟨⟨rfl, rfl⟩, ⟨rfl, ⟨rfl, rfl⟩, trivial, trivial⟩, trivial⟩

def awaitNonzero : Rewrite := ⟨32, 0, .load, none, .ne, .const 0⟩

def zeroContent : Setting 32 := ⟨noValues, 0, fun _ _ _ => noValues⟩

/-- The complement of a truth value is not zero, but the await waits for a nonzero content. -/
theorem not_preserves_complementedTest :
    tryRewriteAssume false complementedTest = some awaitNonzero ∧
    (complementedTest.execute 0 .load zeroContent).isPassed = true ∧
    (awaitNonzero.execute zeroContent).isPassed = false ∧
    ¬Preserves complementedTest awaitNonzero zeroContent := by
  have horiginal : (complementedTest.execute 0 .load zeroContent).isPassed = true := by decide
  have hrewritten : (awaitNonzero.execute zeroContent).isPassed = false := by decide
  refine ⟨rfl, horiginal, hrewritten, fun hpreserves => ?_⟩
  rw [hpreserves.1.mpr horiginal] at hrewritten
  cases hrewritten

end Nidhugg.AssumeAwait
