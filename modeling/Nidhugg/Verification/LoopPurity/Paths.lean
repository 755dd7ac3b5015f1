import Nidhugg.Verification.LoopPurity.Conditions

/-! # Iterations of a loop

The paths that an iteration takes under a valuation, up to where it returns to the header,
leaves the loop or takes a back edge of an inner loop. -/

namespace Nidhugg.LoopPurity

open BinaryPredicate

/-- An instruction that does not change anything under a valuation. -/
def Instruction.Pure {constant : ℕ → Option APInt} (σ : Valuation constant) : Instruction → Prop
  | .pure => True
  | .read _ => True
  | .rmw op value arg zero ones _ =>
      (Loop.rmwPredicate op value arg zero ones).holds σ = true
  | .cmpxchg (some success) falseValue _ =>
      BinaryPredicate.holds σ ⟨.icmp .eq, some success, some falseValue⟩ = true
  | .cmpxchg none _ _ => False
  | .impure => False

def Condition.holds {constant : ℕ → Option APInt} (σ : Valuation constant) : Condition → Bool
  | .cmp op lhs rhs => BinaryPredicate.holds σ ⟨op, some lhs, some rhs⟩
  | .xor cond bit => cond.holds σ != bit
  | .value v => σ.int v = ⟨1, 1⟩

inductive Outcome where
  | returned (leakFree : Bool)
  | left
  | innerBackedge

namespace Loop

variable (loop : Loop) (σ : Valuation loop.constant)

/-- A successor that may be next under a valuation. -/
def Takes : Terminator → Option ℕ → Prop
  | .branch cond trueSucc falseSucc, s => s = if cond.holds σ then trueSucc else falseSucc
  | .other successors, s | .invoke successors, s => s ∈ successors

def Follows (b : ℕ) (s : Option ℕ) : Prop :=
  ∃ block, loop.blocks[b]? = some block ∧ loop.Takes σ block.terminator s

/-- The blocks of an iteration from a block on. -/
inductive Run : ℕ → List ℕ → Outcome → Prop
  | returned {b : ℕ} (hfollows : loop.Follows σ b (some 0)) :
      Run b [b] (.returned (loop.leakFree b))
  | left {b : ℕ} (hfollows : loop.Follows σ b none) : Run b [b] .left
  | innerBackedge {b t : ℕ} (hfollows : loop.Follows σ b (some t)) (hheader : t ≠ 0) (hle : t ≤ b) :
      Run b [b] .innerBackedge
  | forward {b t : ℕ} {path : List ℕ} {outcome : Outcome} (hfollows : loop.Follows σ b (some t))
      (hlt : b < t) (hrun : Run t path outcome) : Run b (b :: path) outcome

/-- All instructions on a path are pure. -/
def AllPure (path : List ℕ) : Prop :=
  ∀ b ∈ path, ∀ block, loop.blocks[b]? = some block → ∀ i ∈ block.instructions, i.Pure σ

/-- A block ends in a call that may write. -/
def Invokes (b : ℕ) : Prop :=
  ∃ block successors, loop.blocks[b]? = some block ∧ block.terminator = .invoke successors

/-- An iteration past a place is pure: it returns to the header over a back edge without leaks,
and on the way it only executes instructions and terminators that are pure. -/
def PureIteration (point : Option Location) : Prop :=
  ∀ path outcome, loop.Run σ 0 path outcome → (∀ e, point = some e → e.block ∈ path) →
    outcome = .returned true ∧ loop.AllPure σ path ∧ ∀ b ∈ path, ¬ loop.Invokes b

variable {loop σ}

theorem Run.exists_cons {b : ℕ} {path : List ℕ} {outcome : Outcome}
    (h : loop.Run σ b path outcome) : ∃ rest, path = b :: rest := by
  cases h with
  | returned _ => exact ⟨[], rfl⟩
  | left _ => exact ⟨[], rfl⟩
  | innerBackedge _ _ _ => exact ⟨[], rfl⟩
  | forward _ _ _ => exact ⟨_, rfl⟩

/-- A path goes on from each of its blocks. -/
theorem Run.exists_suffix {b c : ℕ} {path : List ℕ} {outcome : Outcome}
    (h : loop.Run σ b path outcome) (hc : c ∈ path) :
    ∃ rest, loop.Run σ c (c :: rest) outcome := by
  induction h with
  | @returned b hfollows =>
      obtain rfl := List.mem_singleton.mp hc
      exact ⟨[], .returned hfollows⟩
  | @left b hfollows =>
      obtain rfl := List.mem_singleton.mp hc
      exact ⟨[], .left hfollows⟩
  | @innerBackedge b t hfollows hheader hle =>
      obtain rfl := List.mem_singleton.mp hc
      exact ⟨[], .innerBackedge hfollows hheader hle⟩
  | @forward b t path outcome hfollows hlt hrun ih =>
      rcases List.mem_cons.mp hc with rfl | hc
      · exact ⟨path, .forward hfollows hlt hrun⟩
      · exact ih hc

/-- Every block has a successor that is taken. -/
theorem exists_follows {b : ℕ} (hb : b < loop.blocks.length) :
    ∃ s, loop.Follows σ b s ∧ ∀ t, s = some t → t < loop.blocks.length := by
  have hblock : loop.blocks[b]? = some loop.blocks[b] := List.getElem?_eq_getElem hb
  have hmem : loop.blocks[b] ∈ loop.blocks := List.getElem_mem hb
  have hlt := loop.successors_lt _ hmem
  cases hterm : loop.blocks[b].terminator with
  | branch cond trueSucc falseSucc =>
      refine ⟨if cond.holds σ then trueSucc else falseSucc, ⟨_, hblock, ?_⟩, ?_⟩
      · rw [hterm]
        rfl
      · intro t ht
        apply hlt
        rw [hterm, Terminator.successors]
        split at ht
        · simp [ht]
        · simp [ht]
  | other successors | invoke successors =>
      have hne := loop.successors_ne_nil _ hmem
      rw [hterm, Terminator.successors] at hne
      obtain ⟨s, hs⟩ := List.exists_mem_of_ne_nil _ hne
      refine ⟨s, ⟨_, hblock, ?_⟩, ?_⟩
      · rw [hterm]
        exact hs
      · intro t ht
        apply hlt
        rw [hterm, Terminator.successors, ← ht]
        exact hs

/-- Every iteration comes to an end. -/
theorem exists_run {b : ℕ} (hb : b < loop.blocks.length) :
    ∃ path outcome, loop.Run σ b path outcome := by
  induction hn : loop.blocks.length - b using Nat.strong_induction_on generalizing b with
  | _ n ih =>
      obtain ⟨s, hfollows, hlt⟩ := exists_follows (σ := σ) hb
      cases s with
      | none => exact ⟨_, _, .left hfollows⟩
      | some t =>
          by_cases hheader : t = 0
          · subst hheader
            exact ⟨_, _, .returned hfollows⟩
          · by_cases hle : t ≤ b
            · exact ⟨_, _, .innerBackedge hfollows hheader hle⟩
            · have ht := hlt t rfl
              obtain ⟨path, outcome, hrun⟩ := ih (loop.blocks.length - t) (by omega) ht rfl
              exact ⟨_, _, .forward hfollows (by omega) hrun⟩

/-! ### What holds from a place on -/

/-- From a place in a block on, all instructions are pure and the outcome is one of some. -/
structure Good (loop : Loop) (σ : Valuation loop.constant) (ok : Outcome → Prop) (b place : ℕ) :
    Prop where
  pure : ∀ block, loop.blocks[b]? = some block → ∀ i ∈ block.instructions.drop place, i.Pure σ
  run : ∀ path outcome, loop.Run σ b (b :: path) outcome → ok outcome ∧ loop.AllPure σ path

/-- The outcomes of an iteration that may leave the loop. -/
def Weak (outcome : Outcome) : Prop := outcome = .left ∨ outcome = .returned true

def Strong (outcome : Outcome) : Prop := outcome = .returned true

theorem Good.later {ok : Outcome → Prop} {b place place' : ℕ} (h : loop.Good σ ok b place)
    (hle : place ≤ place') : loop.Good σ ok b place' where
  pure := by
    intro block hblock i hi
    have hdrop : block.instructions.drop place' =
        (block.instructions.drop place).drop (place' - place) := by
      rw [List.drop_drop, Nat.add_sub_cancel' hle]
    rw [hdrop] at hi
    exact h.pure block hblock i (List.mem_of_mem_drop hi)
  run := h.run

/-- One more pure instruction in front. -/
theorem Good.cons {ok : Outcome → Prop} {b place : ℕ} {i : Instruction} {rest : List Instruction}
    {block : Block} (h : loop.Good σ ok b (place + 1)) (hblock : loop.blocks[b]? = some block)
    (hdrop : block.instructions.drop place = i :: rest) (hi : i.Pure σ) :
    loop.Good σ ok b place where
  pure := by
    intro block' hblock' j hj
    rw [hblock, Option.some.injEq] at hblock'
    subst hblock'
    have hrest : block.instructions.drop (place + 1) = rest := by
      rw [← List.drop_drop, hdrop]
      rfl
    rw [hdrop] at hj
    rcases List.mem_cons.mp hj with rfl | hj
    · exact hi
    · exact h.pure block hblock j (hrest ▸ hj)
  run := h.run

/-- A whole block and what comes behind it. -/
theorem Good.allPure {ok : Outcome → Prop} {b : ℕ} (h : loop.Good σ ok b 0) {path : List ℕ}
    {outcome : Outcome} (hrun : loop.Run σ b path outcome) :
    ok outcome ∧ loop.AllPure σ path := by
  obtain ⟨rest, rfl⟩ := hrun.exists_cons
  obtain ⟨hok, hpure⟩ := h.run rest outcome hrun
  refine ⟨hok, ?_⟩
  intro c hc block hblock i hi
  rcases List.mem_cons.mp hc with rfl | hc
  · exact h.pure block hblock i (by rwa [List.drop_zero])
  · exact hpure c hc block hblock i hi

/-- What holds behind an edge. -/
def GoodEdge (loop : Loop) (σ : Valuation loop.constant) (ok : Outcome → Prop) (b : ℕ) :
    Option ℕ → Prop
  | none => ok .left
  | some t => (t = 0 → ok (.returned (loop.leakFree b))) ∧
      (t ≠ 0 → t ≤ b → ok .innerBackedge) ∧ (b < t → loop.Good σ ok t 0)

/-- What holds behind all edges that are taken holds behind the instructions of the block. -/
theorem good_of_edges {ok : Outcome → Prop} {b place : ℕ}
    (hplace : ∀ block, loop.blocks[b]? = some block → block.instructions.length ≤ place)
    (h : ∀ s, loop.Follows σ b s → loop.GoodEdge σ ok b s) : loop.Good σ ok b place where
  pure := by
    intro block hblock i hi
    rw [List.drop_eq_nil_iff.mpr (hplace block hblock)] at hi
    cases hi
  run := by
    intro path outcome hrun
    have hnil : loop.AllPure σ [] := by
      intro c hc
      cases hc
    cases hrun with
    | returned hfollows => exact ⟨(h _ hfollows).1 rfl, hnil⟩
    | left hfollows => exact ⟨h _ hfollows, hnil⟩
    | innerBackedge hfollows hheader hle => exact ⟨(h _ hfollows).2.1 hheader hle, hnil⟩
    | forward hfollows hlt hrun => exact ((h _ hfollows).2.2 hlt).allPure hrun

end Loop

end Nidhugg.LoopPurity
