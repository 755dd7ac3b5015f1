import Nidhugg.Model.PurityCondition

/-! # The loop purity analysis

`analyseLoop` of `PartialLoopPurityPass`. The blocks of a loop are numbered in reverse postorder;
block 0 is the header. -/

namespace Nidhugg.LoopPurity

/-- The operations of `atomicrmw` that are told apart. -/
inductive RmwOp where
  | add | or | sub | umax | xor | and | umin | xchg | other
deriving DecidableEq

/-- Instructions by what `instructionPurity` looks at. `safe` is whether the pointer is known to
be valid. -/
inductive Instruction where
  /-- Computations that are safe to speculate, phi nodes, fences, assumptions, empty inline
  assembly and calls that can be inlined. -/
  | pure
  /-- Loads and other instructions that do not write. -/
  | read (safe : Bool)
  | rmw (op : RmwOp) (value arg zero ones : ℕ) (safe : Bool)
  /-- A `cmpxchg` with its success bit, if that is extracted. -/
  | cmpxchg (success : Option ℕ) (falseValue : ℕ) (safe : Bool)
  | impure

/-- The condition of a branch by what `getBranchCondition` looks at. -/
inductive Condition where
  | cmp (op : Predicate) (lhs rhs : ℕ)
  | xor (cond : Condition) (bit : Bool)
  | value (v : ℕ)

/-- A successor is none if it is outside of the loop. -/
inductive Terminator where
  | branch (cond : Condition) (trueSucc falseSucc : Option ℕ)
  /-- Unconditional branches, switches and others without effects. -/
  | other (successors : List (Option ℕ))
  /-- A call that may write and may throw. The analysis skips it as it skips all terminators. -/
  | invoke (successors : List (Option ℕ))

def Terminator.successors : Terminator → List (Option ℕ)
  | .branch _ trueSucc falseSucc => [trueSucc, falseSucc]
  | .other successors | .invoke successors => successors

/-- A phi node of the header. -/
structure Phi where
  value : ℕ
  /-- Its name starts with `plp_inner_mon`. -/
  innerMonitor : Bool
  /-- The values from the blocks outside that enter the loop. -/
  entering : List ℕ
  incoming : ℕ → ℕ
  /-- The value is an instruction in the loop that `isPermissibleLeak` accepts. -/
  permissibleLeak : ℕ → Bool

structure Block where
  phis : List Phi
  body : List Instruction
  terminator : Terminator

def Block.instructions (block : Block) : List Instruction :=
  block.phis.map (fun _ => .pure) ++ block.body

/-- A loop with the integer constants among its values. -/
structure Loop where
  blocks : List Block
  constant : ℕ → Option APInt
  trueValue : ℕ
  constant_trueValue : constant trueValue = some ⟨1, 1⟩
  header : 0 < blocks.length
  successors_ne_nil : ∀ block ∈ blocks, block.terminator.successors ≠ []
  successors_lt : ∀ block ∈ blocks, ∀ t, some t ∈ block.terminator.successors → t < blocks.length

namespace Loop

variable (loop : Loop) (std : StdSort) (turns : ℕ)

def predecessors (t : ℕ) : List ℕ :=
  (List.range loop.blocks.length).filter fun b =>
    (loop.blocks[b]?.map fun block => decide (some t ∈ block.terminator.successors)) = some true

def env : Env := ⟨⟨loop.predecessors⟩, std, loop.constant⟩

/-- `getBranchCondition` -/
def getBranchCondition : Condition → BinaryPredicate
  | .cmp op lhs rhs => ⟨op, some lhs, some rhs⟩
  | .xor cond false => getBranchCondition cond
  | .xor cond true => (getBranchCondition cond).negate
  | .value v =>
      BinaryPredicate.collapseTautologies loop.constant ⟨.icmp .eq, some v, some loop.trueValue⟩

/-- The value that a phi node has before the loop, if there is only one. -/
def fromOutside (phi : Phi) : Option ℕ :=
  match phi.entering with
  | [] => none
  | v :: entering => if entering.all (· = v) then some v else none

/-- The check for leaks along a back edge. -/
def leakFree (b : ℕ) : Bool :=
  match loop.blocks[0]? with
  | none => true
  | some header => header.phis.all fun phi =>
      phi.innerMonitor || some (phi.incoming b) = fromOutside phi || phi.incoming b = phi.value ||
        phi.permissibleLeak (phi.incoming b)

def getIn (conds : ℕ → Disjunction) (b : ℕ) : Option ℕ → Option Disjunction
  | some 0 => some (.static (loop.leakFree b))
  | none => some []
  | some t =>
      if t ≤ b then some []
      else (loop.env std).map turns
        (fun term => BinaryPredicate.collapseTautologies loop.constant term.normalise) (conds t)

def firstInsertionPt (t : ℕ) : Location :=
  ⟨t, ((loop.blocks[t]?).map fun block => block.phis.length).getD 0⟩

def computeOut (conds : ℕ → Disjunction) (b : ℕ) : Terminator → Option Disjunction
  | .branch cond trueSucc falseSucc => do
      let trueIn ← loop.getIn std turns conds b trueSucc
      let falseIn ← loop.getIn std turns conds b falseSucc
      let brCond := loop.getBranchCondition cond
      if (loop.env std).eq trueIn falseIn then return trueIn
      else match trueSucc, falseSucc with
        | none, some f =>
            if falseIn.isTrue then return .ofPredicate brCond.negate
            else (loop.env std).and turns falseIn [.ofPoint (some (loop.firstInsertionPt f))]
        | some t, none =>
            if trueIn.isTrue then return .ofPredicate brCond
            else (loop.env std).and turns trueIn [.ofPoint (some (loop.firstInsertionPt t))]
        | _, _ =>
            (loop.env std).and turns ((loop.env std).or falseIn (.ofPredicate brCond))
              ((loop.env std).or trueIn (.ofPredicate brCond.negate))
  | .other successors | .invoke successors =>
      successors.foldlM (fun cond s => do
        (loop.env std).and turns cond (← loop.getIn std turns conds b s)) (.static true)

/-- The condition under which an `atomicrmw` does not change memory. -/
def rmwPredicate (op : RmwOp) (value arg zero ones : ℕ) : BinaryPredicate :=
  match op with
  | .add | .or | .sub | .umax | .xor => ⟨.icmp .eq, some arg, some zero⟩
  | .and | .umin => ⟨.icmp .eq, some arg, some ones⟩
  | .xchg => ⟨.icmp .eq, some value, some arg⟩
  | .other => .static false

/-- `instructionPurity`, with the instruction behind this one. -/
def instructionPurity (next : Location) : Instruction → Option Disjunction
  | .pure => some (.static true)
  | .read safe => some (if safe then .static true else [.ofPoint (some next)])
  | .rmw op value arg zero ones safe => do
      let ret : Disjunction := .ofPredicate (rmwPredicate op value arg zero ones)
      let ret ← (if safe then some ret else (loop.env std).and turns ret [.ofPoint (some next)])
      (loop.env std).map turns (BinaryPredicate.collapseTautologies loop.constant) ret
  | .cmpxchg (some success) falseValue safe =>
      let pred : Disjunction := .ofPredicate ⟨.icmp .eq, some success, some falseValue⟩
      if safe then some pred else (loop.env std).and turns pred [.ofPoint (some next)]
  | .cmpxchg none _ _ => some []
  | .impure => some []

/-- The condition before the instructions of a block from a place on. -/
def throughInstructions (b : ℕ) : ℕ → List Instruction → Disjunction → Option Disjunction
  | _, [], cond => some cond
  | place, i :: instructions, cond => do
      let cond ← throughInstructions b (place + 1) instructions cond
      (loop.env std).and turns cond
        (← loop.instructionPurity std turns ⟨b, place + 1⟩ i)

def analyseBlock (conds : ℕ → Disjunction) (b : ℕ) (block : Block) : Option Disjunction := do
  let cond ← loop.computeOut std turns conds b block.terminator
  loop.throughInstructions std turns b 0 block.instructions cond

/-- The loop of `analyseLoop` over the blocks from the last one on. -/
def analyseFrom : ℕ → Option (ℕ → Disjunction)
  | 0 => some fun _ => []
  | count + 1 => do
      let b := loop.blocks.length - (count + 1)
      let conds ← analyseFrom count
      match loop.blocks[b]? with
      | none => return conds
      | some block => return Function.update conds b (← loop.analyseBlock std turns conds b block)

def analyseLoop : Option (ℕ → Disjunction) := loop.analyseFrom std turns loop.blocks.length

end Loop

end Nidhugg.LoopPurity
