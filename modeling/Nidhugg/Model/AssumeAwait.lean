import Nidhugg.Model.PurityCondition
import Nidhugg.Model.SymEv

/-! # From assumptions to awaits

`AssumeAwaitPass` replaces a memory access whose result is then tested by an assumption with an
access that waits until the test succeeds. A value is the tree of the instructions that compute
it; values that are not integers are left out. -/

namespace Nidhugg.AssumeAwait

open LoopPurity (ICmp checkPredicateSatisfaction)

/-! ### Values -/

/-- Where a value is defined. -/
inductive Place where
  | argument (k : ℕ)
  /-- An instruction in a block that dominates this one. -/
  | outer (k : ℕ)
  /-- The instruction number `k` of the block. -/
  | inst (k : ℕ)
deriving DecidableEq

/-- Whether a value defined at the first place can be used at the second. -/
def Place.dominates : Place → Place → Bool
  | .inst j, .inst k => j < k
  | .inst _, _ => false
  | _, _ => true

/-- The values of integer types. Instructions that the pass does not look into are named by
their places. -/
inductive Value : ℕ → Type where
  | const {w : ℕ} (c : BitVec w) : Value w
  | named {w : ℕ} (place : Place) : Value w
  | icmp {w : ℕ} (place : Place) (pred : ICmp) (x y : Value w) : Value 1
  | zext {v w : ℕ} (place : Place) (h : 0 < v ∧ v < w) (x : Value v) : Value w
  | sext {v w : ℕ} (place : Place) (h : 0 < v ∧ v < w) (x : Value v) : Value w
  | xor {w : ℕ} (place : Place) (x y : Value w) : Value w
  | or {w : ℕ} (place : Place) (x y : Value w) : Value w
  /-- The success of a compare-exchange of the block. -/
  | extract (place : Place) (cmpxchg : ℕ) : Value 1

namespace Value

/-- Constants are defined nowhere. -/
def place? {w : ℕ} : Value w → Option Place
  | const _ => none
  | named place | icmp place _ _ _ | zext place _ _ | sext place _ _ | xor place _ _
  | or place _ _ | extract place _ => some place

def isTrue {w : ℕ} : Value w → Bool
  | const c => c = BitVec.allOnes w
  | _ => false

def isFalse {w : ℕ} : Value w → Bool
  | const c => c = 0
  | _ => false

/-- Whether a value can be used at a place. -/
def usableAt {w : ℕ} (v : Value w) (place : Place) : Bool := v.place?.all (·.dominates place)

/-- Operands are defined before the instructions that use them. -/
def Ordered : {w : ℕ} → Value w → Prop
  | _, const _ | _, named _ => True
  | _, icmp place _ x y => (x.usableAt place ∧ y.usableAt place) ∧ x.Ordered ∧ y.Ordered
  | _, zext place _ x | _, sext place _ x => x.usableAt place ∧ x.Ordered
  | _, xor place x y | _, or place x y =>
      (x.usableAt place ∧ y.usableAt place) ∧ x.Ordered ∧ y.Ordered
  | _, extract place k => (Place.inst k).dominates place

end Value

/-! ### Conditions -/

/-- The value that `simplify_condition` returns, with its output parameter. -/
structure Simplified where
  negate : Bool
  width : ℕ
  value : Value width

def Simplified.negatedIf (negate : Bool) (r : Simplified) : Simplified :=
  { r with negate := xor negate r.negate }

def simplifyCondition : {w : ℕ} → Value w → Simplified
  | _, .icmp place pred x y =>
      if pred = .eq ∨ pred = .ne then
        if y.isFalse ∨ y.isTrue then
          (simplifyCondition x).negatedIf (xor y.isFalse (pred = .ne))
        else if x.isFalse ∨ x.isTrue then
          (simplifyCondition y).negatedIf (xor x.isFalse (pred = .ne))
        else ⟨false, _, .icmp place pred x y⟩
      else ⟨false, _, .icmp place pred x y⟩
  | _, .zext _ _ x => simplifyCondition x
  | _, .sext _ _ x => simplifyCondition x
  | _, .xor place x y =>
      if x.isTrue then (simplifyCondition y).negatedIf true
      else if y.isTrue then (simplifyCondition x).negatedIf true
      else ⟨false, _, .xor place x y⟩
  | _, v => ⟨false, _, v⟩

/-- The comparison that `get_condition` finds, with its output parameters. -/
structure Condition where
  width : ℕ
  pred : ICmp
  x : Value width
  y : Value width
  negate : Bool
  monitor : Option (Value 1)

def Condition.negated (c : Condition) : Condition := { c with negate := !c.negate }

/-- The monitor of a test `monitor != true`. -/
def monitorTest : {w : ℕ} → Value w → Option (Value 1)
  | _, @Value.icmp 1 _ .ne m c => if c.isTrue then some m else none
  | _, _ => none

def getCondition : {w : ℕ} → Value w → Option (Value 1) → Option Condition
  | _, .icmp _ pred x y, monitor =>
      let first := if y.isFalse then (getCondition x monitor).map Condition.negated
        else if y.isTrue then getCondition x monitor else none
      let second := if x.isFalse then (getCondition y monitor).map Condition.negated
        else if x.isTrue then getCondition y monitor else none
      if pred = .eq then (first.or second).or (some ⟨_, pred, x, y, false, monitor⟩)
      else some ⟨_, pred, x, y, false, monitor⟩
  | _, .zext _ _ x, monitor => getCondition x monitor
  | _, .sext _ _ x, monitor => getCondition x monitor
  | _, .xor _ x y, monitor =>
      if x.isTrue then (getCondition y monitor).map Condition.negated
      else if y.isTrue then (getCondition x monitor).map Condition.negated else none
  | _, .or _ x y, none =>
      match monitorTest y with
      | some m => getCondition x (some m)
      | none => match monitorTest x with
        | some m => getCondition y (some m)
        | none => none
  | _, _, _ => none

def getOp : ICmp → AwaitOp
  | .eq => .eq
  | .ne => .ne
  | .ugt => .ugt
  | .uge => .uge
  | .ult => .ult
  | .ule => .ule
  | .sgt => .sgt
  | .sge => .sge
  | .slt => .slt
  | .sle => .sle

/-! ### Blocks -/

inductive Inst where
  | load (width : ℕ) (ordered : Bool)
  | xchg (width : ℕ) (new : Value width)
  | cmpxchg (width : ℕ) (expected new : Value width)
  | other (mayHaveSideEffects : Bool)

def Inst.mayHaveSideEffects : Inst → Bool
  | .load _ ordered => ordered
  | .xchg .. | .cmpxchg .. => true
  | .other effects => effects

/-- The instructions before an assumption, and its argument. -/
structure Block where
  insts : List Inst
  width : ℕ
  arg : Value width
  ordered : arg.Ordered

inductive Access (n : ℕ) where
  | load
  | xchg (new : Value n)
  | cmpxchg (expected new : Value n)

/-- What an access is replaced with. Without a monitor it is always an await. -/
structure Rewrite where
  width : ℕ
  position : ℕ
  access : Access width
  monitor : Option (Value 1)
  op : AwaitOp
  argVal : Value width

/-- A load or an exchange of the block, with its position. -/
def isPermissibleLoad {n : ℕ} (noXchgAwait : Bool) (b : Block) :
    Value n → Option (ℕ × Access n)
  | .named (.inst k) =>
      match b.insts[k]? with
      | some (.load width _) => if width = n then some (k, .load) else none
      | some (.xchg width new) =>
          if h : width = n then
            if noXchgAwait then none else some (k, .xchg (h ▸ new))
          else none
      | _ => none
  | _ => none

def isPermissibleArg {n : ℕ} (v : Value n) (load : ℕ) : Bool := v.usableAt (.inst load)

/-- The monitor has to be an instruction. -/
def isPermissibleMonitor (load : ℕ) : Option (Value 1) → Bool
  | none => true
  | some m => match m.place? with
    | none | some (.argument _) => false
    | some place => place.dominates (.inst load)

def isSafeToRewrite (b : Block) (load : ℕ) : Bool :=
  (b.insts.drop (load + 1)).all fun i => !i.mayHaveSideEffects

def hasAwaitFunction (width : ℕ) : Bool := width = 8 || width = 16 || width = 32 || width = 64

/-- The body of the loop of `tryRewriteAssume`, for the operand that is the access. -/
def tryRewriteOperand (noXchgAwait : Bool) (b : Block) (c : Condition) (pred : ICmp)
    (operand argVal : Value c.width) : Option Rewrite := do
  let (k, access) ← isPermissibleLoad noXchgAwait b operand
  let pred := if c.negate then pred.inverse else pred
  if isPermissibleArg argVal k && isPermissibleMonitor k c.monitor && isSafeToRewrite b k &&
      hasAwaitFunction c.width then
    return ⟨c.width, k, access, c.monitor, getOp pred, argVal⟩
  else none

def tryRewriteAssumeCmpXchg (b : Block) : Option Rewrite :=
  match simplifyCondition b.arg with
  | ⟨false, _, .extract _ k⟩ =>
      match b.insts[k]? with
      | some (.cmpxchg width expected new) =>
          if isSafeToRewrite b k && hasAwaitFunction width then
            some ⟨width, k, .cmpxchg expected new, none, .eq, expected⟩
          else none
      | _ => none
  | _ => none

def tryRewriteAssume (noXchgAwait : Bool) (b : Block) : Option Rewrite :=
  (tryRewriteAssumeCmpXchg b).or <|
    (getCondition b.arg none).bind fun c =>
      (tryRewriteOperand noXchgAwait b c c.pred c.x c.y).or
        (tryRewriteOperand noXchgAwait b c c.pred.swapped c.y c.x)

/-! ### Execution -/

/-- The values of the instructions that the pass does not look into. -/
structure Valuation where
  value : Place → (w : ℕ) → BitVec w
  /-- The success of the compare-exchanges. -/
  success : ℕ → Bool

def Value.eval (σ : Valuation) : {w : ℕ} → Value w → BitVec w
  | _, const c => c
  | w, named place => σ.value place w
  | _, icmp _ pred x y =>
      BitVec.ofBool (checkPredicateSatisfaction ⟨_, x.eval σ⟩ pred ⟨_, y.eval σ⟩)
  | w, zext _ _ x => (x.eval σ).setWidth w
  | w, sext _ _ x => (x.eval σ).signExtend w
  | _, xor _ x y => x.eval σ ^^^ y.eval σ
  | _, or _ x y => x.eval σ ||| y.eval σ
  | _, extract _ k => BitVec.ofBool (σ.success k)

/-- The bits of an `AwaitCond::Op`: signed, less, equal and greater. -/
def opBits : AwaitOp → BitVec 4
  | .ugt => 0b0001
  | .eq => 0b0010
  | .uge => 0b0011
  | .ult => 0b0100
  | .ne => 0b0101
  | .ule => 0b0110
  | .sgt => 0b1001
  | .sge => 0b1011
  | .slt => 0b1100
  | .sle => 0b1110

/-- `satisfied_by` on byte strings. -/
def satisfiedByBytes (bigEndian : Bool) (op : AwaitOp) (operand data : List Byte) : Bool :=
  let compare := if (opBits op).getLsbD 3 then RmwAction.sapcmp else RmwAction.apcmp
  match compare bigEndian data operand with
  | .lt => (opBits op).getLsbD 2
  | .eq => (opBits op).getLsbD 1
  | .gt => (opBits op).getLsbD 0

/-- `satisfied_by`. The bytes are compared as numbers in the byte order of the host. -/
def satisfiedBy {n : ℕ} (op : AwaitOp) (operand data : BitVec n) : Bool :=
  let less := if (opBits op).getLsbD 3 then data.slt operand else data.ult operand
  if less then (opBits op).getLsbD 2
  else if data = operand then (opBits op).getLsbD 1
  else (opBits op).getLsbD 0

/-- The values before the access, the content of the accessed memory, and the values of the
instructions after it, which may depend on the result of the access and the memory. -/
structure Setting (n : ℕ) where
  before : Valuation
  content : BitVec n
  rest : BitVec n → Bool → BitVec n → Valuation

/-- The values after the access at a position. -/
def Setting.after {n : ℕ} (s : Setting n) (position : ℕ) (result : BitVec n) (success : Bool)
    (memory : BitVec n) : Valuation where
  value := fun place w =>
    if place = .inst position then result.setWidth w
    else if place.dominates (.inst position) then s.before.value place w
    else (s.rest result success memory).value place w
  success := fun k =>
    if k = position then success
    else if k < position then s.before.success k
    else (s.rest result success memory).success k

inductive Outcome (n : ℕ) where
  | blocked (memory : BitVec n)
  | passed (memory : BitVec n) (values : Valuation)

/-- The memory after the access, and the values. -/
def Access.perform {n : ℕ} (s : Setting n) (position : ℕ) : Access n → BitVec n × Valuation
  | load => (s.content, s.after position s.content false s.content)
  | xchg new => (new.eval s.before, s.after position s.content false (new.eval s.before))
  | cmpxchg expected new =>
      let success : Bool := s.content = expected.eval s.before
      let memory := if success then new.eval s.before else s.content
      (memory, s.after position s.content success memory)

/-- The access and the assumption. -/
def Block.execute (b : Block) (position : ℕ) {n : ℕ} (access : Access n) (s : Setting n) :
    Outcome n :=
  let (memory, values) := access.perform s position
  if b.arg.eval values = 0 then .blocked memory else .passed memory values

/-- An await whose condition holds. The result of a compare-exchange is replaced with the
expected value and `true`. -/
def Access.await {n : ℕ} (s : Setting n) (position : ℕ) : Access n → Outcome n
  | load => .passed s.content (s.after position s.content false s.content)
  | xchg new =>
      .passed (new.eval s.before) (s.after position s.content false (new.eval s.before))
  | cmpxchg expected new =>
      .passed (new.eval s.before)
        (s.after position (expected.eval s.before) true (new.eval s.before))

/-- The rewritten block, without the assumption. -/
def Rewrite.execute (r : Rewrite) (s : Setting r.width) : Outcome r.width :=
  if r.monitor.all fun m => m.eval s.before ≠ 0 then
    if satisfiedBy r.op (r.argVal.eval s.before) s.content then r.access.await s r.position
    else .blocked s.content
  else
    let (memory, values) := r.access.perform s r.position
    .passed memory values

end Nidhugg.AssumeAwait
