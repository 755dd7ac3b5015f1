import Nidhugg.Model.VecSet

/-! # Conditions for the purity of a loop

The conditions of `PartialLoopPurityPass`: comparisons of values, conjunctions of these with a
place where an assumption may be inserted, and disjunctions of the conjunctions. A value is
its address; some values are integer constants. Assertions are left out. -/

namespace Nidhugg.LoopPurity

/-- `llvm::APInt` -/
structure APInt where
  width : ℕ
  val : BitVec width
deriving DecidableEq

/-- The integer predicates of `llvm::CmpInst`. -/
inductive ICmp where
  | eq | ne | ugt | uge | ult | ule | sgt | sge | slt | sle
deriving DecidableEq, Repr

/-- `llvm::CmpInst::Predicate`. A predicate on floating point numbers has one bit each for
equal, greater, less and unordered; `FCMP_FALSE` is 0 and `FCMP_TRUE` is 15. -/
inductive Predicate where
  | fcmp (bits : BitVec 4)
  | icmp (op : ICmp)
deriving DecidableEq

/-- The number of a predicate in LLVM. -/
def Predicate.toNat : Predicate → ℕ
  | .fcmp bits => bits.toNat
  | .icmp .eq => 32
  | .icmp .ne => 33
  | .icmp .ugt => 34
  | .icmp .uge => 35
  | .icmp .ult => 36
  | .icmp .ule => 37
  | .icmp .sgt => 38
  | .icmp .sge => 39
  | .icmp .slt => 40
  | .icmp .sle => 41

/-- `icmpop_to_bits` -/
def icmpopToBits : ICmp → BitVec 5
  | .sgt => 0b00010
  | .ugt => 0b00001
  | .sge => 0b00110
  | .uge => 0b00101
  | .eq => 0b00100
  | .ne => 0b11011
  | .sle => 0b01100
  | .ule => 0b10100
  | .slt => 0b01000
  | .ult => 0b10000

/-- `bits_to_icmpop`, with whether the result is an underapproximation. -/
def bitsToIcmpop (bits : BitVec 5) : Predicate × Bool :=
  if bits &&& 0b01110 = 0b01110 then (.fcmp 15, false)
  else if bits &&& 0b10101 = 0b10101 then (.fcmp 15, false)
  else if bits &&& 0b01100 = 0b01100 then (.icmp .sle, bits ≠ 0b01100)
  else if bits &&& 0b00110 = 0b00110 then (.icmp .sge, bits ≠ 0b00110)
  else if bits &&& 0b10100 = 0b10100 then (.icmp .ule, bits ≠ 0b10100)
  else if bits &&& 0b00101 = 0b00101 then (.icmp .uge, bits ≠ 0b00101)
  else if bits &&& 0b01000 = 0b01000 then (.icmp .slt, bits ≠ 0b01000)
  else if bits &&& 0b00010 = 0b00010 then (.icmp .sgt, bits ≠ 0b00010)
  else if bits &&& 0b10000 = 0b10000 then (.icmp .ult, bits ≠ 0b10000)
  else if bits &&& 0b00001 = 0b00001 then (.icmp .ugt, bits ≠ 0b00001)
  else if bits &&& 0b01010 = 0b01010 then (.icmp .ne, bits ≠ 0b01010)
  else if bits &&& 0b10001 = 0b10001 then (.icmp .ne, bits ≠ 0b10001)
  else if bits &&& 0b00100 = 0b00100 then (.icmp .eq, bits ≠ 0b00100)
  else (.fcmp 0, bits ≠ 0)

/-- `icmpop_invert_strictness` -/
def icmpopInvertStrictness (op : ICmp) : Predicate :=
  (bitsToIcmpop (0b00100 ^^^ icmpopToBits op)).1

/-- `check_predicate_satisfaction` -/
def checkPredicateSatisfaction (lhs : APInt) (op : ICmp) (rhs : APInt) : Bool :=
  match op with
  | .sgt => rhs.val.toInt < lhs.val.toInt
  | .ugt => rhs.val.toNat < lhs.val.toNat
  | .sge => rhs.val.toInt ≤ lhs.val.toInt
  | .uge => rhs.val.toNat ≤ lhs.val.toNat
  | .eq => lhs = rhs
  | .ne => lhs ≠ rhs
  | .sle => lhs.val.toInt ≤ rhs.val.toInt
  | .ule => lhs.val.toNat ≤ rhs.val.toNat
  | .slt => lhs.val.toInt < rhs.val.toInt
  | .ult => lhs.val.toNat < rhs.val.toNat

def ICmp.inverse : ICmp → ICmp
  | .eq => .ne
  | .ne => .eq
  | .ugt => .ule
  | .uge => .ult
  | .ult => .uge
  | .ule => .ugt
  | .sgt => .sle
  | .sge => .slt
  | .slt => .sge
  | .sle => .sgt

def ICmp.swapped : ICmp → ICmp
  | .eq => .eq
  | .ne => .ne
  | .ugt => .ult
  | .uge => .ule
  | .ult => .ugt
  | .ule => .uge
  | .sgt => .slt
  | .sge => .sle
  | .slt => .sgt
  | .sle => .sge

/-- `getInversePredicate` -/
def Predicate.inverse : Predicate → Predicate
  | .fcmp bits => .fcmp (~~~bits)
  | .icmp op => .icmp op.inverse

/-- `getSwappedPredicate`: greater and less change places. -/
def Predicate.swapped : Predicate → Predicate
  | .fcmp bits => .fcmp (bits &&& 0b1001 ||| (bits &&& 0b0010) <<< 1 ||| (bits &&& 0b0100) >>> 1)
  | .icmp op => .icmp op.swapped

/-- A comparison. The values are null if the predicate is `FCMP_TRUE` or `FCMP_FALSE`. -/
structure BinaryPredicate where
  op : Predicate
  lhs : Option ℕ
  rhs : Option ℕ
deriving DecidableEq

namespace BinaryPredicate

def static (b : Bool) : BinaryPredicate := ⟨.fcmp (if b then 15 else 0), none, none⟩

def isTrue (p : BinaryPredicate) : Bool := p.op = .fcmp 15

def isFalse (p : BinaryPredicate) : Bool := p.op = .fcmp 0

def normalise (p : BinaryPredicate) : BinaryPredicate :=
  if p.isTrue || p.isFalse then { p with lhs := none, rhs := none } else p

def negate (p : BinaryPredicate) : BinaryPredicate := { p with op := p.op.inverse }

def swap (p : BinaryPredicate) : BinaryPredicate := ⟨p.op.swapped, p.rhs, p.lhs⟩

/-- The result of `meet` for comparisons of the same values. -/
def meetSame (res o : BinaryPredicate) : BinaryPredicate × Bool :=
  match res.op, o.op with
  | .fcmp a, .fcmp b => (normalise { res with op := .fcmp (a &&& b) }, false)
  | .icmp a, .icmp b =>
      let (op, underapprox) := bitsToIcmpop (icmpopToBits a &&& icmpopToBits b)
      (normalise { res with op := op }, underapprox)
  | _, _ => (static false, true)

/-- The end of `meet`. -/
def meetOther (other : BinaryPredicate) : BinaryPredicate × Bool := (static false, !other.isFalse)

/-- The result of `meet` for comparisons of a value with different constants. -/
def meetConstants (res o other : BinaryPredicate) (resOp oOp : ICmp) (rr or : APInt) :
    BinaryPredicate × Bool :=
  if resOp = .eq then
    (if checkPredicateSatisfaction rr oOp or then res else static false, false)
  else if oOp = .eq then
    (if checkPredicateSatisfaction or resOp rr then o else static false, false)
  else if oOp = .ne then
    if checkPredicateSatisfaction or resOp rr then (static false, true) else (res, false)
  else if resOp = .ne then
    if checkPredicateSatisfaction rr oOp or then (static false, true) else (o, false)
  else if oOp = resOp || .icmp oOp = icmpopInvertStrictness resOp then
    (if checkPredicateSatisfaction rr resOp or then o else res, true)
  else meetOther other

variable (constant : ℕ → Option APInt)

/-- The result of `meet` for comparisons with the same value on the left. -/
def meetAligned (res o other : BinaryPredicate) : BinaryPredicate × Bool :=
  if res.rhs = o.rhs then meetSame res o
  else match res.rhs.bind constant, o.rhs.bind constant, res.op, o.op with
    | some rr, some or, .icmp resOp, .icmp oOp => meetConstants res o other resOp oOp rr or
    | _, _, _, _ => meetOther other

/-- The conjunction of two comparisons, and whether it is an underapproximation. -/
def meet (this other : BinaryPredicate) : BinaryPredicate × Bool :=
  if other.isTrue || this = other then (this, false)
  else if this.isTrue then (other, false)
  else
    let res := if this.rhs = other.lhs || this.rhs = other.rhs then this.swap else this
    if res.lhs = other.lhs then meetAligned constant res other other
    else if res.lhs = other.rhs then meetAligned constant res other.swap other
    else meetOther other

/-- `operator<=` -/
def le (this other : BinaryPredicate) : Bool :=
  other.isTrue || this.isFalse || this = other || (meet constant this other).1 = this

/-- The comparison of the elements of a conjunction. Null is the least address. -/
def lexicalLt (a b : BinaryPredicate) : Bool :=
  let key (p : BinaryPredicate) : ℕ × ℕ × ℕ :=
    ((p.lhs.map (· + 1)).getD 0, p.op.toNat, (p.rhs.map (· + 1)).getD 0)
  (key a).1 < (key b).1 || ((key a).1 = (key b).1 &&
    ((key a).2.1 < (key b).2.1 || ((key a).2.1 = (key b).2.1 && (key a).2.2 < (key b).2.2)))

def isFalseWhenEqual : Predicate → Bool
  | .fcmp bits => !bits[0] && !bits[3]
  | .icmp op => op = .ne || op = .ugt || op = .ult || op = .sgt || op = .slt

def isTrueWhenEqual : Predicate → Bool
  | .fcmp bits => bits[0] && bits[3]
  | .icmp op => op = .eq || op = .uge || op = .ule || op = .sge || op = .sle

def collapseTautologies (cond : BinaryPredicate) : BinaryPredicate :=
  if cond.isTrue || cond.isFalse then cond
  else if cond.rhs = cond.lhs && isFalseWhenEqual cond.op then static false
  else if cond.rhs = cond.lhs && isTrueWhenEqual cond.op then static true
  else match cond.lhs.bind constant, cond.rhs.bind constant, cond.op with
    | some lhs, some rhs, .icmp op => static (checkPredicateSatisfaction lhs op rhs)
    | _, _, _ => cond

end BinaryPredicate

/-! ### Insertion points -/

/-- An instruction: its block and its place in the block. -/
structure Location where
  block : ℕ
  place : ℕ
deriving DecidableEq

/-- The forward edges of a loop, backwards. Blocks are numbered in reverse postorder. -/
structure Graph where
  predecessors : ℕ → List ℕ

namespace Graph

variable (g : Graph)

/-- The search of `isBefore` from a block backwards. The largest block found is next. -/
def searchBack (target : ℕ) : ℕ → ℕ → List ℕ → Bool
  | 0, _, _ => false
  | turns + 1, block, found =>
      if target ∈ g.predecessors block then true
      else
        let found := found ++
          ((g.predecessors block).filter fun pred => target ≤ pred && pred < block)
        match found.max? with
        | none => false
        | some next => searchBack target turns next (found.filter (· ≠ next))

def isBefore (i j : Location) : Bool :=
  if i.block = j.block then i.place < j.place
  else if j.block < i.block then false
  else g.searchBack i.block (j.block + 1) j.block []

/-- `operator&` of insertion points. -/
def meetPoints (a b : Option Location) : Option (Option Location) :=
  match a, b with
  | none, b => some b
  | some a, none => some (some a)
  | some a, some b =>
      if a = b then some (some a)
      else if g.isBefore a b then some (some b)
      else if g.isBefore b a then some (some a)
      else none

/-- `operator<=` of insertion points. -/
def pointLe (a b : Option Location) : Bool :=
  match a, b with
  | _, none => true
  | none, some _ => false
  | some a, some b => a = b || g.isBefore b a

def pointLt (a b : Option Location) : Bool := a ≠ b && g.pointLe a b

end Graph

/-! ### Conjunctions and disjunctions -/

structure ConjunctionLoc where
  conjuncts : List BinaryPredicate
  insertionPoint : Option Location
deriving DecidableEq

abbrev Disjunction := List ConjunctionLoc

/-- `std::sort`, which may put equal elements in any order. -/
structure StdSort where
  sort : (ConjunctionLoc → ConjunctionLoc → Bool) → List ConjunctionLoc → List ConjunctionLoc
  perm : ∀ lt vec, (sort lt vec).Perm vec

/-- What the operations on conditions depend on. -/
structure Env extends Graph, StdSort where
  constant : ℕ → Option APInt

/-- What the loop of `addConjunct` arrives at. -/
inductive Scan where
  | covered
  | restart (m : BinaryPredicate)
  | keep (newset : List BinaryPredicate)

def Scan.cons (c : BinaryPredicate) : Scan → Scan
  | .covered => .covered
  | .restart m => .restart m
  | .keep newset => .keep (c :: newset)

namespace ConjunctionLoc

def isTrue (d : ConjunctionLoc) : Bool := d.conjuncts.isEmpty && d.insertionPoint.isNone

def isFalse (d : ConjunctionLoc) : Bool :=
  match d.conjuncts with
  | [p] => p.isFalse
  | _ => false

def ofPoint (point : Option Location) : ConjunctionLoc := ⟨[], point⟩

def ofPredicate (p : BinaryPredicate) : ConjunctionLoc := ⟨if p.isTrue then [] else [p], none⟩

def static (b : Bool) : ConjunctionLoc := ofPredicate (.static b)

end ConjunctionLoc

namespace Env

open BinaryPredicate

variable (env : Env)

def scan (cond : BinaryPredicate) : List BinaryPredicate → Scan
  | [] => .keep []
  | c :: conjuncts =>
      let (m, underapprox) := meet env.constant c cond
      if m = c then .covered
      else if m = cond then scan cond conjuncts
      else if underapprox then (scan cond conjuncts).cons c
      else .restart m

/-- `addConjunct`. It starts over with a stronger condition, maybe for ever. -/
def addConjunct : ℕ → List BinaryPredicate → BinaryPredicate → Option (List BinaryPredicate)
  | 0, _, _ => none
  | turns + 1, conjuncts, cond =>
      if cond.isTrue then some conjuncts
      else match env.scan cond conjuncts with
        | .covered => some conjuncts
        | .restart m => addConjunct turns conjuncts m
        | .keep newset => some (VecSet.insert lexicalLt newset cond)

variable (turns : ℕ)

def addConjuncts (conjuncts conds : List BinaryPredicate) : Option (List BinaryPredicate) :=
  conds.foldlM (env.addConjunct turns) conjuncts

def maxConjunctionTerms : ℕ := 5

def maxDisjunctionTerms : ℕ := 10

/-- `operator&` of conjunctions. -/
def andConjunctions (a b : ConjunctionLoc) : Option ConjunctionLoc := do
  match env.meetPoints a.insertionPoint b.insertionPoint with
  | none => return .static false
  | some point =>
      let conjuncts ← env.addConjuncts turns a.conjuncts b.conjuncts
      let res : ConjunctionLoc := if maxConjunctionTerms < conjuncts.length then .static false
        else ⟨conjuncts, point⟩
      return if res.isFalse then { res with insertionPoint := none } else res

def implies (a b : ConjunctionLoc) : Bool :=
  env.pointLe a.insertionPoint b.insertionPoint &&
    b.conjuncts.all fun o => a.conjuncts.any fun t => le env.constant o t

/-- `operator<` of conjunctions. -/
def conjunctionLt (a b : ConjunctionLoc) : Bool := a ≠ b && env.implies a b

def mapConjunction (f : BinaryPredicate → BinaryPredicate) (d : ConjunctionLoc) :
    Option ConjunctionLoc := do
  return ⟨← env.addConjuncts turns [] (d.conjuncts.map f), d.insertionPoint⟩

/-- The comparison of the elements of a disjunction. -/
def lexicalLt (a b : ConjunctionLoc) : Bool :=
  env.pointLt a.insertionPoint b.insertionPoint ||
    (!env.pointLt b.insertionPoint a.insertionPoint &&
      VecSet.seqLt BinaryPredicate.lexicalLt a.conjuncts b.conjuncts)

/-- `addCond` -/
def addCond (disjuncts : Disjunction) (cond : ConjunctionLoc) : Disjunction :=
  if cond.isFalse || disjuncts.any (env.conjunctionLt cond) then disjuncts
  else VecSet.insert env.lexicalLt (disjuncts.filter fun c => !env.conjunctionLt c cond) cond

def bound (disjuncts : Disjunction) : Disjunction :=
  if maxDisjunctionTerms < disjuncts.length then
    env.sort env.lexicalLt ((env.sort (fun a b => a.conjuncts.length < b.conjuncts.length)
      disjuncts).take maxDisjunctionTerms)
  else disjuncts

/-- `operator|` -/
def or (a b : Disjunction) : Disjunction := env.bound (b.foldl env.addCond a)

/-- The terms of the left side that are also on the right, and what is left of both. -/
def commonTerms : Disjunction → Disjunction → Disjunction × Disjunction × Disjunction
  | [], right => ([], [], right)
  | l :: left, right =>
      match VecSet.erase env.lexicalLt right l with
      | some right =>
          let (common, left, right) := commonTerms left right
          (l :: common, left, right)
      | none =>
          let (common, left, right) := commonTerms left right
          (common, l :: left, right)

/-- `operator&` -/
def and (a b : Disjunction) : Option Disjunction := do
  let (common, left, right) := env.commonTerms a b
  let res ← right.foldlM (fun res r =>
    left.foldlM (fun res l => do return env.addCond res (← env.andConjunctions turns r l)) res)
    (common.foldl env.addCond [])
  return env.bound res

def map (f : BinaryPredicate → BinaryPredicate) (d : Disjunction) : Option Disjunction := do
  return (← d.mapM (env.mapConjunction turns f)).foldl env.addCond []

/-- `operator==` of disjunctions. -/
def eq (a b : Disjunction) : Bool := VecSet.seqEq env.lexicalLt a b

end Env

namespace Disjunction

def isTrue (d : Disjunction) : Bool :=
  match d with
  | [c] => c.isTrue
  | _ => false

def static (b : Bool) : Disjunction := if b then [.static true] else []

def ofPredicate (p : BinaryPredicate) : Disjunction := if p.isFalse then [] else [.ofPredicate p]

end Disjunction

end Nidhugg.LoopPurity
