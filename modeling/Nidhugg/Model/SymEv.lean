import Nidhugg.Model.Basic
import Nidhugg.Model.RmwAction

/-! # Symbolic events

`SymEv` describes the globally visible operation of an event. The bytes that an event
carries are shared pointers, and are erased in wakeup trees. -/

namespace Nidhugg

/-- A possibly erased block of `n` bytes. -/
abbrev Block (n : ℕ) := Option (Bytes n)

inductive AwaitOp where
  | ugt
  | eq
  | uge
  | ult
  | ne
  | ule
  | sgt
  | sge
  | slt
  | sle
deriving DecidableEq, Repr

inductive MutexOp where
  | init
  | lock
  | trylock
  | trylockFail
  | unlock
  | delete
deriving DecidableEq, Repr

inductive CondOp where
  | init
  | signal
  | brdcst
  | wait
  | awake
  | delete
deriving DecidableEq, Repr

inductive SymEv where
  | none
  | nondet (count : ℕ)
  | load (addr : SymAddrSize)
  | loadAwait (addr : SymAddrSize) (op : AwaitOp) (operand : Block addr.size)
  | store (addr : SymAddrSize) (written : Block addr.size)
  /-- Observe and clobber everything. -/
  | fullmem
  | rmw (addr : SymAddrSize) (written : Block addr.size) (kind : RmwKind)
      (operand : Block addr.size) (resultUsed : Bool)
  | xchgAwait (addr : SymAddrSize) (written : Block addr.size) (op : AwaitOp)
      (operand : Block addr.size)
  | cmpXhg (addr : SymAddrSize) (written expected : Block addr.size)
  | cmpXhgFail (addr : SymAddrSize) (written expected : Block addr.size)
  | mutex (op : MutexOp) (addr : SymAddrSize)
  | cond (op : CondOp) (addr : SymAddrSize)
  | spawn (proc : ℕ)
  | join (proc : ℕ)
  | unobsStore (addr : SymAddrSize) (written : Block addr.size)
deriving Inhabited, DecidableEq

namespace SymEv

def empty : SymEv → Bool
  | .none => true
  | _ => false

/-- The address of the events that have one. -/
def addr? : SymEv → Option SymAddrSize
  | .load addr => some addr
  | .loadAwait addr _ _ => some addr
  | .store addr _ => some addr
  | .rmw addr _ _ _ _ => some addr
  | .xchgAwait addr _ _ _ => some addr
  | .cmpXhg addr _ _ => some addr
  | .cmpXhgFail addr _ _ => some addr
  | .mutex _ addr => some addr
  | .cond _ addr => some addr
  | .unobsStore addr _ => some addr
  | .none | .nondet _ | .fullmem | .spawn _ | .join _ => Option.none

/-- The bytes that an event has written, if it has data. -/
def data? : SymEv → Option (List Byte)
  | .store _ written | .unobsStore _ written | .rmw _ written _ _ _ | .xchgAwait _ written _ _
  | .cmpXhg _ written _ | .cmpXhgFail _ written _ => written.map Subtype.val
  | _ => Option.none

/-- Whether a replayed event may take the place of the recorded one. -/
def isCompatibleWith : SymEv → SymEv → Bool
  | .none, .none => true
  | .nondet m, .nondet n => m = n
  | .load a, .load b => a = b
  | .loadAwait a op _, .loadAwait b op' _ => op = op' && a = b
  | .store a _, .store b _ => a = b
  | .store a _, .unobsStore b _ => a = b
  | .fullmem, .fullmem => true
  | .rmw a _ kind _ _, .rmw b _ kind' _ _ => kind = kind' && a = b
  | .xchgAwait a _ op _, .xchgAwait b _ op' _ => op = op' && a = b
  | .cmpXhg a _ _, .cmpXhg b _ _ => a = b
  | .cmpXhgFail a _ _, .cmpXhgFail b _ _ => a = b
  | .mutex op a, .mutex op' b =>
      (op = op' || (op = .trylock && op' = .trylockFail) ||
        (op = .trylockFail && op' = .trylock)) && a = b
  | .cond op a, .cond op' b => op = op' && a = b
  | .spawn m, .spawn n => m = n
  | .join m, .join n => m = n
  | .unobsStore a _, .unobsStore b _ => a = b
  | _, _ => false

end SymEv

end Nidhugg
