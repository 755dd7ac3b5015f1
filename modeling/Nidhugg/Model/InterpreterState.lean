import Nidhugg.Model.AssumeAwait
import Nidhugg.Model.StoreBuffer
import Nidhugg.Model.VClock

/-! # The state of the interpreter

The program that the SC interpreter runs, the state that it keeps, and the small operations on
that state. Floating point, vectors, vaarg and the lowering of unknown intrinsics are left out. -/

namespace Nidhugg.Interpreter

/-! ### Programs -/

/-- An address of the host. Null is zero. -/
abbrev Ptr := ℕ

/-- An integer or pointer of a `GenericValue`. -/
abbrev Value := ℕ

/-- A name in the `Values` of a stack frame. -/
abbrev Reg := ℕ

/-- The store size of a type. The types that are loaded and stored are not empty. -/
abbrev Width := { n : ℕ // 0 < n }

/-- A thread local global variable with the bytes of its initializer. -/
structure GlobalVariable where
  name : ℕ
  initializer : List Byte
deriving DecidableEq

inductive Operand where
  | constant (v : Value)
  | register (r : Reg)
  | threadLocal (g : GlobalVariable)
deriving DecidableEq

/-- The functions that `callFunction` knows by name. -/
inductive Builtin where
  | pthreadCreate (width : Width)
  | pthreadJoin (width : Width)
  | pthreadSelf
  | pthreadExit
  | pthreadMutexInit
  | pthreadMutexLock
  | pthreadMutexTrylock
  | pthreadMutexUnlock
  | pthreadMutexDestroy
  | pthreadCondInit
  | pthreadCondSignal
  | pthreadCondBroadcast
  | pthreadCondWait
  | pthreadCondDestroy
  | malloc
  | calloc
  | free
  | atexit
  | nondetInt
  | assume
  | assertFail
  | loadAwait (width : Width)
  | xchgAwait (width : Width)
deriving DecidableEq

/-- The function of a call: a direct one, or one given by a pointer. -/
inductive CalledOperand where
  | direct (f : Ptr)
  | indirect (op : Operand)

inductive Instruction where
  /-- Arithmetic, comparisons, casts, address computations and selects. -/
  | compute (dst : Reg) (operands : List Operand) (f : List Value → Value)
  | alloca (dst : Reg) (numElements : Operand) (typeSize : ℕ)
  /-- Plain accesses are neither atomic nor volatile. -/
  | load (dst : Reg) (ptr : Operand) (width : Width) (plain : Bool)
  | store (val ptr : Operand) (width : Width) (plain : Bool)
  /-- The pair of results is kept as two values. -/
  | cmpxchg (dst success : Reg) (ptr cmp new : Operand) (width : Width)
  | atomicrmw (dst : Reg) (kind : RmwKind) (ptr val : Operand) (width : Width) (resultUsed : Bool)
  | call (dst : Option Reg) (callee : CalledOperand) (args : List Operand)
  | invoke (dst : Option Reg) (callee : CalledOperand) (args : List Operand) (normalDest : ℕ)
  | br (dest : ℕ)
  | condBr (cond : Operand) (ifTrue ifFalse : ℕ)
  | switch (cond : Operand) (cases : List (Value × ℕ)) (default : ℕ)
  | ret (val : Option Operand)
  | unreachable

def Instruction.isTerminator : Instruction → Bool
  | .invoke .. | .br .. | .condBr .. | .switch .. | .ret .. | .unreachable => true
  | _ => false

/-- The values that an instruction defines. -/
def Instruction.results : Instruction → List Reg
  | .compute dst .. | .alloca dst .. | .load dst .. | .atomicrmw dst .. => [dst]
  | .cmpxchg dst success .. => [dst, success]
  | .call dst .. | .invoke dst .. => dst.toList
  | .store .. | .br .. | .condBr .. | .switch .. | .ret .. | .unreachable => []

def CalledOperand.operands : CalledOperand → List Operand
  | .direct _ => []
  | .indirect op => [op]

def Instruction.operands : Instruction → List Operand
  | .compute _ operands _ => operands
  | .alloca _ numElements _ => [numElements]
  | .load _ ptr _ _ => [ptr]
  | .store val ptr _ _ => [val, ptr]
  | .cmpxchg _ _ ptr cmp new _ => [cmp, new, ptr]
  | .atomicrmw _ _ ptr val _ _ => [ptr, val]
  | .call _ callee args | .invoke _ callee args _ => callee.operands ++ args
  | .br _ | .unreachable => []
  | .condBr cond _ _ | .switch cond _ _ => [cond]
  | .ret val => val.toList

/-- A phi node with its value for each predecessor. Addresses of thread local variables are not
among these values. -/
structure PhiNode where
  dst : Reg
  incoming : List (ℕ × (Value ⊕ Reg))

/-- A block in SSA form: no instruction but a phi node uses its own results. -/
structure BasicBlock where
  phis : List PhiNode
  body : List Instruction
  ssa : ∀ i ∈ body, ∀ r ∈ i.results, Operand.register r ∉ i.operands

/-- A function that is not known by name. A declaration has no blocks. -/
structure Function where
  /-- The name starts with `__VERIFIER_atomic_`. -/
  isAtomic : Bool
  params : List Reg
  blocks : Option (List BasicBlock)
  /-- Listed in `extfun_no_fence`. -/
  noFence : Bool
  /-- Listed in `extfun_no_full_memory_conflict`. -/
  noFullMemoryConflict : Bool

inductive Callee where
  | builtin (b : Builtin)
  | function (f : Function)

/-! ### State -/

/-- The call of a frame that runs subframes: where its result goes, and the destination of an
invoke. -/
structure Caller where
  dst : Option Reg
  normalDest : Option ℕ
deriving DecidableEq

structure ExecutionContext where
  curFunction : Ptr
  curBB : ℕ
  /-- The next instruction. The position before the first one is `-1`. -/
  curInst : ℤ
  values : Reg → Value
  caller : Option Caller

/-- A state of `std::minstd_rand`. -/
abbrev RandEng := ℕ

structure Thread where
  /-- The top of the stack is the head. -/
  ecStack : List ExecutionContext
  assumeBlocked : Bool
  awaitingJoin : List ℕ
  retVal : Value
  randEng : RandEng
  pendingMutexLock : Ptr
  pendingCondvarAwake : Ptr
  threadLocalValues : ℕ → Option Value

def Thread.new : Thread := ⟨[], false, [], 0, 42, 0, 0, fun _ => none⟩

structure PthreadMutex where
  /-- The thread that holds the mutex, if any. -/
  owner : Option ℕ
  waiting : List ℕ

structure AwaitCond where
  op : AwaitOp
  operand : List Byte

/-- A block of `AllocatedMem`. -/
structure Allocation where
  ptr : Ptr
  block : SymMBlock
  size : ℕ
deriving DecidableEq

/-- The notifications of the trace builder. -/
inductive Callback where
  | load (ml : SymAddrSize)
  | atomicStore (sd : SymData)
  | compareExchange (sd : SymData) (expected : List Byte) (success : Bool)
  | atomicRmw (sd : SymData) (kind : RmwKind) (operand : List Byte) (resultUsed : Bool)
  | loadAwait (ml : SymAddrSize) (cond : AwaitCond)
  | loadAwaitFail (ml : SymAddrSize) (cond : AwaitCond)
  | xchgAwait (sd : SymData) (cond : AwaitCond)
  | xchgAwaitFail (sd : SymData) (cond : AwaitCond)
  | fullMemoryConflict
  | fence
  | spawn
  | join (tid : ℕ)
  | mutexInit (ml : SymAddrSize)
  | mutexLock (ml : SymAddrSize)
  | mutexLockFail (ml : SymAddrSize)
  | mutexTrylock (ml : SymAddrSize)
  | mutexUnlock (ml : SymAddrSize)
  | mutexDestroy (ml : SymAddrSize)
  | condInit (ml : SymAddrSize)
  | condSignal (ml : SymAddrSize)
  | condBroadcast (ml : SymAddrSize)
  | condWait (cnd lck : SymAddrSize)
  | condAwake (cnd lck : SymAddrSize)
  | registerAlternatives (count : ℕ)
  | condBranch (result : Bool)
  | refuseSchedule
  | markAvailable (proc : ℕ)
  | markUnavailable (proc : ℕ)
  | metadata

structure State (β : Type) where
  memory : Ptr → Byte
  allocatedMem : List Allocation
  allocatedMemHeap : List Ptr
  allocatedMemStack : List Ptr
  heapAllocCount : VClock
  stackAllocCount : VClock
  freedMem : List (Ptr × IID)
  atExitHandlers : List Ptr
  pthreadMutexes : Ptr → Option PthreadMutex
  blockingAwaits : List (SymAddrSize × ℕ × AwaitCond)
  threads : List Thread
  currentThread : ℕ
  currentAlt : ℕ
  dryRun : Bool
  dryRunMem : List SymData
  /-- The depth of the stack below the outermost atomic function. There is none when the
  implementation has a negative number. -/
  atomicFunctionCall : Option ℕ
  assumeBlocked : Bool
  /-- The state of the trace builder. -/
  builder : β

/-- Why an execution stops. -/
inductive Failure where
  | segmentationFault
  | nondeterminism (message : String)
  | pthreads (message : String)
  | memory (message : String)
  | assertion
  /-- The trace builder refuses a notification. -/
  | builder
  /-- An assertion of the implementation fails, or it accesses what does not exist. -/
  | fault
  /-- An atomic function does not return. -/
  | diverges
deriving DecidableEq, Repr

/-- The program, the configuration and what the interpreter uses of its surroundings. -/
structure Env (β : Type) where
  program : Ptr → Option Callee
  c11 : Bool
  mallocMayFail : Bool
  svcompNondetInt : Option Value
  mutexRequireInit : Bool
  bigEndian : Bool
  /-- The address that the host gives to a new block, given the blocks in use. Memory is only
  returned to the host when the interpreter is destroyed. -/
  allocate : List Allocation → ℕ → Ptr
  /-- The distribution over the integers applied to a random engine. -/
  draw : RandEng → Value × RandEng
  callExternalFunction : Ptr → List Value → (Ptr → Byte) → Value × (Ptr → Byte)
  reply : Callback → β → Bool × β
  condDestroy : SymAddrSize → β → ℕ × β
  getIid : β → IID

/-- Surroundings of a program in which every notification is accepted. -/
def Env.accepting (program : Ptr → Option Callee) : Env Unit where
  program := program
  c11 := false
  mallocMayFail := false
  svcompNondetInt := none
  mutexRequireInit := false
  bigEndian := false
  allocate := fun blocks _ => 1000 * (blocks.length + 1)
  draw := fun e => (e, 48271 * e % (2 ^ 31 - 1))
  callExternalFunction := fun _ _ memory => (0, memory)
  reply := fun _ _ => (true, ())
  condDestroy := fun _ _ => (0, ())
  getIid := fun _ => ⟨0, 1⟩

/-- The start of threads, with a global variable of some bytes at the address 100. -/
def State.started (size : ℕ) (threads : List Thread) (dryRun : Bool) (builder : β) : State β where
  memory := fun _ => 0
  allocatedMem := [⟨100, .global 0, size⟩]
  allocatedMemHeap := []
  allocatedMemStack := []
  heapAllocCount := .empty
  stackAllocCount := .empty
  freedMem := []
  atExitHandlers := []
  pthreadMutexes := fun _ => none
  blockingAwaits := []
  threads := threads
  currentThread := 0
  currentAlt := 0
  dryRun := dryRun
  dryRunMem := []
  atomicFunctionCall := none
  assumeBlocked := false
  builder := builder

/-- Computations of the interpreter. -/
abbrev Action (β : Type) := StateT (State β) (Except Failure)

end Nidhugg.Interpreter
