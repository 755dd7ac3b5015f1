import Nidhugg.Model.InterpreterState

/-! # The SC interpreter

The instructions and library calls of the interpreter, and the body of the loop in
`Interpreter::run`. In a dry run stores are collected in `DryRunMem`, and each operation decides by
itself where to stop. -/

namespace Nidhugg.Interpreter

variable {β : Type} (env : Env β)

/-! ### Bytes -/

/-- The bytes of a value. -/
def bytesOf (n : ℕ) (v : Value) : Bytes n :=
  ⟨RmwAction.leastFirst env.bigEndian
      ((List.range n).map fun i => BitVec.ofNat 8 (v / 256 ^ i)), by
    rw [RmwAction.length_leastFirst, List.length_map, List.length_range]⟩

def valueOf (bytes : List Byte) : Value :=
  (RmwAction.leastFirst env.bigEndian bytes).foldr (fun b v => b.toNat + 256 * v) 0

def readBytes (memory : Ptr → Byte) (ptr : Ptr) (n : ℕ) : List Byte :=
  (List.range n).map fun i => memory (ptr + i)

def writeBytes (memory : Ptr → Byte) (ptr : Ptr) (bytes : List Byte) : Ptr → Byte := fun p =>
  if ptr ≤ p then bytes.getD (p - ptr) (memory p) else memory p

def AwaitCond.satisfiedBy (cond : AwaitCond) (data : List Byte) : Bool :=
  AssumeAwait.satisfiedByBytes env.bigEndian cond.op cond.operand data

/-- The new value of a read-modify-write instruction. -/
def rmwValue (kind : RmwKind) (n : ℕ) (old val : Value) : Value :=
  let x := BitVec.ofNat (8 * n) old
  let y := BitVec.ofNat (8 * n) val
  let new := match kind with
    | .xchg => y
    | .add => x + y
    | .sub => x - y
    | .and => x &&& y
    | .nand => ~~~(x &&& y)
    | .or => x ||| y
    | .xor => x ^^^ y
    | .max => if y.slt x then x else y
    | .min => if x.slt y then x else y
    | .umax => if y < x then x else y
    | .umin => if x < y then x else y
  new.toNat

/-! ### Threads and stack frames -/

def notify (c : Callback) : Action β Unit :=
  modify fun s => { s with builder := (env.reply c s.builder).2 }

/-- A notification that the trace builder may refuse. -/
def report (c : Callback) : Action β Unit := do
  let s ← get
  notify env c
  if !(env.reply c s.builder).1 then throw .builder

def getThread : Action β Thread := do
  let s ← get
  match s.threads[s.currentThread]? with
  | some th => return th
  | none => throw .fault

def modifyThread (f : Thread → Thread) : Action β Unit :=
  modify fun s => { s with threads := s.threads.modify s.currentThread f }

def getStack : Action β (List ExecutionContext) := do
  let th ← getThread
  return th.ecStack

def setStack (stack : List ExecutionContext) : Action β Unit :=
  modifyThread fun th => { th with ecStack := stack }

/-- `ECStack()->back()`. -/
def topFrame : Action β ExecutionContext := do
  match ← getStack with
  | sf :: _ => return sf
  | [] => throw .fault

def modifyTop (f : ExecutionContext → ExecutionContext) : Action β Unit := do
  match ← getStack with
  | sf :: rest => setStack (f sf :: rest)
  | [] => throw .fault

/-- `SetValue` in the top frame. -/
def setValue (r : Reg) (v : Value) : Action β Unit :=
  modifyTop fun sf => { sf with values := Function.update sf.values r v }

/-! ### Memory -/

/-- `std::map::emplace` to `AllocatedMem`. -/
def emplace (a : Allocation) : List Allocation → List Allocation
  | [] => [a]
  | b :: bs =>
      if a.ptr < b.ptr then a :: b :: bs
      else if a.ptr = b.ptr then b :: bs
      else b :: emplace a bs

def tryGetSymAddr (s : State β) (ptr : Ptr) : Option SymAddr := do
  let a ← (s.allocatedMem.takeWhile fun a => a.ptr ≤ ptr).getLast?
  if a.ptr + a.size ≤ ptr then none else some ⟨a.block, ptr - a.ptr⟩

def getSymAddr (ptr : Ptr) : Action β SymAddr := do
  let s ← get
  match tryGetSymAddr s ptr with
  | some addr => return addr
  | none =>
      if s.dryRun then
        throw (.nondeterminism "Address of memory access became undefined in replay")
      else throw .segmentationFault

def getSymAddrSize (ptr : Ptr) (width : Width) : Action β AccessRange := do
  let addr ← getSymAddr ptr
  return ⟨⟨addr, width.1⟩, width.2⟩

def getSymData (ml : AccessRange) (v : Value) : SymData := ⟨ml, bytesOf env ml.1.size v⟩

def storeValueToMemory (v : Value) (ptr : Ptr) (width : Width) : Action β Unit :=
  modify fun s => { s with memory := writeBytes s.memory ptr (bytesOf env width.1 v).1 }

/-- The bytes of a buffered store over those of a load. -/
def overlay (ml : SymAddrSize) (buf : List Byte) (sd : SymData) : List Byte :=
  if sd.ref.1.overlaps ml then
    (List.range buf.length).map fun i =>
      let o := ml.addr.offset + i
      if sd.ref.1.addr.offset ≤ o then
        sd.block.1.getD (o - sd.ref.1.addr.offset) (buf.getD i 0)
      else buf.getD i 0
  else buf

/-- `LoadValueFromMemory`, or `DryRunLoadValueFromMemory` if a dry run has stored something. -/
def loadValue (ptr : Ptr) (ml : AccessRange) : Action β (List Byte) := do
  let s ← get
  let buf := readBytes s.memory ptr ml.1.size
  return if s.dryRun then s.dryRunMem.foldl (overlay ml.1) buf else buf

/-- Adds a block from the heap of the host to the allocated memory. -/
def allocateHeap (size : ℕ) : Action β Ptr := do
  let s ← get
  let memory := env.allocate s.allocatedMem size
  let count := s.heapAllocCount.get s.currentThread
  set { s with
    allocatedMemHeap := s.allocatedMemHeap.insert memory
    heapAllocCount := s.heapAllocCount.set s.currentThread (count + 1)
    allocatedMem := emplace ⟨memory, .heap s.currentThread count, size⟩ s.allocatedMem }
  return memory

/-- The value of an operand that needs no memory. -/
def operandValue? (th : Thread) : Operand → Option Value
  | .constant v => some v
  | .register r => th.ecStack.head?.map fun sf => sf.values r
  | .threadLocal g => th.threadLocalValues g.name

/-- A thread local variable gets its memory when it is first used. -/
def getOperandValue (op : Operand) : Action β Value := do
  match operandValue? (← getThread) op, op with
  | some v, _ => return v
  | none, .threadLocal g => do
      let memory ← allocateHeap env g.initializer.length
      modifyThread fun th =>
        { th with threadLocalValues := Function.update th.threadLocalValues g.name (some memory) }
      modify fun s => { s with memory := writeBytes s.memory memory g.initializer }
      return memory
  | none, _ => throw .fault

def getOperandValues (ops : List Operand) : Action β (List Value) := ops.mapM (getOperandValue env)

/-- Wakes the threads that await the new value. -/
def checkAwaitWakeup (ptr : Ptr) (ml : AccessRange) : Action β Unit := do
  let s ← get
  let woken := fun a : SymAddrSize × ℕ × AwaitCond =>
    a.1 = ml.1 && a.2.2.satisfiedBy env (readBytes s.memory ptr ml.1.size)
  (s.blockingAwaits.filter woken).forM fun a => notify env (.markAvailable a.2.1)
  modify fun s => { s with blockingAwaits := s.blockingAwaits.filter fun a => !woken a }

/-- The store of a store, exchange or read-modify-write instruction. A dry run keeps it to
itself. -/
def performStore (v : Value) (ptr : Ptr) (width : Width) (ml : AccessRange) : Action β Unit := do
  if (← get).dryRun then
    modify fun s => { s with dryRunMem := s.dryRunMem ++ [getSymData env ml v] }
  else
    storeValueToMemory env v ptr width
    checkAwaitWakeup env ptr ml

/-! ### Control flow -/

def getFunction (f : Ptr) : Action β Function :=
  match env.program f with
  | some (.function g) => return g
  | _ => throw .fault

def getBlock (f : Ptr) (bb : ℕ) : Action β BasicBlock := do
  match (← getFunction env f).blocks.bind fun bs => bs[bb]? with
  | some b => return b
  | none => throw .fault

/-- The incoming values of all phi nodes are read before the first is set. -/
def switchToNewBasicBlock (dest : ℕ) : Action β Unit := do
  let sf ← topFrame
  let b ← getBlock env sf.curFunction dest
  match b.phis.mapM fun phi => (phi.incoming.lookup sf.curBB).map (·.elim id sf.values) with
  | none => throw .fault
  | some values =>
      let values := (b.phis.map (·.dst)).zip values
      modifyTop fun sf => { sf with
        curBB := dest
        curInst := 0
        values := fun r => (values.lookup r).getD (sf.values r) }

/-- Gives the result of a call to the frame of the caller. -/
def returnValueToCaller (v : Value) : Action β Unit := do
  match (← topFrame).caller with
  | none => pure ()
  | some caller => do
      caller.dst.forM fun r => setValue r v
      caller.normalDest.forM (switchToNewBasicBlock env)
      modifyTop fun sf => { sf with caller := none }

def terminate (v : Value) : Action β Unit := do
  let s ← get
  if s.currentThread ≠ 0 then modifyThread fun th => { th with retVal := v }
  (← getThread).awaitingJoin.forM fun p => notify env (.markAvailable p)

def popStackAndReturnValueToCaller (v : Value) : Action β Unit := do
  match ← getStack with
  | [] => throw .fault
  | [_] => do
      setStack []
      terminate env v
  | _ :: rest => do
      setStack rest
      returnValueToCaller env v

/-! ### Calls to the thread library -/

/-- `ArgVals[i]`. -/
def arg (args : List Value) (i : ℕ) : Action β Value :=
  match args[i]? with
  | some v => return v
  | none => throw .fault

/-- The one byte that stands for a mutex or condition variable. -/
def objectAt (addr : SymAddr) : SymAddrSize := ⟨addr, 1⟩

def intMax : ℕ := 2 ^ 31 - 1

def pushFrame (f : Ptr) (g : Function) (args : List Value) : Action β Unit := do
  if args.length < g.params.length then throw .fault
  setStack (⟨f, 0, 0, fun r => ((g.params.zip args).lookup r).getD 0, none⟩ :: (← getStack))

/-- Only the outermost atomic function counts. -/
def enterAtomic : Action β Unit := do
  report env .fence
  let depth := (← getStack).length
  modify fun s => { s with atomicFunctionCall := s.atomicFunctionCall <|> some depth }

def reportExternal (g : Function) : Action β Unit := do
  if !g.noFence then report env .fence
  if !g.noFullMemoryConflict then report env .fullMemoryConflict

/-- The call of an external function, which a dry run does not make. -/
def callDeclaration (f : Ptr) (g : Function) (args : List Value) : Action β Unit := do
  reportExternal env g
  if (← get).dryRun then setStack (← getStack).tail
  else
    let s ← get
    let (v, memory) := env.callExternalFunction f args s.memory
    modify fun s => { s with memory := memory }
    popStackAndReturnValueToCaller env v

/-- The call of a function that is not known by name. -/
def callProgramFunction (f : Ptr) (g : Function) (args : List Value) : Action β Unit := do
  if g.isAtomic then enterAtomic env
  pushFrame f g args
  if g.blocks.isNone then callDeclaration env f g args

/-- Starting a thread with a function of the thread library is not supported. -/
def callPthreadCreate (width : Width) (args : List Value) : Action β Unit := do
  returnValueToCaller env 0
  let start ← arg args 2
  if start = 0 then throw .segmentationFault
  let newTid := (← get).threads.length
  let ptr ← arg args 0
  if ptr ≠ 0 then
    let _ ← getSymAddrSize ptr width
    storeValueToMemory env newTid ptr width
  report env .fence
  report env .spawn
  let caller := (← get).currentThread
  modify fun s => { s with threads := s.threads ++ [Thread.new], currentThread := newTid }
  let g ← getFunction env start
  let argument ← arg args 3
  callProgramFunction env start g (if g.params.length = 1 then [argument] else [])
  modify fun s => { s with currentThread := caller }

def joinError (tid currentThread : ℕ) : Failure :=
  .pthreads ("Invalid thread ID in pthread_join: " ++ toString tid ++
    if tid = currentThread then " (same as ID of calling thread)" else "")

def callPthreadJoin (width : Width) (args : List Value) : Action β Unit := do
  let s ← get
  let tid := min (← arg args 0) intMax
  match s.threads[tid]? with
  | none => throw (joinError tid s.currentThread)
  | some th => do
      if tid = s.currentThread then throw (joinError tid s.currentThread)
      if !th.ecStack.isEmpty then throw .fault
      report env .fence
      report env (.join tid)
      let rvPtr ← arg args 1
      if rvPtr ≠ 0 then
        let _ ← getSymAddrSize rvPtr width
        storeValueToMemory env th.retVal rvPtr width
      returnValueToCaller env 0

def callPthreadExit (args : List Value) : Action β Unit := do
  report env .fence
  setStack ((← getStack).getLast?.toList)
  popStackAndReturnValueToCaller env (← arg args 0)

/-- What the calls on a mutex or condition variable have in common: the object must exist, and the
trace builder is told. -/
def useObject (name : String) (event : SymAddrSize → Callback) (ptr : Ptr) : Action β Unit := do
  if ptr = 0 then throw (.pthreads (name ++ " called with null pointer as first argument."))
  let addr ← getSymAddr ptr
  report env (event (objectAt addr))

def setMutex (lck : Ptr) (m : Option PthreadMutex) : Action β Unit :=
  modify fun s => { s with pthreadMutexes := Function.update s.pthreadMutexes lck m }

/-- A mutex may be used without initialization. A dry run does not initialize it. -/
def requireMutex (name : String) (lck : Ptr) : Action β Unit := do
  let s ← get
  if (s.pthreadMutexes lck).isNone then
    if env.mutexRequireInit then
      throw (.pthreads (name ++ " called with uninitialized mutex."))
    else if !s.dryRun then setMutex lck (some ⟨none, []⟩)

def callPthreadMutexInit (args : List Value) : Action β Unit := do
  let lck ← arg args 0
  useObject env "pthread_mutex_init" .mutexInit lck
  if ((← get).pthreadMutexes lck).isSome then
    throw (.pthreads "pthread_mutex_init called with already initialized mutex.")
  returnValueToCaller env 0
  if !(← get).dryRun then setMutex lck (some ⟨none, []⟩)

/-- Locks a mutex that is not locked. -/
def lockMutex (lck : Ptr) : Action β Unit := do
  let s ← get
  match s.pthreadMutexes lck with
  | some m =>
      if m.owner.isSome then throw .fault
      else if !s.dryRun then setMutex lck (some { m with owner := some s.currentThread })
  | none => if !s.dryRun then throw .fault

def callPthreadMutexLock (args : List Value) : Action β Unit := do
  let lck ← arg args 0
  useObject env "pthread_mutex_lock" .mutexLock lck
  requireMutex env "pthread_mutex_lock" lck
  lockMutex lck
  returnValueToCaller env 0

def ebusy : ℕ := 16

def callPthreadMutexTryLock (args : List Value) : Action β Unit := do
  let lck ← arg args 0
  useObject env "pthread_mutex_trylock" .mutexTrylock lck
  requireMutex env "pthread_mutex_trylock" lck
  if ((← get).pthreadMutexes lck).all (·.owner.isNone) then
    returnValueToCaller env 0
    lockMutex lck
  else returnValueToCaller env ebusy

/-- Releases a mutex and the threads that wait for it. -/
def releaseMutex (lck : Ptr) : Action β Unit := do
  match (← get).pthreadMutexes lck with
  | none => throw .fault
  | some m => do
      m.waiting.forM fun p => notify env (.markAvailable p)
      setMutex lck (some ⟨none, []⟩)

def callPthreadMutexUnlock (args : List Value) : Action β Unit := do
  let lck ← arg args 0
  useObject env "pthread_mutex_unlock" .mutexUnlock lck
  requireMutex env "pthread_mutex_unlock" lck
  let s ← get
  if (s.pthreadMutexes lck).any (·.owner ≠ some s.currentThread) then
    throw (.pthreads "pthread_mutex_unlock called with mutex not locked by the same process.")
  returnValueToCaller env 0
  if !s.dryRun then releaseMutex env lck

def callPthreadMutexDestroy (args : List Value) : Action β Unit := do
  let lck ← arg args 0
  useObject env "pthread_mutex_destroy" .mutexDestroy lck
  requireMutex env "pthread_mutex_destroy" lck
  let s ← get
  if (s.pthreadMutexes lck).any (·.owner.isSome) then
    throw (.pthreads "pthread_mutex_destroy called with locked mutex.")
  returnValueToCaller env 0
  if !s.dryRun then setMutex lck none

/-- The calls on a condition variable of which only the trace builder keeps track. -/
def callPthreadCond (name : String) (event : SymAddrSize → Callback) (args : List Value) :
    Action β Unit := do
  useObject env name event (← arg args 0)
  returnValueToCaller env 0

def callPthreadCondInit : List Value → Action β Unit :=
  callPthreadCond env "pthread_cond_init" .condInit

def callPthreadCondSignal : List Value → Action β Unit :=
  callPthreadCond env "pthread_cond_signal" .condSignal

def callPthreadCondBroadcast : List Value → Action β Unit :=
  callPthreadCond env "pthread_cond_broadcast" .condBroadcast

def callPthreadCondWait (args : List Value) : Action β Unit := do
  let cnd ← arg args 0
  let lck ← arg args 1
  if cnd = 0 then
    throw (.pthreads "pthread_cond_wait called with null pointer as first argument.")
  if lck = 0 then
    throw (.pthreads "pthread_cond_wait called with null pointer as second argument.")
  let cndAddr ← getSymAddr cnd
  let lckAddr ← getSymAddr lck
  report env (.condWait (objectAt cndAddr) (objectAt lckAddr))
  returnValueToCaller env 0
  let s ← get
  if !s.dryRun then
    if (s.pthreadMutexes lck).all (·.owner ≠ some s.currentThread) then throw .fault
    releaseMutex env lck
    modifyThread fun th => { th with pendingMutexLock := lck, pendingCondvarAwake := cnd }

def doPthreadCondAwake (cnd lck : Ptr) : Action β Unit := do
  let cndAddr ← getSymAddr cnd
  let lckAddr ← getSymAddr lck
  report env (.condAwake (objectAt cndAddr) (objectAt lckAddr))
  if ((← get).pthreadMutexes lck).isNone then
    throw (.pthreads "mutex destroyed during pthread_cond_wait.")
  lockMutex lck

def callPthreadCondDestroy (args : List Value) : Action β Unit := do
  let cnd ← arg args 0
  if cnd = 0 then
    throw (.pthreads "pthread_cond_destroy called with null pointer as first argument.")
  let addr ← getSymAddr cnd
  let s ← get
  let (rv, builder) := env.condDestroy (objectAt addr) s.builder
  modify fun s => { s with builder := builder }
  if rv = 0 ∨ rv = ebusy then returnValueToCaller env rv else throw .builder

/-! ### Other library calls -/

def callNondetInt : Action β Unit := do
  match env.svcompNondetInt with
  | some v => returnValueToCaller env v
  | none => do
      let (v, randEng) := env.draw (← getThread).randEng
      modifyThread fun th => { th with randEng := randEng }
      returnValueToCaller env v

/-- Removes the part of the stack that belongs to an atomic function. -/
def leaveAtomic : ℕ → Action β Unit
  | 0 => pure ()
  | fuel + 1 => do
      let depth := (← getStack).length
      if (← get).atomicFunctionCall.any (· < depth) then
        popStackAndReturnValueToCaller env 0
        leaveAtomic fuel

/-- A false assumption ends a dry run of an atomic function, and blocks the thread otherwise. -/
def callAssume (args : List Value) : Action β Unit := do
  if (← arg args 0) = 0 then
    if (← get).dryRun then leaveAtomic env (← getStack).length
    else
      modify fun s => { s with assumeBlocked := true, atExitHandlers := [] }
      modifyThread fun th => { th with ecStack := [], assumeBlocked := true }

/-- `malloc` or `calloc` of a number of bytes. Only the alternative of a failing allocation leaves
the state as it is, and a dry run is not treated differently. -/
def callMCalloc (isCalloc : Bool) (args : List Value) : Action β Unit := do
  if env.mallocMayFail then report env (.registerAlternatives 2)
  if env.mallocMayFail && (← get).currentAlt = 0 then returnValueToCaller env 0
  else if isCalloc then
    let size := (← arg args 0) * (← arg args 1) % 2 ^ 64
    let memory ← allocateHeap env size
    modify fun s => { s with memory := writeBytes s.memory memory (List.replicate size 0) }
    returnValueToCaller env memory
  else
    let memory ← allocateHeap env (← arg args 0)
    returnValueToCaller env memory

def callFree (args : List Value) : Action β Unit := do
  let ptr ← arg args 0
  if ptr ≠ 0 then
    let s ← get
    if ptr ∈ s.allocatedMemStack then
      throw (.memory "Attempt to free block which is on the stack.")
    if ptr ∉ s.allocatedMemHeap then
      throw (.memory "Attempt to free address not returned by malloc.")
    if (s.freedMem.lookup ptr).isSome then throw .segmentationFault
    set { s with freedMem := (ptr, env.getIid s.builder) :: s.freedMem }

def callAtexit (args : List Value) : Action β Unit := do
  let handler ← arg args 0
  if handler = 0 then throw .segmentationFault
  modify fun s => { s with atExitHandlers := s.atExitHandlers ++ [handler] }
  returnValueToCaller env 0

/-- The operator with a given encoding. -/
def awaitOp (v : Value) : Action β AwaitOp :=
  match [.ugt, .eq, .uge, .ult, .ne, .ule, .sgt, .sge, .slt, .sle].find? fun op =>
    (AssumeAwait.opBits op).toNat = v with
  | some op => return op
  | none => throw .fault

/-- Awaits look at memory only, so a dry run may not have stored anything before. -/
def requireNothingStored : Action β Unit := do
  let s ← get
  if s.dryRun && !s.dryRunMem.isEmpty then throw .fault

def callLoadAwait (width : Width) (args : List Value) : Action β Unit := do
  let ptr ← arg args 0
  let op ← awaitOp (← arg args 1)
  let cond := AwaitCond.mk op (bytesOf env width.1 (← arg args 2)).1
  let ml ← getSymAddrSize ptr width
  report env (.loadAwait ml.1 cond)
  requireNothingStored
  let old ← loadValue ptr ml
  returnValueToCaller env (valueOf env old)

/-- A dry run ends before the result is returned. -/
def callXchgAwait (width : Width) (args : List Value) : Action β Unit := do
  let ptr ← arg args 0
  let new ← arg args 1
  let op ← awaitOp (← arg args 2)
  let cond := AwaitCond.mk op (bytesOf env width.1 (← arg args 3)).1
  let ml ← getSymAddrSize ptr width
  requireNothingStored
  let old ← loadValue ptr ml
  if !cond.satisfiedBy env old then throw .fault
  report env (.xchgAwait (getSymData env ml new) cond)
  performStore env new ptr width ml
  if !(← get).dryRun then returnValueToCaller env (valueOf env old)

def callBuiltin (b : Builtin) (args : List Value) : Action β Unit :=
  match b with
  | .pthreadCreate width => callPthreadCreate env width args
  | .pthreadJoin width => callPthreadJoin env width args
  | .pthreadSelf => do returnValueToCaller env (← get).currentThread
  | .pthreadExit => callPthreadExit env args
  | .pthreadMutexInit => callPthreadMutexInit env args
  | .pthreadMutexLock => callPthreadMutexLock env args
  | .pthreadMutexTrylock => callPthreadMutexTryLock env args
  | .pthreadMutexUnlock => callPthreadMutexUnlock env args
  | .pthreadMutexDestroy => callPthreadMutexDestroy env args
  | .pthreadCondInit => callPthreadCondInit env args
  | .pthreadCondSignal => callPthreadCondSignal env args
  | .pthreadCondBroadcast => callPthreadCondBroadcast env args
  | .pthreadCondWait => callPthreadCondWait env args
  | .pthreadCondDestroy => callPthreadCondDestroy env args
  | .malloc => callMCalloc env false args
  | .calloc => callMCalloc env true args
  | .free => callFree env args
  | .atexit => callAtexit env args
  | .nondetInt => callNondetInt env
  | .assume => callAssume env args
  | .assertFail => throw .assertion
  | .loadAwait width => callLoadAwait env width args
  | .xchgAwait width => callXchgAwait env width args

def callFunction (f : Ptr) (args : List Value) : Action β Unit :=
  match env.program f with
  | some (.builtin b) => callBuiltin env b args
  | some (.function g) => callProgramFunction env f g args
  | none => throw .fault

/-! ### Instructions -/

def getCalledFunction : CalledOperand → Action β Ptr
  | .direct f => return f
  | .indirect op => do
      let f ← getOperandValue env op
      if f = 0 then throw .segmentationFault else return f

def visitAnyCallInst (caller : Caller) (callee : CalledOperand) (args : List Operand) :
    Action β Unit := do
  let f ← getCalledFunction env callee
  modifyTop fun sf => { sf with caller := some caller }
  let values ← getOperandValues env args
  callFunction env f values

def visitAllocaInst (dst : Reg) (numElements : Operand) (typeSize : ℕ) : Action β Unit := do
  let n ← getOperandValue env numElements
  let s ← get
  let memToAlloc := max 1 (n * typeSize % 2 ^ 32)
  let memory := env.allocate s.allocatedMem memToAlloc
  setValue dst memory
  let count := s.stackAllocCount.get s.currentThread
  modify fun s => { s with
    allocatedMemStack := s.allocatedMemStack.insert memory
    stackAllocCount := s.stackAllocCount.set s.currentThread (count + 1)
    allocatedMem := emplace ⟨memory, .stack s.currentThread count, memToAlloc⟩ s.allocatedMem }

def visitLoadInst (dst : Reg) (ptr : Operand) (width : Width) (plain : Bool) : Action β Unit := do
  let p ← getOperandValue env ptr
  let ml ← getSymAddrSize p width
  if !(env.c11 && plain) then report env (.load ml.1)
  let v ← loadValue p ml
  setValue dst (valueOf env v)

def visitStoreInst (val ptr : Operand) (width : Width) (plain : Bool) : Action β Unit := do
  let v ← getOperandValue env val
  let p ← getOperandValue env ptr
  let ml ← getSymAddrSize p width
  if !(env.c11 && plain) then report env (.atomicStore (getSymData env ml v))
  performStore env v p width ml

def visitAtomicCmpXchgInst (dst success : Reg) (ptr cmp new : Operand) (width : Width) :
    Action β Unit := do
  let cmpVal ← getOperandValue env cmp
  let newVal ← getOperandValue env new
  let p ← getOperandValue env ptr
  let ml ← getSymAddrSize p width
  let old ← loadValue p ml
  let expected := (bytesOf env ml.1.size cmpVal).1
  let equal : Bool := old = expected
  report env (.compareExchange (getSymData env ml newVal) expected equal)
  setValue dst (valueOf env old)
  setValue success equal.toNat
  if equal then performStore env newVal p width ml

def visitAtomicRMWInst (dst : Reg) (kind : RmwKind) (ptr val : Operand) (width : Width)
    (resultUsed : Bool) : Action β Unit := do
  let p ← getOperandValue env ptr
  let v ← getOperandValue env val
  let ml ← getSymAddrSize p width
  let old ← loadValue p ml
  setValue dst (valueOf env old)
  let new := rmwValue kind ml.1.size (valueOf env old) v
  report env (.atomicRmw (getSymData env ml new) kind (bytesOf env ml.1.size v).1 resultUsed)
  performStore env new p width ml

def visit : Instruction → Action β Unit
  | .compute dst operands f => do setValue dst (f (← getOperandValues env operands))
  | .alloca dst numElements typeSize => visitAllocaInst env dst numElements typeSize
  | .load dst ptr width plain => visitLoadInst env dst ptr width plain
  | .store val ptr width plain => visitStoreInst env val ptr width plain
  | .cmpxchg dst success ptr cmp new width =>
      visitAtomicCmpXchgInst env dst success ptr cmp new width
  | .atomicrmw dst kind ptr val width resultUsed =>
      visitAtomicRMWInst env dst kind ptr val width resultUsed
  | .call dst callee args => visitAnyCallInst env ⟨dst, none⟩ callee args
  | .invoke dst callee args normalDest => visitAnyCallInst env ⟨dst, some normalDest⟩ callee args
  | .br dest => switchToNewBasicBlock env dest
  | .condBr cond ifTrue ifFalse => do
      let v ← getOperandValue env cond
      report env (.condBranch (v ≠ 0))
      switchToNewBasicBlock env (if v ≠ 0 then ifTrue else ifFalse)
  | .switch cond cases default => do
      let v ← getOperandValue env cond
      switchToNewBasicBlock env ((cases.lookup v).getD default)
  | .ret val => do
      let v ← val.elim (pure 0) (getOperandValue env)
      popStackAndReturnValueToCaller env v
  | .unreachable => throw .fault

/-! ### Scheduling steps -/

/-- The library function that a call names, and its operands. -/
def builtinCall? (i : Instruction) : Option (Builtin × List Operand) :=
  match i with
  | .call _ (.direct f) args | .invoke _ (.direct f) args _ =>
      match env.program f with
      | some (.builtin b) => some (b, args)
      | _ => none
  | _ => none

/-- A refused instruction is tried again later. The trace builder asserts that this does not happen
in a dry run. -/
def refuseSchedule : Action β Unit := do
  if (← get).dryRun then throw .fault
  notify env .refuseSchedule

/-- A join waits for the other thread. -/
def refuseJoin (tid : ℕ) : Action β Bool := do
  let s ← get
  match s.threads[tid]? with
  | none => return false
  | some th =>
      if tid ≠ s.currentThread && (!th.ecStack.isEmpty || th.assumeBlocked) then do
        refuseSchedule env
        let awaiting := fun th : Thread =>
          { th with awaitingJoin := th.awaitingJoin ++ [s.currentThread] }
        modify fun s => { s with threads := s.threads.modify tid awaiting }
        return true
      else return false

/-- A lock waits for the mutex to be released. -/
def refuseLock (lck : Ptr) : Action β Bool := do
  let s ← get
  match tryGetSymAddr s lck, s.pthreadMutexes lck with
  | some addr, some m =>
      if m.owner.isSome then do
        if s.dryRun then throw .fault
        report env (.mutexLockFail (objectAt addr))
        refuseSchedule env
        let waiting := VecSet.insert (fun p q => p < q) m.waiting s.currentThread
        setMutex lck (some { m with waiting := waiting })
        return true
      else return false
  | _, _ => return false

/-- `emplace` to `blocking_awaits`, which keeps an entry of the same range and thread. The entries
are in the order of the threads. -/
def emplaceAwait (a : SymAddrSize × ℕ × AwaitCond) :
    List (SymAddrSize × ℕ × AwaitCond) → List (SymAddrSize × ℕ × AwaitCond)
  | [] => [a]
  | b :: bs =>
      if b.1 = a.1 ∧ b.2.1 = a.2.1 then b :: bs
      else if a.2.1 < b.2.1 then a :: b :: bs
      else b :: emplaceAwait a bs

/-- An await waits for its condition. -/
def refuseAwait (ptr : Ptr) (width : Width) (cond : AwaitCond)
    (event : AccessRange → Callback) : Action β Bool := do
  let s ← get
  match tryGetSymAddr s ptr with
  | none => return false
  | some addr => do
      requireNothingStored
      if cond.satisfiedBy env (readBytes s.memory ptr width.1) then return false
      else do
        if s.dryRun then throw .fault
        let ml : AccessRange := ⟨⟨addr, width.1⟩, width.2⟩
        report env (event ml)
        refuseSchedule env
        modify fun s =>
          { s with blockingAwaits := emplaceAwait (ml.1, s.currentThread, cond) s.blockingAwaits }
        return true

def checkRefuseJoin : Option (Builtin × List Operand) → Action β Bool
  | some (.pthreadJoin _, op :: _) => do
      refuseJoin env (min (← getOperandValue env op) intMax)
  | _ => return false

/-- A thread that was waiting for a condition variable has a mutex to lock. -/
def checkRefuseLock (call : Option (Builtin × List Operand)) : Action β Bool := do
  let pending := (← getThread).pendingMutexLock
  if pending ≠ 0 then refuseLock env pending
  else match call with
  | some (.pthreadMutexLock, op :: _) => do refuseLock env (← getOperandValue env op)
  | _ => return false

def checkRefuseAwait : Option (Builtin × List Operand) → Action β Bool
  | some (.loadAwait width, ptr :: op :: operand :: _) => do
      let p ← getOperandValue env ptr
      let op ← awaitOp (← getOperandValue env op)
      let cond := AwaitCond.mk op (bytesOf env width.1 (← getOperandValue env operand)).1
      refuseAwait env p width cond fun ml => .loadAwaitFail ml.1 cond
  | some (.xchgAwait width, ptr :: new :: op :: operand :: _) => do
      let p ← getOperandValue env ptr
      let op ← awaitOp (← getOperandValue env op)
      let cond := AwaitCond.mk op (bytesOf env width.1 (← getOperandValue env operand)).1
      let v ← getOperandValue env new
      refuseAwait env p width cond fun ml => .xchgAwaitFail (getSymData env ml v) cond
  | _ => return false

/-- Whether the instruction has to wait. An await is only recognized in a call instruction. -/
def checkRefuse (i : Instruction) : Action β Bool := do
  let call := builtinCall? env i
  if ← checkRefuseJoin env call then return true
  else if ← checkRefuseLock env call then return true
  else if i.isTerminator then return false
  else checkRefuseAwait env call

/-- The next instruction of the thread. The position moves before the instruction is executed. -/
def fetch : Action β Instruction := do
  let sf ← topFrame
  let b ← getBlock env sf.curFunction sf.curBB
  match if 0 ≤ sf.curInst then b.body[sf.curInst.toNat]? else none with
  | some i => do
      modifyTop fun sf => { sf with curInst := sf.curInst + 1 }
      return i
  | none => throw .fault

/-- Moves the position back to the instruction. -/
def backUp : Action β Unit := modifyTop fun sf => { sf with curInst := sf.curInst - 1 }

/-- A thread that was waiting for a condition variable takes its mutex again. -/
def awake : Action β Unit := do
  let th ← getThread
  if th.pendingMutexLock ≠ 0 then
    doPthreadCondAwake env th.pendingCondvarAwake th.pendingMutexLock
    if !(← get).dryRun then
      modifyThread fun th => { th with pendingMutexLock := 0, pendingCondvarAwake := 0 }

/-- Executes until the outermost atomic function returns. -/
def runAtomic : ℕ → Action β Unit
  | 0 => throw .diverges
  | fuel + 1 => do
      let depth := (← getStack).length
      if (← get).atomicFunctionCall.any (· < depth) then
        visit env (← fetch env)
        runAtomic fuel

/-- The end of a thread. Handlers run in the initial thread. -/
def reap : Action β Unit := do
  let s ← get
  if (← getStack).isEmpty then
    match s.currentThread, s.atExitHandlers.getLast? with
    | 0, some handler => do
        callFunction env handler []
        modify fun s => { s with atExitHandlers := s.atExitHandlers.dropLast }
    | p, _ => notify env (.markUnavailable p)

/-- Executes an instruction, or a whole atomic function. -/
def execute (fuel : ℕ) (i : Instruction) : Action β Unit := do
  visit env i
  if (← get).atomicFunctionCall.isSome then
    runAtomic env fuel
    modify fun s => { s with atomicFunctionCall := none }
  reap env

/-- What happens before an instruction is executed. A dry run does not execute terminators. -/
def prepare (i : Instruction) : Action β Bool := do
  if ← checkRefuse env i then return false
  else
    awake env
    notify env .metadata
    let s ← get
    if !s.dryRunMem.isEmpty then throw .fault
    return !(s.dryRun && i.isTerminator)

/-- One turn of the loop in `run` for a thread of the program. A dry run moves back to where it
started. -/
def step (fuel : ℕ) : Action β Unit := do
  let i ← fetch env
  if ← prepare env i then
    execute env fuel i
    if (← get).dryRun then
      backUp
      modify fun s => { s with dryRunMem := [] }
  else backUp

end Nidhugg.Interpreter
