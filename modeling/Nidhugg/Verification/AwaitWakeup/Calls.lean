import Nidhugg.Library.Hoare
import Nidhugg.Model.Interpreter

/-! # The parts of a turn

With regard to blocked awaits a turn of the interpreter consists of stores with their wakeups,
refusals of awaits, and parts that leave the blocked awaits alone. -/

namespace Nidhugg.Interpreter

open Hoare

/-- The surroundings with a record of all notifications. -/
def recording {β : Type} (env : Env β) : Env (List Callback × β) :=
  { env with
    reply := fun c b => ((env.reply c b.2).1, b.1 ++ [c], (env.reply c b.2).2)
    condDestroy := fun ml b => ((env.condDestroy ml b.2).1, b.1, (env.condDestroy ml b.2).2)
    getIid := fun b => env.getIid b.2 }

/-- A state with the record of all notifications. -/
abbrev Recorded (β : Type) := State (List Callback × β)

/-- An entry of `blocking_awaits`. -/
abbrev Waiting := SymAddrSize × ℕ × AwaitCond

variable {β : Type} {env : Env β} {s₀ s t u : Recorded β}

/-- A thread has been marked available between the states. -/
def Marked (s t : Recorded β) (proc : ℕ) : Prop :=
  ∃ new, t.builder.1 = s.builder.1 ++ new ∧ .markAvailable proc ∈ new

/-- The blocked awaits stay as they are. -/
structure Quiet (s t : Recorded β) : Prop where
  blockingAwaits : t.blockingAwaits = s.blockingAwaits
  record : ∃ new, t.builder.1 = s.builder.1 ++ new

/-- What a part of a turn does to the blocked awaits. -/
inductive Effect where
  | quiet
  | store (ptr : Ptr) (ml : SymAddrSize)
  | refuse (ptr : Ptr) (a : Waiting)

/-- The parts of a turn. -/
inductive Part (env : Env β) (s : Recorded β) : Effect → Recorded β → Prop where
  | quiet {t : Recorded β} (h : Quiet s t) : Part env s .quiet t
  | store {v : Value} {ptr : Ptr} {width : Width} {ml : AccessRange} {t : Recorded β}
      (h : performStore (recording env) v ptr width ml s = .ok ((), t)) :
      Part env s (.store ptr ml.1) t
  | refuse {ptr : Ptr} {width : Width} {cond : AwaitCond} {event : AccessRange → Callback}
      {addr : SymAddr} {t : Recorded β} (haddr : tryGetSymAddr s ptr = some addr)
      (h : refuseAwait (recording env) ptr width cond event s = .ok (true, t)) :
      Part env s (.refuse ptr (⟨addr, width.1⟩, s.currentThread, cond)) t

/-- The parts between two states. -/
abbrev Parts (env : Env β) : Recorded β → Recorded β → Prop :=
  Relation.ReflTransGen fun s t => ∃ e, Part env s e t

theorem Parts.quiet (h : Parts env s₀ s) (hq : Quiet s t) : Parts env s₀ t :=
  h.tail ⟨_, .quiet hq⟩

/-! ### Quiet parts -/

theorem Quiet.of_same (hawaits : t.blockingAwaits = s.blockingAwaits)
    (hbuilder : t.builder = s.builder) : Quiet s t :=
  ⟨hawaits, [], by rw [hbuilder, List.append_nil]⟩

theorem parts_modify {f : Recorded β → Recorded β} (hf : ∀ s, Quiet s (f s)) :
    Keeps (Parts env s₀) (modify f : Action (List Callback × β) Unit) :=
  .modify fun s hs => Parts.quiet hs (hf s)

/-- A change of other parts of the state. -/
theorem parts_modify_same {f : Recorded β → Recorded β}
    (hf : ∀ s, (f s).blockingAwaits = s.blockingAwaits ∧ (f s).builder = s.builder) :
    Keeps (Parts env s₀) (modify f : Action (List Callback × β) Unit) :=
  parts_modify fun s => .of_same (hf s).1 (hf s).2

theorem parts_notify (c : Callback) : Keeps (Parts env s₀) (notify (recording env) c) := by
  apply parts_modify
  intro s
  exact ⟨rfl, [c], rfl⟩

theorem parts_report (c : Callback) : Keeps (Parts env s₀) (report (recording env) c) := by
  apply Keeps.get_bind
  intro s _
  apply (parts_notify c).bind
  intro _
  exact .ite (fun _ => .throw) fun _ => Keeps.pure

/-! ### Threads and stack frames -/

theorem parts_getThread : Keeps (Parts env s₀) getThread := by
  apply Keeps.get_bind
  intro s _
  cases s.threads[s.currentThread]? with
  | none => exact .throw
  | some th => exact Keeps.pure

theorem parts_modifyThread (f : Thread → Thread) : Keeps (Parts env s₀) (modifyThread f) :=
  parts_modify_same fun _ => ⟨rfl, rfl⟩

theorem parts_getStack : Keeps (Parts env s₀) getStack :=
  parts_getThread.bind fun _ => Keeps.pure

theorem parts_setStack (stack : List ExecutionContext) : Keeps (Parts env s₀) (setStack stack) :=
  parts_modifyThread _

theorem parts_topFrame : Keeps (Parts env s₀) topFrame := by
  apply parts_getStack.bind
  intro stack
  cases stack with
  | nil => exact .throw
  | cons sf rest => exact Keeps.pure

theorem parts_modifyTop (f : ExecutionContext → ExecutionContext) :
    Keeps (Parts env s₀) (modifyTop f) := by
  apply parts_getStack.bind
  intro stack
  cases stack with
  | nil => exact .throw
  | cons sf rest => exact parts_setStack _

theorem parts_setValue (r : Reg) (v : Value) : Keeps (Parts env s₀) (setValue r v) :=
  parts_modifyTop _

/-! ### Memory -/

theorem parts_getSymAddr (ptr : Ptr) : Keeps (Parts env s₀) (getSymAddr ptr) := by
  apply Keeps.get_bind
  intro s _
  cases tryGetSymAddr s ptr with
  | some addr => exact Keeps.pure
  | none => exact .ite (fun _ => .throw) fun _ => .throw

theorem parts_getSymAddrSize (ptr : Ptr) (width : Width) :
    Keeps (Parts env s₀) (getSymAddrSize ptr width) :=
  (parts_getSymAddr ptr).bind fun _ => Keeps.pure

theorem parts_storeValueToMemory (v : Value) (ptr : Ptr) (width : Width) :
    Keeps (Parts env s₀) (storeValueToMemory (recording env) v ptr width) :=
  parts_modify_same fun _ => ⟨rfl, rfl⟩

theorem parts_loadValue (ptr : Ptr) (ml : AccessRange) :
    Keeps (Parts env s₀) (loadValue ptr ml) :=
  .get_bind fun _ _ => Keeps.pure

theorem parts_allocateHeap (size : ℕ) :
    Keeps (Parts env s₀) (allocateHeap (recording env) size) := by
  apply Triple.get_bind
  intro s hs
  refine Triple.bind (Q := fun _ => Parts env s₀) (.set ?_) fun _ => Keeps.pure
  intro _ _
  exact Parts.quiet hs (.of_same rfl rfl)

theorem parts_getOperandValue (op : Operand) :
    Keeps (Parts env s₀) (getOperandValue (recording env) op) := by
  apply parts_getThread.bind
  intro th
  cases operandValue? th op with
  | some v => exact Keeps.pure
  | none =>
      cases op with
      | constant v => exact .throw
      | register r => exact .throw
      | threadLocal g =>
          apply (parts_allocateHeap _).bind
          intro memory
          apply (parts_modifyThread _).bind
          intro _
          apply Triple.bind (Q := fun _ => Parts env s₀)
          · exact parts_modify_same fun _ => ⟨rfl, rfl⟩
          · exact fun _ => Keeps.pure

theorem parts_getOperandValues (ops : List Operand) :
    Keeps (Parts env s₀) (getOperandValues (recording env) ops) := by
  unfold getOperandValues
  induction ops with
  | nil => exact Keeps.pure
  | cons op ops ih =>
      rw [List.mapM_cons]
      apply (parts_getOperandValue op).bind
      intro v
      exact ih.bind fun _ => Keeps.pure

end Nidhugg.Interpreter

/-! # Library calls between stores and awaits

Library calls consist of parts that leave the blocked awaits alone. Only an exchange-await stores
with wakeups. -/

namespace Nidhugg.Interpreter

open Hoare

variable {β : Type} {env : Env β} {s₀ s t : Recorded β}

theorem parts_performStore (v : Value) (ptr : Ptr) (width : Width) (ml : AccessRange) :
    Keeps (Parts env s₀) (performStore (recording env) v ptr width ml) := by
  constructor
  intro s a t hs hat
  exact hs.tail ⟨_, .store hat⟩

/-! ### Control flow -/

theorem parts_getFunction (f : Ptr) : Keeps (Parts env s₀) (getFunction (recording env) f) := by
  unfold getFunction
  split
  · exact Keeps.pure
  · exact .throw

theorem parts_getBlock (f : Ptr) (bb : ℕ) :
    Keeps (Parts env s₀) (getBlock (recording env) f bb) := by
  apply (parts_getFunction f).bind
  intro g
  split
  · exact Keeps.pure
  · exact .throw

theorem parts_switchToNewBasicBlock (dest : ℕ) :
    Keeps (Parts env s₀) (switchToNewBasicBlock (recording env) dest) := by
  apply parts_topFrame.bind
  intro sf
  apply (parts_getBlock _ _).bind
  intro b
  split
  · exact .throw
  · exact parts_modifyTop _

theorem parts_returnValueToCaller (v : Value) :
    Keeps (Parts env s₀) (returnValueToCaller (recording env) v) := by
  apply parts_topFrame.bind
  intro sf
  cases sf.caller with
  | none => exact Keeps.pure
  | some caller =>
      apply Triple.bind (Q := fun _ => Parts env s₀)
      · cases caller.dst with
        | none => exact Keeps.pure
        | some r => exact parts_setValue r v
      · intro _
        apply Triple.bind (Q := fun _ => Parts env s₀)
        · cases caller.normalDest with
          | none => exact Keeps.pure
          | some dest => exact parts_switchToNewBasicBlock dest
        · exact fun _ => parts_modifyTop _

theorem parts_terminate (v : Value) : Keeps (Parts env s₀) (terminate (recording env) v) := by
  apply Keeps.get_bind
  intro s _
  refine Keeps.when (parts_modifyThread _) fun _ => ?_
  apply parts_getThread.bind
  intro th
  exact Keeps.forM_list (fun p => parts_notify _) _

theorem parts_popStackAndReturnValueToCaller (v : Value) :
    Keeps (Parts env s₀) (popStackAndReturnValueToCaller (recording env) v) := by
  apply parts_getStack.bind
  intro stack
  match stack with
  | [] => exact .throw
  | [_] => exact (parts_setStack _).bind fun _ => parts_terminate v
  | _ :: _ :: _ => exact (parts_setStack _).bind fun _ => parts_returnValueToCaller v

/-! ### Functions -/

theorem parts_arg (args : List Value) (i : ℕ) : Keeps (Parts env s₀) (arg args i) := by
  unfold arg
  split
  · exact Keeps.pure
  · exact .throw

theorem parts_pushFrame (f : Ptr) (g : Function) (args : List Value) :
    Keeps (Parts env s₀) (pushFrame f g args) := by
  apply Triple.ite
  · exact fun _ => .throw_bind
  · exact fun _ => parts_getStack.bind fun _ => parts_setStack _

theorem parts_enterAtomic : Keeps (Parts env s₀) (enterAtomic (recording env)) := by
  apply (parts_report _).bind
  intro _
  apply parts_getStack.bind
  intro stack
  exact parts_modify_same fun _ => ⟨rfl, rfl⟩

theorem parts_reportExternal (g : Function) :
    Keeps (Parts env s₀) (reportExternal (recording env) g) := by
  unfold reportExternal
  refine Keeps.when (parts_report _) fun _ => ?_
  exact .ite (fun _ => parts_report _) fun _ => Keeps.pure

theorem parts_callDeclaration (f : Ptr) (g : Function) (args : List Value) :
    Keeps (Parts env s₀) (callDeclaration (recording env) f g args) := by
  apply (parts_reportExternal g).bind
  intro _
  apply Keeps.get_bind
  intro s _
  apply Triple.ite
  · exact fun _ => parts_getStack.bind fun _ => parts_setStack _
  · intro _
    apply Keeps.get_bind
    intro s _
    apply Triple.bind (Q := fun _ => Parts env s₀)
    · exact parts_modify_same fun _ => ⟨rfl, rfl⟩
    · exact fun _ => parts_popStackAndReturnValueToCaller _

theorem parts_callProgramFunction (f : Ptr) (g : Function) (args : List Value) :
    Keeps (Parts env s₀) (callProgramFunction (recording env) f g args) := by
  unfold callProgramFunction
  refine Keeps.when parts_enterAtomic fun _ => ?_
  apply (parts_pushFrame f g args).bind
  intro _
  exact .ite (fun _ => parts_callDeclaration f g args) fun _ => Keeps.pure

/-! ### The thread library -/

theorem parts_callPthreadCreate (width : Width) (args : List Value) :
    Keeps (Parts env s₀) (callPthreadCreate (recording env) width args) := by
  apply (parts_returnValueToCaller _).bind
  intro _
  apply (parts_arg args 2).bind
  intro start
  apply Triple.ite
  · exact fun _ => .throw_bind
  · intro _
    apply Keeps.get_bind
    intro s _
    apply (parts_arg args 0).bind
    intro ptr
    have hrest : Keeps (Parts env s₀) (do
        report (recording env) .fence
        report (recording env) .spawn
        let caller := (← get).currentThread
        modify fun t => { t with
          threads := t.threads ++ [Thread.new], currentThread := s.threads.length }
        let g ← getFunction (recording env) start
        let argument ← arg args 3
        callProgramFunction (recording env) start g (if g.params.length = 1 then [argument] else [])
        modify fun s => { s with currentThread := caller }) := by
      apply (parts_report _).bind
      intro _
      apply (parts_report _).bind
      intro _
      apply Keeps.get_bind
      intro u _
      apply Triple.bind (Q := fun _ => Parts env s₀)
      · exact parts_modify_same fun _ => ⟨rfl, rfl⟩
      · intro _
        apply (parts_getFunction start).bind
        intro g
        apply (parts_arg args 3).bind
        intro argument
        apply (parts_callProgramFunction start g _).bind
        intro _
        exact parts_modify_same fun _ => ⟨rfl, rfl⟩
    apply Triple.ite
    · intro _
      apply (parts_getSymAddrSize ptr width).bind
      intro _
      exact (parts_storeValueToMemory _ ptr width).bind fun _ => hrest
    · exact fun _ => hrest

theorem parts_callPthreadJoin (width : Width) (args : List Value) :
    Keeps (Parts env s₀) (callPthreadJoin (recording env) width args) := by
  apply Keeps.get_bind
  intro s _
  apply (parts_arg args 0).bind
  intro tid
  dsimp only
  split
  · exact .throw
  · rename_i th _
    apply Triple.ite
    · exact fun _ => .throw_bind
    · intro _
      apply Triple.ite
      · exact fun _ => .throw_bind
      · intro _
        apply (parts_report _).bind
        intro _
        apply (parts_report _).bind
        intro _
        apply (parts_arg args 1).bind
        intro rvPtr
        apply Triple.ite
        · intro _
          apply (parts_getSymAddrSize rvPtr width).bind
          intro _
          apply (parts_storeValueToMemory _ rvPtr width).bind
          exact fun _ => parts_returnValueToCaller 0
        · exact fun _ => parts_returnValueToCaller 0

theorem parts_callPthreadExit (args : List Value) :
    Keeps (Parts env s₀) (callPthreadExit (recording env) args) := by
  apply (parts_report _).bind
  intro _
  apply parts_getStack.bind
  intro stack
  apply (parts_setStack _).bind
  intro _
  exact (parts_arg args 0).bind fun v => parts_popStackAndReturnValueToCaller v

theorem parts_useObject (name : String) (event : SymAddrSize → Callback) (ptr : Ptr) :
    Keeps (Parts env s₀) (useObject (recording env) name event ptr) := by
  apply Triple.ite
  · exact fun _ => .throw_bind
  · exact fun _ => (parts_getSymAddr ptr).bind fun _ => parts_report _

theorem parts_setMutex (lck : Ptr) (m : Option PthreadMutex) :
    Keeps (Parts env s₀) (setMutex lck m) :=
  parts_modify_same fun _ => ⟨rfl, rfl⟩

theorem parts_requireMutex (name : String) (lck : Ptr) :
    Keeps (Parts env s₀) (requireMutex (recording env) name lck) := by
  apply Keeps.get_bind
  intro s _
  apply Triple.ite
  · intro _
    apply Triple.ite
    · exact fun _ => .throw
    · exact fun _ => .ite (fun _ => parts_setMutex lck _) fun _ => Keeps.pure
  · exact fun _ => Keeps.pure

theorem parts_callPthreadMutexInit (args : List Value) :
    Keeps (Parts env s₀) (callPthreadMutexInit (recording env) args) := by
  apply (parts_arg args 0).bind
  intro lck
  apply (parts_useObject _ _ lck).bind
  intro _
  apply Keeps.get_bind
  intro s _
  apply Triple.ite
  · exact fun _ => .throw_bind
  · intro _
    apply (parts_returnValueToCaller 0).bind
    intro _
    apply Keeps.get_bind
    intro u _
    exact .ite (fun _ => parts_setMutex lck _) fun _ => Keeps.pure

theorem parts_lockMutex (lck : Ptr) : Keeps (Parts env s₀) (lockMutex lck) := by
  apply Keeps.get_bind
  intro s _
  cases s.pthreadMutexes lck with
  | none => exact .ite (fun _ => .throw) fun _ => Keeps.pure
  | some m =>
      apply Triple.ite
      · exact fun _ => .throw
      · exact fun _ => .ite (fun _ => parts_setMutex lck _) fun _ => Keeps.pure

theorem parts_callPthreadMutexLock (args : List Value) :
    Keeps (Parts env s₀) (callPthreadMutexLock (recording env) args) := by
  apply (parts_arg args 0).bind
  intro lck
  apply (parts_useObject _ _ lck).bind
  intro _
  apply (parts_requireMutex _ lck).bind
  intro _
  exact (parts_lockMutex lck).bind fun _ => parts_returnValueToCaller 0

theorem parts_callPthreadMutexTryLock (args : List Value) :
    Keeps (Parts env s₀) (callPthreadMutexTryLock (recording env) args) := by
  apply (parts_arg args 0).bind
  intro lck
  apply (parts_useObject _ _ lck).bind
  intro _
  apply (parts_requireMutex _ lck).bind
  intro _
  apply Keeps.get_bind
  intro s _
  apply Triple.ite
  · exact fun _ => (parts_returnValueToCaller 0).bind fun _ => parts_lockMutex lck
  · exact fun _ => parts_returnValueToCaller ebusy

theorem parts_releaseMutex (lck : Ptr) :
    Keeps (Parts env s₀) (releaseMutex (recording env) lck) := by
  apply Keeps.get_bind
  intro s _
  cases s.pthreadMutexes lck with
  | none => exact .throw
  | some m =>
      apply (Keeps.forM_list (fun p => parts_notify _) m.waiting).bind
      exact fun _ => parts_setMutex lck _

theorem parts_callPthreadMutexUnlock (args : List Value) :
    Keeps (Parts env s₀) (callPthreadMutexUnlock (recording env) args) := by
  apply (parts_arg args 0).bind
  intro lck
  apply (parts_useObject _ _ lck).bind
  intro _
  apply (parts_requireMutex _ lck).bind
  intro _
  apply Keeps.get_bind
  intro s _
  apply Triple.ite
  · exact fun _ => .throw_bind
  · intro _
    apply (parts_returnValueToCaller 0).bind
    exact fun _ => .ite (fun _ => parts_releaseMutex lck) fun _ => Keeps.pure

theorem parts_callPthreadMutexDestroy (args : List Value) :
    Keeps (Parts env s₀) (callPthreadMutexDestroy (recording env) args) := by
  apply (parts_arg args 0).bind
  intro lck
  apply (parts_useObject _ _ lck).bind
  intro _
  apply (parts_requireMutex _ lck).bind
  intro _
  apply Keeps.get_bind
  intro s _
  apply Triple.ite
  · exact fun _ => .throw_bind
  · intro _
    apply (parts_returnValueToCaller 0).bind
    exact fun _ => .ite (fun _ => parts_setMutex lck _) fun _ => Keeps.pure

theorem parts_callPthreadCond (name : String) (event : SymAddrSize → Callback)
    (args : List Value) : Keeps (Parts env s₀) (callPthreadCond (recording env) name event args) := by
  apply (parts_arg args 0).bind
  intro cnd
  exact (parts_useObject _ _ cnd).bind fun _ => parts_returnValueToCaller 0

theorem parts_callPthreadCondWait (args : List Value) :
    Keeps (Parts env s₀) (callPthreadCondWait (recording env) args) := by
  apply (parts_arg args 0).bind
  intro cnd
  apply (parts_arg args 1).bind
  intro lck
  apply Triple.ite
  · exact fun _ => .throw_bind
  · intro _
    apply Triple.ite
    · exact fun _ => .throw_bind
    · intro _
      apply (parts_getSymAddr cnd).bind
      intro _
      apply (parts_getSymAddr lck).bind
      intro _
      apply (parts_report _).bind
      intro _
      apply (parts_returnValueToCaller 0).bind
      intro _
      apply Keeps.get_bind
      intro s _
      apply Triple.ite
      · intro _
        apply Triple.ite
        · exact fun _ => .throw_bind
        · exact fun _ => (parts_releaseMutex lck).bind fun _ => parts_modifyThread _
      · exact fun _ => Keeps.pure

theorem parts_doPthreadCondAwake (cnd lck : Ptr) :
    Keeps (Parts env s₀) (doPthreadCondAwake (recording env) cnd lck) := by
  apply (parts_getSymAddr cnd).bind
  intro _
  apply (parts_getSymAddr lck).bind
  intro _
  apply (parts_report _).bind
  intro _
  apply Keeps.get_bind
  intro s _
  exact .ite (fun _ => .throw_bind) fun _ => parts_lockMutex lck

theorem parts_callPthreadCondDestroy (args : List Value) :
    Keeps (Parts env s₀) (callPthreadCondDestroy (recording env) args) := by
  apply (parts_arg args 0).bind
  intro cnd
  apply Triple.ite
  · exact fun _ => .throw_bind
  · intro _
    apply (parts_getSymAddr cnd).bind
    intro addr
    apply Triple.get_bind
    intro s _
    apply Triple.bind (Q := fun _ => Parts env s₀)
    · apply Triple.modify
      rintro t ⟨rfl, ht⟩
      exact Parts.quiet ht ⟨rfl, [], (List.append_nil _).symm⟩
    · exact fun _ => .ite (fun _ => parts_returnValueToCaller _) fun _ => .throw

/-! ### Other library calls -/

theorem parts_callNondetInt : Keeps (Parts env s₀) (callNondetInt (recording env)) := by
  unfold callNondetInt
  split
  · exact parts_returnValueToCaller _
  · apply parts_getThread.bind
    intro th
    exact (parts_modifyThread _).bind fun _ => parts_returnValueToCaller _

theorem parts_leaveAtomic (fuel : ℕ) : Keeps (Parts env s₀) (leaveAtomic (recording env) fuel) := by
  induction fuel with
  | zero => exact Keeps.pure
  | succ fuel ih =>
      apply parts_getStack.bind
      intro stack
      apply Keeps.get_bind
      intro s _
      apply Triple.ite
      · exact fun _ => (parts_popStackAndReturnValueToCaller 0).bind fun _ => ih
      · exact fun _ => Keeps.pure

theorem parts_callAssume (args : List Value) :
    Keeps (Parts env s₀) (callAssume (recording env) args) := by
  apply (parts_arg args 0).bind
  intro v
  apply Triple.ite
  · intro _
    apply Keeps.get_bind
    intro s _
    apply Triple.ite
    · exact fun _ => parts_getStack.bind fun _ => parts_leaveAtomic _
    · intro _
      apply Triple.bind (Q := fun _ => Parts env s₀)
      · exact parts_modify_same fun _ => ⟨rfl, rfl⟩
      · exact fun _ => parts_modifyThread _
  · exact fun _ => Keeps.pure

theorem parts_callMCalloc (isCalloc : Bool) (args : List Value) :
    Keeps (Parts env s₀) (callMCalloc (recording env) isCalloc args) := by
  unfold callMCalloc
  refine Keeps.when (parts_report _) fun _ => ?_
  apply Keeps.get_bind
  intro s _
  apply Triple.ite
  · exact fun _ => parts_returnValueToCaller 0
  · intro _
    apply Triple.ite
    · intro _
      apply (parts_arg args 0).bind
      intro count
      apply (parts_arg args 1).bind
      intro size
      apply (parts_allocateHeap _).bind
      intro memory
      apply Triple.bind (Q := fun _ => Parts env s₀)
      · exact parts_modify_same fun _ => ⟨rfl, rfl⟩
      · exact fun _ => parts_returnValueToCaller memory
    · intro _
      apply (parts_arg args 0).bind
      intro size
      exact (parts_allocateHeap size).bind fun memory => parts_returnValueToCaller memory

theorem parts_callFree (args : List Value) :
    Keeps (Parts env s₀) (callFree (recording env) args) := by
  apply (parts_arg args 0).bind
  intro ptr
  apply Triple.ite
  · intro _
    apply Triple.get_bind
    intro s hs
    apply Triple.ite
    · exact fun _ => .throw_bind
    · intro _
      apply Triple.ite
      · exact fun _ => .throw_bind
      · intro _
        apply Triple.ite
        · exact fun _ => .throw_bind
        · intro _
          apply Triple.set
          intro _ _
          exact Parts.quiet hs (.of_same rfl rfl)
  · exact fun _ => Keeps.pure

theorem parts_callAtexit (args : List Value) :
    Keeps (Parts env s₀) (callAtexit (recording env) args) := by
  apply (parts_arg args 0).bind
  intro handler
  apply Triple.ite
  · exact fun _ => .throw_bind
  · intro _
    apply Triple.bind (Q := fun _ => Parts env s₀)
    · exact parts_modify_same fun _ => ⟨rfl, rfl⟩
    · exact fun _ => parts_returnValueToCaller 0

theorem parts_awaitOp (v : Value) : Keeps (Parts env s₀) (awaitOp v) := by
  unfold awaitOp
  split
  · exact Keeps.pure
  · exact .throw

theorem parts_requireNothingStored : Keeps (Parts env s₀) requireNothingStored := by
  apply Keeps.get_bind
  intro s _
  exact .ite (fun _ => .throw) fun _ => Keeps.pure

theorem parts_callLoadAwait (width : Width) (args : List Value) :
    Keeps (Parts env s₀) (callLoadAwait (recording env) width args) := by
  apply (parts_arg args 0).bind
  intro ptr
  apply (parts_arg args 1).bind
  intro v
  apply (parts_awaitOp v).bind
  intro op
  apply (parts_arg args 2).bind
  intro operand
  apply (parts_getSymAddrSize ptr width).bind
  intro ml
  apply (parts_report _).bind
  intro _
  apply parts_requireNothingStored.bind
  intro _
  exact (parts_loadValue ptr ml).bind fun _ => parts_returnValueToCaller _

theorem parts_callXchgAwait (width : Width) (args : List Value) :
    Keeps (Parts env s₀) (callXchgAwait (recording env) width args) := by
  apply (parts_arg args 0).bind
  intro ptr
  apply (parts_arg args 1).bind
  intro new
  apply (parts_arg args 2).bind
  intro v
  apply (parts_awaitOp v).bind
  intro op
  apply (parts_arg args 3).bind
  intro operand
  apply (parts_getSymAddrSize ptr width).bind
  intro ml
  apply parts_requireNothingStored.bind
  intro _
  apply (parts_loadValue ptr ml).bind
  intro old
  apply Triple.ite
  · exact fun _ => .throw_bind
  · intro _
    apply (parts_report _).bind
    intro _
    apply (parts_performStore new ptr width ml).bind
    intro _
    apply Keeps.get_bind
    intro s _
    exact .ite (fun _ => parts_returnValueToCaller _) fun _ => Keeps.pure

theorem parts_callBuiltin (b : Builtin) (args : List Value) :
    Keeps (Parts env s₀) (callBuiltin (recording env) b args) := by
  cases b with
  | pthreadCreate width => exact parts_callPthreadCreate width args
  | pthreadJoin width => exact parts_callPthreadJoin width args
  | pthreadSelf => exact .get_bind fun _ _ => parts_returnValueToCaller _
  | pthreadExit => exact parts_callPthreadExit args
  | pthreadMutexInit => exact parts_callPthreadMutexInit args
  | pthreadMutexLock => exact parts_callPthreadMutexLock args
  | pthreadMutexTrylock => exact parts_callPthreadMutexTryLock args
  | pthreadMutexUnlock => exact parts_callPthreadMutexUnlock args
  | pthreadMutexDestroy => exact parts_callPthreadMutexDestroy args
  | pthreadCondInit => exact parts_callPthreadCond _ _ args
  | pthreadCondSignal => exact parts_callPthreadCond _ _ args
  | pthreadCondBroadcast => exact parts_callPthreadCond _ _ args
  | pthreadCondWait => exact parts_callPthreadCondWait args
  | pthreadCondDestroy => exact parts_callPthreadCondDestroy args
  | malloc => exact parts_callMCalloc false args
  | calloc => exact parts_callMCalloc true args
  | free => exact parts_callFree args
  | atexit => exact parts_callAtexit args
  | nondetInt => exact parts_callNondetInt
  | assume => exact parts_callAssume args
  | assertFail => exact .throw
  | loadAwait width => exact parts_callLoadAwait width args
  | xchgAwait width => exact parts_callXchgAwait width args

theorem parts_callFunction (f : Ptr) (args : List Value) :
    Keeps (Parts env s₀) (callFunction (recording env) f args) := by
  unfold callFunction
  split
  · exact parts_callBuiltin _ args
  · exact parts_callProgramFunction f _ args
  · exact .throw

end Nidhugg.Interpreter
