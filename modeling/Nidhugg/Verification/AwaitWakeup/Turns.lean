import Nidhugg.Verification.AwaitWakeup.Calls

/-! # Turns of the interpreter consist of parts -/

namespace Nidhugg.Interpreter

open Hoare

variable {β : Type} {env : Env β} {s₀ s t : Recorded β}

/-! ### Instructions -/

theorem parts_visitAnyCallInst (caller : Caller) (callee : CalledOperand) (args : List Operand) :
    Keeps (Parts env s₀) (visitAnyCallInst (recording env) caller callee args) := by
  have hcallee : Keeps (Parts env s₀) (getCalledFunction (recording env) callee) := by
    cases callee with
    | direct f => exact Keeps.pure
    | indirect op =>
        apply (parts_getOperandValue op).bind
        intro f
        exact .ite (fun _ => .throw) fun _ => Keeps.pure
  apply hcallee.bind
  intro f
  apply (parts_modifyTop _).bind
  intro _
  apply (parts_getOperandValues args).bind
  exact fun values => parts_callFunction f values

theorem parts_visitAllocaInst (dst : Reg) (numElements : Operand) (typeSize : ℕ) :
    Keeps (Parts env s₀) (visitAllocaInst (recording env) dst numElements typeSize) := by
  apply (parts_getOperandValue numElements).bind
  intro n
  apply Keeps.get_bind
  intro s _
  apply (parts_setValue dst _).bind
  exact fun _ => parts_modify_same fun _ => ⟨rfl, rfl⟩

theorem parts_visitLoadInst (dst : Reg) (ptr : Operand) (width : Width) (plain : Bool) :
    Keeps (Parts env s₀) (visitLoadInst (recording env) dst ptr width plain) := by
  apply (parts_getOperandValue ptr).bind
  intro p
  apply (parts_getSymAddrSize p width).bind
  intro ml
  refine Keeps.when (parts_report _) fun _ => ?_
  exact (parts_loadValue p ml).bind fun v => parts_setValue dst _

theorem parts_visitStoreInst (val ptr : Operand) (width : Width) (plain : Bool) :
    Keeps (Parts env s₀) (visitStoreInst (recording env) val ptr width plain) := by
  apply (parts_getOperandValue val).bind
  intro v
  apply (parts_getOperandValue ptr).bind
  intro p
  apply (parts_getSymAddrSize p width).bind
  intro ml
  exact Keeps.when (parts_report _) fun _ => parts_performStore v p width ml

theorem parts_visitAtomicCmpXchgInst (dst success : Reg) (ptr cmp new : Operand) (width : Width) :
    Keeps (Parts env s₀)
      (visitAtomicCmpXchgInst (recording env) dst success ptr cmp new width) := by
  apply (parts_getOperandValue cmp).bind
  intro cmpVal
  apply (parts_getOperandValue new).bind
  intro newVal
  apply (parts_getOperandValue ptr).bind
  intro p
  apply (parts_getSymAddrSize p width).bind
  intro ml
  apply (parts_loadValue p ml).bind
  intro old
  apply (parts_report _).bind
  intro _
  apply (parts_setValue dst _).bind
  intro _
  apply (parts_setValue success _).bind
  intro _
  apply Triple.ite
  · exact fun _ => parts_performStore newVal p width ml
  · exact fun _ => Keeps.pure

theorem parts_visitAtomicRMWInst (dst : Reg) (kind : RmwKind) (ptr val : Operand) (width : Width)
    (resultUsed : Bool) : Keeps (Parts env s₀)
      (visitAtomicRMWInst (recording env) dst kind ptr val width resultUsed) := by
  apply (parts_getOperandValue ptr).bind
  intro p
  apply (parts_getOperandValue val).bind
  intro v
  apply (parts_getSymAddrSize p width).bind
  intro ml
  apply (parts_loadValue p ml).bind
  intro old
  apply (parts_setValue dst _).bind
  intro _
  apply (parts_report _).bind
  exact fun _ => parts_performStore _ p width ml

theorem parts_visit (i : Instruction) : Keeps (Parts env s₀) (visit (recording env) i) := by
  cases i with
  | compute dst operands f =>
      exact (parts_getOperandValues operands).bind fun _ => parts_setValue dst _
  | alloca dst numElements typeSize => exact parts_visitAllocaInst dst numElements typeSize
  | load dst ptr width plain => exact parts_visitLoadInst dst ptr width plain
  | store val ptr width plain => exact parts_visitStoreInst val ptr width plain
  | cmpxchg dst success ptr cmp new width =>
      exact parts_visitAtomicCmpXchgInst dst success ptr cmp new width
  | atomicrmw dst kind ptr val width resultUsed =>
      exact parts_visitAtomicRMWInst dst kind ptr val width resultUsed
  | call dst callee args => exact parts_visitAnyCallInst _ callee args
  | invoke dst callee args normalDest => exact parts_visitAnyCallInst _ callee args
  | br dest => exact parts_switchToNewBasicBlock dest
  | condBr cond ifTrue ifFalse =>
      apply (parts_getOperandValue cond).bind
      intro v
      exact (parts_report _).bind fun _ => parts_switchToNewBasicBlock _
  | switch cond cases default =>
      exact (parts_getOperandValue cond).bind fun _ => parts_switchToNewBasicBlock _
  | ret val =>
      apply Triple.bind (Q := fun _ => Parts env s₀)
      · cases val with
        | none => exact Keeps.pure
        | some op => exact parts_getOperandValue op
      · exact fun v => parts_popStackAndReturnValueToCaller v
  | unreachable => exact .throw

/-! ### Refusals -/

theorem parts_refuseSchedule : Keeps (Parts env s₀) (refuseSchedule (recording env)) := by
  apply Keeps.get_bind
  intro s _
  exact .ite (fun _ => .throw_bind) fun _ => parts_notify _

theorem parts_refuseJoin (tid : ℕ) : Keeps (Parts env s₀) (refuseJoin (recording env) tid) := by
  apply Keeps.get_bind
  intro s _
  cases s.threads[tid]? with
  | none => exact Keeps.pure
  | some th =>
      apply Triple.ite
      · intro _
        apply parts_refuseSchedule.bind
        intro _
        apply Triple.bind (Q := fun _ => Parts env s₀)
        · exact parts_modify_same fun _ => ⟨rfl, rfl⟩
        · exact fun _ => Keeps.pure
      · exact fun _ => Keeps.pure

theorem parts_refuseLock (lck : Ptr) : Keeps (Parts env s₀) (refuseLock (recording env) lck) := by
  apply Keeps.get_bind
  intro s _
  split
  · apply Triple.ite
    · intro _
      apply Triple.ite
      · exact fun _ => .throw_bind
      · intro _
        apply (parts_report _).bind
        intro _
        apply parts_refuseSchedule.bind
        intro _
        exact (parts_setMutex lck _).bind fun _ => Keeps.pure
    · exact fun _ => Keeps.pure
  · exact Keeps.pure

theorem report_eq_ok {c : Callback} {a : Unit} (h : report (recording env) c s = .ok (a, t)) :
    ∃ b, t = { s with builder := (s.builder.1 ++ [c], b) } := by
  obtain ⟨_, _, hget, h⟩ := bind_eq_ok.mp h
  cases hget
  obtain ⟨_, u, hnotify, h⟩ := bind_eq_ok.mp h
  cases hnotify
  split at h
  · exact (throw_ne_ok h).elim
  · cases h
    exact ⟨_, rfl⟩

theorem refuseSchedule_eq_ok {a : Unit}
    (h : refuseSchedule (recording env) s = .ok (a, t)) :
    ∃ b, t = { s with builder := (s.builder.1 ++ [.refuseSchedule], b) } := by
  obtain ⟨_, _, hget, h⟩ := bind_eq_ok.mp h
  cases hget
  split at h
  · obtain ⟨_, _, hthrow, _⟩ := bind_eq_ok.mp h
    exact (throw_ne_ok hthrow).elim
  · cases h
    exact ⟨_, rfl⟩

/-- A refused await is entered in `blocking_awaits`, and its condition does not hold. -/
structure Refused (s t : Recorded β) (ptr : Ptr) (ml : SymAddrSize) (cond : AwaitCond)
    (holds : Bool) : Prop where
  addr : tryGetSymAddr s ptr = some ml.addr
  not_holds : holds = false
  memory : t.memory = s.memory
  record : ∃ new, t.builder.1 = s.builder.1 ++ new
  blockingAwaits : t.blockingAwaits = emplaceAwait (ml, s.currentThread, cond) s.blockingAwaits

/-- An await is refused if it is at a known address. -/
theorem refuseAwait_eq_ok {ptr : Ptr} {width : Width} {cond : AwaitCond}
    {event : AccessRange → Callback} {refused : Bool}
    (h : refuseAwait (recording env) ptr width cond event s = .ok (refused, t)) :
    (refused = false ∧ t = s) ∨ (refused = true ∧ ∃ addr, Refused s t ptr ⟨addr, width.1⟩ cond
      (cond.satisfiedBy env (readBytes s.memory ptr width.1))) := by
  obtain ⟨_, _, hget, h⟩ := bind_eq_ok.mp h
  cases hget
  cases haddr : tryGetSymAddr s ptr with
  | none =>
      rw [haddr] at h
      obtain ⟨hrefused, hs⟩ := pure_eq_ok.mp h
      exact .inl ⟨hrefused.symm, hs.symm⟩
  | some addr =>
      rw [haddr] at h
      obtain ⟨_, u, hnothing, h⟩ := bind_eq_ok.mp h
      obtain rfl : u = s := by
        obtain ⟨_, _, hget, hnothing⟩ := bind_eq_ok.mp hnothing
        cases hget
        split at hnothing
        · exact (throw_ne_ok hnothing).elim
        · exact (pure_eq_ok.mp hnothing).2.symm
      split at h
      · obtain ⟨hrefused, hs⟩ := pure_eq_ok.mp h
        exact .inl ⟨hrefused.symm, hs.symm⟩
      · rename_i hcond
        split at h
        · obtain ⟨_, _, hthrow, _⟩ := bind_eq_ok.mp h
          exact (throw_ne_ok hthrow).elim
        · obtain ⟨_, v, hreport, h⟩ := bind_eq_ok.mp h
          obtain ⟨b, rfl⟩ := report_eq_ok hreport
          obtain ⟨_, w, hrefuse, h⟩ := bind_eq_ok.mp h
          obtain ⟨b', rfl⟩ := refuseSchedule_eq_ok hrefuse
          cases h
          exact .inr ⟨rfl, addr, haddr, Bool.eq_false_iff.mpr hcond, rfl,
            ⟨_, List.append_assoc _ _ _⟩, rfl⟩

theorem parts_refuseAwait (ptr : Ptr) (width : Width) (cond : AwaitCond)
    (event : AccessRange → Callback) :
    Keeps (Parts env s₀) (refuseAwait (recording env) ptr width cond event) := by
  constructor
  intro s refused t hs hat
  rcases refuseAwait_eq_ok hat with ⟨_, rfl⟩ | ⟨rfl, addr, hrefused⟩
  · exact hs
  · exact hs.tail ⟨_, .refuse hrefused.addr hat⟩

theorem parts_checkRefuse (i : Instruction) :
    Keeps (Parts env s₀) (checkRefuse (recording env) i) := by
  have hjoin : ∀ call, Keeps (Parts env s₀) (checkRefuseJoin (recording env) call) := by
    intro call
    unfold checkRefuseJoin
    split
    · exact (parts_getOperandValue _).bind fun _ => parts_refuseJoin _
    · exact Keeps.pure
  have hlock : ∀ call, Keeps (Parts env s₀) (checkRefuseLock (recording env) call) := by
    intro call
    apply parts_getThread.bind
    intro th
    apply Triple.ite
    · exact fun _ => parts_refuseLock _
    · intro _
      split
      · exact (parts_getOperandValue _).bind fun _ => parts_refuseLock _
      · exact Keeps.pure
  have hawait : ∀ call, Keeps (Parts env s₀) (checkRefuseAwait (recording env) call) := by
    intro call
    unfold checkRefuseAwait
    split
    · apply (parts_getOperandValue _).bind
      intro p
      apply (parts_getOperandValue _).bind
      intro v
      apply (parts_awaitOp v).bind
      intro op
      exact (parts_getOperandValue _).bind fun _ => parts_refuseAwait _ _ _ _
    · apply (parts_getOperandValue _).bind
      intro p
      apply (parts_getOperandValue _).bind
      intro v
      apply (parts_awaitOp v).bind
      intro op
      apply (parts_getOperandValue _).bind
      intro operand
      exact (parts_getOperandValue _).bind fun _ => parts_refuseAwait _ _ _ _
    · exact Keeps.pure
  apply (hjoin _).bind
  intro joins
  apply Triple.ite
  · exact fun _ => Keeps.pure
  · intro _
    apply (hlock _).bind
    intro locks
    apply Triple.ite
    · exact fun _ => Keeps.pure
    · exact fun _ => .ite (fun _ => Keeps.pure) fun _ => hawait _

/-! ### The loop -/

theorem parts_fetch : Keeps (Parts env s₀) (fetch (recording env)) := by
  apply parts_topFrame.bind
  intro sf
  apply (parts_getBlock _ _).bind
  intro b
  split
  · exact (parts_modifyTop _).bind fun _ => Keeps.pure
  · exact .throw

theorem parts_awake : Keeps (Parts env s₀) (awake (recording env)) := by
  apply parts_getThread.bind
  intro th
  apply Triple.ite
  · intro _
    apply (parts_doPthreadCondAwake _ _).bind
    intro _
    apply Keeps.get_bind
    intro s _
    exact .ite (fun _ => parts_modifyThread _) fun _ => Keeps.pure
  · exact fun _ => Keeps.pure

theorem parts_runAtomic (fuel : ℕ) : Keeps (Parts env s₀) (runAtomic (recording env) fuel) := by
  induction fuel with
  | zero => exact .throw
  | succ fuel ih =>
      apply parts_getStack.bind
      intro stack
      apply Keeps.get_bind
      intro s _
      apply Triple.ite
      · intro _
        apply parts_fetch.bind
        intro i
        exact (parts_visit i).bind fun _ => ih
      · exact fun _ => Keeps.pure

theorem parts_reap : Keeps (Parts env s₀) (reap (recording env)) := by
  apply Keeps.get_bind
  intro s _
  apply parts_getStack.bind
  intro stack
  apply Triple.ite
  · intro _
    split
    · apply (parts_callFunction _ _).bind
      intro _
      exact parts_modify_same fun _ => ⟨rfl, rfl⟩
    · exact parts_notify _
  · exact fun _ => Keeps.pure

theorem parts_execute (fuel : ℕ) (i : Instruction) :
    Keeps (Parts env s₀) (execute (recording env) fuel i) := by
  apply (parts_visit i).bind
  intro _
  apply Keeps.get_bind
  intro s _
  apply Triple.ite
  · intro _
    apply (parts_runAtomic fuel).bind
    intro _
    apply Triple.bind (Q := fun _ => Parts env s₀)
    · exact parts_modify_same fun _ => ⟨rfl, rfl⟩
    · exact fun _ => parts_reap
  · exact fun _ => parts_reap

theorem parts_prepare (i : Instruction) : Keeps (Parts env s₀) (prepare (recording env) i) := by
  apply (parts_checkRefuse i).bind
  intro refused
  apply Triple.ite
  · exact fun _ => Keeps.pure
  · intro _
    apply parts_awake.bind
    intro _
    apply (parts_notify _).bind
    intro _
    apply Keeps.get_bind
    intro s _
    exact .ite (fun _ => .throw_bind) fun _ => Keeps.pure

theorem parts_backUp : Keeps (Parts env s₀) backUp := parts_modifyTop _

theorem parts_step (fuel : ℕ) : Keeps (Parts env s₀) (step (recording env) fuel) := by
  apply parts_fetch.bind
  intro i
  apply (parts_prepare i).bind
  intro ready
  apply Triple.ite
  · intro _
    apply (parts_execute fuel i).bind
    intro _
    apply Keeps.get_bind
    intro s _
    apply Triple.ite
    · intro _
      apply parts_backUp.bind
      intro _
      exact parts_modify_same fun _ => ⟨rfl, rfl⟩
    · exact fun _ => Keeps.pure
  · exact fun _ => parts_backUp

end Nidhugg.Interpreter
