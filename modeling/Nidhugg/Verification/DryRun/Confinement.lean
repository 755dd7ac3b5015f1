import Nidhugg.Library.Hoare
import Nidhugg.Model.Interpreter

/-! # What a dry run may touch

A dry run starts at an instruction of the top frame of a thread. It may notify the trace builder,
collect stores, push frames and pop them again, and set the results of the instruction. The
operations that do nothing else are confined. -/

namespace Nidhugg.Interpreter

open Hoare

variable {β : Type} {env : Env β}

/-- The state without the trace builder, the collected stores, the nesting of atomic functions and
the stack of the current thread. -/
def context (s : State β) : State Unit where
  memory := s.memory
  allocatedMem := s.allocatedMem
  allocatedMemHeap := s.allocatedMemHeap
  allocatedMemStack := s.allocatedMemStack
  heapAllocCount := s.heapAllocCount
  stackAllocCount := s.stackAllocCount
  freedMem := s.freedMem
  atExitHandlers := s.atExitHandlers
  pthreadMutexes := s.pthreadMutexes
  blockingAwaits := s.blockingAwaits
  threads := s.threads.modify s.currentThread fun th => { th with ecStack := [] }
  currentThread := s.currentThread
  currentAlt := s.currentAlt
  dryRun := s.dryRun
  dryRunMem := []
  atomicFunctionCall := none
  assumeBlocked := s.assumeBlocked
  builder := ()

/-- The memory of the thread local variables of the current thread. -/
def threadLocals (s : State β) (name : ℕ) : Option Value :=
  s.threads[s.currentThread]?.bind fun th => th.threadLocalValues name

theorem threadLocals_context (s : State β) : threadLocals (context s) = threadLocals s := by
  funext name
  simp only [threadLocals, context, List.getElem?_modify_eq]
  cases s.threads[s.currentThread]? with
  | none => rfl
  | some th => rfl

/-- Where a dry run starts: the top frame with its instruction taken, the frames below it, the
results of the instruction, and the call that the instruction makes. -/
structure Base where
  context : State Unit
  frame : ExecutionContext
  below : List ExecutionContext
  results : List Reg
  caller : Option Caller

namespace Base

def depth (b : Base) : ℕ := b.below.length + 1

/-- The top frame but for the results and the running call. -/
structure Matches (b : Base) (sf : ExecutionContext) : Prop where
  curFunction : sf.curFunction = b.frame.curFunction
  curBB : sf.curBB = b.frame.curBB
  curInst : sf.curInst = b.frame.curInst
  values : ∀ r ∉ b.results, sf.values r = b.frame.values r
  caller : sf.caller = none ∨ sf.caller = b.caller

/-- The call returns to the same place, with its result. -/
class Returns (b : Base) : Prop where
  normalDest : ∀ c ∈ b.caller, c.normalDest = none
  dst : ∀ c ∈ b.caller, ∀ r ∈ c.dst, r ∈ b.results

/-- The same start with another call. -/
def calling (b : Base) (caller : Option Caller) : Base := { b with caller := caller }

end Base

/-- The state of a dry run that has `n` frames above the one where it started. -/
structure Confined (b : Base) (n : ℕ) (a : Option ℕ) (s : State β) : Prop where
  context : context s = b.context
  dryRun : s.dryRun = true
  atomic : s.atomicFunctionCall = a
  stack : ∃ th inner sf, s.threads[s.currentThread]? = some th ∧
    th.ecStack = inner ++ sf :: b.below ∧ inner.length = n ∧ b.Matches sf

variable {b : Base} {n : ℕ} {a : Option ℕ} {s : State β}

theorem Confined.threadLocals_eq (h : Confined b n a s) :
    threadLocals s = threadLocals b.context := by
  rw [← h.context, threadLocals_context]

/-- Fields outside of the context may change. -/
theorem Confined.of_context {a' : Option ℕ} {t : State β} (h : Confined b n a s)
    (hcontext : Interpreter.context t = Interpreter.context s)
    (hthread : t.threads[t.currentThread]? = s.threads[s.currentThread]?)
    (ha : t.atomicFunctionCall = a') : Confined b n a' t := by
  have hdry : (Interpreter.context t).dryRun = (Interpreter.context s).dryRun := by rw [hcontext]
  exact ⟨hcontext.trans h.context, hdry.trans h.dryRun, ha, hthread ▸ h.stack⟩

/-- The stack may change above the frame where the dry run started, and there the call. -/
theorem Confined.setStack {b' : Base} {n' : ℕ} (h : Confined b n a s)
    (hcontext : b'.context = b.context) {inner : List ExecutionContext} {sf : ExecutionContext}
    (hn : inner.length = n') (hsf : b'.Matches sf) :
    Confined b' n' a { s with threads := s.threads.modify s.currentThread fun th =>
      { th with ecStack := inner ++ sf :: b'.below } } := by
  obtain ⟨th, _, _, hth, _⟩ := h.stack
  refine ⟨?_, h.dryRun, h.atomic, ⟨{ th with ecStack := inner ++ sf :: b'.below }, inner, sf, ?_⟩⟩
  · rw [hcontext, ← h.context]
    simp only [Interpreter.context, List.modify_modify_eq, State.mk.injEq]
    simp [Function.comp_def]
  · simp [hth, hn, hsf]

/-! ### Notifications and reads -/

theorem keeps_setBuilder (f : State β → β) : Keeps (Confined b n a)
    (modify fun s => { s with builder := f s } : Action β Unit) :=
  .modify fun s hs => hs.of_context (t := { s with builder := f s }) rfl rfl hs.atomic

theorem keeps_notify (c : Callback) : Keeps (Confined b n a) (notify env c) :=
  keeps_setBuilder fun s => (env.reply c s.builder).2

theorem keeps_report (c : Callback) : Keeps (Confined b n a) (report env c) := by
  apply Keeps.get_bind
  intro s _
  apply (keeps_notify c).bind
  intro _
  exact .ite (fun _ => .throw) fun _ => Keeps.pure

theorem keeps_getSymAddr (ptr : Ptr) : Keeps (Confined (β := β) b n a) (getSymAddr ptr) := by
  apply Keeps.get_bind
  intro s _
  cases tryGetSymAddr s ptr with
  | some addr => exact Keeps.pure
  | none => exact .ite (fun _ => .throw) fun _ => .throw

theorem keeps_getSymAddrSize (ptr : Ptr) (width : Width) :
    Keeps (Confined (β := β) b n a) (getSymAddrSize ptr width) :=
  (keeps_getSymAddr ptr).bind fun _ => Keeps.pure

theorem keeps_loadValue (ptr : Ptr) (ml : AccessRange) :
    Keeps (Confined (β := β) b n a) (loadValue ptr ml) :=
  .get_bind fun _ _ => Keeps.pure

theorem triple_arg {P : State β → Prop} (args : List Value) (i : ℕ) :
    Triple P (arg args i) fun v s => P s ∧ args[i]? = some v := by
  unfold arg
  cases args[i]? with
  | some v => exact .pure fun s hs => ⟨hs, rfl⟩
  | none => exact .throw

theorem keeps_arg (args : List Value) (i : ℕ) : Keeps (Confined (β := β) b n a) (arg args i) := by
  exact (triple_arg args i).conseq (fun _ hs => hs) fun _ _ hs => hs.1

/-! ### The stack -/

/-- A stack of a dry run with `n` frames above the one where it started. -/
def OnBase (b : Base) (n : ℕ) (stack : List ExecutionContext) : Prop :=
  ∃ inner sf, stack = inner ++ sf :: b.below ∧ inner.length = n ∧ b.Matches sf

theorem OnBase.length_eq {stack : List ExecutionContext} (h : OnBase b n stack) :
    stack.length = n + b.depth := by
  obtain ⟨inner, sf, rfl, rfl, _⟩ := h
  simp [Base.depth]

theorem OnBase.tail {stack : List ExecutionContext} (h : OnBase b (n + 1) stack) :
    OnBase b n stack.tail := by
  obtain ⟨inner, sf, rfl, hn, hsf⟩ := h
  cases inner with
  | nil => simp at hn
  | cons x inner => exact ⟨inner, sf, rfl, by simpa using hn, hsf⟩

theorem OnBase.cons {stack : List ExecutionContext} (h : OnBase b n stack)
    (x : ExecutionContext) : OnBase b (n + 1) (x :: stack) := by
  obtain ⟨inner, sf, rfl, hn, hsf⟩ := h
  exact ⟨x :: inner, sf, rfl, by simp [hn], hsf⟩

theorem triple_getThread : Triple (Confined (β := β) b n a) getThread
    fun th s => Confined b n a s ∧ s.threads[s.currentThread]? = some th := by
  apply Triple.get_bind
  intro s hs
  cases hth : s.threads[s.currentThread]? with
  | none => exact .throw
  | some th =>
      apply Triple.pure
      rintro t ⟨rfl, _⟩
      exact ⟨hs, hth⟩

theorem triple_getStack : Triple (Confined (β := β) b n a) getStack
    fun stack s => Confined b n a s ∧ OnBase b n stack := by
  apply triple_getThread.bind
  intro th
  apply Triple.pure
  intro s hs
  obtain ⟨th', inner, sf, hth', hstack, hn, hsf⟩ := hs.1.stack
  obtain rfl : th = th' := Option.some.inj (hs.2.symm.trans hth')
  exact ⟨hs.1, inner, sf, hstack, hn, hsf⟩

theorem keeps_topFrame {P : State β → Prop} : Keeps P topFrame := by
  have hthread : Keeps P getThread := by
    apply Keeps.get_bind
    intro s _
    cases s.threads[s.currentThread]? with
    | none => exact Keeps.throw
    | some th => exact Keeps.pure
  have hstack : Keeps P getStack := hthread.bind fun _ => Keeps.pure
  apply hstack.bind
  intro stack
  cases stack with
  | nil => exact Keeps.throw
  | cons sf rest => exact Keeps.pure

theorem triple_setStack {n' : ℕ} {stack : List ExecutionContext} (h : OnBase b n' stack) :
    Triple (Confined (β := β) b n a) (setStack stack) fun _ => Confined b n' a := by
  obtain ⟨inner, sf, rfl, hn, hsf⟩ := h
  apply Triple.modify
  intro s hs
  exact hs.setStack rfl hn hsf

theorem triple_topFrame : Triple (Confined (β := β) b n a) topFrame
    fun sf s => Confined b n a s ∧ (n = 0 → b.Matches sf) := by
  apply triple_getStack.bind
  intro stack
  apply Triple.assuming
  rintro ⟨inner, sf, rfl, rfl, hsf⟩
  cases inner with
  | nil => exact .pure fun s hs => ⟨hs, fun _ => hsf⟩
  | cons x inner => exact .pure fun s hs => ⟨hs, by simp⟩

/-- The top frame may change. In the frame where the dry run started this is limited. -/
theorem keeps_modifyTop {f : ExecutionContext → ExecutionContext}
    (hf : n = 0 → ∀ sf, b.Matches sf → b.Matches (f sf)) :
    Keeps (Confined (β := β) b n a) (modifyTop f) := by
  apply triple_getStack.bind
  intro stack
  apply Triple.assuming
  rintro ⟨inner, sf, rfl, rfl, hsf⟩
  cases inner with
  | nil => exact triple_setStack ⟨[], f sf, rfl, rfl, hf rfl sf hsf⟩
  | cons x inner => exact triple_setStack ⟨f x :: inner, sf, rfl, rfl, hsf⟩

theorem Base.Matches.setValue {sf : ExecutionContext} (h : b.Matches sf) {r : Reg}
    (hr : r ∈ b.results) (v : Value) :
    b.Matches { sf with values := Function.update sf.values r v } := by
  refine { h with values := ?_ }
  intro r' hr'
  have hne : r' ≠ r := by
    rintro rfl
    exact hr' hr
  exact (Function.update_of_ne hne v sf.values).trans (h.values r' hr')

theorem Base.Matches.clearCaller {sf : ExecutionContext} (h : b.Matches sf) :
    b.Matches { sf with caller := none } :=
  { h with caller := .inl rfl }

theorem keeps_setValue {r : Reg} (hr : n = 0 → r ∈ b.results) (v : Value) :
    Keeps (Confined (β := β) b n a) (setValue r v) :=
  keeps_modifyTop fun hn _ hsf => hsf.setValue (hr hn) v

theorem keeps_getBlock {P : State β → Prop} (f : Ptr) (bb : ℕ) :
    Keeps P (getBlock env f bb) := by
  have hfunction : Keeps P (getFunction env f) := by
    unfold getFunction
    split
    · exact Keeps.pure
    · exact .throw
  apply hfunction.bind
  intro g
  cases g.blocks.bind fun bs => bs[bb]? with
  | none => exact .throw
  | some _ => exact Keeps.pure

theorem keeps_switchToNewBasicBlock (hn : 0 < n) (dest : ℕ) :
    Keeps (Confined b n a) (switchToNewBasicBlock env dest) := by
  apply keeps_topFrame.bind
  intro sf
  apply (keeps_getBlock _ _).bind
  intro blk
  cases blk.phis.mapM fun phi => (phi.incoming.lookup sf.curBB).map (·.elim id sf.values) with
  | none => exact .throw
  | some values => exact keeps_modifyTop fun h => absurd h (Nat.ne_of_gt hn)

theorem keeps_returnValueToCaller [hreturns : b.Returns] (v : Value) :
    Keeps (Confined b n a) (returnValueToCaller env v) := by
  apply triple_topFrame.bind
  intro sf
  apply Triple.assuming
  intro hsf
  cases hcaller : sf.caller with
  | none => exact Keeps.pure
  | some c =>
      have hbase : n = 0 → b.caller = some c := by
        intro hn
        simpa [hcaller, eq_comm] using (hsf hn).caller
      have hdst : Keeps (Confined (β := β) b n a) (c.dst.forM fun r => setValue r v) := by
        cases hr : c.dst with
        | none => exact Keeps.pure
        | some r => exact keeps_setValue (fun hn => hreturns.dst c (hbase hn) r hr) v
      have hnormal :
          Keeps (Confined b n a) (c.normalDest.forM (switchToNewBasicBlock env)) := by
        cases hdest : c.normalDest with
        | none => exact Keeps.pure
        | some dest =>
            apply keeps_switchToNewBasicBlock
            apply Nat.pos_of_ne_zero
            intro hn
            simpa [hdest] using hreturns.normalDest c (hbase hn)
      apply hdst.bind
      intro _
      apply hnormal.bind
      intro _
      exact keeps_modifyTop fun _ sf hsf => hsf.clearCaller

theorem triple_popStackAndReturnValueToCaller [b.Returns] (v : Value) :
    Triple (Confined b (n + 1) a) (popStackAndReturnValueToCaller env v)
      fun _ => Confined b n a := by
  apply triple_getStack.bind
  intro stack
  apply Triple.assuming
  intro hstack
  have htail := hstack.tail
  match stack, hstack.length_eq, htail with
  | [], hlength, _ => simp [Base.depth] at hlength
  | [_], hlength, _ => simp [Base.depth] at hlength; omega
  | _ :: x :: rest, _, htail =>
      apply (triple_setStack htail).bind
      intro _
      exact keeps_returnValueToCaller v

/-! ### Operands and stores -/

/-- Whether reading the operand needs no memory. -/
def initialised (s : State β) : Operand → Bool
  | .threadLocal g => (threadLocals s g.name).isSome
  | _ => true

/-- The value of an operand in the current thread. -/
def operand? (s : State β) (op : Operand) : Option Value :=
  s.threads[s.currentThread]?.bind fun th => operandValue? th op

theorem getThread_eq_ok {th : Thread} {t : State β} :
    getThread s = .ok (th, t) ↔ s.threads[s.currentThread]? = some th ∧ s = t := by
  have hget : getThread s = s.threads[s.currentThread]?.elim (throw Failure.fault)
      (pure : Thread → Action β Thread) s := by
    simp only [getThread, bind, StateT.bind, get, getThe, MonadStateOf.get, StateT.get, pure,
      Except.pure, Except.bind]
    cases s.threads[s.currentThread]? with
    | none => rfl
    | some th' => rfl
  rw [hget]
  cases s.threads[s.currentThread]? with
  | none => simpa using throw_ne_ok
  | some th' => simp [pure_eq_ok]

theorem getStack_eq_ok {stack : List ExecutionContext} {t : State β}
    (h : getStack s = .ok (stack, t)) :
    ∃ th, s.threads[s.currentThread]? = some th ∧ th.ecStack = stack ∧ s = t := by
  obtain ⟨th, s', hget, h⟩ := bind_eq_ok.mp h
  obtain ⟨hth, rfl⟩ := getThread_eq_ok.mp hget
  obtain ⟨rfl, rfl⟩ := pure_eq_ok.mp h
  exact ⟨th, hth, rfl, rfl⟩

theorem modifyTop_eq_ok {f : ExecutionContext → ExecutionContext} {u : Unit} {t : State β}
    (h : modifyTop f s = .ok (u, t)) : ∃ th sf rest, s.threads[s.currentThread]? = some th ∧
      th.ecStack = sf :: rest ∧ t = { s with threads := s.threads.modify s.currentThread fun th =>
        { th with ecStack := f sf :: rest } } := by
  obtain ⟨stack, s', hstack, h⟩ := bind_eq_ok.mp h
  obtain ⟨th, hth, rfl, rfl⟩ := getStack_eq_ok hstack
  cases hstack : th.ecStack with
  | nil =>
      rw [hstack] at h
      exact (throw_ne_ok h).elim
  | cons sf rest =>
      rw [hstack] at h
      exact ⟨th, sf, rest, hth, hstack, (Prod.mk.inj (Except.ok.inj h)).2.symm⟩

/-- Operands do not depend on the other parts of the top frame. -/
theorem keeps_operand_modifyTop {f : ExecutionContext → ExecutionContext}
    (hf : ∀ sf, (f sf).values = sf.values) (e : Operand → Option Value) :
    Keeps (fun s : State β => operand? s = e) (modifyTop f) := by
  constructor
  rintro s _ t rfl ht
  obtain ⟨th, sf, rest, hth, hstack, rfl⟩ := modifyTop_eq_ok ht
  funext op
  cases op <;> simp [operand?, hth, operandValue?, hstack, hf]

theorem triple_getOperandValue {op : Operand} (hop : initialised b.context op = true)
    (e : Operand → Option Value) :
    Triple (fun s => Confined b n a s ∧ operand? s = e) (getOperandValue env op)
      fun v s => (Confined b n a s ∧ operand? s = e) ∧ e op = some v := by
  constructor
  rintro s v t ⟨hs, rfl⟩ ht
  obtain ⟨th, s', hget, ht⟩ := bind_eq_ok.mp ht
  obtain ⟨hth, rfl⟩ := getThread_eq_ok.mp hget
  cases hv : operandValue? th op with
  | some w =>
      simp only [hv] at ht
      obtain ⟨rfl, rfl⟩ := pure_eq_ok.mp ht
      exact ⟨⟨hs, rfl⟩, by simp [operand?, hth, hv]⟩
  | none =>
      cases op with
      | constant w => simp [operandValue?] at hv
      | register r =>
          simp only [hv] at ht
          exact (throw_ne_ok ht).elim
      | threadLocal g =>
          have hlocals := congrFun hs.threadLocals_eq g.name
          rw [initialised, ← hlocals, threadLocals, hth] at hop
          simp only [operandValue?] at hv
          simp [hv] at hop

theorem keeps_getOperandValue {op : Operand} (hop : initialised b.context op = true) :
    Keeps (Confined b n a) (getOperandValue env op) := by
  apply Triple.of_forall
  intro s hs
  apply (triple_getOperandValue hop (operand? s)).conseq
  · rintro t rfl
    exact ⟨hs, rfl⟩
  · exact fun _ _ ht => ht.1.1

theorem triple_getOperandValues {ops : List Operand}
    (hops : ∀ op ∈ ops, initialised b.context op = true) (e : Operand → Option Value) :
    Triple (fun s => Confined b n a s ∧ operand? s = e) (getOperandValues env ops)
      fun vs s => (Confined b n a s ∧ operand? s = e) ∧ ops.mapM e = some vs := by
  unfold getOperandValues
  induction ops with
  | nil => exact .pure fun s hs => ⟨hs, rfl⟩
  | cons op ops ih =>
      rw [List.mapM_cons]
      apply (triple_getOperandValue (hops op List.mem_cons_self) e).bind
      intro v
      apply Triple.assuming
      intro hv
      apply (ih fun op hop => hops op (List.mem_cons_of_mem _ hop)).bind
      intro vs
      apply Triple.assuming
      intro hvs
      exact .pure fun s hs => ⟨hs, by simp [List.mapM_cons, hv, hvs]⟩

theorem keeps_getOperandValues {ops : List Operand}
    (hops : ∀ op ∈ ops, initialised b.context op = true) :
    Keeps (Confined b n a) (getOperandValues env ops) := by
  apply Triple.of_forall
  intro s hs
  apply (triple_getOperandValues hops (operand? s)).conseq
  · rintro t rfl
    exact ⟨hs, rfl⟩
  · exact fun _ _ ht => ht.1.1

theorem keeps_performStore (v : Value) (ptr : Ptr) (width : Width) (ml : AccessRange) :
    Keeps (Confined b n a) (performStore env v ptr width ml) := by
  apply Keeps.get_bind
  intro s hs
  rw [if_pos hs.dryRun]
  apply Keeps.modify
  intro s hs
  exact hs.of_context (t := { s with dryRunMem := s.dryRunMem ++ [getSymData env ml v] }) rfl rfl
    hs.atomic

end Nidhugg.Interpreter
