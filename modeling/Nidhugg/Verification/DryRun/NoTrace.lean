import Nidhugg.Verification.DryRun.Steps

/-! # Dry runs leave no trace

A scheduling step in dry run mode. If it only visits quiet instructions, memory, allocations,
mutexes, handlers, random engines and all stacks are afterwards what they were. -/

namespace Nidhugg.Interpreter

open Hoare

variable {β : Type} {env : Env β} {b : Base} {n : ℕ} {a : Option ℕ} {s t : State β}

/-! ### Before the instruction -/

/-- The operands that `checkRefuse` reads. -/
def inspected (env : Env β) (i : Instruction) : List Operand :=
  match builtinCall? env i with
  | some (.pthreadJoin _, op :: _) | some (.pthreadMutexLock, op :: _) => [op]
  | some (.loadAwait _, ptr :: op :: operand :: _) => [ptr, op, operand]
  | some (.xchgAwait _, ptr :: new :: op :: operand :: _) => [ptr, new, op, operand]
  | _ => []

/-- A dry run is not refused. -/
theorem triple_refuseSchedule :
    Triple (Confined b n a) (refuseSchedule env) fun _ _ => False := by
  apply Triple.get_bind
  intro s hs
  rw [if_pos hs.dryRun]
  exact .throw_bind

theorem keeps_refuseJoin (tid : ℕ) : Keeps (Confined b n a) (refuseJoin env tid) := by
  apply Keeps.get_bind
  intro s hs
  cases s.threads[tid]? with
  | none => exact Keeps.pure
  | some th =>
      apply Triple.ite
      · intro _
        apply triple_refuseSchedule.bind
        exact fun _ => ⟨fun h => h.elim⟩
      · exact fun _ => Keeps.pure

theorem keeps_refuseLock (lck : Ptr) : Keeps (Confined b n a) (refuseLock env lck) := by
  apply Keeps.get_bind
  intro s hs
  cases tryGetSymAddr s lck with
  | none => exact Keeps.pure
  | some addr =>
      cases s.pthreadMutexes lck with
      | none => exact Keeps.pure
      | some m =>
          apply Triple.ite
          · intro _
            rw [if_pos hs.dryRun]
            exact .throw_bind
          · exact fun _ => Keeps.pure

theorem keeps_refuseAwait (ptr : Ptr) (width : Width) (cond : AwaitCond)
    (event : AccessRange → Callback) :
    Keeps (Confined b n a) (refuseAwait env ptr width cond event) := by
  apply Keeps.get_bind
  intro s hs
  cases tryGetSymAddr s ptr with
  | none => exact Keeps.pure
  | some addr =>
      apply keeps_requireNothingStored.bind
      intro _
      apply Triple.ite
      · exact fun _ => Keeps.pure
      · intro _
        rw [if_pos hs.dryRun]
        exact .throw_bind

theorem keeps_awaitCond {ops : List Operand} {ptr op operand : Operand}
    (hops : ∀ op ∈ ops, initialised b.context op = true) (hptr : ptr ∈ ops) (hop : op ∈ ops)
    (hoperand : operand ∈ ops) {m : Value → AwaitOp → Value → Action β Bool}
    (hm : ∀ p op v, Keeps (Confined b n a) (m p op v)) :
    Keeps (Confined b n a) (do
      let p ← getOperandValue env ptr
      let op ← awaitOp (← getOperandValue env op)
      let v ← getOperandValue env operand
      m p op v) := by
  apply (keeps_getOperandValue (hops ptr hptr)).bind
  intro p
  apply (keeps_getOperandValue (hops op hop)).bind
  intro v
  apply (keeps_awaitOp v).bind
  intro op
  apply (keeps_getOperandValue (hops operand hoperand)).bind
  intro v
  exact hm p op v

theorem keeps_checkRefuse {i : Instruction}
    (hops : ∀ op ∈ inspected env i, initialised b.context op = true) :
    Keeps (Confined b n a) (checkRefuse env i) := by
  have hjoin : Keeps (Confined b n a) (checkRefuseJoin env (builtinCall? env i)) := by
    unfold checkRefuseJoin
    split
    · rename_i op _ hcall
      apply (keeps_getOperandValue (hops op (by simp [inspected, hcall]))).bind
      intro tid
      exact keeps_refuseJoin _
    · exact Keeps.pure
  have hlock : Keeps (Confined b n a) (checkRefuseLock env (builtinCall? env i)) := by
    apply (triple_getThread.conseq (fun _ hs => hs) fun _ _ hs => hs.1).bind
    intro th
    apply Triple.ite
    · exact fun _ => keeps_refuseLock _
    · intro _
      split
      · rename_i op _ hcall
        apply (keeps_getOperandValue (hops op (by simp [inspected, hcall]))).bind
        intro lck
        exact keeps_refuseLock lck
      · exact Keeps.pure
  have hawait : Keeps (Confined b n a) (checkRefuseAwait env (builtinCall? env i)) := by
    unfold checkRefuseAwait
    split
    · rename_i hcall
      exact keeps_awaitCond hops (by simp [inspected, hcall]) (by simp [inspected, hcall])
        (by simp [inspected, hcall]) fun _ _ _ => keeps_refuseAwait _ _ _ _
    · rename_i new _ _ _ hcall
      apply keeps_awaitCond hops (by simp [inspected, hcall]) (by simp [inspected, hcall])
        (by simp [inspected, hcall])
      intro p op v
      apply (keeps_getOperandValue (hops new (by simp [inspected, hcall]))).bind
      intro v
      exact keeps_refuseAwait _ _ _ _
    · exact Keeps.pure
  apply hjoin.bind
  intro refused
  apply Triple.ite
  · exact fun _ => Keeps.pure
  intro _
  apply hlock.bind
  intro refused
  apply Triple.ite
  · exact fun _ => Keeps.pure
  intro _
  exact .ite (fun _ => Keeps.pure) fun _ => hawait

theorem keeps_awake : Keeps (Confined b n a) (awake env) := by
  apply (triple_getThread.conseq (fun _ hs => hs) fun _ _ hs => hs.1).bind
  intro th
  apply Triple.ite
  · intro _
    apply (keeps_doPthreadCondAwake _ _).bind
    intro _
    apply Keeps.get_bind
    intro s hs
    simp only [hs.dryRun, Bool.not_true, Bool.false_eq_true, if_false]
    exact Keeps.pure
  · exact fun _ => Keeps.pure

/-- A dry run goes on to execute the instruction only if it is not a terminator. -/
theorem triple_prepare {i : Instruction}
    (hops : ∀ op ∈ inspected env i, initialised b.context op = true) :
    Triple (Confined b n a) (prepare env i)
      fun executes s => Confined b n a s ∧ (executes = true → i.isTerminator = false) := by
  apply (keeps_checkRefuse hops).bind
  intro refused
  apply Triple.ite
  · exact fun _ => .pure fun s hs => ⟨hs, by simp⟩
  intro _
  apply keeps_awake.bind
  intro _
  apply (keeps_notify _).bind
  intro _
  apply Triple.get_bind
  intro s hs
  apply Triple.ite
  · exact fun _ => .throw_bind
  · exact fun _ => .pure fun t ht => ⟨ht.2, by simp [hs.dryRun]⟩

/-! ### The whole step -/

/-- Whether a dry run from a state only executes quiet instructions. It starts outside of atomic
functions, with an instruction that is executed as a whole. -/
def quietStep (env : Env β) (fuel : ℕ) (s : State β) : Bool :=
  s.atomicFunctionCall.isNone &&
    match fetch env s with
    | .error _ => true
    | .ok (i, t) =>
        (inspected env i).all (initialised t) &&
          match prepare env i t with
          | .ok (true, u) =>
              quiet env u (operand? u) i && entersAtomic env (operand? u) i &&
                match visit env i u with
                | .error _ => true
                | .ok (_, v) => quietRun env fuel v
          | _ => true

def programCounter (sf : ExecutionContext) : Ptr × ℕ × ℤ := (sf.curFunction, sf.curBB, sf.curInst)

/-- What a scheduling step has left as it was. The stack depths are the numbers of program
counters. -/
structure Untouched (s t : State β) : Prop where
  memory : t.memory = s.memory
  allocatedMem : t.allocatedMem = s.allocatedMem
  allocatedMemHeap : t.allocatedMemHeap = s.allocatedMemHeap
  heapAllocCount : t.heapAllocCount = s.heapAllocCount
  freedMem : t.freedMem = s.freedMem
  atExitHandlers : t.atExitHandlers = s.atExitHandlers
  pthreadMutexes : t.pthreadMutexes = s.pthreadMutexes
  randEng : t.threads.map Thread.randEng = s.threads.map Thread.randEng
  programCounters : t.threads.map (fun th => th.ecStack.map programCounter) =
    s.threads.map fun th => th.ecStack.map programCounter

/-- The start of a dry run at an instruction. -/
def startOf (s : State β) (sf : ExecutionContext) (below : List ExecutionContext)
    (i : Instruction) : Base :=
  ⟨context s, { sf with curInst := sf.curInst + 1 }, below, i.results, sf.caller⟩

theorem context_setStack (s : State β) (stack : List ExecutionContext) :
    context { s with threads := s.threads.modify s.currentThread fun th =>
      { th with ecStack := stack } } = context s := by
  simp only [context, List.modify_modify_eq, State.mk.injEq]
  simp [Function.comp_def]

theorem fetch_eq_ok {i : Instruction} (h : fetch env s = .ok (i, t)) :
    ∃ u, modifyTop (fun sf => { sf with curInst := sf.curInst + 1 }) s = .ok (u, t) := by
  obtain ⟨sf, s₁, htop, hrest⟩ := bind_eq_ok.mp h
  have hs₁ := (keeps_topFrame (P := fun t => t = s)).returns rfl htop
  rw [hs₁] at hrest
  obtain ⟨blk, s₂, hblock, h⟩ := bind_eq_ok.mp hrest
  have hs₂ := (keeps_getBlock (P := fun t => t = s) _ _).returns rfl hblock
  rw [hs₂] at h
  cases hi : (if 0 ≤ sf.curInst then blk.body[sf.curInst.toNat]? else none) with
  | none =>
      simp only [hi] at h
      exact (throw_ne_ok h).elim
  | some j =>
      simp only [hi] at h
      obtain ⟨u, s₃, hmodify, h⟩ := bind_eq_ok.mp h
      obtain ⟨rfl, rfl⟩ := pure_eq_ok.mp h
      exact ⟨u, hmodify⟩

theorem fetch_confined {i : Instruction} (hdry : s.dryRun = true)
    (hatomic : s.atomicFunctionCall = none) (h : fetch env s = .ok (i, t)) :
    ∃ th sf below, s.threads[s.currentThread]? = some th ∧ th.ecStack = sf :: below ∧
      Confined (startOf s sf below i) 0 none t := by
  obtain ⟨_, hmodify⟩ := fetch_eq_ok h
  obtain ⟨th, sf, below, hth, hstack, rfl⟩ := modifyTop_eq_ok hmodify
  refine ⟨th, sf, below, hth, hstack, context_setStack s _, hdry, hatomic, ?_⟩
  refine ⟨_, [], { sf with curInst := sf.curInst + 1 }, by simp [hth]; rfl, rfl, rfl, ?_⟩
  exact ⟨rfl, rfl, rfl, fun _ _ => rfl, .inr rfl⟩

/-- Two states with the same context and the same position of the current thread. -/
theorem Untouched.of_context {th th' : Thread} (hcontext : context t = context s)
    (hth : s.threads[s.currentThread]? = some th) (hth' : t.threads[t.currentThread]? = some th')
    (hstack : th'.ecStack.map programCounter = th.ecStack.map programCounter) :
    Untouched s t := by
  have hfield : ∀ {α : Type} (f : State Unit → α), f (context t) = f (context s) := fun f =>
    congrArg f hcontext
  have hcurrent : t.currentThread = s.currentThread := hfield State.currentThread
  have hthreads := hfield State.threads
  simp only [context, hcurrent] at hthreads
  have hget : ∀ j, j ≠ s.currentThread → t.threads[j]? = s.threads[j]? := by
    intro j hj
    have h := congrArg (fun l : List Thread => l[j]?) hthreads
    simpa [List.getElem?_modify, hj.symm] using h
  have heng : th'.randEng = th.randEng := by
    rw [hcurrent] at hth'
    have h := congrArg (fun l : List Thread => l[s.currentThread]?.map Thread.randEng) hthreads
    simpa [hth, hth'] using h
  have hmap : ∀ {α : Type} (f : Thread → α), f th' = f th → t.threads.map f = s.threads.map f := by
    intro α f hf
    apply List.ext_getElem?
    intro j
    by_cases hj : j = s.currentThread
    · subst hj
      rw [hcurrent] at hth'
      simp [hth, hth', hf]
    · simp [hget j hj]
  exact
    { memory := hfield State.memory
      allocatedMem := hfield State.allocatedMem
      allocatedMemHeap := hfield State.allocatedMemHeap
      heapAllocCount := hfield State.heapAllocCount
      freedMem := hfield State.freedMem
      atExitHandlers := hfield State.atExitHandlers
      pthreadMutexes := hfield State.pthreadMutexes
      randEng := hmap Thread.randEng heng
      programCounters := hmap (fun th => th.ecStack.map programCounter) hstack }

/-- The thread of a dry run does not end. -/
theorem keeps_reap : Keeps (Confined b n a) (reap env) := by
  apply Keeps.get_bind
  intro s hs
  apply triple_getStack.bind
  intro stack
  apply Triple.assuming
  intro hstack
  have hne : stack.isEmpty = false := by
    rw [List.isEmpty_eq_false_iff, ← List.length_pos_iff, hstack.length_eq, Base.depth]
    exact Nat.add_pos_right n (Nat.succ_pos _)
  simp only [hne, Bool.false_eq_true, if_false]
  exact Keeps.pure

theorem Confined.leave (h : Confined b n a s) :
    Confined b n none { s with atomicFunctionCall := none } :=
  h.of_context rfl rfl rfl

/-- Executing an instruction or an atomic function ends where it started. -/
theorem execute_confined {fuel : ℕ} {i : Instruction} {u : Unit} (hstarts : Starts b i)
    (hs : Confined b 0 none s) (hquiet : quiet env s (operand? s) i = true)
    (henters : entersAtomic env (operand? s) i = true)
    (hrun : ∀ u v, visit env i s = .ok (u, v) → quietRun env fuel v = true)
    (h : execute env fuel i s = .ok (u, t)) : ∃ c, Confined (b.calling c) 0 none t := by
  obtain ⟨u', v, hvisit, hrest⟩ := bind_eq_ok.mp h
  rw [← quiet_context, hs.context] at hquiet
  have hv := (triple_visit_start hstarts hquiet henters).returns ⟨hs, rfl⟩ hvisit
  replace hrest : (if v.atomicFunctionCall.isSome then do
      runAtomic env fuel
      modify fun s => { s with atomicFunctionCall := none }
      reap env
    else reap env : Action β Unit) v = .ok (u, t) := hrest
  cases hv with
  | inl hv =>
      rw [if_neg (by simp [hv.atomic])] at hrest
      exact ⟨b.caller, keeps_reap.returns hv hrest⟩
  | inr hv =>
      obtain ⟨c, hreturns, hv⟩ := hv
      by_cases hatomic : v.atomicFunctionCall.isSome = true
      · rw [if_pos hatomic] at hrest
        obtain ⟨_, w, hw, hrest⟩ := bind_eq_ok.mp hrest
        obtain ⟨a, hw⟩ := runAtomic_confined hv (hrun _ _ hvisit) hw
        exact ⟨c, keeps_reap.returns hw.leave hrest⟩
      · rw [if_neg hatomic] at hrest
        obtain ⟨n, a, hnested, hv⟩ := hv
        rw [hv.atomic] at hatomic
        obtain rfl | ⟨rfl, rfl⟩ := hnested
        · simp at hatomic
        · exact ⟨c, keeps_reap.returns hv hrest⟩

/-- Going back to the instruction. -/
theorem untouched_of_backUp {v : State β} {u : Unit} {th : Thread} {sf : ExecutionContext}
    {below : List ExecutionContext} {i : Instruction} {c : Option Caller}
    (hth : s.threads[s.currentThread]? = some th) (hstack : th.ecStack = sf :: below)
    (hv : Confined ((startOf s sf below i).calling c) 0 a v) (h : backUp v = .ok (u, t)) :
    Untouched s t := by
  obtain ⟨th', sf', rest, hth', hstack', rfl⟩ := modifyTop_eq_ok h
  obtain ⟨inner, sf'', hinner, hlength, hmatches⟩ := hv.onBase hth'
  obtain rfl := List.length_eq_zero_iff.mp hlength
  rw [hstack'] at hinner
  obtain ⟨rfl, rfl⟩ := List.cons.inj hinner
  apply Untouched.of_context ((context_setStack v _).trans hv.context) hth
    (by simp only [List.getElem?_modify_eq, hth']; rfl)
  have hposition : programCounter { sf' with curInst := sf'.curInst - 1 } = programCounter sf := by
    simp only [programCounter, hmatches.curFunction, hmatches.curBB, hmatches.curInst]
    simp [Base.calling, startOf]
  rw [hstack, List.map_cons, List.map_cons, hposition]

/-- A dry run that only visits quiet instructions leaves no trace. -/
theorem untouched_of_quiet (fuel : ℕ) (hdry : s.dryRun = true)
    (hquiet : quietStep env fuel s = true) (h : step env fuel s = .ok ((), t)) :
    Untouched s t := by
  simp only [quietStep, Bool.and_eq_true, Option.isNone_iff_eq_none] at hquiet
  obtain ⟨hatomic, hquiet⟩ := hquiet
  obtain ⟨i, s₁, hfetch, hrest⟩ := bind_eq_ok.mp h
  obtain ⟨th, sf, below, hth, hstack, hs₁⟩ := fetch_confined hdry hatomic hfetch
  simp only [hfetch, Bool.and_eq_true, List.all_eq_true] at hquiet
  obtain ⟨hinspected, hquiet⟩ := hquiet
  rw [← initialised_context, hs₁.context] at hinspected
  obtain ⟨executes, s₂, hprepare, hrest⟩ := bind_eq_ok.mp hrest
  obtain ⟨hs₂, hterminator⟩ := (triple_prepare hinspected).returns hs₁ hprepare
  cases executes with
  | false => exact untouched_of_backUp (c := sf.caller) hth hstack hs₂ hrest
  | true =>
      simp only [hprepare, Bool.and_eq_true] at hquiet
      obtain ⟨⟨hi, henters⟩, hrun⟩ := hquiet
      replace hrest : (execute env fuel i >>= fun _ => get >>= fun v : State β =>
          if v.dryRun then do
            backUp
            modify fun s => { s with dryRunMem := [] }
          else pure () : Action β Unit) s₂ = .ok ((), t) := hrest
      obtain ⟨_, v, hexecute, hrest⟩ := bind_eq_ok.mp hrest
      have hstarts : Starts (startOf s sf below i) i := ⟨fun _ hr => hr, hterminator rfl⟩
      obtain ⟨c, hv⟩ := execute_confined hstarts hs₂ hi henters
        (fun u w hw => by simpa [hw] using hrun) hexecute
      replace hrest : (if v.dryRun then do
          backUp
          modify fun s => { s with dryRunMem := [] }
        else pure () : Action β Unit) v = .ok ((), t) := hrest
      rw [if_pos hv.dryRun] at hrest
      obtain ⟨_, w, hback, hrest⟩ := bind_eq_ok.mp hrest
      have hw := untouched_of_backUp hth hstack hv hback
      obtain rfl : { w with dryRunMem := [] } = t := (Prod.mk.inj (Except.ok.inj hrest)).2
      exact { hw with }

/-! ### An atomic function in a dry run -/

/-- A program whose initial thread calls an atomic function. -/
def atomicProgram (body : BasicBlock) : Ptr → Option Callee
  | 1 => some (.builtin .malloc)
  | 2 => some (.function ⟨false, [], some [⟨[], [.call none (.direct 3) []], by simp
      [Instruction.results]⟩], false, false⟩)
  | 3 => some (.function ⟨true, [], some [body], false, false⟩)
  | _ => none

def atomicEnv (body : BasicBlock) : Env Unit := .accepting (atomicProgram body)

/-- A global variable of four bytes, and the initial thread before its call in a dry run. -/
def beforeCall : State Unit :=
  .started 4 [{ Thread.new with ecStack := [⟨2, 0, 0, fun _ => 0, none⟩] }] true ()

theorem int_pos : 0 < 4 := by decide

/-- The function stores to the variable and loads it. -/
def storeAndLoad : BasicBlock where
  phis := []
  body := [.store (.constant 1) (.constant 100) ⟨4, int_pos⟩ false,
    .load 0 (.constant 100) ⟨4, int_pos⟩ false, .ret none]
  ssa := by decide

theorem untouched_storeAndLoad : ∃ t, step (atomicEnv storeAndLoad) 4 beforeCall = .ok ((), t) ∧
    Untouched beforeCall t := by
  have hok : (step (atomicEnv storeAndLoad) 4 beforeCall).toOption.isSome = true := by
    decide +kernel
  cases h : step (atomicEnv storeAndLoad) 4 beforeCall with
  | error e =>
      rw [h] at hok
      simp [Except.toOption] at hok
  | ok p => exact ⟨p.2, rfl, untouched_of_quiet 4 rfl (by decide +kernel) h⟩

/-- The function allocates memory. -/
def allocates : BasicBlock where
  phis := []
  body := [.call (some 0) (.direct 1) [.constant 8], .ret none]
  ssa := by decide

/-- The dry run allocates, so that the execution gets another block. -/
theorem not_untouched_allocates : ∃ t, step (atomicEnv allocates) 4 beforeCall = .ok ((), t) ∧
    ¬ Untouched beforeCall t := by
  have hcount : (step (atomicEnv allocates) 4 beforeCall).toOption.map
      (fun p => p.2.heapAllocCount.get 0) = some 1 := by
    decide +kernel
  cases h : step (atomicEnv allocates) 4 beforeCall with
  | error e =>
      rw [h] at hcount
      simp [Except.toOption] at hcount
  | ok p =>
      refine ⟨p.2, rfl, ?_⟩
      intro huntouched
      rw [h] at hcount
      simp [Except.toOption, huntouched.heapAllocCount, beforeCall, State.started, VClock.get,
        VClock.empty] at hcount

end Nidhugg.Interpreter
