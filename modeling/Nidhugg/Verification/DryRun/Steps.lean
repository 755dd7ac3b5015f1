import Nidhugg.Verification.DryRun.Calls

/-! # Dry runs of instructions and atomic functions

A dry run that only visits quiet instructions leaves the state as it was, however many instructions
its atomic function executes. -/

namespace Nidhugg.Interpreter

open Hoare

variable {β γ : Type} {env : Env β} {b : Base} {n : ℕ} {a : Option ℕ} {s : State β}

/-! ### Quiet instructions -/

def calledFunction? (e : Operand → Option Value) : CalledOperand → Option Ptr
  | .direct f => some f
  | .indirect op => e op

/-- A call whose arguments have the values given by `e`. -/
def quietCall (env : Env β) (s : State γ) (e : Operand → Option Value) (callee : CalledOperand)
    (args : List Operand) : Bool :=
  match calledFunction? e callee, args.mapM e with
  | some f, some vs =>
      match env.program f with
      | some (.builtin f) => quietBuiltin env s vs f
      | _ => true
  | _, _ => true

/-- Whether a dry run of the instruction leaves everything but its stack frames as it is. -/
def quiet (env : Env β) (s : State γ) (e : Operand → Option Value) (i : Instruction) : Bool :=
  i.operands.all (initialised s) &&
    match i with
    | .alloca .. => false
    | .call _ callee args | .invoke _ callee args _ => quietCall env s e callee args
    | _ => true

/-- The functions that a dry run may call first: it executes the whole function, or nothing of
it. -/
def entersAtomic (env : Env β) (e : Operand → Option Value) : Instruction → Bool
  | .call _ callee _ =>
      match (calledFunction? e callee).bind env.program with
      | some (.function g) => g.isAtomic || g.blocks.isNone
      | _ => true
  | _ => true

/-- What an instruction in the frame where the dry run started is like. -/
structure Starts (b : Base) (i : Instruction) : Prop where
  results : i.results ⊆ b.results
  isTerminator : i.isTerminator = false

/-- Setting the call of the frame where the dry run started. -/
theorem triple_setCaller (caller : Caller) : Triple (Confined (β := β) b 0 a)
    (modifyTop fun sf => { sf with caller := some caller })
    fun _ => Confined (b.calling (some caller)) 0 a := by
  constructor
  intro s _ t hs ht
  obtain ⟨th, sf, rest, hth, hstack, rfl⟩ := modifyTop_eq_ok ht
  obtain ⟨th', inner, sf', hth', hstack', hlength, hsf⟩ := hs.stack
  obtain rfl : th = th' := Option.some.inj (hth.symm.trans hth')
  obtain rfl := List.length_eq_zero_iff.mp hlength
  rw [hstack] at hstack'
  obtain ⟨rfl, rfl⟩ := List.cons.inj hstack'
  have hmatches : (b.calling (some caller)).Matches { sf with caller := some caller } :=
    ⟨hsf.curFunction, hsf.curBB, hsf.curInst, hsf.values, .inr rfl⟩
  have hcontext : (b.calling (some caller)).context = b.context := rfl
  exact hs.setStack hcontext (List.length_nil : [].length = 0) hmatches

/-- The call that a dry run makes or is in. -/
theorem triple_call {b' : Base} [b'.Returns] {caller : Caller} {callee : CalledOperand}
    {args : List Operand} {e : Operand → Option Value} (hcontext : b'.context = b.context)
    (hset : Triple (Confined (β := β) b n a) (modifyTop fun sf => { sf with caller := some caller })
      fun _ => Confined b' n a)
    (hnested : Nested b' n a)
    (hops : ∀ op ∈ callee.operands ++ args, initialised b.context op = true)
    (hquiet : quietCall env b.context e callee args = true)
    (hentry : a = some b'.depth ∨ ∀ f g, calledFunction? e callee = some f →
      env.program f = some (.function g) → g.isAtomic ∨ g.blocks.isNone) :
    Triple (fun s => Confined b n a s ∧ operand? s = e)
      (visitAnyCallInst env caller callee args) fun _ => Running b' := by
  have hcallee : Triple (fun s => Confined b n a s ∧ operand? s = e)
      (getCalledFunction env callee)
      fun f s => (Confined b n a s ∧ operand? s = e) ∧ calledFunction? e callee = some f := by
    cases callee with
    | direct f => exact .pure fun s hs => ⟨hs, rfl⟩
    | indirect op =>
        apply (triple_getOperandValue (hops op (by simp [CalledOperand.operands])) e).bind
        intro f
        exact .ite (fun _ => .throw) fun _ => .pure fun s hs => hs
  apply hcallee.bind
  intro f
  apply Triple.assuming
  intro hf
  have hcaller : Triple (fun s : State β => Confined b n a s ∧ operand? s = e)
      (modifyTop fun sf => { sf with caller := some caller })
      fun _ s => Confined b' n a s ∧ operand? s = e := by
    apply hset.and
    apply keeps_operand_modifyTop
    intro _
    rfl
  apply hcaller.bind
  intro _
  have hargs : ∀ op ∈ args, initialised b'.context op = true := fun op hop =>
    hcontext ▸ hops op (List.mem_append_right _ hop)
  apply (triple_getOperandValues hargs e).bind
  intro vs
  apply Triple.assuming
  intro hvs
  simp only [quietCall, hf, hvs, ← hcontext] at hquiet
  unfold callFunction
  cases hprogram : env.program f with
  | none => exact .throw
  | some callee =>
      cases callee with
      | builtin f =>
          simp only [hprogram] at hquiet
          exact (triple_callBuiltin hnested hquiet).conseq (fun _ hs => hs.1) fun _ _ hs => hs
      | function g =>
          have hg := hentry.imp_right fun h => h f g hf hprogram
          exact (triple_callProgramFunction hnested hg).conseq (fun _ hs => hs.1) fun _ _ hs => hs

/-! ### Memory accesses -/

theorem keeps_visitLoadInst {dst : Reg} {ptr : Operand} (hptr : initialised b.context ptr = true)
    (hdst : n = 0 → dst ∈ b.results) (width : Width) (plain : Bool) :
    Keeps (Confined b n a) (visitLoadInst env dst ptr width plain) := by
  apply (keeps_getOperandValue hptr).bind
  intro p
  apply (keeps_getSymAddrSize p width).bind
  intro ml
  have hload : ∀ u : Unit, Keeps (Confined b n a) ((fun _ : Unit => do
      let v ← loadValue p ml
      setValue dst (valueOf env v) : Unit → Action β Unit) u) := by
    intro _
    apply (keeps_loadValue p ml).bind
    intro v
    exact keeps_setValue hdst _
  apply Triple.ite
  · exact fun _ => (keeps_report _).bind hload
  · exact fun _ => hload ()

theorem keeps_visitStoreInst {val ptr : Operand} (hval : initialised b.context val = true)
    (hptr : initialised b.context ptr = true) (width : Width) (plain : Bool) :
    Keeps (Confined b n a) (visitStoreInst env val ptr width plain) := by
  apply (keeps_getOperandValue hval).bind
  intro v
  apply (keeps_getOperandValue hptr).bind
  intro p
  apply (keeps_getSymAddrSize p width).bind
  intro ml
  apply Triple.ite
  · exact fun _ => (keeps_report _).bind fun _ => keeps_performStore v p width ml
  · exact fun _ => keeps_performStore v p width ml

theorem keeps_visitAtomicCmpXchgInst {dst success : Reg} {ptr cmp new : Operand}
    (hcmp : initialised b.context cmp = true) (hnew : initialised b.context new = true)
    (hptr : initialised b.context ptr = true) (hdst : n = 0 → dst ∈ b.results)
    (hsuccess : n = 0 → success ∈ b.results) (width : Width) :
    Keeps (Confined b n a) (visitAtomicCmpXchgInst env dst success ptr cmp new width) := by
  apply (keeps_getOperandValue hcmp).bind
  intro cmpVal
  apply (keeps_getOperandValue hnew).bind
  intro newVal
  apply (keeps_getOperandValue hptr).bind
  intro p
  apply (keeps_getSymAddrSize p width).bind
  intro ml
  apply (keeps_loadValue p ml).bind
  intro old
  apply (keeps_report _).bind
  intro _
  apply (keeps_setValue hdst _).bind
  intro _
  apply (keeps_setValue hsuccess _).bind
  intro _
  exact .ite (fun _ => keeps_performStore newVal p width ml) fun _ => Keeps.pure

theorem keeps_visitAtomicRMWInst {dst : Reg} {ptr val : Operand}
    (hptr : initialised b.context ptr = true) (hval : initialised b.context val = true)
    (hdst : n = 0 → dst ∈ b.results) (kind : RmwKind) (width : Width) (resultUsed : Bool) :
    Keeps (Confined b n a) (visitAtomicRMWInst env dst kind ptr val width resultUsed) := by
  apply (keeps_getOperandValue hptr).bind
  intro p
  apply (keeps_getOperandValue hval).bind
  intro v
  apply (keeps_getSymAddrSize p width).bind
  intro ml
  apply (keeps_loadValue p ml).bind
  intro old
  apply (keeps_setValue hdst _).bind
  intro _
  apply (keeps_report _).bind
  intro _
  exact keeps_performStore _ p width ml

/-! ### Instructions -/

/-- Instructions that neither call nor branch. -/
def Instruction.isLocal : Instruction → Bool
  | .compute .. | .load .. | .store .. | .cmpxchg .. | .atomicrmw .. => true
  | _ => false

theorem keeps_visit {i : Instruction} (hi : i.isLocal = true)
    (hops : ∀ op ∈ i.operands, initialised b.context op = true)
    (hresults : ∀ r ∈ i.results, n = 0 → r ∈ b.results) :
    Keeps (Confined b n a) (visit env i) := by
  cases i with
  | compute dst operands f =>
      apply (keeps_getOperandValues hops).bind
      intro vs
      exact keeps_setValue (hresults dst (by simp [Instruction.results])) _
  | load dst ptr width plain =>
      exact keeps_visitLoadInst (hops ptr (by simp [Instruction.operands]))
        (hresults dst (by simp [Instruction.results])) width plain
  | store val ptr width plain =>
      exact keeps_visitStoreInst (hops val (by simp [Instruction.operands]))
        (hops ptr (by simp [Instruction.operands])) width plain
  | cmpxchg dst success ptr cmp new width =>
      exact keeps_visitAtomicCmpXchgInst (hops cmp (by simp [Instruction.operands]))
        (hops new (by simp [Instruction.operands])) (hops ptr (by simp [Instruction.operands]))
        (hresults dst (by simp [Instruction.results]))
        (hresults success (by simp [Instruction.results])) width
  | atomicrmw dst kind ptr val width resultUsed =>
      exact keeps_visitAtomicRMWInst (hops ptr (by simp [Instruction.operands]))
        (hops val (by simp [Instruction.operands]))
        (hresults dst (by simp [Instruction.results])) kind width resultUsed
  | _ => simp [Instruction.isLocal] at hi

theorem triple_visit_ret [b.Returns] {val : Option Operand}
    (hval : ∀ op ∈ val, initialised b.context op = true) :
    Triple (Confined b (n + 1) a) (visit env (.ret val)) fun _ => Confined b n a := by
  have hvalue : Keeps (Confined b (n + 1) a) (val.elim (pure 0) (getOperandValue env)) := by
    cases val with
    | none => exact Keeps.pure
    | some op => exact keeps_getOperandValue (hval op rfl)
  apply hvalue.bind
  intro v
  exact triple_popStackAndReturnValueToCaller v

/-- An instruction of the atomic function. -/
theorem triple_visit [b.Returns] {i : Instruction} {e : Operand → Option Value}
    (ha : a = some b.depth) (hquiet : quiet env b.context e i = true) :
    Triple (fun s => Confined b (n + 1) a s ∧ operand? s = e) (visit env i)
      fun _ => Running b := by
  have hops : ∀ op ∈ i.operands, initialised b.context op = true := by
    simpa using (Bool.and_eq_true_iff.mp hquiet).1
  have hnested : Nested b (n + 1) a := .inl ha
  have hconfined : ∀ {m : Action β Unit}, Triple (Confined b (n + 1) a) m (fun _ => Running b) →
      Triple (fun s => Confined b (n + 1) a s ∧ operand? s = e) m fun _ => Running b := fun hm =>
    hm.conseq (fun _ hs => hs.1) fun _ _ hs => hs
  have hlocal : i.isLocal = true →
      Triple (fun s => Confined b (n + 1) a s ∧ operand? s = e) (visit env i)
        fun _ => Running b := fun hi =>
    hconfined (running_of_keeps hnested (keeps_visit hi hops fun _ _ h => absurd h (by simp)))
  cases i with
  | compute dst operands f => exact hlocal rfl
  | alloca dst numElements typeSize => simp [quiet] at hquiet
  | load dst ptr width plain => exact hlocal rfl
  | store val ptr width plain => exact hlocal rfl
  | cmpxchg dst success ptr cmp new width => exact hlocal rfl
  | atomicrmw dst kind ptr val width resultUsed => exact hlocal rfl
  | call dst callee args | invoke dst callee args normalDest =>
      apply triple_call rfl _ hnested hops (Bool.and_eq_true_iff.mp hquiet).2 (.inl ha)
      exact keeps_modifyTop fun h => absurd h (Nat.succ_ne_zero n)
  | br dest =>
      exact hconfined (running_of_keeps hnested (keeps_switchToNewBasicBlock (by simp) dest))
  | condBr cond ifTrue ifFalse =>
      apply hconfined
      apply running_of_keeps hnested
      apply (keeps_getOperandValue (hops cond (by simp [Instruction.operands]))).bind
      intro v
      apply (keeps_report _).bind
      intro _
      exact keeps_switchToNewBasicBlock (by simp) _
  | switch cond cases default =>
      apply hconfined
      apply running_of_keeps hnested
      apply (keeps_getOperandValue (hops cond (by simp [Instruction.operands]))).bind
      intro v
      exact keeps_switchToNewBasicBlock (by simp) _
  | ret val =>
      apply hconfined
      apply (triple_visit_ret fun op hop => hops op (by
        simpa [Instruction.operands] using hop)).conseq (fun _ hs => hs)
      exact fun _ s hs => ⟨n, a, hnested.of_le (Nat.le_succ n), hs⟩
  | unreachable => exact .throw

/-- The first instruction of a dry run. -/
theorem triple_visit_start {i : Instruction} {e : Operand → Option Value} (hstarts : Starts b i)
    (hquiet : quiet env b.context e i = true) (henters : entersAtomic env e i = true) :
    Triple (fun s => Confined b 0 none s ∧ operand? s = e) (visit env i)
      fun _ s => Confined b 0 none s ∨ ∃ c, (b.calling c).Returns ∧ Running (b.calling c) s := by
  have hops : ∀ op ∈ i.operands, initialised b.context op = true := by
    simpa using (Bool.and_eq_true_iff.mp hquiet).1
  have hlocal : i.isLocal = true →
      Triple (fun s => Confined b 0 none s ∧ operand? s = e) (visit env i) fun _ s =>
        Confined b 0 none s ∨ ∃ c, (b.calling c).Returns ∧ Running (b.calling c) s := fun hi =>
    (keeps_visit hi hops fun r hr _ => hstarts.results hr).conseq (fun _ hs => hs.1)
      fun _ _ hs => .inl hs
  cases i with
  | compute dst operands f => exact hlocal rfl
  | alloca dst numElements typeSize => simp [quiet] at hquiet
  | load dst ptr width plain => exact hlocal rfl
  | store val ptr width plain => exact hlocal rfl
  | cmpxchg dst success ptr cmp new width => exact hlocal rfl
  | atomicrmw dst kind ptr val width resultUsed => exact hlocal rfl
  | call dst callee args =>
      have hreturns : (b.calling (some ⟨dst, none⟩)).Returns := by
        constructor
        · simp [Base.calling]
        · have hdst : ∀ r ∈ dst, r ∈ b.results := fun r hr =>
            hstarts.results (by simpa [Instruction.results] using hr)
          simpa [Base.calling] using hdst
      have hentry : ∀ f g, calledFunction? e callee = some f →
          env.program f = some (.function g) → g.isAtomic ∨ g.blocks.isNone := by
        intro f g hf hprogram
        simpa [entersAtomic, hf, hprogram] using henters
      apply Triple.conseq _ (fun _ hs => hs) fun _ s hs => .inr ⟨_, hreturns, hs⟩
      exact triple_call rfl (triple_setCaller ⟨dst, none⟩) (.inr ⟨rfl, rfl⟩) hops
        (Bool.and_eq_true_iff.mp hquiet).2 (.inr hentry)
  | _ => simpa [Instruction.isTerminator] using hstarts.isTerminator

/-! ### Atomic functions -/

theorem initialised_context (s : State β) : initialised (context s) = initialised s := by
  funext op
  cases op with
  | threadLocal g => simp [initialised, threadLocals_context]
  | _ => rfl

theorem quiet_context (s : State β) (e : Operand → Option Value) (i : Instruction) :
    quiet env (context s) e i = quiet env s e i := by
  simp only [quiet, quietCall, initialised_context, quietBuiltin_context]

/-- Whether the instructions that the interpreter executes until it leaves the atomic function are
all quiet. -/
def quietRun (env : Env β) : ℕ → State β → Bool
  | 0, _ => true
  | fuel + 1, s =>
      let depth := (s.threads[s.currentThread]?.map fun th => th.ecStack.length).getD 0
      if s.atomicFunctionCall.any (· < depth) then
        match fetch env s with
        | .error _ => true
        | .ok (i, t) =>
            quiet env t (operand? t) i &&
              match visit env i t with
              | .error _ => true
              | .ok (_, u) => quietRun env fuel u
      else true

theorem keeps_fetch (hn : 0 < n) : Keeps (Confined b n a) (fetch env) := by
  apply keeps_topFrame.bind
  intro sf
  apply (keeps_getBlock _ _).bind
  intro blk
  cases (if 0 ≤ sf.curInst then blk.body[sf.curInst.toNat]? else none) with
  | none => exact Triple.throw
  | some i =>
      apply (keeps_modifyTop fun h => absurd h (Nat.ne_of_gt hn)).bind
      intro _
      exact Keeps.pure

theorem Confined.onBase (hs : Confined b n a s) {th : Thread}
    (hth : s.threads[s.currentThread]? = some th) : OnBase b n th.ecStack := by
  obtain ⟨th', inner, sf, hth', hstack, hn, hsf⟩ := hs.stack
  obtain rfl : th = th' := Option.some.inj (hth.symm.trans hth')
  exact ⟨inner, sf, hstack, hn, hsf⟩

/-- A quiet dry run of an atomic function ends in the frame where it started. -/
theorem runAtomic_confined [b.Returns] {fuel : ℕ} {t : State β} {u : Unit} (hs : Running b s)
    (hquiet : quietRun env fuel s = true) (h : runAtomic env fuel s = .ok (u, t)) :
    ∃ a, Confined b 0 a t := by
  induction fuel generalizing s with
  | zero => exact (throw_ne_ok h).elim
  | succ fuel ih =>
      obtain ⟨n, a, hnested, hs⟩ := hs
      obtain ⟨stack, s₁, hstack, h⟩ := bind_eq_ok.mp h
      obtain ⟨th, hth, rfl, rfl⟩ := getStack_eq_ok hstack
      replace h : (if s.atomicFunctionCall.any (· < th.ecStack.length) then do
          visit env (← fetch env)
          runAtomic env fuel
        else pure () : Action β Unit) s = .ok (u, t) := h
      have hlength := (hs.onBase hth).length_eq
      simp only [quietRun, hth, Option.map_some, Option.getD_some] at hquiet
      by_cases hinside : s.atomicFunctionCall.any (· < th.ecStack.length) = true
      · rw [if_pos hinside] at h hquiet
        rw [hs.atomic, hlength] at hinside
        have ha : a = some b.depth := by
          cases hnested with
          | inl ha => exact ha
          | inr hnone => simp [hnone.2] at hinside
        obtain ⟨n, rfl⟩ : ∃ m, n = m + 1 := by
          apply Nat.exists_eq_succ_of_ne_zero
          rintro rfl
          simp [ha] at hinside
        obtain ⟨i, s₁, hfetch, h⟩ := bind_eq_ok.mp h
        obtain ⟨u', s₂, hvisit, h⟩ := bind_eq_ok.mp h
        simp only [hfetch, hvisit, Bool.and_eq_true] at hquiet
        have hs₁ := (keeps_fetch (Nat.succ_pos n)).returns hs hfetch
        have hi : quiet env b.context (operand? s₁) i = true := by
          rw [← hs₁.context, quiet_context]
          exact hquiet.1
        have hs₂ := (triple_visit ha hi).returns ⟨hs₁, rfl⟩ hvisit
        exact ih hs₂ hquiet.2 h
      · rw [if_neg hinside] at h
        obtain ⟨rfl, rfl⟩ := pure_eq_ok.mp h
        have hn : n = 0 := by
          cases hnested with
          | inl ha => simpa [hs.atomic, ha, hlength] using hinside
          | inr hnone => exact hnone.1
        exact ⟨a, hn ▸ hs⟩

end Nidhugg.Interpreter
