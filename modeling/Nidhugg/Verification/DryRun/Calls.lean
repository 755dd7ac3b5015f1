import Nidhugg.Verification.DryRun.Confinement

/-! # Library calls in a dry run

Most library calls stop in a dry run before they change the state. The others change it in any
case, and are only confined with arguments for which there is nothing to change. -/

namespace Nidhugg.Interpreter

open Hoare

variable {β γ : Type} {env : Env β} {b : Base} {n : ℕ} {a : Option ℕ} {s : State β}

/-- A join that stores what is already in memory, or nothing. -/
def quietJoin (env : Env β) (s : State γ) (width : Width) (args : List Value) : Bool :=
  match args[0]?, args[1]? with
  | some tid, some rvPtr =>
      rvPtr = 0 || s.threads[min tid intMax]?.all fun th =>
        readBytes s.memory rvPtr width.1 = (bytesOf env width.1 th.retVal).1
  | _, _ => true

/-- Whether a dry run of a library call leaves the state as it is. -/
def quietBuiltin (env : Env β) (s : State γ) (args : List Value) : Builtin → Bool
  | .pthreadCreate _ | .pthreadExit | .atexit => false
  | .pthreadJoin width => quietJoin env s width args
  | .malloc | .calloc => env.mallocMayFail && s.currentAlt = 0
  | .free => args.head? = some 0
  | .nondetInt => env.svcompNondetInt.isSome
  | _ => true

theorem quietJoin_context (s : State β) (width : Width) (args : List Value) :
    quietJoin env (context s) width args = quietJoin env s width args := by
  unfold quietJoin
  cases args[0]? with
  | none => rfl
  | some tid =>
      cases args[1]? with
      | none => rfl
      | some rvPtr =>
          simp only [context, List.getElem?_modify]
          cases s.threads[min tid intMax]? with
          | none => rfl
          | some th =>
              by_cases htid : s.currentThread = min tid intMax
              · simp only [htid, if_true, Option.all_some]
                rfl
              · simp only [htid, if_false, Option.all_some]
                rfl

theorem quietBuiltin_context (s : State β) (args : List Value) (f : Builtin) :
    quietBuiltin env (context s) args f = quietBuiltin env s args f := by
  cases f <;> first | rfl | exact quietJoin_context s _ args

/-! ### Mutexes and condition variables -/

theorem keeps_useObject (name : String) (event : SymAddrSize → Callback) (ptr : Ptr) :
    Keeps (Confined b n a) (useObject env name event ptr) := by
  apply Triple.ite
  · intro _
    exact .throw_bind
  · intro _
    apply (keeps_getSymAddr ptr).bind
    intro addr
    exact keeps_report _

theorem keeps_requireMutex (name : String) (lck : Ptr) :
    Keeps (Confined b n a) (requireMutex env name lck) := by
  apply Keeps.get_bind
  intro s hs
  apply Triple.ite
  · intro _
    apply Triple.ite
    · exact fun _ => .throw
    · intro _
      simp only [hs.dryRun, Bool.not_true, Bool.false_eq_true, if_false]
      exact Keeps.pure
  · exact fun _ => Keeps.pure

theorem keeps_lockMutex (lck : Ptr) : Keeps (Confined (β := β) b n a) (lockMutex lck) := by
  apply Keeps.get_bind
  intro s hs
  cases s.pthreadMutexes lck with
  | none =>
      simp only [hs.dryRun, Bool.not_true, Bool.false_eq_true, if_false]
      exact Keeps.pure
  | some m =>
      simp only [hs.dryRun, Bool.not_true, Bool.false_eq_true, if_false]
      exact .ite (fun _ => .throw) fun _ => Keeps.pure

theorem keeps_callPthreadMutexInit [b.Returns] (args : List Value) :
    Keeps (Confined b n a) (callPthreadMutexInit env args) := by
  apply (keeps_arg args 0).bind
  intro lck
  apply (keeps_useObject _ _ lck).bind
  intro _
  apply Keeps.get_bind
  intro s _
  apply Triple.ite
  · exact fun _ => .throw_bind
  · intro _
    apply (keeps_returnValueToCaller 0).bind
    intro _
    apply Keeps.get_bind
    intro s hs
    simp only [hs.dryRun, Bool.not_true, Bool.false_eq_true, if_false]
    exact Keeps.pure

theorem keeps_callPthreadMutexLock [b.Returns] (args : List Value) :
    Keeps (Confined b n a) (callPthreadMutexLock env args) := by
  apply (keeps_arg args 0).bind
  intro lck
  apply (keeps_useObject _ _ lck).bind
  intro _
  apply (keeps_requireMutex _ lck).bind
  intro _
  apply (keeps_lockMutex lck).bind
  intro _
  exact keeps_returnValueToCaller 0

theorem keeps_callPthreadMutexTryLock [b.Returns] (args : List Value) :
    Keeps (Confined b n a) (callPthreadMutexTryLock env args) := by
  apply (keeps_arg args 0).bind
  intro lck
  apply (keeps_useObject _ _ lck).bind
  intro _
  apply (keeps_requireMutex _ lck).bind
  intro _
  apply Keeps.get_bind
  intro s _
  apply Triple.ite
  · intro _
    apply (keeps_returnValueToCaller 0).bind
    intro _
    exact keeps_lockMutex lck
  · intro _
    exact keeps_returnValueToCaller ebusy

theorem keeps_callPthreadMutexUnlock [b.Returns] (args : List Value) :
    Keeps (Confined b n a) (callPthreadMutexUnlock env args) := by
  apply (keeps_arg args 0).bind
  intro lck
  apply (keeps_useObject _ _ lck).bind
  intro _
  apply (keeps_requireMutex _ lck).bind
  intro _
  apply Keeps.get_bind
  intro s hs
  apply Triple.ite
  · exact fun _ => .throw_bind
  · intro _
    apply (keeps_returnValueToCaller 0).bind
    intro _
    simp only [hs.dryRun, Bool.not_true, Bool.false_eq_true, if_false]
    exact Keeps.pure

theorem keeps_callPthreadMutexDestroy [b.Returns] (args : List Value) :
    Keeps (Confined b n a) (callPthreadMutexDestroy env args) := by
  apply (keeps_arg args 0).bind
  intro lck
  apply (keeps_useObject _ _ lck).bind
  intro _
  apply (keeps_requireMutex _ lck).bind
  intro _
  apply Keeps.get_bind
  intro s hs
  apply Triple.ite
  · exact fun _ => .throw_bind
  · intro _
    apply (keeps_returnValueToCaller 0).bind
    intro _
    simp only [hs.dryRun, Bool.not_true, Bool.false_eq_true, if_false]
    exact Keeps.pure

theorem keeps_callPthreadCond [b.Returns] (name : String) (event : SymAddrSize → Callback)
    (args : List Value) : Keeps (Confined b n a) (callPthreadCond env name event args) := by
  apply (keeps_arg args 0).bind
  intro cnd
  apply (keeps_useObject _ _ cnd).bind
  intro _
  exact keeps_returnValueToCaller 0

theorem keeps_callPthreadCondWait [b.Returns] (args : List Value) :
    Keeps (Confined b n a) (callPthreadCondWait env args) := by
  apply (keeps_arg args 0).bind
  intro cnd
  apply (keeps_arg args 1).bind
  intro lck
  apply Triple.ite
  · exact fun _ => .throw_bind
  intro _
  apply Triple.ite
  · exact fun _ => .throw_bind
  intro _
  apply (keeps_getSymAddr cnd).bind
  intro cndAddr
  apply (keeps_getSymAddr lck).bind
  intro lckAddr
  apply (keeps_report _).bind
  intro _
  apply (keeps_returnValueToCaller 0).bind
  intro _
  apply Keeps.get_bind
  intro s hs
  simp only [hs.dryRun, Bool.not_true, Bool.false_eq_true, if_false]
  exact Keeps.pure

theorem keeps_doPthreadCondAwake (cnd lck : Ptr) :
    Keeps (Confined b n a) (doPthreadCondAwake env cnd lck) := by
  apply (keeps_getSymAddr cnd).bind
  intro cndAddr
  apply (keeps_getSymAddr lck).bind
  intro lckAddr
  apply (keeps_report _).bind
  intro _
  apply Keeps.get_bind
  intro s _
  apply Triple.ite
  · exact fun _ => .throw_bind
  · intro _
    exact keeps_lockMutex lck

theorem keeps_callPthreadCondDestroy [b.Returns] (args : List Value) :
    Keeps (Confined b n a) (callPthreadCondDestroy env args) := by
  apply (keeps_arg args 0).bind
  intro cnd
  apply Triple.ite
  · exact fun _ => .throw_bind
  intro _
  apply (keeps_getSymAddr cnd).bind
  intro addr
  apply Keeps.get_bind
  intro s _
  apply (keeps_setBuilder fun _ => (env.condDestroy (objectAt addr) s.builder).2).bind
  intro _
  apply Triple.ite
  · exact fun _ => keeps_returnValueToCaller _
  · exact fun _ => .throw

/-! ### Joins, allocations and assumptions -/

/-- Writing bytes that are already there. -/
theorem writeBytes_readBytes (memory : Ptr → Byte) (ptr : Ptr) (k : ℕ) :
    writeBytes memory ptr (readBytes memory ptr k) = memory := by
  funext p
  unfold writeBytes readBytes
  split
  · rename_i hle
    by_cases hlt : p - ptr < k
    · simp [hlt, Nat.add_sub_cancel' hle]
    · simp [hlt]
  · rfl

theorem keeps_storeValueToMemory {v : Value} {ptr : Ptr} {width : Width}
    (h : readBytes b.context.memory ptr width.1 = (bytesOf env width.1 v).1) :
    Keeps (Confined b n a) (storeValueToMemory env v ptr width) := by
  apply Keeps.modify
  intro s hs
  have hmemory : s.memory = b.context.memory := congrArg State.memory hs.context
  rw [← h, ← hmemory, writeBytes_readBytes]
  exact hs

theorem keeps_callPthreadJoin [b.Returns] {width : Width} {args : List Value}
    (hquiet : quietJoin env b.context width args = true) :
    Keeps (Confined b n a) (callPthreadJoin env width args) := by
  apply Keeps.get_bind
  intro s hs
  rw [← hs.context, quietJoin_context] at hquiet
  apply (triple_arg args 0).bind
  intro tid
  apply Triple.assuming
  intro htid
  dsimp only
  cases hth : s.threads[min tid intMax]? with
  | none => exact .throw
  | some th =>
      apply Triple.ite
      · exact fun _ => .throw_bind
      intro _
      apply Triple.ite
      · exact fun _ => .throw_bind
      intro _
      apply (keeps_report _).bind
      intro _
      apply (keeps_report _).bind
      intro _
      apply (triple_arg args 1).bind
      intro rvPtr
      apply Triple.assuming
      intro hrvPtr
      apply Triple.ite
      · intro hnull
        have hbytes : readBytes s.memory rvPtr width.1 = (bytesOf env width.1 th.retVal).1 := by
          simpa [quietJoin, htid, hrvPtr, hth, hnull] using hquiet
        have hmemory : s.memory = b.context.memory := congrArg State.memory hs.context
        rw [hmemory] at hbytes
        apply (keeps_getSymAddrSize rvPtr width).bind
        intro _
        apply (keeps_storeValueToMemory hbytes).bind
        intro _
        exact keeps_returnValueToCaller 0
      · intro _
        exact keeps_returnValueToCaller 0

theorem keeps_callMCalloc [b.Returns] {isCalloc : Bool} {args : List Value}
    (hquiet : (env.mallocMayFail && b.context.currentAlt = 0) = true) :
    Keeps (Confined b n a) (callMCalloc env isCalloc args) := by
  simp only [Bool.and_eq_true, decide_eq_true_eq] at hquiet
  unfold callMCalloc
  rw [if_pos hquiet.1]
  apply (keeps_report _).bind
  intro _
  apply Keeps.get_bind
  intro s hs
  have halt : s.currentAlt = b.context.currentAlt := congrArg State.currentAlt hs.context
  rw [if_pos (by simp [halt, hquiet])]
  exact keeps_returnValueToCaller 0

theorem keeps_callFree {args : List Value} (hquiet : args.head? = some 0) :
    Keeps (Confined b n a) (callFree env args) := by
  apply (triple_arg args 0).bind
  intro ptr
  apply Triple.assuming
  intro hptr
  rw [← List.head?_eq_getElem?, hquiet] at hptr
  obtain rfl := Option.some.inj hptr
  exact Keeps.pure

theorem keeps_callNondetInt [b.Returns] (hquiet : env.svcompNondetInt.isSome = true) :
    Keeps (Confined b n a) (callNondetInt env) := by
  unfold callNondetInt
  cases h : env.svcompNondetInt with
  | none => simp [h] at hquiet
  | some v => exact keeps_returnValueToCaller v

/-- A dry run that leaves an atomic function ends at most at the frame where it started. -/
theorem triple_leaveAtomic [b.Returns] (fuel : ℕ) (ha : a = some b.depth ∨ a = none) :
    Triple (Confined b n a) (leaveAtomic env fuel) fun _ s => ∃ k ≤ n, Confined b k a s := by
  induction fuel generalizing n with
  | zero => exact .pure fun s hs => ⟨n, Nat.le_refl n, hs⟩
  | succ fuel ih =>
      apply triple_getStack.bind
      intro stack
      apply Triple.assuming
      intro hstack
      apply Triple.get_bind
      intro s hs
      have hinside : s.atomicFunctionCall.any (· < stack.length) = true → 0 < n := by
        rw [hs.atomic, hstack.length_eq]
        intro hany
        obtain rfl | rfl := ha
        · simpa using hany
        · simp at hany
      cases n with
      | zero =>
          rw [if_neg (fun h => absurd (hinside h) (Nat.lt_irrefl 0))]
          exact .pure fun s hs => ⟨0, Nat.le_refl 0, hs.2⟩
      | succ n =>
          by_cases hany : s.atomicFunctionCall.any (· < stack.length) = true
          · rw [if_pos hany]
            have hpop : Triple (Confined b (n + 1) a) (popStackAndReturnValueToCaller env 0)
                fun _ => Confined b n a := triple_popStackAndReturnValueToCaller 0
            apply (hpop.conseq (fun t ht => ht.2) fun _ _ ht => ht).bind
            intro _
            exact ih.conseq (fun t ht => ht) fun _ t ⟨k, hk, ht⟩ => ⟨k, Nat.le_succ_of_le hk, ht⟩
          · rw [if_neg hany]
            exact .pure fun s hs => ⟨n + 1, Nat.le_refl _, hs.2⟩

/-- How a dry run is nested: in an atomic function above the frame where it started, or directly
in that frame. -/
def Nested (b : Base) (n : ℕ) (a : Option ℕ) : Prop := a = some b.depth ∨ n = 0 ∧ a = none

theorem Nested.atomic_eq (h : Nested b n a) : a = some b.depth ∨ a = none :=
  h.imp_right And.right

theorem Nested.of_le {k : ℕ} (h : Nested b n a) (hk : k ≤ n) : Nested b k a := by
  cases h with
  | inl h => exact .inl h
  | inr h => exact .inr ⟨Nat.le_zero.mp (h.1 ▸ hk), h.2⟩

/-- The states after an instruction of a dry run. -/
def Running (b : Base) (s : State β) : Prop := ∃ n a, Nested b n a ∧ Confined b n a s

theorem running_of_keeps {m : Action β Unit} (hnested : Nested b n a)
    (h : Keeps (Confined b n a) m) : Triple (Confined b n a) m fun _ => Running b :=
  h.conseq (fun _ hs => hs) fun _ _ hs => ⟨n, a, hnested, hs⟩

theorem triple_callAssume [b.Returns] (hnested : Nested b n a) (args : List Value) :
    Triple (Confined b n a) (callAssume env args) fun _ => Running b := by
  apply (keeps_arg args 0).bind
  intro v
  by_cases hv : v = 0
  · rw [if_pos hv]
    apply Triple.get_bind
    intro s hs
    rw [if_pos hs.dryRun]
    apply (triple_getStack.conseq (fun t ht => ht.2) fun _ _ ht => ht.1).bind
    intro stack
    apply (triple_leaveAtomic stack.length hnested.atomic_eq).conseq (fun t ht => ht)
    rintro _ t ⟨k, hk, ht⟩
    exact ⟨k, a, hnested.of_le hk, ht⟩
  · rw [if_neg hv]
    exact running_of_keeps hnested Keeps.pure

theorem keeps_awaitOp (v : Value) : Keeps (Confined (β := β) b n a) (awaitOp v) := by
  unfold awaitOp
  split
  · exact Keeps.pure
  · exact .throw

theorem keeps_requireNothingStored :
    Keeps (Confined (β := β) b n a) requireNothingStored :=
  .get_bind fun _ _ => .ite (fun _ => .throw) fun _ => Keeps.pure

theorem keeps_callLoadAwait [b.Returns] (width : Width) (args : List Value) :
    Keeps (Confined b n a) (callLoadAwait env width args) := by
  apply (keeps_arg args 0).bind
  intro ptr
  apply (keeps_arg args 1).bind
  intro op
  apply (keeps_awaitOp op).bind
  intro op
  apply (keeps_arg args 2).bind
  intro operand
  apply (keeps_getSymAddrSize ptr width).bind
  intro ml
  apply (keeps_report _).bind
  intro _
  apply keeps_requireNothingStored.bind
  intro _
  apply (keeps_loadValue ptr ml).bind
  intro old
  exact keeps_returnValueToCaller _

theorem keeps_callXchgAwait [b.Returns] (width : Width) (args : List Value) :
    Keeps (Confined b n a) (callXchgAwait env width args) := by
  apply (keeps_arg args 0).bind
  intro ptr
  apply (keeps_arg args 1).bind
  intro new
  apply (keeps_arg args 2).bind
  intro op
  apply (keeps_awaitOp op).bind
  intro op
  apply (keeps_arg args 3).bind
  intro operand
  apply (keeps_getSymAddrSize ptr width).bind
  intro ml
  apply keeps_requireNothingStored.bind
  intro _
  apply (keeps_loadValue ptr ml).bind
  intro old
  apply Triple.ite
  · exact fun _ => .throw_bind
  intro _
  apply (keeps_report _).bind
  intro _
  apply (keeps_performStore new ptr width ml).bind
  intro _
  apply Keeps.get_bind
  intro s hs
  simp only [hs.dryRun, Bool.not_true, Bool.false_eq_true, if_false]
  exact Keeps.pure

/-- A quiet library call is confined. -/
theorem triple_callBuiltin [b.Returns] (hnested : Nested b n a) {f : Builtin} {args : List Value}
    (hquiet : quietBuiltin env b.context args f = true) :
    Triple (Confined b n a) (callBuiltin env f args) fun _ => Running b := by
  cases f with
  | pthreadCreate width => simp [quietBuiltin] at hquiet
  | pthreadJoin width => exact running_of_keeps hnested (keeps_callPthreadJoin hquiet)
  | pthreadSelf =>
      exact running_of_keeps hnested (.get_bind fun s _ => keeps_returnValueToCaller _)
  | pthreadExit => simp [quietBuiltin] at hquiet
  | pthreadMutexInit => exact running_of_keeps hnested (keeps_callPthreadMutexInit args)
  | pthreadMutexLock => exact running_of_keeps hnested (keeps_callPthreadMutexLock args)
  | pthreadMutexTrylock => exact running_of_keeps hnested (keeps_callPthreadMutexTryLock args)
  | pthreadMutexUnlock => exact running_of_keeps hnested (keeps_callPthreadMutexUnlock args)
  | pthreadMutexDestroy => exact running_of_keeps hnested (keeps_callPthreadMutexDestroy args)
  | pthreadCondInit => exact running_of_keeps hnested (keeps_callPthreadCond _ _ args)
  | pthreadCondSignal => exact running_of_keeps hnested (keeps_callPthreadCond _ _ args)
  | pthreadCondBroadcast => exact running_of_keeps hnested (keeps_callPthreadCond _ _ args)
  | pthreadCondWait => exact running_of_keeps hnested (keeps_callPthreadCondWait args)
  | pthreadCondDestroy => exact running_of_keeps hnested (keeps_callPthreadCondDestroy args)
  | malloc | calloc => exact running_of_keeps hnested (keeps_callMCalloc hquiet)
  | free => exact running_of_keeps hnested (keeps_callFree (by simpa [quietBuiltin] using hquiet))
  | atexit => simp [quietBuiltin] at hquiet
  | nondetInt => exact running_of_keeps hnested (keeps_callNondetInt hquiet)
  | assume => exact triple_callAssume hnested args
  | assertFail => exact .throw
  | loadAwait width => exact running_of_keeps hnested (keeps_callLoadAwait width args)
  | xchgAwait width => exact running_of_keeps hnested (keeps_callXchgAwait width args)

/-! ### Functions of the program -/

theorem triple_pushFrame (f : Ptr) (g : Function) (args : List Value) :
    Triple (Confined b n a) (pushFrame (β := β) f g args) fun _ => Confined b (n + 1) a := by
  unfold pushFrame
  by_cases hargs : args.length < g.params.length
  · rw [if_pos hargs]
    exact .throw_bind
  · rw [if_neg hargs]
    apply triple_getStack.bind
    intro stack
    apply Triple.assuming
    intro hstack
    exact triple_setStack (hstack.cons _)

theorem triple_enterAtomic (hnested : Nested b n a) :
    Triple (Confined b n a) (enterAtomic env) fun _ => Confined b n (some b.depth) := by
  apply (keeps_report _).bind
  intro _
  apply triple_getStack.bind
  intro stack
  apply Triple.assuming
  intro hstack
  apply Triple.modify
  intro s hs
  have hatomic : (s.atomicFunctionCall <|> some stack.length) = some b.depth := by
    rw [hs.atomic, hstack.length_eq]
    cases hnested with
    | inl ha => simp [ha]
    | inr h => simp [h]
  exact hs.of_context
    (t := { s with atomicFunctionCall := s.atomicFunctionCall <|> some stack.length }) rfl rfl
    hatomic

theorem keeps_reportExternal (g : Function) :
    Keeps (Confined b n a) (reportExternal env g) := by
  have hconflict : Keeps (Confined b n a)
      (if !g.noFullMemoryConflict then report env .fullMemoryConflict else pure ()) :=
    .ite (fun _ => keeps_report _) fun _ => Keeps.pure
  apply Triple.ite
  · intro _
    exact (keeps_report _).bind fun _ => hconflict
  · exact fun _ => hconflict

/-- A dry run returns from an external function at once. -/
theorem triple_callDeclaration (f : Ptr) (g : Function) (args : List Value) :
    Triple (Confined b (n + 1) a) (callDeclaration env f g args) fun _ => Confined b n a := by
  apply (keeps_reportExternal g).bind
  intro _
  apply Triple.get_bind
  intro s hs
  rw [if_pos hs.dryRun]
  apply (triple_getStack.conseq (fun t ht => ht.2) fun _ _ ht => ht).bind
  intro stack
  apply Triple.assuming
  intro hstack
  exact triple_setStack hstack.tail

/-- The frame of a function that is called, or none for a declaration. -/
theorem triple_enterFunction (f : Ptr) (g : Function) (args : List Value) :
    Triple (Confined b n a) (do
      pushFrame f g args
      if g.blocks.isNone then callDeclaration env f g args)
      fun _ s => ∃ k, Confined b k a s ∧ (g.blocks.isNone → k = n) := by
  apply (triple_pushFrame f g args).bind
  intro _
  apply Triple.ite
  · intro _
    apply (triple_callDeclaration f g args).conseq (fun _ hs => hs)
    exact fun _ s hs => ⟨n, hs, fun _ => rfl⟩
  · intro hblocks
    exact .pure fun s hs => ⟨n + 1, hs, fun h => absurd h hblocks⟩

/-- A call from the frame where the dry run started has to be atomic or external. -/
theorem triple_callProgramFunction (hnested : Nested b n a) {f : Ptr} {g : Function}
    {args : List Value} (hentry : a = some b.depth ∨ g.isAtomic ∨ g.blocks.isNone) :
    Triple (Confined b n a) (callProgramFunction env f g args) fun _ => Running b := by
  have hatomic : Triple (Confined b n (some b.depth)) (do
      pushFrame f g args
      if g.blocks.isNone then callDeclaration env f g args) fun _ => Running b := by
    apply (triple_enterFunction f g args).conseq (fun _ hs => hs)
    exact fun _ s ⟨k, hs, _⟩ => ⟨k, some b.depth, .inl rfl, hs⟩
  apply Triple.ite
  · intro _
    exact (triple_enterAtomic hnested).bind fun _ => hatomic
  · intro hg
    cases hnested with
    | inl ha => exact ha ▸ hatomic
    | inr h =>
        have hblocks : g.blocks.isNone := by simpa [h.2, hg] using hentry
        apply (triple_enterFunction f g args).conseq (fun _ hs => hs)
        rintro _ s ⟨k, hs, hk⟩
        exact ⟨k, a, .inr ⟨(hk hblocks).trans h.1, h.2⟩, hs⟩

end Nidhugg.Interpreter
