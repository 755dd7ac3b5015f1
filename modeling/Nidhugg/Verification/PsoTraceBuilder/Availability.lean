import Nidhugg.Verification.PsoTraceBuilder.Links

/-! # Availability of the auxiliary threads under PSO

An auxiliary thread should be available exactly as long as a store of its real thread that
starts at its address is pending. It is made unavailable as soon as one of the bytes of its
store has an empty buffer, which is something else. -/

namespace Nidhugg.PsoTraceBuilder

open LabelledRun

variable {s t : PsoTraceBuilder}

/-- An auxiliary thread is available exactly if a store that starts at its address is
pending. -/
def NoneStranded (s : PsoTraceBuilder) : Prop :=
  ∀ {p k q : ℕ} {thread : PsoThread} {b0 : SymAddr}, s.threads[p]? = some thread →
    thread.aux = none → thread.auxToByte[k]? = some b0 → thread.auxToIpid[k]? = some q →
      (s.isAvailable q = true ↔ ∃ pst ∈ thread.storeBuffers b0, pst.ml.addr = b0)

/-- Performing the oldest store of an auxiliary thread empties the buffer of a byte. -/
def empties (s : PsoTraceBuilder) (tipid : ℕ) (ml : SymAddrSize) : Bool :=
  ml.bytes.any fun b => (s.pending tipid b).tail.isEmpty

/-- Another store that starts at the same address is pending. -/
def hasFurther (s : PsoTraceBuilder) (tipid : ℕ) (b0 : SymAddr) : Bool :=
  (s.pending tipid b0).tail.any fun pst => pst.ml.addr = b0

/-- An update that empties the buffer of a byte although a further store of the auxiliary
thread is pending, or that empties none although it is the last one. -/
def mistimed (s : PsoTraceBuilder) : Turn → Bool
  | .update pid => (s.auxFront pid).any fun (tipid, b0, ml) =>
      s.empties tipid ml == s.hasFurther tipid b0
  | _ => false

/-! ### Availability of single threads -/

theorem isAvailable_map {f : ℕ → PsoThread → Bool}
    {g : ℕ → PsoThread → SymAddr → List PendingStoreByte}
    (hthreads : ∀ i : ℕ, t.threads[i]? = s.threads[i]?.map fun thread : PsoThread =>
      { thread with available := f i thread, storeBuffers := g i thread }) (q : ℕ) :
    t.isAvailable q = s.threads[q]?.any (f q) := by
  rw [isAvailable, hthreads]
  cases s.threads[q]? with
  | none => rfl
  | some thread => rfl

/-- Two auxiliary threads of a thread with one address are the same. -/
theorem Linked.aux_inj (h : Linked s) {p j k : ℕ} {thread : PsoThread} {b : SymAddr}
    (hthread : s.threads[p]? = some thread) (hj : thread.auxToByte[j]? = some b)
    (hk : thread.auxToByte[k]? = some b) : j = k := by
  rw [← h.byteToAux hthread] at hj hk
  rw [hj, Option.some.injEq] at hk
  exact hk

/-- An auxiliary thread belongs to one thread. -/
theorem Linked.owner_inj (h : Linked s) {p p' j k q : ℕ} {thread thread' : PsoThread}
    (hthread : s.threads[p]? = some thread) (hq : thread.auxToIpid[j]? = some q)
    (hthread' : s.threads[p']? = some thread') (hq' : thread'.auxToIpid[k]? = some q) :
    p = p' ∧ j = k := by
  obtain ⟨child, hchild, hj, hp⟩ := h.child hthread hq
  obtain ⟨child', hchild', hk, hp'⟩ := h.child hthread' hq'
  rw [hchild, Option.some.injEq] at hchild'
  subst hchild'
  rw [hj, Option.some.injEq] at hk
  rw [hp, Option.some.injEq] at hp'
  exact ⟨hp', hk⟩

/-! ### Steps that keep the property -/

theorem NoneStranded.spawn (hlinked : Linked s) (h : NoneStranded s) (pid : ℕ) :
    NoneStranded (s.spawn pid) := by
  intro p k q thread b0 hthread hreal hb0 hq
  have hold : s.threads[p]? = some thread := by
    obtain ⟨proc, hget⟩ := getElem?_spawn (s := s) pid p
    rw [hget] at hthread
    split at hthread
    · cases hthread
      simp [PsoThread.new] at hb0
    · exact hthread
  have havailable : (s.spawn pid).isAvailable q = s.isAvailable q := by
    obtain ⟨child, hchild, -, -⟩ := hlinked.child hold hq
    have hlt := (List.getElem?_eq_some_iff.mp hchild).1
    obtain ⟨proc, hget⟩ := getElem?_spawn (s := s) pid q
    rw [isAvailable, hget, if_neg hlt.ne, isAvailable]
  rw [havailable]
  exact h hold hreal hb0 hq

/-- Pending stores with the address of another auxiliary thread are not affected by a store. -/
theorem exists_pushPending_iff {thread : PsoThread} {ml : SymAddrSize} {b0 : SymAddr}
    (hne : b0 ≠ ml.addr) :
    (∃ pst ∈ (pushPending thread ml).storeBuffers b0, pst.ml.addr = b0) ↔
      ∃ pst ∈ thread.storeBuffers b0, pst.ml.addr = b0 := by
  constructor
  · rintro ⟨pst, hpst, haddr⟩
    rcases mem_pushPending.mp hpst with hpst | ⟨-, rfl⟩
    · exact ⟨pst, hpst, haddr⟩
    · exact absurd haddr.symm hne
  · rintro ⟨pst, hpst, haddr⟩
    exact ⟨pst, mem_pushPending.mpr (.inl hpst), haddr⟩

theorem exists_pushPending_self {thread : PsoThread} (ml : StoreRange) :
    ∃ pst ∈ (pushPending thread ml.1).storeBuffers ml.1.addr, pst.ml.addr = ml.1.addr :=
  ⟨⟨ml.1⟩, mem_pushPending.mpr (.inr ⟨mem_bytes_addr ml, rfl⟩), rfl⟩

theorem NoneStranded.store_some (hlinked : Linked s) (h : NoneStranded s) {pid aux updIpid : ℕ}
    {thread : PsoThread} {ml : StoreRange} (hthread : s.threads[pid]? = some thread)
    (haux : thread.byteToAux ml.1.addr = some aux) (hupd : thread.auxToIpid[aux]? = some updIpid)
    (hstore : s.store pid ml.1 = some t) : NoneStranded t := by
  obtain ⟨-, hget⟩ := getElem?_store_some hthread haux hupd hstore
  have hauxByte := (hlinked.byteToAux hthread).mp haux
  intro p k q th' b0 hth' hreal hb0 hq
  rw [hget] at hth'
  obtain ⟨th, hth, rfl⟩ := Option.map_eq_some_iff.mp hth'
  have hgood := h hth hreal hb0 hq
  rw [isAvailable_map hget]
  obtain ⟨child, hchild, -, -⟩ := hlinked.child hth hq
  rw [hchild, Option.any_some]
  rw [isAvailable, hchild, Option.any_some] at hgood
  by_cases hqu : updIpid = q
  · subst hqu
    obtain ⟨rfl, rfl⟩ := hlinked.owner_inj hthread hupd hth hq
    rw [hthread, Option.some.injEq] at hth
    subst hth
    rw [hauxByte, Option.some.injEq] at hb0
    subst hb0
    simpa using exists_pushPending_self ml
  · rw [if_neg hqu, hgood]
    by_cases hp : pid = p
    · subst hp
      rw [hthread, Option.some.injEq] at hth
      subst hth
      have hne : b0 ≠ ml.1.addr := by
        rintro rfl
        obtain rfl := hlinked.aux_inj hthread hauxByte hb0
        rw [hupd, Option.some.injEq] at hq
        exact hqu hq
      rw [if_pos rfl]
      exact (exists_pushPending_iff hne).symm
    · rw [if_neg hp]

theorem NoneStranded.store_none (hlinked : Linked s) (h : NoneStranded s) {pid : ℕ}
    {thread : PsoThread} {ml : StoreRange} (hthread : s.threads[pid]? = some thread)
    (haux : thread.byteToAux ml.1.addr = none) (hreal : thread.aux = none)
    (hstore : s.store pid ml.1 = some t) : NoneStranded t := by
  obtain ⟨-, hget⟩ := getElem?_store_none hthread haux hstore
  have hlength := hlinked.length_eq hthread
  -- The old auxiliary threads have other addresses and are as available as before.
  have hold : ∀ {p k q : ℕ} {th : PsoThread} {b0 : SymAddr}, s.threads[p]? = some th →
      th.aux = none → th.auxToByte[k]? = some b0 → th.auxToIpid[k]? = some q →
        (t.isAvailable q = true ↔ ∃ pst ∈ th.storeBuffers b0, pst.ml.addr = b0) := by
    intro p k q th b0 hth hth_real hb0 hq
    rw [← h hth hth_real hb0 hq]
    obtain ⟨child, hchild, haux', -⟩ := hlinked.child hth hq
    have hlt := (List.getElem?_eq_some_iff.mp hchild).1
    have hne : pid ≠ q := by
      rintro rfl
      rw [hthread, Option.some.injEq] at hchild
      subst hchild
      rw [hreal] at haux'
      cases haux'
    rw [isAvailable, hget, if_neg hlt.ne, hchild, Option.map_some, if_neg hne, isAvailable, hchild]
  intro p k q th' b0 hth' hth_real hb0 hq
  rw [hget] at hth'
  split at hth'
  case isTrue =>
    cases hth'
    simp [PsoThread.new] at hb0
  case isFalse hp =>
    obtain ⟨th, hth, rfl⟩ := Option.map_eq_some_iff.mp hth'
    by_cases hpid : pid = p
    · subst hpid
      rw [hthread, Option.some.injEq] at hth
      subst hth
      simp only [if_true] at hb0 hq ⊢
      by_cases hk : k = thread.auxToByte.length
      · subst hk
        rw [List.getElem?_concat_length, Option.some.injEq] at hb0
        rw [← hlength, List.getElem?_concat_length, Option.some.injEq] at hq
        subst hb0 hq
        rw [isAvailable, hget, if_pos rfl]
        simpa [PsoThread.new] using exists_pushPending_self ml
      · have hlt := (List.getElem?_eq_some_iff.mp hb0).1
        rw [List.length_append, List.length_singleton] at hlt
        rw [List.getElem?_append_left (by omega)] at hb0
        rw [List.getElem?_append_left (by omega)] at hq
        have hne : b0 ≠ ml.1.addr := by
          rintro rfl
          rw [(hlinked.byteToAux hthread).mpr hb0] at haux
          cases haux
        rw [hold hthread hreal hb0 hq]
        exact (exists_pushPending_iff hne).symm
    · simp only [if_neg hpid] at hth_real hb0 hq ⊢
      exact hold hth hth_real hb0 hq

/-- Marking a real thread does not concern the auxiliary threads. -/
theorem NoneStranded.mark (hlinked : Linked s) (h : NoneStranded s) {pid : ℕ} {thread : PsoThread}
    (hthread : s.threads[pid]? = some thread) (hreal : thread.aux = none) (available : Bool) :
    NoneStranded (s.modifyThread pid fun th => { th with available := available }) := by
  intro p k q th' b0 hth' hth_real hb0 hq
  rw [getElem?_modifyThread] at hth'
  obtain ⟨th, hth, rfl⟩ := Option.map_eq_some_iff.mp hth'
  have hb0' : th.auxToByte[k]? = some b0 := by
    split at hb0
    · exact hb0
    · exact hb0
  have hq' : th.auxToIpid[k]? = some q := by
    split at hq
    · exact hq
    · exact hq
  have hth_real' : th.aux = none := by
    split at hth_real
    · exact hth_real
    · exact hth_real
  have hne : q ≠ pid := by
    rintro rfl
    obtain ⟨child, hchild, haux, -⟩ := hlinked.child hth hq'
    rw [hthread, Option.some.injEq] at hchild
    subst hchild
    rw [hreal] at haux
    cases haux
  rw [isAvailable_modifyThread_of_ne hne, h hth hth_real' hb0' hq']
  split <;> rfl

theorem initial_noneStranded : NoneStranded initial := by
  intro p k q thread b0 hthread _ hb0
  have hmem := List.mem_of_getElem? hthread
  obtain rfl : thread = PsoThread.new 0 none none := by simpa [initial] using hmem
  simp [PsoThread.new] at hb0

/-! ### Updates -/

/-- What is known when an auxiliary thread performs an update. -/
theorem auxFront_eq_some {pid tipid : ℕ} {b0 : SymAddr} {ml : SymAddrSize}
    (h : s.auxFront pid = some (tipid, b0, ml)) :
    ∃ (child parent : PsoThread) (k : ℕ) (rest : List PendingStoreByte),
      s.threads[pid]? = some child ∧ child.aux = some k ∧ child.parent = some tipid ∧
        s.threads[tipid]? = some parent ∧ parent.auxToByte[k]? = some b0 ∧
        parent.storeBuffers b0 = ⟨ml⟩ :: rest := by
  obtain ⟨child, hchild, h⟩ := Option.bind_eq_some_iff.mp h
  obtain ⟨k, hk, h⟩ := Option.bind_eq_some_iff.mp h
  obtain ⟨tipid', hparent, h⟩ := Option.bind_eq_some_iff.mp h
  obtain ⟨parent, hthread, h⟩ := Option.bind_eq_some_iff.mp h
  obtain ⟨b0', hb0, h⟩ := Option.bind_eq_some_iff.mp h
  obtain ⟨pst, hhead, h⟩ := Option.bind_eq_some_iff.mp h
  cases h
  cases hbuffer : parent.storeBuffers b0 with
  | nil => simp [hbuffer] at hhead
  | cons pst' rest =>
      rw [hbuffer, List.head?_cons, Option.some.injEq] at hhead
      subst hhead
      exact ⟨child, parent, k, rest, hchild, hk, hparent, hthread, hb0, hbuffer⟩

/-- An update from a good state leads to a good state exactly if it is not mistimed. -/
theorem noneStranded_update_iff (hlinked : Linked s) (h : NoneStranded s) {pid tipid : ℕ}
    {b0 : SymAddr} {ml : SymAddrSize} (hfront : s.auxFront pid = some (tipid, b0, ml))
    (havailable : s.isAvailable pid = true) (hhead : s.isAuxAtHead pid = true)
    (haddr : ml.addr = b0) :
    NoneStranded (s.update pid tipid ml) ↔ s.empties tipid ml ≠ s.hasFurther tipid b0 := by
  obtain ⟨child, parent, aux, rest, hchild, haux, hparent, hthread, hb0, hbuffer⟩ :=
    auxFront_eq_some hfront
  obtain ⟨range, hrange⟩ := hlinked.ranged hthread (b := b0) (by rw [hbuffer]; exact List.mem_cons_self)
  simp only at hrange
  subst hrange
  obtain ⟨parentPid, parent', hparent', hthread', hpid⟩ := hlinked.parent hchild haux
  rw [hparent, Option.some.injEq] at hparent'
  subst hparent'
  rw [hthread, Option.some.injEq] at hthread'
  subst hthread'
  have hparent_real : parent.aux = none := by
    cases hnone : parent.aux with
    | none => rfl
    | some j => simp [hlinked.aux_empty hthread hnone] at hb0
  have hget := getElem?_foldl_popPending s tipid pid (nodup_bytes range)
  have hany : (range.1.bytes.any fun b => (s.pending tipid b).tail.isEmpty) =
      s.empties tipid range.1 := rfl
  have hb0_mem : b0 ∈ range.1.bytes := haddr ▸ mem_bytes_addr range
  have hfurther : s.hasFurther tipid b0 = true ↔
      ∃ pst ∈ (parent.storeBuffers b0).tail, pst.ml.addr = b0 := by
    simp [hasFurther, pending_eq hthread]
  -- The auxiliary thread itself.
  have hself : ((s.update pid tipid range.1).isAvailable pid = true ↔
      ∃ pst ∈ (parent.storeBuffers b0).tail, pst.ml.addr = b0) ↔
        s.empties tipid range.1 ≠ s.hasFurther tipid b0 := by
    rw [← hfurther, update, isAvailable_map hget, hchild, Option.any_some, hany]
    rw [isAvailable, hchild, Option.any_some] at havailable
    rw [havailable]
    cases s.empties tipid range.1 <;> cases s.hasFurther tipid b0 <;> simp
  constructor
  · intro hgood
    apply hself.mp
    have hthread' : (s.update pid tipid range.1).threads[tipid]? = _ := hget tipid
    rw [hthread, Option.map_some] at hthread'
    have hiff := hgood hthread' hparent_real hb0 hpid
    simpa [hb0_mem] using hiff
  · intro htimed p k q th' c hth' hth_real hc hq
    rw [update, hget] at hth'
    obtain ⟨th, hth, rfl⟩ := Option.map_eq_some_iff.mp hth'
    simp only at hth_real hc hq ⊢
    by_cases hqp : pid = q
    · subst hqp
      obtain ⟨rfl, rfl⟩ := hlinked.owner_inj hthread hpid hth hq
      rw [hthread, Option.some.injEq] at hth
      subst hth
      rw [hb0, Option.some.injEq] at hc
      subst hc
      simpa [hb0_mem] using hself.mpr htimed
    · have hsame : (s.update pid tipid range.1).isAvailable q = s.isAvailable q := by
        rw [update, isAvailable_map hget, isAvailable]
        simp [hqp]
      rw [hsame, h hth hth_real hc hq]
      by_cases hp : tipid = p
      · subst hp
        rw [hthread, Option.some.injEq] at hth
        subst hth
        have hne : c ≠ b0 := by
          rintro rfl
          obtain rfl := hlinked.aux_inj hthread hb0 hc
          rw [hpid, Option.some.injEq] at hq
          exact hqp hq
        rw [if_pos rfl]
        by_cases hmem : c ∈ range.1.bytes
        · rw [if_pos hmem]
          -- The oldest entry of the byte is the store that is performed.
          rw [isAuxAtHead, hfront, Option.any_some, List.all_eq_true] at hhead
          have hfirst := hhead c hmem
          rw [pending_eq hthread] at hfirst
          cases hcbuffer : parent.storeBuffers c with
          | nil => simp [hcbuffer, hne] at hfirst
          | cons pst rest' =>
              simp only [hcbuffer, hne, decide_false, Bool.false_or, List.head?_cons,
                Option.any_some, decide_eq_true_eq] at hfirst
              simp only [List.tail_cons, List.mem_cons, exists_eq_or_imp, or_iff_right_iff_imp]
              intro hpst
              exact absurd (hpst.symm.trans hfirst) hne
        · rw [if_neg hmem]
      · rw [if_neg hp]

/-! ### Runs -/

theorem step_linked {turn : Turn} (h : Linked s) (hstep : s.step turn = some t) : Linked t := by
  cases turn with
  | spawn pid =>
      rw [step, Option.ite_none_right_eq_some] at hstep
      obtain ⟨-, hstep⟩ := hstep
      cases hstep
      exact h.spawn pid
  | store pid ml =>
      rw [step, Option.ite_none_right_eq_some] at hstep
      obtain ⟨hrun, hstore⟩ := hstep
      obtain ⟨thread, hthread, hreal, -⟩ := isRunnable_iff.mp hrun
      cases haux : thread.byteToAux ml.1.addr with
      | none => exact h.store_none hthread hreal haux hstore
      | some aux =>
          obtain ⟨updIpid, hupd⟩ := h.exists_auxToIpid hthread haux
          obtain ⟨hproc, hget⟩ := getElem?_store_some hthread haux hupd hstore
          refine h.of_map hproc hget fun {i th b pst} hth hpst => ?_
          split at hpst
          · exact pushPending_ranged h hth hpst
          · exact h.ranged hth hpst
  | update pid =>
      obtain ⟨⟨tipid, b0, ml⟩, hfront, hstep⟩ := Option.bind_eq_some_iff.mp hstep
      rw [Option.ite_none_right_eq_some] at hstep
      obtain ⟨-, hstep⟩ := hstep
      cases hstep
      obtain ⟨child, parent, aux, rest, -, -, -, hthread, -, hbuffer⟩ := auxFront_eq_some hfront
      obtain ⟨range, hrange⟩ :=
        h.ranged hthread (b := b0) (by rw [hbuffer]; exact List.mem_cons_self)
      simp only at hrange
      subst hrange
      refine h.of_map (procToIpid_foldl_popPending _) (getElem?_foldl_popPending s _ _ (nodup_bytes range))
        fun {i th b pst} hth hpst => ?_
      split at hpst
      · beta_reduce at hpst
        split at hpst
        · exact h.ranged hth (List.mem_of_mem_tail hpst)
        · exact h.ranged hth hpst
      · exact h.ranged hth hpst
  | markAvailable proc =>
      obtain ⟨pid, -, rfl⟩ := Option.map_eq_some_iff.mp hstep
      exact h.mark pid true
  | markUnavailable proc =>
      obtain ⟨pid, -, rfl⟩ := Option.map_eq_some_iff.mp hstep
      exact h.mark pid false
  | reset =>
      cases hstep
      exact initial_linked

theorem step_noneStranded_iff {turn : Turn} (hlinked : Linked s) (h : NoneStranded s)
    (hstep : s.step turn = some t) : NoneStranded t ↔ s.mistimed turn = false := by
  have hkept : NoneStranded t → s.mistimed turn = false →
      (NoneStranded t ↔ s.mistimed turn = false) := fun hgood hturn => ⟨fun _ => hturn, fun _ => hgood⟩
  cases turn with
  | spawn pid =>
      rw [step, Option.ite_none_right_eq_some] at hstep
      obtain ⟨-, hstep⟩ := hstep
      cases hstep
      exact hkept (h.spawn hlinked pid) rfl
  | store pid ml =>
      rw [step, Option.ite_none_right_eq_some] at hstep
      obtain ⟨hrun, hstore⟩ := hstep
      obtain ⟨thread, hthread, hreal, -⟩ := isRunnable_iff.mp hrun
      refine hkept ?_ rfl
      cases haux : thread.byteToAux ml.1.addr with
      | none => exact h.store_none hlinked hthread haux hreal hstore
      | some aux =>
          obtain ⟨updIpid, hupd⟩ := hlinked.exists_auxToIpid hthread haux
          exact h.store_some hlinked hthread haux hupd hstore
  | update pid =>
      obtain ⟨⟨tipid, b0, ml⟩, hfront, hstep⟩ := Option.bind_eq_some_iff.mp hstep
      rw [Option.ite_none_right_eq_some] at hstep
      obtain ⟨hguard, hstep⟩ := hstep
      cases hstep
      simp only [Bool.and_eq_true, decide_eq_true_eq] at hguard
      obtain ⟨⟨havailable, hhead⟩, haddr⟩ := hguard
      rw [noneStranded_update_iff hlinked h hfront havailable hhead haddr]
      simp [mistimed, hfront]
  | markAvailable proc =>
      obtain ⟨pid, hpid, rfl⟩ := Option.map_eq_some_iff.mp hstep
      obtain ⟨thread, hthread, hreal⟩ := hlinked.proc_real (List.mem_of_getElem? hpid)
      exact hkept (h.mark hlinked hthread hreal true) rfl
  | markUnavailable proc =>
      obtain ⟨pid, hpid, rfl⟩ := Option.map_eq_some_iff.mp hstep
      obtain ⟨thread, hthread, hreal⟩ := hlinked.proc_real (List.mem_of_getElem? hpid)
      exact hkept (h.mark hlinked hthread hreal false) rfl
  | reset =>
      cases hstep
      exact hkept initial_noneStranded rfl

/-- No store is stranded and no auxiliary thread is available in vain in any state of a run if
and only if each update empties the buffer of one of its bytes exactly if it is the last one
that starts at its address. -/
theorem noneStranded_iff {turns : List Turn} (hrun : run step initial turns = some t) :
    AlwaysAlong step NoneStranded initial turns ↔ NeverAlong step mistimed initial turns :=
  good_iff_never (fun _ _ _ h hstep => step_linked h hstep)
    (fun _ _ _ hlinked h hstep => step_noneStranded_iff hlinked h hstep) initial_linked
    initial_noneStranded hrun

/-- Two stores of one size to one address, the first of which is performed. -/
def twoStores : List Turn :=
  [.store 0 ⟨⟨⟨SymMBlock.global 0, 0⟩, 2⟩, by decide⟩,
    .store 0 ⟨⟨⟨SymMBlock.global 0, 0⟩, 2⟩, by decide⟩, .update 1]

theorem noneStranded_twoStores : (run step initial twoStores).isSome = true ∧
    (AlwaysAlong step NoneStranded initial twoStores ↔
      NeverAlong step mistimed initial twoStores) := by
  obtain ⟨s, hs⟩ : ∃ s, run step initial twoStores = some s := ⟨_, rfl⟩
  exact ⟨by rw [hs]; rfl, noneStranded_iff hs⟩

/-- A store of two bytes and a store of its first byte, the first of which is performed. -/
def shorterStore : List Turn :=
  [.store 0 ⟨⟨⟨SymMBlock.global 0, 0⟩, 2⟩, by decide⟩,
    .store 0 ⟨⟨⟨SymMBlock.global 0, 0⟩, 1⟩, by decide⟩, .update 1]

/-- The second store is still pending, but its auxiliary thread is not available. -/
theorem not_noneStranded_shorterStore :
    ∃ s, run step initial shorterStore = some s ∧ ¬ NoneStranded s := by
  refine ⟨_, rfl, fun h => ?_⟩
  have hiff := @h 0 0 1 _ ⟨SymMBlock.global 0, 0⟩ rfl rfl rfl rfl
  have havailable := hiff.mpr ⟨⟨⟨⟨SymMBlock.global 0, 0⟩, 1⟩⟩, by decide, rfl⟩
  revert havailable
  decide

end Nidhugg.PsoTraceBuilder
