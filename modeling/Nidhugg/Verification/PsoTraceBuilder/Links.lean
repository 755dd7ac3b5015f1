import Nidhugg.Model.PsoTraceBuilder
import Mathlib.Data.List.Nodup
import Mathlib.Order.Nat

/-! # Threads and their auxiliary threads under PSO

What each operation does to the table of threads, and the links between a thread and its
auxiliary threads that all of them keep. -/

namespace Nidhugg.PsoTraceBuilder

variable {s t : PsoTraceBuilder}

/-! ### Equations -/

theorem getElem?_modifyThread (pid i : ℕ) (f : PsoThread → PsoThread) :
    (s.modifyThread pid f).threads[i]? =
      s.threads[i]?.map fun t => if pid = i then f t else t := by
  simp only [modifyThread, List.getElem?_modify, Option.map_eq_map]

theorem isAvailable_modifyThread_of_ne {pid q : ℕ} {f : PsoThread → PsoThread} (hq : q ≠ pid) :
    (s.modifyThread pid f).isAvailable q = s.isAvailable q := by
  simp only [isAvailable, getElem?_modifyThread, if_neg hq.symm, Option.map_id']

theorem mem_bytes_addr (ml : StoreRange) : ml.1.addr ∈ ml.1.bytes := by
  refine List.mem_map.mpr ⟨0, List.mem_range.mpr ml.2.2.1, ?_⟩
  rw [SymAddr.add, Nat.add_zero, Nat.mod_eq_of_lt ml.2.1]

theorem nodup_bytes (ml : StoreRange) : ml.1.bytes.Nodup := by
  have hsize := ml.2.2.2
  refine List.Nodup.map_on ?_ List.nodup_range
  intro i hi j hj h
  rw [List.mem_range] at hi hj
  simp only [SymAddr.add, SymAddr.mk.injEq, true_and] at h
  omega

/-- The buffers after a store. -/
theorem mem_pushPending {thread : PsoThread} {ml : SymAddrSize} {b : SymAddr}
    {pst : PendingStoreByte} : pst ∈ (pushPending thread ml).storeBuffers b ↔
      pst ∈ thread.storeBuffers b ∨ (b ∈ ml.bytes ∧ pst = ⟨ml⟩) := by
  have hfold : ∀ (bytes : List SymAddr) (buffers : SymAddr → List PendingStoreByte),
      pst ∈ bytes.foldl (fun buffers b => Function.update buffers b (buffers b ++ [⟨ml⟩])) buffers b ↔
        pst ∈ buffers b ∨ (b ∈ bytes ∧ pst = ⟨ml⟩) := by
    intro bytes
    induction bytes with
    | nil => simp
    | cons c bytes ih =>
        intro buffers
        rw [List.foldl_cons, ih]
        by_cases hb : b = c
        · subst hb
          simp only [Function.update_self, List.mem_append, List.mem_cons, true_or, true_and]
          tauto
        · simp [hb]
  exact hfold ml.bytes thread.storeBuffers

theorem pending_eq {pid : ℕ} {thread : PsoThread} (h : s.threads[pid]? = some thread)
    (b : SymAddr) : s.pending pid b = thread.storeBuffers b := by
  simp [pending, h]

/-- What one turn of the loop of an update changes. -/
theorem getElem?_popPending {tipid uipid : ℕ} (b : SymAddr) (i : ℕ) :
    (popPending tipid uipid s b).threads[i]? = s.threads[i]?.map fun thread =>
      { thread with
        available := thread.available &&
          !(decide (uipid = i) && (s.pending tipid b).tail.isEmpty)
        storeBuffers := if tipid = i then
            Function.update thread.storeBuffers b (thread.storeBuffers b).tail
          else thread.storeBuffers } := by
  cases hi : s.threads[i]? with
  | none =>
      rw [popPending]
      split
      · rw [markUnavailableIpid, getElem?_modifyThread, getElem?_modifyThread, hi]
        rfl
      · rw [getElem?_modifyThread, hi]
        rfl
  | some thread =>
      have hbuffers : (if tipid = i then
          { thread with storeBuffers := Function.update thread.storeBuffers b (s.pending tipid b).tail }
            else thread) =
          { thread with storeBuffers := if tipid = i then
            Function.update thread.storeBuffers b (thread.storeBuffers b).tail
              else thread.storeBuffers } := by
        by_cases htipid : tipid = i
        · rw [htipid, pending_eq hi, if_pos rfl, if_pos rfl]
        · rw [if_neg htipid, if_neg htipid]
      rw [popPending]
      cases hempty : (s.pending tipid b).tail.isEmpty with
      | false =>
          simp only [Bool.false_eq_true, if_false]
          rw [getElem?_modifyThread, hi, Option.map_some, hbuffers]
          simp
      | true =>
          simp only [if_true]
          rw [markUnavailableIpid, getElem?_modifyThread, getElem?_modifyThread, hi, Option.map_some,
            Option.map_some, hbuffers]
          by_cases huipid : uipid = i
          · simp [huipid]
          · simp [huipid]

theorem pending_popPending {tipid uipid : ℕ} {b c : SymAddr} (hc : c ≠ b) :
    (popPending tipid uipid s b).pending tipid c = s.pending tipid c := by
  cases h : s.threads[tipid]? with
  | none => simp [pending, getElem?_popPending, h]
  | some thread => simp [pending, getElem?_popPending, h, Function.update_of_ne hc]

/-- The state after the loop of an update over different bytes. -/
theorem getElem?_foldl_popPending (s : PsoTraceBuilder) (tipid uipid : ℕ)
    {bytes : List SymAddr} (hnodup : bytes.Nodup) (i : ℕ) :
    (bytes.foldl (popPending tipid uipid) s).threads[i]? = s.threads[i]?.map fun thread =>
      { thread with
        available := thread.available &&
          !(decide (uipid = i) && bytes.any fun b => (s.pending tipid b).tail.isEmpty)
        storeBuffers := if tipid = i then
            fun b => if b ∈ bytes then (thread.storeBuffers b).tail else thread.storeBuffers b
          else thread.storeBuffers } := by
  induction bytes generalizing s with
  | nil => simp
  | cons c bytes ih =>
      rw [List.nodup_cons] at hnodup
      obtain ⟨hc, hnodup⟩ := hnodup
      have hany : (bytes.any fun b => ((popPending tipid uipid s c).pending tipid b).tail.isEmpty) =
          bytes.any fun b => (s.pending tipid b).tail.isEmpty := by
        rw [Bool.eq_iff_iff, List.any_eq_true, List.any_eq_true]
        apply exists_congr
        intro b
        apply and_congr_right
        intro hb
        have hbc : b ≠ c := by
          rintro rfl
          exact hc hb
        rw [pending_popPending hbc]
      rw [List.foldl_cons, ih _ hnodup, getElem?_popPending, Option.map_map, hany]
      congr 1
      funext thread
      simp only [Function.comp_apply, List.any_cons, PsoThread.mk.injEq, true_and]
      refine ⟨?_, ?_⟩
      · cases thread.available <;> cases decide (uipid = i) <;> simp
      · by_cases htipid : tipid = i
        · simp only [htipid, if_true]
          funext b
          by_cases hb : b = c
          · subst hb
            simp [hc]
          · simp [hb]
        · simp only [if_neg htipid]

theorem procToIpid_foldl_popPending {tipid uipid : ℕ} (bytes : List SymAddr) :
    (bytes.foldl (popPending tipid uipid) s).procToIpid = s.procToIpid := by
  induction bytes generalizing s with
  | nil => rfl
  | cons b bytes ih =>
      rw [List.foldl_cons, ih, popPending]
      split <;> rfl

/-! ### The links between threads and their auxiliary threads -/

/-- A thread and its auxiliary threads know each other. -/
structure Linked (s : PsoTraceBuilder) : Prop where
  proc_real : ∀ {q : ℕ}, q ∈ s.procToIpid →
    ∃ thread : PsoThread, s.threads[q]? = some thread ∧ thread.aux = none
  aux_empty : ∀ {p k : ℕ} {thread : PsoThread}, s.threads[p]? = some thread →
    thread.aux = some k → thread.auxToByte = []
  byteToAux : ∀ {p k : ℕ} {thread : PsoThread} {b : SymAddr}, s.threads[p]? = some thread →
    (thread.byteToAux b = some k ↔ thread.auxToByte[k]? = some b)
  length_eq : ∀ {p : ℕ} {thread : PsoThread}, s.threads[p]? = some thread →
    thread.auxToIpid.length = thread.auxToByte.length
  child : ∀ {p k q : ℕ} {thread : PsoThread}, s.threads[p]? = some thread →
    thread.auxToIpid[k]? = some q →
    ∃ child : PsoThread, s.threads[q]? = some child ∧ child.aux = some k ∧ child.parent = some p
  parent : ∀ {q k : ℕ} {child : PsoThread}, s.threads[q]? = some child → child.aux = some k →
    ∃ (p : ℕ) (thread : PsoThread), child.parent = some p ∧ s.threads[p]? = some thread ∧
      thread.auxToIpid[k]? = some q
  ranged : ∀ {p : ℕ} {thread : PsoThread} {b : SymAddr} {pst : PendingStoreByte},
    s.threads[p]? = some thread → pst ∈ thread.storeBuffers b → ∃ ml : StoreRange, pst.ml = ml.1

theorem initial_linked : Linked initial := by
  have hthread : ∀ {p : ℕ} {thread : PsoThread}, initial.threads[p]? = some thread →
      thread = PsoThread.new 0 none none := by
    intro p thread h
    have hmem := List.mem_of_getElem? h
    simpa [initial] using hmem
  constructor
  case proc_real =>
    intro q hq
    obtain rfl : q = 0 := by simpa [initial] using hq
    exact ⟨_, rfl, rfl⟩
  case aux_empty =>
    intro p k thread h haux
    rw [hthread h] at haux
    cases haux
  case byteToAux =>
    intro p k thread b h
    rw [hthread h]
    simp [PsoThread.new]
  case length_eq =>
    intro p thread h
    rw [hthread h]
    rfl
  case child =>
    intro p k q thread h hq
    rw [hthread h] at hq
    simp [PsoThread.new] at hq
  case parent =>
    intro q k child h haux
    rw [hthread h] at haux
    cases haux
  case ranged =>
    intro p thread b pst h hpst
    rw [hthread h] at hpst
    simp [PsoThread.new] at hpst

/-- The links of a thread are the same after an operation that only changes buffers and
availability. -/
theorem Linked.of_map {f : ℕ → PsoThread → Bool} {g : ℕ → PsoThread → SymAddr → List PendingStoreByte}
    (h : Linked s) (hproc : t.procToIpid = s.procToIpid)
    (hthreads : ∀ i : ℕ, t.threads[i]? = s.threads[i]?.map fun thread : PsoThread =>
      { thread with available := f i thread, storeBuffers := g i thread })
    (hranged : ∀ {i : ℕ} {thread : PsoThread} {b : SymAddr} {pst : PendingStoreByte},
      s.threads[i]? = some thread → pst ∈ g i thread b → ∃ ml : StoreRange, pst.ml = ml.1) :
    Linked t := by
  have hback : ∀ {p : ℕ} {thread' : PsoThread}, t.threads[p]? = some thread' →
      ∃ thread : PsoThread, s.threads[p]? = some thread ∧
        thread' = { thread with available := f p thread, storeBuffers := g p thread } := by
    intro p thread' hthread'
    rw [hthreads, Option.map_eq_some_iff] at hthread'
    obtain ⟨thread, hthread, rfl⟩ := hthread'
    exact ⟨thread, hthread, rfl⟩
  have hforth : ∀ {p : ℕ} {thread : PsoThread}, s.threads[p]? = some thread →
      t.threads[p]? = some { thread with available := f p thread, storeBuffers := g p thread } := by
    intro p thread hthread
    rw [hthreads, hthread, Option.map_some]
  constructor
  case proc_real =>
    intro q hq
    rw [hproc] at hq
    obtain ⟨thread, hthread, haux⟩ := h.proc_real hq
    exact ⟨_, hforth hthread, haux⟩
  case aux_empty =>
    intro p k thread' hthread' haux
    obtain ⟨thread, hthread, rfl⟩ := hback hthread'
    have hempty := h.aux_empty hthread haux
    exact hempty
  case byteToAux =>
    intro p k thread' b hthread'
    obtain ⟨thread, hthread, rfl⟩ := hback hthread'
    have hiff := h.byteToAux (b := b) (k := k) hthread
    exact hiff
  case length_eq =>
    intro p thread' hthread'
    obtain ⟨thread, hthread, rfl⟩ := hback hthread'
    have heq := h.length_eq hthread
    exact heq
  case child =>
    intro p k q thread' hthread' hq
    obtain ⟨thread, hthread, rfl⟩ := hback hthread'
    obtain ⟨child, hchild, haux, hparent⟩ := h.child hthread hq
    exact ⟨_, hforth hchild, haux, hparent⟩
  case parent =>
    intro q k child' hchild' haux
    obtain ⟨child, hchild, rfl⟩ := hback hchild'
    obtain ⟨p, thread, hparent, hthread, hq⟩ := h.parent hchild haux
    exact ⟨p, _, hparent, hforth hthread, hq⟩
  case ranged =>
    intro p thread' b pst hthread' hpst
    obtain ⟨thread, hthread, rfl⟩ := hback hthread'
    exact hranged hthread hpst

/-! ### Every step keeps the links -/

theorem isRunnable_iff {pid : ℕ} : s.isRunnable pid = true ↔
    ∃ thread : PsoThread, s.threads[pid]? = some thread ∧ thread.aux = none ∧
      thread.available = true := by
  cases h : s.threads[pid]? with
  | none => simp [isRunnable, h]
  | some thread => simp [isRunnable, h]

/-- The state after a store whose auxiliary thread exists. -/
theorem getElem?_store_some {pid aux updIpid : ℕ} {thread : PsoThread} {ml : SymAddrSize}
    (hthread : s.threads[pid]? = some thread) (haux : thread.byteToAux ml.addr = some aux)
    (hupd : thread.auxToIpid[aux]? = some updIpid) (hstore : s.store pid ml = some t) :
    t.procToIpid = s.procToIpid ∧
      ∀ i : ℕ, t.threads[i]? = s.threads[i]?.map fun thread : PsoThread =>
        { thread with
          available := if updIpid = i then true else thread.available
          storeBuffers := if pid = i then (pushPending thread ml).storeBuffers
            else thread.storeBuffers } := by
  simp only [store, hthread, haux, hupd, Option.bind_eq_bind, Option.bind_some] at hstore
  cases hstore
  refine ⟨rfl, fun i => ?_⟩
  rw [markAvailableIpid, getElem?_modifyThread, getElem?_modifyThread, Option.map_map]
  congr 1
  funext thread
  simp only [Function.comp_apply]
  split <;> split <;> rfl

/-- The state after the first store to an address. -/
theorem getElem?_store_none {pid : ℕ} {thread : PsoThread} {ml : SymAddrSize}
    (hthread : s.threads[pid]? = some thread) (haux : thread.byteToAux ml.addr = none)
    (hstore : s.store pid ml = some t) : t.procToIpid = s.procToIpid ∧
      ∀ i : ℕ, t.threads[i]? =
        if i = s.threads.length then
          some (PsoThread.new thread.proc (some thread.auxToByte.length) (some pid))
        else s.threads[i]?.map fun th : PsoThread =>
          if pid = i then
            { pushPending th ml with
              byteToAux := Function.update th.byteToAux ml.addr (some thread.auxToByte.length)
              auxToByte := th.auxToByte ++ [ml.addr]
              auxToIpid := th.auxToIpid ++ [s.threads.length] }
          else th := by
  have hpid : pid < s.threads.length := (List.getElem?_eq_some_iff.mp hthread).1
  simp only [store, hthread, haux, Option.bind_eq_bind, Option.bind_some] at hstore
  cases hstore
  refine ⟨rfl, fun i => ?_⟩
  rw [markAvailableIpid, getElem?_modifyThread, getElem?_modifyThread]
  simp only [modifyThread]
  rcases Nat.lt_trichotomy i s.threads.length with hi | rfl | hi
  · rw [List.getElem?_append_left (by simpa using hi), if_neg hi.ne, List.getElem?_modify,
      Option.map_map, Option.map_eq_map, Option.map_map]
    congr 1
    funext th
    simp only [Function.comp_apply, if_neg hi.ne']
    split
    · rfl
    · rfl
  · rw [List.getElem?_append_right (by simp)]
    simp [hpid.ne, PsoThread.new]
  · rw [List.getElem?_append_right (by simp; omega), if_neg hi.ne',
      List.getElem?_eq_none (by simp; omega), List.getElem?_eq_none (by omega)]
    rfl

theorem getElem?_spawn (pid i : ℕ) : ∃ proc, (s.spawn pid).threads[i]? =
    if i = s.threads.length then some (PsoThread.new proc none (some pid)) else s.threads[i]? := by
  refine ⟨(s.threads.map PsoThread.proc).foldl (fun m p => max m (p + 1)) 0, ?_⟩
  rcases Nat.lt_trichotomy i s.threads.length with hi | rfl | hi
  · rw [if_neg hi.ne]
    simp only [spawn]
    rw [List.getElem?_append_left hi]
  · rw [if_pos rfl]
    exact List.getElem?_concat_length
  · rw [if_neg hi.ne', List.getElem?_eq_none hi.le]
    simp only [spawn]
    rw [List.getElem?_eq_none]
    simp
    omega

/-- Adding a thread without auxiliary threads keeps all links. -/
theorem Linked.spawn (h : Linked s) (pid : ℕ) : Linked (s.spawn pid) := by
  have hold : ∀ {p : ℕ} {thread : PsoThread}, s.threads[p]? = some thread →
      (s.spawn pid).threads[p]? = some thread := by
    intro p thread hthread
    have hp : p < s.threads.length := (List.getElem?_eq_some_iff.mp hthread).1
    obtain ⟨proc, hget⟩ := getElem?_spawn (s := s) pid p
    rw [hget, if_neg hp.ne, hthread]
  have hnew : ∀ {p : ℕ} {thread : PsoThread}, (s.spawn pid).threads[p]? = some thread →
      s.threads[p]? = some thread ∨ ∃ proc, thread = PsoThread.new proc none (some pid) := by
    intro p thread hthread
    obtain ⟨proc, hget⟩ := getElem?_spawn (s := s) pid p
    rw [hget] at hthread
    split at hthread
    · exact .inr ⟨proc, (Option.some.inj hthread).symm⟩
    · exact .inl hthread
  constructor
  case proc_real =>
    intro q hq
    rcases List.mem_append.mp hq with hq | hq
    · obtain ⟨thread, hthread, haux⟩ := h.proc_real hq
      exact ⟨thread, hold hthread, haux⟩
    · obtain rfl : q = s.threads.length := by simpa using hq
      obtain ⟨proc, hget⟩ := getElem?_spawn (s := s) pid s.threads.length
      rw [if_pos rfl] at hget
      exact ⟨_, hget, rfl⟩
  case aux_empty =>
    intro p k thread hthread haux
    rcases hnew hthread with hthread | ⟨proc, rfl⟩
    · exact h.aux_empty hthread haux
    · rfl
  case byteToAux =>
    intro p k thread b hthread
    rcases hnew hthread with hthread | ⟨proc, rfl⟩
    · exact h.byteToAux hthread
    · simp [PsoThread.new]
  case length_eq =>
    intro p thread hthread
    rcases hnew hthread with hthread | ⟨proc, rfl⟩
    · exact h.length_eq hthread
    · rfl
  case child =>
    intro p k q thread hthread hq
    rcases hnew hthread with hthread | ⟨proc, rfl⟩
    · obtain ⟨child, hchild, haux, hparent⟩ := h.child hthread hq
      exact ⟨child, hold hchild, haux, hparent⟩
    · simp [PsoThread.new] at hq
  case parent =>
    intro q k child hchild haux
    rcases hnew hchild with hchild | ⟨proc, rfl⟩
    · obtain ⟨p, thread, hparent, hthread, hq⟩ := h.parent hchild haux
      exact ⟨p, thread, hparent, hold hthread, hq⟩
    · cases haux
  case ranged =>
    intro p thread b pst hthread hpst
    rcases hnew hthread with hthread | ⟨proc, rfl⟩
    · exact h.ranged hthread hpst
    · simp [PsoThread.new] at hpst

theorem pushPending_ranged (h : Linked s) {p : ℕ} {thread : PsoThread} {b : SymAddr}
    {pst : PendingStoreByte} {ml : StoreRange} (hthread : s.threads[p]? = some thread)
    (hpst : pst ∈ (pushPending thread ml.1).storeBuffers b) :
    ∃ ml' : StoreRange, pst.ml = ml'.1 := by
  rcases mem_pushPending.mp hpst with hpst | ⟨-, rfl⟩
  · exact h.ranged hthread hpst
  · exact ⟨ml, rfl⟩

/-! ### The first store to an address -/

theorem getElem?_concat_eq_some_iff {α : Type*} {l : List α} {k : ℕ} {x y : α} :
    (l ++ [x])[k]? = some y ↔ l[k]? = some y ∨ k = l.length ∧ x = y := by
  rw [List.getElem?_append]
  split
  · rename_i hk
    exact (or_iff_left fun h => hk.ne h.1).symm
  · rename_i hk
    rw [List.getElem?_singleton, List.getElem?_eq_none (Nat.le_of_not_lt hk)]
    grind

/-- A thread after its first store to an address. -/
def withAux (thread : PsoThread) (ml : SymAddrSize) (ipid : ℕ) : PsoThread :=
  { pushPending thread ml with
    byteToAux := Function.update thread.byteToAux ml.addr (some thread.auxToByte.length)
    auxToByte := thread.auxToByte ++ [ml.addr]
    auxToIpid := thread.auxToIpid ++ [ipid] }

/-- Each thread after the first store of a real thread to an address is new, the one that stores,
or unchanged. -/
structure FirstStore (s t : PsoTraceBuilder) (pid : ℕ) (thread : PsoThread) (ml : SymAddrSize) :
    Prop where
  before : s.threads[pid]? = some thread
  real : thread.aux = none
  fresh : thread.byteToAux ml.addr = none
  proc : t.procToIpid = s.procToIpid
  self : t.threads[pid]? = some (withAux thread ml s.threads.length)
  new : t.threads[s.threads.length]? =
    some (PsoThread.new thread.proc (some thread.auxToByte.length) (some pid))
  old : ∀ {p : ℕ} {th : PsoThread}, s.threads[p]? = some th → p ≠ pid → t.threads[p]? = some th
  cases : ∀ {p : ℕ} {th : PsoThread}, t.threads[p]? = some th →
    (p = s.threads.length ∧
      th = PsoThread.new thread.proc (some thread.auxToByte.length) (some pid)) ∨
    (p = pid ∧ th = withAux thread ml s.threads.length) ∨ (p ≠ pid ∧ s.threads[p]? = some th)

section

variable {pid : ℕ} {thread : PsoThread} {ml : SymAddrSize}

theorem FirstStore.of_store (hthread : s.threads[pid]? = some thread) (hreal : thread.aux = none)
    (haux : thread.byteToAux ml.addr = none) (hstore : s.store pid ml = some t) :
    FirstStore s t pid thread ml := by
  obtain ⟨hproc, hget⟩ := getElem?_store_none hthread haux hstore
  have hpid : pid < s.threads.length := (List.getElem?_eq_some_iff.mp hthread).1
  have hself : t.threads[pid]? = some (withAux thread ml s.threads.length) := by
    rw [hget, if_neg hpid.ne, hthread, Option.map_some, if_pos rfl]
    rfl
  have hnew : t.threads[s.threads.length]? =
      some (PsoThread.new thread.proc (some thread.auxToByte.length) (some pid)) := by
    rw [hget, if_pos rfl]
  refine ⟨hthread, hreal, haux, hproc, hself, hnew, ?_, ?_⟩
  · intro p th hth hp
    have hlt : p < s.threads.length := (List.getElem?_eq_some_iff.mp hth).1
    rw [hget, if_neg hlt.ne, hth, Option.map_some, if_neg hp.symm]
  · intro p th hth
    by_cases hp : p = s.threads.length
    · subst hp
      exact .inl ⟨rfl, Option.some.inj (hth.symm.trans hnew)⟩
    · by_cases hpp : p = pid
      · subst hpp
        exact .inr (.inl ⟨rfl, Option.some.inj (hth.symm.trans hself)⟩)
      · rw [hget, if_neg hp] at hth
        obtain ⟨th', hth', rfl⟩ := Option.map_eq_some_iff.mp hth
        rw [if_neg (Ne.symm hpp)]
        exact .inr (.inr ⟨hpp, hth'⟩)

theorem FirstStore.byteToAux (hs : FirstStore s t pid thread ml) (h : Linked s) {k : ℕ}
    {b : SymAddr} :
    (withAux thread ml s.threads.length).byteToAux b = some k ↔
      (withAux thread ml s.threads.length).auxToByte[k]? = some b := by
  simp only [withAux]
  rw [getElem?_concat_eq_some_iff, ← h.byteToAux hs.before]
  by_cases hb : b = ml.addr
  · subst hb
    rw [Function.update_self, Option.some.injEq, hs.fresh]
    simp [eq_comm]
  · rw [Function.update_of_ne hb]
    exact (or_iff_left fun hk => hb hk.2.symm).symm

/-- The auxiliary threads of a thread that has not stored are as before. -/
theorem FirstStore.child_of_old (hs : FirstStore s t pid thread ml) (h : Linked s) {p k q : ℕ}
    {th : PsoThread} (hth : s.threads[p]? = some th) (hq : th.auxToIpid[k]? = some q) :
    ∃ child : PsoThread, t.threads[q]? = some child ∧ child.aux = some k ∧
      child.parent = some p := by
  obtain ⟨child, hchild, hk, hparent⟩ := h.child hth hq
  refine ⟨child, hs.old hchild ?_, hk, hparent⟩
  rintro rfl
  cases hs.before.symm.trans hchild
  rw [hs.real] at hk
  cases hk

theorem FirstStore.child (hs : FirstStore s t pid thread ml) (h : Linked s) {p k q : ℕ}
    {th : PsoThread} (hth : t.threads[p]? = some th) (hq : th.auxToIpid[k]? = some q) :
    ∃ child : PsoThread, t.threads[q]? = some child ∧ child.aux = some k ∧
      child.parent = some p := by
  rcases hs.cases hth with ⟨-, rfl⟩ | ⟨rfl, rfl⟩ | ⟨-, hth⟩
  · simp [PsoThread.new] at hq
  · rcases getElem?_concat_eq_some_iff.mp hq with hq | ⟨rfl, rfl⟩
    · exact hs.child_of_old h hs.before hq
    · exact ⟨_, hs.new, by simp [PsoThread.new, h.length_eq hs.before], rfl⟩
  · exact hs.child_of_old h hth hq

theorem FirstStore.parent (hs : FirstStore s t pid thread ml) (h : Linked s) {q k : ℕ}
    {child : PsoThread} (hchild : t.threads[q]? = some child) (hk : child.aux = some k) :
    ∃ (p : ℕ) (th : PsoThread), child.parent = some p ∧ t.threads[p]? = some th ∧
      th.auxToIpid[k]? = some q := by
  rcases hs.cases hchild with ⟨rfl, rfl⟩ | ⟨rfl, rfl⟩ | ⟨hq, hchild⟩
  · obtain rfl : thread.auxToByte.length = k := Option.some.inj hk
    refine ⟨pid, _, rfl, hs.self, getElem?_concat_eq_some_iff.mpr (.inr ⟨?_, rfl⟩)⟩
    exact (h.length_eq hs.before).symm
  · simp [withAux, pushPending, hs.real] at hk
  · obtain ⟨p, th, hparent, hth, hkq⟩ := h.parent hchild hk
    by_cases hp : p = pid
    · subst hp
      cases hs.before.symm.trans hth
      exact ⟨p, _, hparent, hs.self, getElem?_concat_eq_some_iff.mpr (.inl hkq)⟩
    · exact ⟨p, th, hparent, hs.old hth hp, hkq⟩

end

/-- The first store to an address links the new auxiliary thread. -/
theorem Linked.store_none (h : Linked s) {pid : ℕ} {thread : PsoThread} {ml : StoreRange}
    (hthread : s.threads[pid]? = some thread) (hreal : thread.aux = none)
    (haux : thread.byteToAux ml.1.addr = none) (hstore : s.store pid ml.1 = some t) :
    Linked t := by
  have hs := FirstStore.of_store hthread hreal haux hstore
  constructor
  case proc_real =>
    intro q hq
    rw [hs.proc] at hq
    obtain ⟨th, hth, hnone⟩ := h.proc_real hq
    by_cases hp : q = pid
    · subst hp
      exact ⟨_, hs.self, hreal⟩
    · exact ⟨th, hs.old hth hp, hnone⟩
  case aux_empty =>
    intro p k th hth hk
    rcases hs.cases hth with ⟨-, rfl⟩ | ⟨rfl, rfl⟩ | ⟨-, hth⟩
    · rfl
    · simp [withAux, pushPending, hreal] at hk
    · exact h.aux_empty hth hk
  case byteToAux =>
    intro p k th b hth
    rcases hs.cases hth with ⟨-, rfl⟩ | ⟨rfl, rfl⟩ | ⟨-, hth⟩
    · simp [PsoThread.new]
    · exact hs.byteToAux h
    · exact h.byteToAux hth
  case length_eq =>
    intro p th hth
    rcases hs.cases hth with ⟨-, rfl⟩ | ⟨rfl, rfl⟩ | ⟨-, hth⟩
    · rfl
    · simp [withAux, h.length_eq hthread]
    · exact h.length_eq hth
  case child => exact hs.child h
  case parent => exact hs.parent h
  case ranged =>
    intro p th b pst hth hpst
    rcases hs.cases hth with ⟨-, rfl⟩ | ⟨rfl, rfl⟩ | ⟨-, hth⟩
    · simp [PsoThread.new] at hpst
    · exact pushPending_ranged h hthread hpst
    · exact h.ranged hth hpst

theorem Linked.exists_auxToIpid (h : Linked s) {p k : ℕ} {thread : PsoThread} {b : SymAddr}
    (hthread : s.threads[p]? = some thread) (haux : thread.byteToAux b = some k) :
    ∃ q, thread.auxToIpid[k]? = some q := by
  have hlt := (List.getElem?_eq_some_iff.mp ((h.byteToAux hthread).mp haux)).1
  rw [← h.length_eq hthread] at hlt
  exact ⟨_, List.getElem?_eq_getElem hlt⟩

theorem Linked.mark (h : Linked s) (pid : ℕ) (available : Bool) :
    Linked (s.modifyThread pid fun thread => { thread with available := available }) := by
  refine h.of_map (f := fun i thread => if pid = i then available else thread.available)
    (g := fun _ thread => thread.storeBuffers) rfl (fun i => ?_) h.ranged
  rw [getElem?_modifyThread]
  congr 1
  funext thread
  split <;> rfl

end Nidhugg.PsoTraceBuilder
