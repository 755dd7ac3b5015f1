import Nidhugg.Verification.PsoRecorder.Tracking

/-! # The accesses of one call

For every kind of access: it is accounted for, earlier accesses stay so, and those that conflict with
it are before the current event. -/

namespace Nidhugg.PsoHistory

open PsoRecorder

variable {s t u : PsoRecorder} {log batch early : List PsoLogged} {pid tid i k : ℕ}
  {b m : SymAddr} {x y : PsoLogged} {ml : AccessRange} {wakeups : List PsoAccess}
  {written : List PsoLocation} {own : Bool} {lastRowe : Option ℕ}

/-! ### What is kept -/

theorem keeps_write (haccess : x.access = .write b) : Keeps s log x k ↔
    (s.byteInfo b).lastUpdate = some k ∨ k ∈ s.lastFullMemoryConflict := by
  rw [Keeps, haccess]

theorem keeps_read (haccess : x.access = .read b own) : Keeps s log x k ↔
    (s.pidOf k = x.thread ∧ (s.byteInfo b).lastRead.lookup (s.threads x.thread).proc = some k) ∨
      k ∈ s.lastFullMemoryConflict := by
  rw [Keeps, haccess]

theorem keeps_mutex {destroys : Bool} (haccess : x.access = .mutex m destroys) :
    Keeps s log x k ↔
      s.lastAccess m = some k ∨ ∃ z ∈ log, z.access = .mutex m true ∧ z.index = k := by
  rw [Keeps, haccess]

theorem keeps_full (haccess : x.access = .fullMemory) :
    Keeps s log x k ↔ k ∈ s.lastFullMemoryConflict := by
  rw [Keeps, haccess]

/-- What a call leaves as it is in the records of what is accessed. -/
def Untouched (s t : PsoRecorder) (x : PsoLogged) : Prop :=
  match x.access with
  | .write b => (t.byteInfo b).lastUpdate = (s.byteInfo b).lastUpdate
  | .read b _ => (t.byteInfo b).lastRead.lookup (s.threads x.thread).proc =
      (s.byteInfo b).lastRead.lookup (s.threads x.thread).proc
  | .mutex m _ => t.lastAccess m = s.lastAccess m
  | .fullMemory => True

/-- What is kept on account of an access, if the call does not touch what it accesses. -/
theorem Tracked.keeps_untouched (h : Tracked s log) (hpart : Part s t pid wakeups written)
    (hx : x ∈ log) (huntouched : Untouched s t x)
    (hfull : t.accesses.lastFullMemoryConflict = s.accesses.lastFullMemoryConflict)
    (hkeeps : Keeps s log x k) : Keeps t (log ++ batch) x k := by
  have hlast := lastFullMemoryConflict_congr hfull
  cases haccess : x.access with
  | write b =>
      rw [Untouched, haccess] at huntouched
      rw [keeps_write haccess] at hkeeps ⊢
      rwa [huntouched, hlast]
  | read b own =>
      rw [Untouched, haccess] at huntouched
      rw [keeps_read haccess] at hkeeps ⊢
      have hlt := h.sound.pids _ (h.conflicts x hx).lt
      rw [(h.reader x hx b own haccess).1] at hlt
      rwa [pidOf_congr hpart.pids, hpart.proc _ hlt, huntouched, hlast]
  | mutex m destroys =>
      rw [Untouched, haccess] at huntouched
      rw [keeps_mutex haccess] at hkeeps ⊢
      rw [huntouched]
      refine hkeeps.imp_right ?_
      intro ⟨z, hz, hdestroys⟩
      exact ⟨z, List.mem_append_left _ hz, hdestroys⟩
  | fullMemory =>
      rw [keeps_full haccess] at hkeeps ⊢
      rwa [hlast]

theorem untouched_of_tables (hbytes : ∀ b, t.byteInfo b = s.byteInfo b)
    (hmutexes : ∀ m, t.lastAccess m = s.lastAccess m) (x : PsoLogged) : Untouched s t x := by
  rw [Untouched]
  cases x.access with
  | write b => exact congrArg PsoByteInfo.lastUpdate (hbytes b)
  | read b own =>
      dsimp only
      rw [hbytes]
  | mutex m destroys => exact hmutexes m
  | fullMemory => trivial

/-- A call without accesses. -/
theorem Tracked.neutral (h : Tracked s log) (hpart : Part s t pid wakeups written)
    (hpid : s.pidOf s.prefixIdx = pid) (htables : SameTables s t) : Tracked t log := by
  have hbatch : Batch s t log [] pid := by
    constructor
    case keeps =>
      intro x hx k hkeeps _
      have huntouched := untouched_of_tables htables.byteInfo htables.lastAccess x
      exact .inl (h.keeps_untouched hpart hx huntouched htables.full hkeeps)
    case ranges =>
      intro b u hupdate ml hml c hc
      rw [htables.byteInfo] at hupdate hml
      rw [List.append_nil]
      exact h.ranges b u hupdate ml hml c hc
    all_goals simp
  rw [← List.append_nil log]
  exact h.extend hpart hpid hbatch

/-! ### Stores -/

/-- A load that has read early a store to a range that is performed now. -/
structure EarlyRead (s : PsoRecorder) (tid : ℕ) (ml : AccessRange) (lastRowe : Option ℕ)
    (y : PsoLogged) : Prop where
  thread : y.thread = tid
  counts : y.counts = s.prefixIdx
  lt : y.index < s.prefixIdx
  conflicts : s.Conflicts y.index
  pid : s.pidOf y.index = tid
  access : ∃ b ∈ ml.bytes, y.access = .read b false
  last : ∃ r, lastRowe = some r ∧ y.index ≤ r

/-- The last load that has read a store early is not before other loads of its bytes. -/
structure LastEarly (s : PsoRecorder) (log : List PsoLogged) (tid : ℕ) (ml : AccessRange) (r : ℕ) :
    Prop where
  conflicts : s.Conflicts r
  pid : s.pidOf r = tid
  last : ∀ x ∈ log, x.thread = tid → ∀ b ∈ ml.bytes, ∀ own, x.access = .read b own → x.index ≤ r

/-- The writes of a store. -/
def storeWrites (s : PsoRecorder) (tid : ℕ) (ml : AccessRange) : List PsoLogged :=
  ml.bytes.map fun b => ⟨s.prefixIdx, s.prefixIdx, tid, .write b⟩

theorem lookup_storedInfo {idx proc proc' : ℕ} {bi : PsoByteInfo} :
    (storedInfo idx proc ml lastRowe bi).lastRead.lookup proc' =
      if proc' = proc then lastRowe.or (bi.lastRead.lookup proc') else bi.lastRead.lookup proc' := by
  cases lastRowe with
  | none => simp [storedInfo]
  | some r => exact AssocList.lookup_insert ..

/-- What the current event sees is before it, and so is what is before that. -/
theorem before_current (hpart : Part s t pid wakeups written) {idx : ℕ} (hbefore : s.Before idx k)
    (hle : k ≤ s.prefixIdx) (hsees : t.Before k s.prefixIdx) : t.Before idx s.prefixIdx :=
  (hbefore.grows hpart.grows hle).trans hsees

/-- The events that a store sees are all that is kept on account of conflicting accesses. -/
theorem Tracked.store_sees (h : Tracked s log) (hpart : Part s t pid wakeups written)
    (htouches : Touches s t ml (storedInfo s.prefixIdx (s.threads tid).proc ml lastRowe)
      (s.storeOrder tid)) (hx : x ∈ log) (hthread : x.thread ≠ tid ∨ x.access = .write b)
    (hb : b ∈ ml.bytes) (hconflicts : x.access.conflicts (.write b) = true) :
    t.Before x.index s.prefixIdx := by
  obtain ⟨k, hkeeps, hbefore⟩ := h.kept x hx
  have hle := h.le_of_keeps hkeeps
  refine before_current hpart hbefore hle (htouches.sees k hle ?_)
  cases haccess : x.access with
  | write c =>
      rw [haccess] at hconflicts
      obtain rfl : c = b := of_decide_eq_true hconflicts
      rw [keeps_write haccess] at hkeeps
      refine hkeeps.imp_left ?_
      intro hupdate
      refine ⟨c, hb, ?_⟩
      rw [storeOrder, storeSees, ownUpdate, hupdate]
      by_cases hown : s.realThread (s.pidOf k) = tid
      · simp [hown]
      · simp [hown]
  | read c own =>
      rw [haccess] at hconflicts
      obtain rfl : c = b := of_decide_eq_true hconflicts
      rw [keeps_read haccess] at hkeeps
      refine hkeeps.imp_left ?_
      rintro ⟨hpid, hread⟩
      refine ⟨c, hb, ?_⟩
      have hne : s.pidOf k ≠ tid := by
        rw [hpid]
        cases hthread with
        | inl hne => exact hne
        | inr hwrite =>
            rw [haccess] at hwrite
            cases hwrite
      have hmem : k ∈ (s.byteInfo c).lastRead.map Prod.snd :=
        List.mem_map.mpr ⟨_, AssocList.mem_of_lookup hread, rfl⟩
      rw [storeOrder, storeSees]
      apply List.mem_append_right
      apply List.mem_append_right
      exact List.mem_filter.mpr ⟨hmem, decide_eq_true hne⟩
  | mutex m destroys =>
      rw [haccess] at hconflicts
      cases hconflicts
  | fullMemory =>
      rw [keeps_full haccess] at hkeeps
      exact .inr hkeeps

/-- A store by `pid` for the real thread `tid`. -/
structure StoreCall (s t : PsoRecorder) (log early : List PsoLogged) (pid tid : ℕ)
    (ml : AccessRange) (lastRowe : Option ℕ) : Prop where
  current : s.pidOf s.prefixIdx = pid
  real : s.realThread pid = tid
  owner : (s.threads tid).owner = none
  count : tid < s.threadCount
  touches : Touches s t ml (storedInfo s.prefixIdx (s.threads tid).proc ml lastRowe)
    (s.storeOrder tid)
  early : ∀ y ∈ early, EarlyRead s tid ml lastRowe y
  last : ∀ r, lastRowe = some r → LastEarly s log tid ml r

theorem mem_storeWrites (hy : y ∈ storeWrites s tid ml) : y.thread = tid ∧
    y.counts = s.prefixIdx ∧ y.index = s.prefixIdx ∧ ∃ b ∈ ml.bytes, y.access = .write b := by
  obtain ⟨b, hb, rfl⟩ := List.mem_map.mp hy
  exact ⟨rfl, rfl, rfl, b, hb, rfl⟩

namespace StoreCall

variable (hcall : StoreCall s t log early pid tid ml lastRowe) (h : Tracked s log)
  (hpart : Part s t pid wakeups written)

include hcall h hpart

theorem conflicts : t.Conflicts s.prefixIdx := by
  have hupdate : (t.byteInfo ml.1.addr).lastUpdate = some s.prefixIdx := by
    rw [hcall.touches.bytes, if_pos ml.addr_mem_bytes]
    rfl
  cases hpart.noted _ (.inl ⟨.update ml.1.addr, recordedAt_update hupdate⟩) with
  | inl hnoted => exact hpart.conflicts _ (h.sound.noted _ hnoted)
  | inr hcurrent => exact hcurrent.2

/-- The last early load is kept on account of all loads of its thread that are not after it. -/
theorem keeps_last {r : ℕ} (hr : lastRowe = some r) (hthread : x.thread = tid)
    (hpidOf : s.pidOf x.index = tid) (hle : x.index ≤ r) (hb : b ∈ ml.bytes)
    (haccess : x.access = .read b own) : Keeps t (log ++ batch) x r ∧ t.Before x.index r := by
  have hlast := hcall.last r hr
  constructor
  · rw [keeps_read haccess, hthread, pidOf_congr hpart.pids, hpart.proc _ hcall.count,
      hcall.touches.bytes, if_pos hb, lookup_storedInfo, if_pos rfl, hr]
    exact .inl ⟨hlast.pid, rfl⟩
  · have hbefore := h.program.before hle hlast.conflicts.lt (hpidOf.trans hlast.pid.symm)
    exact hbefore.grows hpart.grows (PsoHistory.le_prefixIdx hlast.conflicts.lt)

theorem keeps_of_read (hx : x ∈ log) (haccess : x.access = .read b own)
    (hkeeps : Keeps s log x k) :
    Keeps t (log ++ batch) x k ∨ ∃ k', Keeps t (log ++ batch) x k' ∧ t.Before x.index k' := by
  have hreader := h.reader x hx b own haccess
  by_cases hsame : b ∈ ml.bytes ∧ x.thread = tid ∧ lastRowe.isSome
  · obtain ⟨hb, hthread, hsome⟩ := hsame
    obtain ⟨r, hr⟩ := Option.isSome_iff_exists.mp hsome
    have hle := (hcall.last r hr).last x hx hthread b hb own haccess
    have hpidOf : s.pidOf x.index = tid := hreader.1.trans hthread
    exact .inr ⟨r, hcall.keeps_last h hpart hr hthread hpidOf hle hb haccess⟩
  · refine .inl (h.keeps_untouched hpart hx ?_ hcall.touches.full hkeeps)
    rw [Untouched, haccess]
    dsimp only
    rw [hcall.touches.bytes]
    by_cases hb : b ∈ ml.bytes
    · rw [if_pos hb, lookup_storedInfo]
      split
      · rename_i hproc
        have hlt := h.sound.pids _ (h.conflicts x hx).lt
        rw [hreader.1] at hlt
        have hthread := h.sound.numbered.proc _ _ hlt hcall.count hreader.2 hcall.owner hproc
        cases hrowe : lastRowe with
        | none => rfl
        | some r => exact absurd ⟨hb, hthread, by rw [hrowe]; rfl⟩ hsame
      · rfl
    · rw [if_neg hb]

theorem keeps (hx : x ∈ log) (hkeeps : Keeps s log x k) :
    Keeps t (log ++ batch) x k ∨ ∃ k', Keeps t (log ++ batch) x k' ∧ t.Before x.index k' := by
  cases haccess : x.access with
  | write b =>
      by_cases hb : b ∈ ml.bytes
      · refine .inr ⟨s.prefixIdx, ?_, ?_⟩
        · rw [keeps_write haccess, hcall.touches.bytes, if_pos hb]
          exact .inl rfl
        · refine h.store_sees hpart hcall.touches hx (.inr haccess) hb ?_
          rw [haccess]
          exact decide_eq_true rfl
      · refine .inl (h.keeps_untouched hpart hx ?_ hcall.touches.full hkeeps)
        rw [Untouched, haccess]
        dsimp only
        rw [hcall.touches.bytes, if_neg hb]
  | read b own => exact hcall.keeps_of_read h hpart hx haccess hkeeps
  | mutex m destroys =>
      refine .inl (h.keeps_untouched hpart hx ?_ hcall.touches.full hkeeps)
      rw [Untouched, haccess]
      dsimp only
      rw [PsoRecorder.lastAccess, PsoRecorder.lastAccess, mutex?, mutex?, hcall.touches.mutexes]
  | fullMemory =>
      refine .inl (h.keeps_untouched hpart hx ?_ hcall.touches.full hkeeps)
      rw [Untouched, haccess]
      trivial

/-- A store accounts for its writes, and for the loads that have read it early. -/
theorem accounts : Batch s t log (early ++ storeWrites s tid ml) pid := by
  constructor
  case thread =>
    intro y hy
    rw [hcall.real]
    cases List.mem_append.mp hy with
    | inl hy => exact (hcall.early y hy).thread
    | inr hy => exact (mem_storeWrites hy).1
  case counts =>
    intro y hy
    cases List.mem_append.mp hy with
    | inl hy => exact ⟨(hcall.early y hy).counts, Nat.le_of_lt (hcall.early y hy).lt⟩
    | inr hy => exact ⟨(mem_storeWrites hy).2.1, Nat.le_of_eq (mem_storeWrites hy).2.2.1⟩
  case conflicts =>
    intro y hy
    refine ⟨?_, hcall.conflicts h hpart⟩
    cases List.mem_append.mp hy with
    | inl hy => exact hpart.conflicts _ (hcall.early y hy).conflicts
    | inr hy =>
        rw [(mem_storeWrites hy).2.2.1]
        exact hcall.conflicts h hpart
  case real =>
    intro y hy
    cases List.mem_append.mp hy with
    | inl hy =>
        rw [(hcall.early y hy).pid, (hcall.early y hy).thread, realThread, hcall.owner,
          Option.getD_none]
    | inr hy => rw [(mem_storeWrites hy).2.2.1, hcall.current, hcall.real, (mem_storeWrites hy).1]
  case reader =>
    intro y hy b own haccess
    cases List.mem_append.mp hy with
    | inl hy =>
        rw [(hcall.early y hy).thread]
        exact ⟨(hcall.early y hy).pid, hcall.owner⟩
    | inr hy =>
        obtain ⟨-, -, -, c, -, hwrite⟩ := mem_storeWrites hy
        rw [haccess] at hwrite
        cases hwrite
  case kept =>
    intro y hy
    cases List.mem_append.mp hy with
    | inl hy =>
        have hread := hcall.early y hy
        obtain ⟨b, hb, haccess⟩ := hread.access
        obtain ⟨r, hr, hle⟩ := hread.last
        exact ⟨r, hcall.keeps_last h hpart hr hread.thread hread.pid hle hb haccess⟩
    | inr hy =>
        obtain ⟨-, -, hindex, b, hb, haccess⟩ := mem_storeWrites hy
        refine ⟨s.prefixIdx, ?_, .inl hindex⟩
        rw [keeps_write haccess, hcall.touches.bytes, if_pos hb]
        exact .inl rfl
  case keeps => exact fun x hx k hkeeps _ => hcall.keeps h hpart hx hkeeps
  case ranges =>
    intro b u hupdate ml' hml c hc
    rw [hcall.touches.bytes] at hupdate hml
    by_cases hb : b ∈ ml.bytes
    · rw [if_pos hb] at hupdate hml
      obtain rfl : ml' = ml := Subtype.ext hml
      have hwrite : ⟨s.prefixIdx, s.prefixIdx, tid, .write c⟩ ∈ storeWrites s tid ml' :=
        List.mem_map_of_mem hc
      refine ⟨_, List.mem_append_right _ (List.mem_append_right _ hwrite), ?_, rfl⟩
      exact Option.some.inj hupdate
    · rw [if_neg hb] at hupdate hml
      obtain ⟨x, hx, hwrite⟩ := h.ranges b u hupdate ml' hml c hc
      exact ⟨x, List.mem_append_left _ hx, hwrite⟩
  case ordered =>
    intro x hx y hy hindex hthread hconflict _ _
    cases List.mem_append.mp hy with
    | inl hy => exact absurd hindex (Nat.ne_of_lt (hcall.early y hy).lt)
    | inr hy =>
        obtain ⟨hytid, -, -, b, hb, haccess⟩ := mem_storeWrites hy
        rw [hytid] at hthread
        rw [haccess] at hconflict
        exact h.store_sees hpart hcall.touches hx (.inl hthread) hb hconflict

end StoreCall

/-! ### Loads -/

/-- The last update of a byte is one by an auxiliary thread of `pid`, with just the range. -/
def OwnUpdate (s : PsoRecorder) (pid : ℕ) (ml : AccessRange) (b : SymAddr) : Prop :=
  (s.byteInfo b).lastUpdateMl = ml.1 ∧
    ∃ u, (s.byteInfo b).lastUpdate = some u ∧ (s.threads (s.pidOf u)).owner = some pid

/-- The reads of a load from memory. -/
def loadReads (s : PsoRecorder) (pid : ℕ) (ml : AccessRange) (own : Bool) : List PsoLogged :=
  ml.bytes.map fun b => ⟨s.prefixIdx, s.prefixIdx, pid, .read b own⟩

/-- A load from memory by a real thread. -/
structure LoadCall (s t : PsoRecorder) (pid : ℕ) (ml : AccessRange) (own : Bool) : Prop where
  events : s.events ≠ []
  current : s.pidOf s.prefixIdx = pid
  owner : (s.threads pid).owner = none
  count : pid < s.threadCount
  touches : Touches s t ml (readInfo s.prefixIdx (s.threads pid).proc) (s.loadOrder pid ml)
  own : own = false → ∃ b ∈ ml.bytes, ¬ OwnUpdate s pid ml b

theorem mem_loadReads (hy : y ∈ loadReads s pid ml own) : y.thread = pid ∧
    y.counts = s.prefixIdx ∧ y.index = s.prefixIdx ∧ ∃ b ∈ ml.bytes, y.access = .read b own := by
  obtain ⟨b, hb, rfl⟩ := List.mem_map.mp hy
  exact ⟨rfl, rfl, rfl, b, hb, rfl⟩

namespace LoadCall

variable (hcall : LoadCall s t pid ml own) (h : Tracked s log)
  (hpart : Part s t pid wakeups written)

include hcall h hpart

theorem conflicts : t.Conflicts s.prefixIdx := by
  have hread : s.prefixIdx ∈ (t.byteInfo ml.1.addr).lastRead.map Prod.snd := by
    rw [hcall.touches.bytes, if_pos ml.addr_mem_bytes]
    exact List.mem_map.mpr ⟨_, AssocList.mem_insert.mpr (.inl rfl), rfl⟩
  cases hpart.noted _ (.inl ⟨.read ml.1.addr, recordedAt_read hread⟩) with
  | inl hnoted => exact hpart.conflicts _ (h.sound.noted _ hnoted)
  | inr hcurrent => exact hcurrent.2

/-- The earlier events of the thread are before the load. -/
theorem before_of_pid (hk : s.Conflicts k) (hpidOf : s.pidOf k = pid) :
    t.Before k s.prefixIdx := by
  have hbefore := h.program.before (PsoHistory.le_prefixIdx hk.lt) (prefixIdx_lt hcall.events)
    (hpidOf.trans hcall.current.symm)
  exact hbefore.grows hpart.grows (Nat.le_refl _)

/-- The last update of a byte is before a load of it, unless it is the thread's own and has just the
range of the load. -/
theorem sees_update (hb : b ∈ ml.bytes) (hupdate : (s.byteInfo b).lastUpdate = some k)
    (hown : ¬ OwnUpdate s pid ml b) : t.Before k s.prefixIdx := by
  have hk : s.Conflicts k := h.sound.noted k (.inl ⟨.update b, recordedAt_update hupdate⟩)
  by_cases hother : s.realThread (s.pidOf k) = pid
  · by_cases hml : ml.1 = (s.byteInfo b).lastUpdateMl
    · apply hcall.before_of_pid h hpart hk
      rw [realThread] at hother
      cases howner : (s.threads (s.pidOf k)).owner with
      | none => rwa [howner, Option.getD_none] at hother
      | some q =>
          rw [howner, Option.getD_some] at hother
          exact absurd ⟨hml.symm, k, hupdate, by rw [howner, hother]⟩ hown
    · refine hcall.touches.sees k (PsoHistory.le_prefixIdx hk.lt) (.inl ⟨b, hb, ?_⟩)
      rw [loadOrder, loadJoins, if_pos hml, ownUpdate, hupdate]
      simp [hother]
  · refine hcall.touches.sees k (PsoHistory.le_prefixIdx hk.lt) (.inl ⟨b, hb, ?_⟩)
    rw [loadOrder, loadSees, hupdate]
    simp [hother]

omit hpart in
theorem sees_full (hk : k ∈ s.lastFullMemoryConflict) : t.Before k s.prefixIdx := by
  have hconflicts : s.Conflicts k := h.sound.noted k (.inl ⟨.full, recordedAt_full hk⟩)
  exact hcall.touches.sees k (PsoHistory.le_prefixIdx hconflicts.lt) (.inr hk)

/-- A write is before a load of the same byte, unless the load reads an own update. -/
theorem sees_write (hx : x ∈ log) (haccess : x.access = .write b) (hb : b ∈ ml.bytes)
    (hown : own = false) : t.Before x.index s.prefixIdx := by
  obtain ⟨k, hkeeps, hbefore⟩ := h.kept x hx
  refine before_current hpart hbefore (h.le_of_keeps hkeeps) ?_
  rw [keeps_write haccess] at hkeeps
  cases hkeeps with
  | inr hfull => exact hcall.sees_full h hfull
  | inl hupdate =>
      by_cases hb' : OwnUpdate s pid ml b
      · -- the own update has written all bytes, and at some other byte it has been overwritten
        obtain ⟨c, hc, hc'⟩ := hcall.own hown
        obtain ⟨z, hz, hindex, hwrite⟩ := h.ranges b k hupdate ml hb'.1.symm c hc
        obtain ⟨k', hkeeps', hbefore'⟩ := h.kept z hz
        rw [hindex] at hbefore'
        refine before_current hpart hbefore' (h.le_of_keeps hkeeps') ?_
        rw [keeps_write hwrite] at hkeeps'
        cases hkeeps' with
        | inl hupdate' => exact hcall.sees_update h hpart hc hupdate' hc'
        | inr hfull => exact hcall.sees_full h hfull
      · exact hcall.sees_update h hpart hb hupdate hb'

theorem keeps (hx : x ∈ log) (hkeeps : Keeps s log x k) :
    Keeps t (log ++ batch) x k ∨ ∃ k', Keeps t (log ++ batch) x k' ∧ t.Before x.index k' := by
  cases haccess : x.access with
  | read b own' =>
      have hreader := h.reader x hx b own' haccess
      by_cases hsame : b ∈ ml.bytes ∧ x.thread = pid
      · obtain ⟨hb, hthread⟩ := hsame
        refine .inr ⟨s.prefixIdx, ?_, ?_⟩
        · rw [keeps_read haccess, hthread, pidOf_congr hpart.pids, hpart.proc _ hcall.count,
            hcall.touches.bytes, if_pos hb, readInfo]
          dsimp only
          rw [AssocList.lookup_insert, if_pos rfl]
          exact .inl ⟨hcall.current, rfl⟩
        · exact hcall.before_of_pid h hpart (h.conflicts x hx) (hreader.1.trans hthread)
      · refine .inl (h.keeps_untouched hpart hx ?_ hcall.touches.full hkeeps)
        rw [Untouched, haccess]
        dsimp only
        rw [hcall.touches.bytes]
        by_cases hb : b ∈ ml.bytes
        · rw [if_pos hb, readInfo]
          dsimp only
          rw [AssocList.lookup_insert]
          split
          · rename_i hproc
            have hlt := h.sound.pids _ (h.conflicts x hx).lt
            rw [hreader.1] at hlt
            have hthread := h.sound.numbered.proc _ _ hlt hcall.count hreader.2 hcall.owner hproc
            exact absurd ⟨hb, hthread⟩ hsame
          · rfl
        · rw [if_neg hb]
  | write b =>
      refine .inl (h.keeps_untouched hpart hx ?_ hcall.touches.full hkeeps)
      rw [Untouched, haccess]
      dsimp only
      rw [hcall.touches.bytes]
      split
      · rfl
      · rfl
  | mutex m destroys =>
      refine .inl (h.keeps_untouched hpart hx ?_ hcall.touches.full hkeeps)
      rw [Untouched, haccess]
      dsimp only
      rw [PsoRecorder.lastAccess, PsoRecorder.lastAccess, mutex?, mutex?, hcall.touches.mutexes]
  | fullMemory =>
      refine .inl (h.keeps_untouched hpart hx ?_ hcall.touches.full hkeeps)
      rw [Untouched, haccess]
      trivial

/-- A load from memory accounts for its reads. -/
theorem accounts : Batch s t log (loadReads s pid ml own) pid := by
  have hreal : s.realThread pid = pid := by rw [realThread, hcall.owner, Option.getD_none]
  constructor
  case thread =>
    intro y hy
    rw [hreal]
    exact (mem_loadReads hy).1
  case counts => exact fun y hy => ⟨(mem_loadReads hy).2.1, Nat.le_of_eq (mem_loadReads hy).2.2.1⟩
  case conflicts =>
    intro y hy
    rw [(mem_loadReads hy).2.2.1]
    exact ⟨hcall.conflicts h hpart, hcall.conflicts h hpart⟩
  case real =>
    intro y hy
    rw [(mem_loadReads hy).2.2.1, hcall.current, hreal, (mem_loadReads hy).1]
  case reader =>
    intro y hy b own _
    rw [(mem_loadReads hy).2.2.1, (mem_loadReads hy).1]
    exact ⟨hcall.current, hcall.owner⟩
  case kept =>
    intro y hy
    obtain ⟨hthread, -, hindex, b, hb, haccess⟩ := mem_loadReads hy
    refine ⟨s.prefixIdx, ?_, .inl hindex⟩
    rw [keeps_read haccess, hthread, pidOf_congr hpart.pids, hpart.proc _ hcall.count,
      hcall.touches.bytes, if_pos hb, readInfo]
    dsimp only
    rw [AssocList.lookup_insert, if_pos rfl]
    exact .inl ⟨hcall.current, rfl⟩
  case keeps => exact fun x hx k hkeeps _ => hcall.keeps h hpart hx hkeeps
  case ranges =>
    intro b u hupdate ml' hml c hc
    have hbytes : (t.byteInfo b).lastUpdate = (s.byteInfo b).lastUpdate ∧
        (t.byteInfo b).lastUpdateMl = (s.byteInfo b).lastUpdateMl := by
      rw [hcall.touches.bytes]
      split
      · exact ⟨rfl, rfl⟩
      · exact ⟨rfl, rfl⟩
    rw [hbytes.1] at hupdate
    rw [hbytes.2] at hml
    obtain ⟨x, hx, hwrite⟩ := h.ranges b u hupdate ml' hml c hc
    exact ⟨x, List.mem_append_left _ hx, hwrite⟩
  case ordered =>
    intro x hx y hy _ hthread hconflict _ hforwarded
    obtain ⟨hypid, -, -, b, hb, haccess⟩ := mem_loadReads hy
    rw [haccess] at hconflict
    cases hxaccess : x.access with
    | write c =>
        rw [hxaccess] at hconflict
        obtain rfl : c = b := of_decide_eq_true hconflict
        refine hcall.sees_write h hpart hx hxaccess hb ?_
        rw [Bool.eq_false_iff]
        intro hown
        exact hforwarded ⟨c, hxaccess, by rw [haccess, hown]⟩
    | read c own' =>
        rw [hxaccess] at hconflict
        cases hconflict
    | mutex m destroys =>
        rw [hxaccess] at hconflict
        cases hconflict
    | fullMemory =>
        obtain ⟨k, hkeeps, hbefore⟩ := h.kept x hx
        refine before_current hpart hbefore (h.le_of_keeps hkeeps) ?_
        exact hcall.sees_full h ((keeps_full hxaccess).mp hkeeps)

end LoadCall

/-! ### The full memory -/

/-- What is kept on account of an access, unless it is to a mutex that has been destroyed, is seen
by a full memory conflict. -/
theorem mem_fullMemorySees_of_keeps (hkeeps : Keeps s log x k) : k ∈ s.fullMemorySees ∨
    ∃ m destroys, x.access = .mutex m destroys ∧
      ∃ z ∈ log, z.access = .mutex m true ∧ z.index = k := by
  have hfull : k ∈ s.lastFullMemoryConflict → k ∈ s.fullMemorySees :=
    fun hk => List.mem_append_right _ hk
  cases haccess : x.access with
  | write b =>
      rw [keeps_write haccess] at hkeeps
      refine .inl (hkeeps.elim ?_ hfull)
      intro hupdate
      rw [byteInfo] at hupdate
      cases hlookup : s.accesses.mem.lookup b with
      | none =>
          rw [hlookup] at hupdate
          cases hupdate
      | some info =>
          rw [hlookup] at hupdate
          apply List.mem_append_left
          apply List.mem_append_left
          exact List.mem_flatMap.mpr ⟨_, AssocList.mem_of_lookup hlookup,
            List.mem_append_left _ (Option.mem_toList.mpr hupdate)⟩
  | read b own =>
      rw [keeps_read haccess] at hkeeps
      refine .inl (hkeeps.elim ?_ hfull)
      rintro ⟨-, hread⟩
      rw [byteInfo] at hread
      cases hlookup : s.accesses.mem.lookup b with
      | none =>
          rw [hlookup] at hread
          cases hread
      | some info =>
          rw [hlookup] at hread
          apply List.mem_append_left
          apply List.mem_append_left
          refine List.mem_flatMap.mpr ⟨_, AssocList.mem_of_lookup hlookup, ?_⟩
          exact List.mem_append_right _
            (List.mem_map.mpr ⟨_, AssocList.mem_of_lookup hread, rfl⟩)
  | mutex m destroys =>
      rw [keeps_mutex haccess] at hkeeps
      refine hkeeps.imp ?_ fun hz => ⟨m, destroys, rfl, hz⟩
      intro hlast
      rw [PsoRecorder.lastAccess, mutex?] at hlast
      obtain ⟨mutex, hlookup, hlast⟩ := Option.bind_eq_some_iff.mp hlast
      apply List.mem_append_left
      apply List.mem_append_right
      exact List.mem_flatMap.mpr ⟨_, AssocList.mem_of_lookup hlookup, Option.mem_toList.mpr hlast⟩
  | fullMemory => exact .inl (hfull ((keeps_full haccess).mp hkeeps))

/-- A mutex is destroyed before the current event, or by it. -/
theorem before_or_destroyed {y : PsoLogged} (haccess : ∃ destroys, x.access = .mutex m destroys)
    (hz : ∃ z ∈ log, z.access = .mutex m true ∧ z.index = k) (hbefore : s.Before x.index k)
    (hle : k ≤ s.prefixIdx) (hy : y.index = s.prefixIdx) :
    Destroyed log x y ∨ k = s.prefixIdx := by
  obtain ⟨destroys, haccess⟩ := haccess
  obtain ⟨z, hz, hdestroys, rfl⟩ := hz
  cases Nat.eq_or_lt_of_le hle with
  | inl heq => exact .inr heq
  | inr hlt =>
      rw [← hy] at hlt
      exact .inl ⟨m, destroys, haccess, z, hz, hdestroys, hbefore.le, hlt⟩

/-- A full memory conflict accounts for itself. -/
theorem Tracked.fullMemoryBatch (h : Tracked s log)
    (hpart : Part s (s.fullMemoryConflict pid) pid wakeups written) (hevents : s.events ≠ [])
    (hpid : s.pidOf s.prefixIdx = pid) (htid : s.realThread pid = tid) :
    Batch s (s.fullMemoryConflict pid) log
      [⟨s.prefixIdx, s.prefixIdx, tid, .fullMemory⟩] pid := by
  have hfull : s.prefixIdx ∈ (s.fullMemoryConflict pid).lastFullMemoryConflict :=
    List.mem_singleton_self _
  have hconflicts : (s.fullMemoryConflict pid).Conflicts s.prefixIdx := by
    cases hpart.noted _ (.inl ⟨.full, recordedAt_full hfull⟩) with
    | inl hnoted => exact hpart.conflicts _ (h.sound.noted _ hnoted)
    | inr hcurrent => exact hcurrent.2
  have hsees : ∀ k, k ∈ s.fullMemorySees → k ≤ s.prefixIdx →
      (s.fullMemoryConflict pid).Before k s.prefixIdx :=
    fun k hk hle => fullMemoryConflict_sees hevents hle hk
  have hlastAccess : ∀ m, (s.fullMemoryConflict pid).lastAccess m = s.lastAccess m :=
    ((SameView.conflicting s).trans (.seeEvents _ pid s.fullMemorySees)).tables.lastAccess
  constructor
  case thread => simp [htid]
  case counts => simp
  case conflicts => simp [hconflicts]
  case real => simp [hpid, htid]
  case reader => simp
  case kept =>
    intro y hy
    rw [List.mem_singleton.mp hy]
    exact ⟨s.prefixIdx, hfull, .inl rfl⟩
  case keeps =>
    intro x hx k hkeeps hbefore
    have hle := h.le_of_keeps hkeeps
    have hcurrent : (∀ m destroys, x.access ≠ .mutex m destroys) →
        (s.fullMemoryConflict pid).Before x.index s.prefixIdx := by
      intro hne
      cases mem_fullMemorySees_of_keeps hkeeps with
      | inl hmem => exact before_current hpart hbefore hle (hsees k hmem hle)
      | inr hmutex =>
          obtain ⟨m, destroys, hmutex, -⟩ := hmutex
          exact absurd hmutex (hne m destroys)
    cases haccess : x.access with
    | mutex m destroys =>
        refine .inl ?_
        rw [keeps_mutex haccess] at hkeeps ⊢
        rw [hlastAccess]
        refine hkeeps.imp_right ?_
        intro ⟨z, hz, hdestroys⟩
        exact ⟨z, List.mem_append_left _ hz, hdestroys⟩
    | write b =>
        exact .inr ⟨s.prefixIdx, (keeps_write haccess).mpr (.inr hfull), hcurrent (by simp [haccess])⟩
    | read b own =>
        exact .inr ⟨s.prefixIdx, (keeps_read haccess).mpr (.inr hfull), hcurrent (by simp [haccess])⟩
    | fullMemory =>
        exact .inr ⟨s.prefixIdx, (keeps_full haccess).mpr hfull, hcurrent (by simp [haccess])⟩
  case ranges =>
    intro b u hupdate
    have hnew : (s.fullMemoryConflict pid).byteInfo b = .new := rfl
    rw [hnew] at hupdate
    cases hupdate
  case ordered =>
    intro x hx y hy hindex _ _ hdestroyed _
    obtain ⟨k, hkeeps, hbefore⟩ := h.kept x hx
    have hle := h.le_of_keeps hkeeps
    refine before_current hpart hbefore hle ?_
    cases mem_fullMemorySees_of_keeps hkeeps with
    | inl hmem => exact hsees k hmem hle
    | inr hmutex =>
        obtain ⟨m, destroys, haccess, hz⟩ := hmutex
        cases before_or_destroyed ⟨destroys, haccess⟩ hz hbefore hle hindex with
        | inl hgone => exact absurd hgone hdestroyed
        | inr heq => exact .inl heq

/-! ### Mutexes -/

/-- An operation on a mutex. -/
structure MutexCall (s t : PsoRecorder) (pid : ℕ) (m : SymAddr) (destroys : Bool) : Prop where
  current : s.pidOf s.prefixIdx = pid
  conflicts : t.Conflicts s.prefixIdx
  uses : UsesMutex s t m (if destroys then none else some s.prefixIdx)

/-- An operation on a mutex accounts for itself. -/
theorem MutexCall.accounts {destroys : Bool} (hcall : MutexCall s t pid m destroys)
    (h : Tracked s log) (hpart : Part s t pid wakeups written) (htid : s.realThread pid = tid) :
    Batch s t log [⟨s.prefixIdx, s.prefixIdx, tid, .mutex m destroys⟩] pid := by
  -- the mutex is kept from the current event on, by its record or because it is destroyed
  have hkeeps : ∀ x : PsoLogged, ∀ destroys', x.access = .mutex m destroys' →
      Keeps t (log ++ [⟨s.prefixIdx, s.prefixIdx, tid, .mutex m destroys⟩]) x s.prefixIdx := by
    intro x destroys' haccess
    rw [keeps_mutex haccess, hcall.uses.mutexes, if_pos rfl]
    cases destroys with
    | false => exact .inl rfl
    | true => exact .inr ⟨_, List.mem_append_right _ (List.mem_singleton_self _), rfl, rfl⟩
  have hbytes : ∀ b, t.byteInfo b = s.byteInfo b := by
    intro b
    rw [byteInfo, byteInfo, hcall.uses.mem]
  constructor
  case thread => simp [htid]
  case counts => simp
  case conflicts => simp [hcall.conflicts]
  case real => simp [hcall.current, htid]
  case reader => simp
  case kept =>
    intro y hy
    rw [List.mem_singleton.mp hy]
    exact ⟨s.prefixIdx, hkeeps _ _ rfl, .inl rfl⟩
  case keeps =>
    intro x hx k hkept hbefore
    have huntouched : (∀ destroys', x.access ≠ .mutex m destroys') → Untouched s t x := by
      intro hne
      cases haccess : x.access with
      | write b =>
          rw [Untouched, haccess]
          exact congrArg PsoByteInfo.lastUpdate (hbytes b)
      | read b own =>
          rw [Untouched, haccess]
          dsimp only
          rw [hbytes]
      | mutex m' destroys' =>
          rw [Untouched, haccess]
          dsimp only
          rw [hcall.uses.mutexes, if_neg]
          intro heq
          exact hne destroys' (heq ▸ haccess)
      | fullMemory =>
          rw [Untouched, haccess]
          trivial
    by_cases hm : ∃ destroys', x.access = .mutex m destroys'
    · obtain ⟨destroys', haccess⟩ := hm
      have hkept' := (keeps_mutex haccess).mp hkept
      cases hkept' with
      | inl hlast =>
          refine .inr ⟨s.prefixIdx, hkeeps x destroys' haccess, ?_⟩
          have hle := h.le_of_keeps hkept
          exact before_current hpart hbefore hle (hcall.uses.sees k hle (.inl hlast))
      | inr hz =>
          obtain ⟨z, hz, hdestroys⟩ := hz
          exact .inl ((keeps_mutex haccess).mpr (.inr ⟨z, List.mem_append_left _ hz, hdestroys⟩))
    · refine .inl (h.keeps_untouched hpart hx (huntouched ?_) hcall.uses.full hkept)
      exact fun destroys' haccess => hm ⟨destroys', haccess⟩
  case ranges =>
    intro b u hupdate ml hml c hc
    rw [hbytes] at hupdate hml
    obtain ⟨x, hx, hwrite⟩ := h.ranges b u hupdate ml hml c hc
    exact ⟨x, List.mem_append_left _ hx, hwrite⟩
  case ordered =>
    intro x hx y hy hindex _ hconflict hdestroyed _
    rw [List.mem_singleton.mp hy] at hconflict hdestroyed
    obtain ⟨k, hkept, hbefore⟩ := h.kept x hx
    have hle := h.le_of_keeps hkept
    refine before_current hpart hbefore hle ?_
    cases haccess : x.access with
    | write b =>
        rw [haccess] at hconflict
        cases hconflict
    | read b own =>
        rw [haccess] at hconflict
        cases hconflict
    | fullMemory => exact hcall.uses.sees k hle (.inr ((keeps_full haccess).mp hkept))
    | mutex m' destroys' =>
        rw [haccess] at hconflict
        obtain rfl : m' = m := of_decide_eq_true hconflict
        cases (keeps_mutex haccess).mp hkept with
        | inl hlast => exact hcall.uses.sees k hle (.inl hlast)
        | inr hz =>
            cases before_or_destroyed (y := ⟨s.prefixIdx, s.prefixIdx, tid, .mutex m' destroys⟩)
              ⟨destroys', haccess⟩ hz hbefore hle rfl with
            | inl hgone => exact absurd hgone hdestroyed
            | inr heq => exact .inl heq

end Nidhugg.PsoHistory
