import Nidhugg.Verification.PsoRecorder.Continuations

/-! # Clocks order conflicting accesses

In every run the clocks order all accesses of different threads that conflict, but for loads that
read an own update, and for mutexes that have been destroyed. -/

namespace Nidhugg.PsoHistory

open PsoRecorder

variable {h k : PsoHistory} {s t u : PsoRecorder} {log batch : List PsoLogged} {pid tid i : ℕ}
  {ml : AccessRange} {c m : SymAddr} {wakeups : List PsoAccess} {written : List PsoLocation}
  {call : PsoCall} {turn : Turn}

/-- What holds in all reachable states. -/
structure Invariant (h : PsoHistory) : Prop where
  sleepers : ∃ dryRuns, PsoSleepers.Invariant ⟨h.recorder, dryRuns⟩
  tracked : Tracked h.recorder h.log
  pending : ∀ tid, Pending h.recorder h.log tid (h.pending tid)
  fresh : ∀ tid, h.recorder.threadCount ≤ tid → h.pending tid = []

/-- An event that makes calls. -/
structure Running (h : PsoHistory) : Prop extends Invariant h where
  running : h.recorder.running = .event

theorem Running.events (hrun : Running h) : h.recorder.events ≠ [] := by
  obtain ⟨dryRuns, hsleepers⟩ := hrun.sleepers
  exact (hsleepers.event hrun.running).1

theorem Invariant.current_lt (hinv : Invariant h) (hevents : h.recorder.events ≠ []) :
    h.current < h.recorder.threadCount :=
  hinv.tracked.sound.pids _ (prefixIdx_lt hevents)

theorem Running.current_lt (hrun : Running h) : h.current < h.recorder.threadCount :=
  hrun.toInvariant.current_lt hrun.events

theorem Running.sleepers_of_part (hrun : Running h)
    (hpart : Part h.recorder t h.current wakeups written) :
    ∃ dryRuns, PsoSleepers.Invariant ⟨t, dryRuns⟩ := by
  obtain ⟨dryRuns, hsleepers⟩ := hrun.sleepers
  exact ⟨dryRuns, hsleepers.exec hrun.running hpart⟩

/-! ### Calls that leave the buffers alone -/

theorem Invariant.sameBuffers (hinv : Invariant h)
    (hsleepers : ∃ dryRuns, PsoSleepers.Invariant ⟨t, dryRuns⟩)
    (hpart : Part h.recorder t h.current wakeups written) (htracked : Tracked t (h.log ++ batch))
    (hbuffers : SameBuffers h.recorder t)
    (hbatch : ∀ y ∈ batch, ∀ b own, y.access = .read b own →
      ∀ e ∈ h.pending y.thread, b ∉ e.1.bytes) :
    Invariant ⟨t, h.pending, h.log ++ batch⟩ where
  sleepers := hsleepers
  tracked := htracked
  pending := by
    intro tid
    refine (hinv.pending tid).part hpart (hbuffers.get tid) ?_
    intro y hy hthread e he b hb own haccess
    rw [← hthread] at he
    exact hbatch y hy b own haccess e he hb
  fresh := fun tid htid => hinv.fresh tid (Nat.le_trans hpart.threadCount htid)

/-- A call without accesses, which leaves the buffers alone. -/
theorem Invariant.neutral (hinv : Invariant h)
    (hsleepers : ∃ dryRuns, PsoSleepers.Invariant ⟨t, dryRuns⟩)
    (hpart : Part h.recorder t h.current wakeups written) (htables : SameTables h.recorder t)
    (hbuffers : SameBuffers h.recorder t) : Invariant ⟨t, h.pending, h.log⟩ := by
  have htracked := hinv.tracked.neutral hpart rfl htables
  rw [← List.append_nil h.log] at htracked
  have hinv' := hinv.sameBuffers hsleepers hpart htracked hbuffers nofun
  rwa [List.append_nil] at hinv'

theorem Running.sameBuffers (hrun : Running h)
    (hpart : Part h.recorder t h.current wakeups written) (htracked : Tracked t (h.log ++ batch))
    (hbuffers : SameBuffers h.recorder t)
    (hbatch : ∀ y ∈ batch, ∀ b own, y.access = .read b own →
      ∀ e ∈ h.pending y.thread, b ∉ e.1.bytes) :
    Invariant ⟨t, h.pending, h.log ++ batch⟩ :=
  hrun.toInvariant.sameBuffers (hrun.sleepers_of_part hpart) hpart htracked hbuffers hbatch

theorem Running.neutral (hrun : Running h)
    (hpart : Part h.recorder t h.current wakeups written) (htables : SameTables h.recorder t)
    (hbuffers : SameBuffers h.recorder t) : Invariant ⟨t, h.pending, h.log⟩ :=
  hrun.toInvariant.neutral (hrun.sleepers_of_part hpart) hpart htables hbuffers

/-- An operation on a mutex. -/
theorem Running.mutex (hrun : Running h) (hpart : Part h.recorder t h.current wakeups written)
    (hbuffers : SameBuffers h.recorder t) {destroys : Bool}
    (huses : UsesMutex h.recorder t m (if destroys then none else some h.recorder.prefixIdx))
    (hconflicts : t.Conflicts h.recorder.prefixIdx) :
    Invariant ⟨t, h.pending, h.log ++ [h.logged (.mutex m destroys)]⟩ := by
  have hcall : MutexCall h.recorder t h.current m destroys := ⟨rfl, hconflicts, huses⟩
  have htracked := hrun.tracked.extend hpart rfl (hcall.accounts hrun.tracked hpart rfl)
  refine hrun.sameBuffers hpart htracked hbuffers ?_
  intro y hy b own haccess
  rw [List.mem_singleton.mp hy] at haccess
  cases haccess

/-- A recorded access to a mutex is one of an event with conflicts. -/
theorem Running.conflicts_of_uses (hrun : Running h)
    (hpart : Part h.recorder t h.current wakeups written)
    (huses : UsesMutex h.recorder t m (some h.recorder.prefixIdx)) :
    t.Conflicts h.recorder.prefixIdx := by
  have hlast := huses.mutexes m
  rw [if_pos rfl, ← mutex?_getD_lastAccess] at hlast
  cases hpart.noted _ (.inl ⟨.mutex m, recordedAt_mutex (.inl hlast)⟩) with
  | inl hnoted => exact hpart.conflicts _ (hrun.tracked.sound.noted _ hnoted)
  | inr hcurrent => exact hcurrent.2

/-! ### Accesses to memory -/

/-- Nothing is pending to the bytes of a load from memory. -/
theorem Running.not_covers (hrun : Running h) (howner : (h.recorder.threads h.current).owner = none)
    (hready : Ready (h.recorder.threads h.current).storeBuffers (.load ml))
    (hpending : h.recorder.hasPendingStore h.current ml.1.addr = false) {b : SymAddr}
    (hb : b ∈ ml.bytes) {e : StoreRows} (he : e ∈ h.pending h.current) : b ∉ e.1.bytes := by
  obtain ⟨dryRuns, hsleepers⟩ := hrun.sleepers
  obtain ⟨ranges, hbuffered⟩ := hsleepers.projected h.current howner
  refine (hrun.pending h.current).not_covers ?_ he
  have hkeys : b ∉ (h.recorder.threads h.current).storeBuffers.keys := by
    rw [hbuffered.mem_keys_of_ready hready hb]
    exact of_decide_eq_false hpending
  by_contra hne
  exact hkeys ((hbuffered.keyed b).mpr hne)

/-- A thread without pending stores may load. -/
theorem Running.ready_load (hrun : Running h)
    (howner : (h.recorder.threads h.current).owner = none)
    (hkeys : (h.recorder.threads h.current).storeBuffers.keys = []) :
    Ready (h.recorder.threads h.current).storeBuffers (.load ml) := by
  obtain ⟨dryRuns, hsleepers⟩ := hrun.sleepers
  obtain ⟨ranges, hbuffered⟩ := hsleepers.projected h.current howner
  intro b _ pst hpst
  have hkey : b ∈ (h.recorder.threads h.current).storeBuffers.keys := by
    rw [hbuffered.keyed b]
    intro hnil
    rw [hnil] at hpst
    cases hpst
  rw [hkeys] at hkey
  cases hkey

theorem realThread_of_owner (howner : (s.threads pid).owner = none) : s.realThread pid = pid := by
  rw [realThread, howner, Option.getD_none]

/-- A load that does not read only own updates of its range. -/
theorem not_readsOwnUpdate (hown : h.readsOwnUpdate ml = false) :
    ∃ b ∈ ml.bytes, ¬ OwnUpdate h.recorder h.current ml b := by
  by_contra hall
  have htrue : h.readsOwnUpdate ml = true := by
    rw [readsOwnUpdate, List.all_eq_true]
    intro b hb
    have hb' : OwnUpdate h.recorder h.current ml b := by
      by_contra hnot
      exact hall ⟨b, hb, hnot⟩
    obtain ⟨hml, u, hupdate, howner⟩ := hb'
    rw [Bool.and_eq_true, decide_eq_true_eq, hupdate, Option.any_some, decide_eq_true_eq]
    exact ⟨hml, howner⟩
  rw [htrue] at hown
  cases hown

/-- A load from memory accounts for its reads. -/
theorem Running.loadBatch (hrun : Running h)
    (howner : (h.recorder.threads h.current).owner = none)
    (hpart : Part h.recorder t h.current wakeups written)
    (hpending : h.recorder.hasPendingStore h.current ml.1.addr = false)
    (hload : h.recorder.load h.current ml = some t) :
    Batch h.recorder t h.log (h.reads ml) h.current := by
  have hcall : LoadCall h.recorder t h.current ml (h.readsOwnUpdate ml) :=
    ⟨hrun.events, rfl, howner, hrun.current_lt, load_touches hrun.events hpending hload,
      not_readsOwnUpdate⟩
  have hbatch := hcall.accounts hrun.tracked hpart
  have hreads : h.reads ml = loadReads h.recorder h.current ml (h.readsOwnUpdate ml) := by
    rw [reads, hpending]
    simp only [logged, realThread_of_owner howner]
    rfl
  rwa [hreads]

theorem load_buffers (hpending : s.hasPendingStore pid ml.1.addr = false)
    (hload : s.load pid ml = some t) : SameBuffers s t := by
  cases load_eq_some hload with
  | inl h =>
      rw [hpending] at h
      cases h.1
  | inr h =>
      rw [h.2]
      exact ⟨(memoryLoad_buffers s.conflicting pid ml).get⟩

/-- A load from memory. -/
theorem Running.load (hrun : Running h) (howner : (h.recorder.threads h.current).owner = none)
    (hready : Ready (h.recorder.threads h.current).storeBuffers (.load ml))
    (hpending : h.recorder.hasPendingStore h.current ml.1.addr = false)
    (hload : h.recorder.load h.current ml = some t) :
    Invariant ⟨t, h.pending, h.log ++ h.reads ml⟩ := by
  have hpart := load_part hrun.current_lt hrun.events howner hload
  have hbatch := hrun.loadBatch howner hpart hpending hload
  refine hrun.sameBuffers hpart (hrun.tracked.extend hpart rfl hbatch)
    (load_buffers hpending hload) ?_
  intro y hy b own haccess e he
  rw [hbatch.thread y hy, realThread_of_owner howner] at he
  rw [reads, hpending] at hy
  obtain ⟨c, hc, rfl⟩ := List.mem_map.mp hy
  obtain ⟨rfl, -⟩ := PsoShared.read.inj haccess
  exact hrun.not_covers howner hready hpending hc he

/-- A store by a real thread accounts for its writes. -/
theorem storeBatch_real (h : Tracked s log) (hevents : s.events ≠ [])
    (hpid : s.pidOf s.prefixIdx = pid) (hlt : pid < s.threadCount)
    (howner : (s.threads pid).owner = none) (hpart : Part s t pid wakeups written)
    (hstore : s.realStore pid ml = some t) : Batch s t log (storeWrites s pid ml) pid := by
  have hcall : StoreCall s t log [] pid pid ml none :=
    ⟨hpid, realThread_of_owner howner, howner, hlt, realStore_touches hevents howner hstore, nofun,
      nofun⟩
  exact hcall.accounts h hpart

theorem writes_of_owner (howner : (h.recorder.threads h.current).owner = none) :
    h.writes ml = storeWrites h.recorder h.current ml := by
  simp only [writes, logged, realThread_of_owner howner]
  rfl

theorem earlyReads_of_owner (howner : (h.recorder.threads h.current).owner = none) :
    h.earlyReads ml = [] := by
  rw [earlyReads, howner]

/-- An atomic store by a real thread. -/
theorem Running.realStore (hrun : Running h)
    (howner : (h.recorder.threads h.current).owner = none)
    (hstore : h.recorder.realStore h.current ml = some t) :
    Invariant ⟨t, h.pending, h.log ++ (h.earlyReads ml ++ h.writes ml)⟩ := by
  have hpart := realStore_part hrun.current_lt hrun.events hstore
  have hbatch := storeBatch_real hrun.tracked hrun.events rfl hrun.current_lt howner hpart hstore
  rw [earlyReads_of_owner howner, writes_of_owner howner, List.nil_append]
  refine hrun.sameBuffers hpart (hrun.tracked.extend hpart rfl hbatch)
    (realStore_buffers hstore) ?_
  intro y hy b own haccess
  obtain ⟨-, -, -, c, -, hwrite⟩ := mem_storeWrites hy
  rw [haccess] at hwrite
  cases hwrite

/-- A load and a store by a thread without pending stores. -/
theorem Running.atomicRmw (hrun : Running h)
    (howner : (h.recorder.threads h.current).owner = none)
    (hkeys : (h.recorder.threads h.current).storeBuffers.keys = [])
    (hrmw : h.recorder.atomicRmw h.current ml = some t) :
    Invariant ⟨t, h.pending, h.log ++ (h.reads ml ++ h.writes ml)⟩ := by
  have hpending : h.recorder.hasPendingStore h.current ml.1.addr = false :=
    not_hasPendingStore hkeys
  rw [PsoRecorder.atomicRmw] at hrmw
  obtain ⟨u, hload, hrmw⟩ := Option.bind_eq_some_iff.mp hrmw
  have hpart := load_part hrun.current_lt hrun.events howner hload
  have hbatch := hrun.loadBatch howner hpart hpending hload
  have htracked := hrun.tracked.extend hpart rfl hbatch
  have hidx : u.prefixIdx = h.recorder.prefixIdx := prefixIdx_congr hpart.pids
  have hcurrent : u.pidOf u.prefixIdx = h.current := by
    rw [hidx, pidOf_congr hpart.pids]
    rfl
  have howner' : (u.threads h.current).owner = none := by
    rw [hpart.owner _ hrun.current_lt, howner]
  have hlt := Nat.lt_of_lt_of_le hrun.current_lt hpart.threadCount
  rw [atomicStore, howner'] at hrmw
  have hevents := events_ne_nil hpart.pids hrun.events
  have hpart' := realStore_part hlt hevents hrmw
  have hbatch' := storeBatch_real htracked hevents hcurrent hlt howner' hpart' hrmw
  have htracked' := htracked.extend hpart' hcurrent hbatch'
  have hwrites : storeWrites u h.current ml = h.writes ml := by
    rw [writes_of_owner howner, storeWrites, hidx]
    rfl
  rw [hwrites, List.append_assoc] at htracked'
  refine hrun.sameBuffers (hpart.trans hrun.current_lt hpart') htracked'
    ((load_buffers hpending hload).trans (realStore_buffers hrmw)) ?_
  intro y hy b own haccess e he
  cases List.mem_append.mp hy with
  | inl hy =>
      rw [hbatch.thread y hy, realThread_of_owner howner] at he
      rw [reads, hpending] at hy
      obtain ⟨c, hc, rfl⟩ := List.mem_map.mp hy
      obtain ⟨rfl, -⟩ := PsoShared.read.inj haccess
      exact hrun.not_covers howner (hrun.ready_load howner hkeys) hpending hc he
  | inr hy =>
      obtain ⟨c, -, rfl⟩ := List.mem_map.mp hy
      cases haccess

/-- A full memory conflict. -/
theorem Running.fullMemoryConflict (hrun : Running h) : Invariant
    ⟨h.recorder.fullMemoryConflict h.current, h.pending, h.log ++ [h.logged .fullMemory]⟩ := by
  have hpart := fullMemoryConflict_part hrun.current_lt hrun.events
  have hbatch := hrun.tracked.fullMemoryBatch hpart hrun.events rfl rfl
  refine hrun.sameBuffers hpart (hrun.tracked.extend hpart rfl hbatch)
    (fullMemoryConflict_buffers ..) ?_
  intro y hy b own haccess
  rw [List.mem_singleton.mp hy] at haccess
  cases haccess

/-! ### Updates -/

/-- The early loads of the oldest store to a range. -/
theorem earlyReads_eq (howner : (h.recorder.threads h.current).owner = some tid)
    {front back : List StoreRows} {rows : List ℕ}
    (hpending : h.pending tid = front ++ (ml, rows) :: back)
    (hfront : ∀ e ∈ front, ∀ b ∈ ml.bytes, StoreRows.covers e b = false) :
    h.earlyReads ml = rows.flatMap fun i => ml.bytes.map fun b =>
      ⟨i, h.recorder.prefixIdx, tid, .read b false⟩ := by
  have hfind : (h.pending tid).find? (fun e => e.1.covers ml.1.addr) = some (ml, rows) := by
    rw [hpending, List.find?_append, List.find?_eq_none.mpr, Option.none_or, List.find?_cons_of_pos]
    · exact AccessRange.covers_iff.mpr ml.addr_mem_bytes
    · intro e he hcovers
      have hnot := hfront e he _ ml.addr_mem_bytes
      rw [StoreRows.covers, hcovers] at hnot
      cases hnot
  rw [earlyReads, howner]
  dsimp only
  rw [hfind]

theorem eraseP_eq {front back : List StoreRows} {rows : List ℕ}
    (hfront : ∀ e ∈ front, ∀ b ∈ ml.bytes, StoreRows.covers e b = false) :
    (front ++ (ml, rows) :: back).eraseP (fun e => e.1.covers ml.1.addr) = front ++ back := by
  rw [List.eraseP_append_right, List.eraseP_cons_of_pos]
  · exact AccessRange.covers_iff.mpr ml.addr_mem_bytes
  · intro e he hcovers
    have hnot := hfront e he _ ml.addr_mem_bytes
    rw [StoreRows.covers, hcovers] at hnot
    cases hnot

/-- The early loads of a store were made by earlier events of its real thread. -/
theorem earlyRead_of_mem
    (howner : (h.recorder.threads h.current).owner = some tid)
    (htid : (h.recorder.threads tid).owner = none) {rows : List ℕ} {lastRowe : Option ℕ}
    (hrows : RowsOf h.recorder h.log tid (ml, rows))
    (hearly : h.earlyReads ml = rows.flatMap fun i => ml.bytes.map fun b =>
      ⟨i, h.recorder.prefixIdx, tid, .read b false⟩)
    (hlast : lastRowe = rows.getLast?) : ∀ y ∈ h.earlyReads ml,
      EarlyRead h.recorder tid ml lastRowe y ∧ y.index ∈ rows := by
  intro y hy
  rw [hearly] at hy
  obtain ⟨i, hi, hy⟩ := List.mem_flatMap.mp hy
  obtain ⟨b, hb, rfl⟩ := List.mem_map.mp hy
  have hconflicts := hrows.conflicts i hi
  have hne : i ≠ h.recorder.prefixIdx := by
    intro heq
    have hpid : h.current = tid := by
      rw [← hrows.pid i hi, heq]
      rfl
    rw [hpid, htid] at howner
    cases howner
  have hlt := Nat.lt_of_le_of_ne (le_prefixIdx hconflicts.lt) hne
  obtain ⟨r, hr⟩ : ∃ r, rows.getLast? = some r :=
    ⟨_, List.getLast?_eq_some_getLast (List.ne_nil_of_mem hi)⟩
  exact ⟨⟨rfl, rfl, hlt, hconflicts, hrows.pid i hi, ⟨b, hb, rfl⟩,
    r, hlast.trans hr, hrows.last i hi r hr⟩, hi⟩

/-- An update by an auxiliary thread. -/
theorem Running.update (hrun : Running h)
    (howner : (h.recorder.threads h.current).owner = some tid)
    (hfronts : ∀ b ∈ ml.bytes, ∃ pst,
      ((h.recorder.threads tid).storeBuffers.get b).head? = some pst ∧ pst.ml = ml)
    (hupdate : h.recorder.update h.current tid ml = some t) :
    Invariant ⟨t, Function.update h.pending tid
      ((h.pending tid).eraseP fun e => e.1.covers ml.1.addr),
      h.log ++ (h.earlyReads ml ++ h.writes ml)⟩ := by
  have hnumbered := hrun.tracked.sound.numbered
  have hpart := update_part hrun.current_lt hrun.events hnumbered howner hfronts hupdate
  obtain ⟨htid, htidowner, -⟩ := hnumbered.owner _ _ howner
  have hreal : h.recorder.realThread h.current = tid := by
    rw [realThread, howner, Option.getD_some]
  have hold := hrun.pending tid
  obtain ⟨front, rows, back, hpending, hfront⟩ := hold.exists_oldest hfronts
  rw [hpending] at hold
  have hrows := hold.rows (ml, rows) (by simp)
  obtain ⟨pst, hhead, -, htouches⟩ := update_touches hrun.events howner hupdate
  have hlast := hold.lastRowe hfront hhead
  have hread := earlyRead_of_mem howner htidowner hrows (earlyReads_eq howner hpending hfront) hlast
  have hcall : StoreCall h.recorder t h.log (h.earlyReads ml) h.current tid ml pst.lastRowe := by
    refine ⟨rfl, hreal, htidowner, htid, htouches, fun y hy => (hread y hy).1, ?_⟩
    intro r hr
    have hmem : r ∈ rows := List.mem_of_getLast? (hlast.symm.trans hr)
    exact ⟨hrows.conflicts r hmem, hrows.pid r hmem, hrows.after r hmem⟩
  have hbatch := hcall.accounts hrun.tracked hpart
  have hwrites : h.writes ml = storeWrites h.recorder tid ml := by
    simp only [writes, logged, hreal]
    rfl
  rw [hwrites]
  have hbuffers := update_buffers hupdate
  refine ⟨hrun.sleepers_of_part hpart, hrun.tracked.extend hpart rfl hbatch, ?_, ?_⟩
  · intro p
    dsimp only
    by_cases hp : p = tid
    · subst hp
      rw [Function.update_self, hpending, eraseP_eq hfront]
      refine hold.pop hfront hpart ?_ ?_
      · exact (hbuffers p).trans (if_pos rfl)
      · intro y hy _ b own haccess
        cases List.mem_append.mp hy with
        | inl hy =>
            obtain ⟨c, hc, hyaccess⟩ := (hread y hy).1.access
            obtain ⟨rfl, -⟩ := PsoShared.read.inj (haccess.symm.trans hyaccess)
            exact ⟨hc, (hread y hy).2⟩
        | inr hy =>
            obtain ⟨-, -, -, c, -, hwrite⟩ := mem_storeWrites hy
            rw [haccess] at hwrite
            cases hwrite
    · rw [Function.update_of_ne hp]
      refine (hrun.pending p).part hpart ((hbuffers p).trans (if_neg hp)) ?_
      intro y hy hthread
      rw [hbatch.thread y hy, hreal] at hthread
      exact absurd hthread.symm hp
  · intro p hp
    have hlt : p ≠ tid := Nat.ne_of_gt (Nat.lt_of_lt_of_le htid (Nat.le_trans hpart.threadCount hp))
    dsimp only
    rw [Function.update_of_ne hlt]
    exact hrun.fresh p (Nat.le_trans hpart.threadCount hp)

/-! ### Stores to the buffers and early loads -/

/-- A thread is added, without pending stores. -/
theorem threads_spawn (s : PsoRecorder) (pid p : ℕ) : (s.spawn pid).threads p =
    if p = s.threadCount then .new (((List.range s.threadCount).map fun p =>
      (s.threads p).proc + 1).foldl max 0) none else s.threads p :=
  Function.update_apply ..

theorem Invariant.spawn (hinv : Invariant h) (hevents : h.recorder.events ≠ [])
    (hsleepers : ∃ dryRuns, PsoSleepers.Invariant ⟨h.recorder.spawn pid, dryRuns⟩) :
    Invariant ⟨h.recorder.spawn pid, h.pending, h.log⟩ := by
  have hpart := spawn_part (hinv.current_lt hevents) pid
  refine ⟨hsleepers, hinv.tracked.neutral hpart rfl ⟨rfl, rfl, rfl⟩, ?_, ?_⟩
  · intro tid
    by_cases htid : tid = h.recorder.threadCount
    · subst htid
      dsimp only
      rw [hinv.fresh _ (Nat.le_refl _)]
      refine ⟨?_, nofun, .nil⟩
      intro b
      rw [threads_spawn, if_pos rfl]
      exact .nil
    · refine (hinv.pending tid).same hpart ?_
      rw [threads_spawn, if_neg htid]
  · exact fun tid htid => hinv.fresh tid (Nat.le_trans hpart.threadCount htid)

theorem threads_addThread {thread : PsoRecordedThread} {clock : VClock} {p : ℕ} :
    (s.addThread thread clock).threads p =
      if p = s.threadCount then thread else s.threads p := Function.update_apply ..

/-- An auxiliary thread has no pending stores. -/
theorem createAux_buffers {b : SymAddr} {p : ℕ} (hp : p ≠ s.threadCount) :
    ((s.createAux pid b).threads p).storeBuffers = (s.threads p).storeBuffers := by
  rw [createAux]
  split
  · rfl
  · dsimp only
    rw [threads_addThread]
    change PsoRecordedThread.storeBuffers (if p = s.threadCount then _ else _) = _
    rw [if_neg hp]
    by_cases hpid : p = pid
    · subst hpid
      rw [threads_modifyThread_self]
    · rw [threads_modifyThread_of_ne hpid]

theorem createAux_buffers_new {b : SymAddr} :
    ((s.createAux pid b).threads s.threadCount).storeBuffers = .empty ∨
      ((s.createAux pid b).threads s.threadCount).storeBuffers =
        (s.threads s.threadCount).storeBuffers := by
  rw [createAux]
  split
  · exact .inr rfl
  · exact .inl (congrArg PsoRecordedThread.storeBuffers (threads_addThread.trans (if_pos rfl)))

/-- A store to the buffers of a real thread. -/
theorem Running.store (hrun : Running h)
    (howner : (h.recorder.threads h.current).owner = none) :
    Invariant ⟨h.recorder.store h.current ml, Function.update h.pending h.current
      (h.pending h.current ++ [(ml, [])]), h.log⟩ := by
  have hlt := hrun.current_lt
  have hpart : Part h.recorder (h.recorder.store h.current ml) h.current [] [] :=
    store_part hlt howner
  have htables : SameTables h.recorder (h.recorder.store h.current ml) := by
    have haccesses : (h.recorder.store h.current ml).accesses = h.recorder.accesses :=
      createAux_tables ..
    refine ⟨?_, ?_, ?_⟩
    · rw [haccesses]
    · rw [haccesses]
    · rw [haccesses]
  have hne := Nat.ne_of_lt hlt
  let u := h.recorder.modifyThread h.current fun t => { t with
    storeBuffers := t.storeBuffers.pushRange ml fun _ =>
      ⟨ml, h.recorder.threadClock h.current, none⟩ }
  have hstore : h.recorder.store h.current ml = u.createAux h.current ml.1.addr := rfl
  refine ⟨hrun.sleepers_of_part hpart, hrun.tracked.neutral hpart rfl htables, ?_, ?_⟩
  · intro p
    dsimp only
    by_cases hp : p = h.current
    · subst hp
      rw [Function.update_self]
      refine (hrun.pending _).push hpart (h.recorder.threadClock h.current) ?_
      rw [hstore, createAux_buffers (s := u) hne, threads_modifyThread_self]
    · rw [Function.update_of_ne hp]
      have hu : (u.threads p).storeBuffers = (h.recorder.threads p).storeBuffers := by
        rw [threads_modifyThread_of_ne hp]
      have hold : ((h.recorder.store h.current ml).threads p).storeBuffers =
          (h.recorder.threads p).storeBuffers →
            Pending (h.recorder.store h.current ml) h.log p (h.pending p) := by
        exact (hrun.pending p).same hpart
      by_cases hnew : p = h.recorder.threadCount
      · subst hnew
        cases createAux_buffers_new (s := u) (b := ml.1.addr) with
        | inr hsame => exact hold (hsame.trans hu)
        | inl hempty =>
            rw [hrun.fresh _ (Nat.le_refl _)]
            refine ⟨?_, nofun, .nil⟩
            intro b
            have hget := congrArg (fun buffers => buffers.get b) hempty
            change ((h.recorder.store h.current ml).threads h.recorder.threadCount).storeBuffers.get
              b = [] at hget
            rw [hget]
            exact .nil
      · exact hold ((createAux_buffers (s := u) hnew).trans hu)
  · intro p hp
    have hcount := Nat.le_trans hpart.threadCount hp
    dsimp only
    rw [Function.update_of_ne (Nat.ne_of_gt (Nat.lt_of_lt_of_le hlt hcount))]
    exact hrun.fresh p hcount

/-- A load that reads a pending store early. -/
theorem Running.loadEarly (hrun : Running h)
    (howner : (h.recorder.threads h.current).owner = none)
    (hready : Ready (h.recorder.threads h.current).storeBuffers (.load ml))
    (hpending : h.recorder.hasPendingStore h.current ml.1.addr = true)
    (hload : h.recorder.load h.current ml = some t) :
    Invariant ⟨t, Function.update h.pending h.current
      (noteEarly h.recorder.prefixIdx ml.1.addr (h.pending h.current)), h.log⟩ := by
  have hpart := load_part hrun.current_lt hrun.events howner hload
  obtain ⟨dryRuns, hsleepers⟩ := hrun.sleepers
  obtain ⟨ranges, hbuffered⟩ := hsleepers.projected h.current howner
  have hget : (h.recorder.threads h.current).storeBuffers.get ml.1.addr ≠ [] :=
    (hbuffered.keyed _).mp (of_decide_eq_true hpending)
  have hold := hrun.pending h.current
  obtain ⟨front, rows, back, heq, hback⟩ := hold.exists_youngest hready hget
  have hcovers : StoreRows.covers (ml, rows) ml.1.addr = true :=
    StoreRows.covers_iff.mpr ml.addr_mem_bytes
  have ht : t = h.recorder.conflicting.markRowe h.current ml.1.addr := by
    cases load_eq_some hload with
    | inl hearly => exact hearly.2
    | inr hmemory =>
        rw [hpending] at hmemory
        cases hmemory.1
  have hidx : h.recorder.conflicting.prefixIdx = h.recorder.prefixIdx :=
    prefixIdx_congr pids_conflicting
  have hconflicts : t.Conflicts h.recorder.prefixIdx := by
    rw [ht]
    exact conflicts_conflicting hrun.events
  have htables : SameTables h.recorder t := by
    rw [ht]
    exact ⟨rfl, rfl, rfl⟩
  refine ⟨hrun.sleepers_of_part hpart, hrun.tracked.neutral hpart rfl htables, ?_, ?_⟩
  · intro p
    dsimp only
    by_cases hp : p = h.current
    · subst hp
      have hyounger := fun e he => hback e he _ ml.addr_mem_bytes
      rw [Function.update_self, heq, noteEarly_append hcovers hyounger]
      rw [heq] at hold
      refine hold.mark hback hpart rfl hconflicts (fun j hj => le_prefixIdx hj.lt)
        (fun x hx => hrun.tracked.le_prefixIdx hx) ?_
      rw [ht, markRowe, threads_modifyThread_self, hidx]
      rfl
    · rw [Function.update_of_ne hp]
      have hbuffers : (t.threads p).storeBuffers = (h.recorder.threads p).storeBuffers := by
        rw [ht, markRowe, threads_modifyThread_of_ne hp]
        rfl
      exact (hrun.pending p).same hpart hbuffers
  · intro p hp
    have hcount := Nat.le_trans hpart.threadCount hp
    dsimp only
    rw [Function.update_of_ne (Nat.ne_of_gt (Nat.lt_of_lt_of_le hrun.current_lt hcount))]
    exact hrun.fresh p hcount

/-! ### All calls -/

theorem mutexDestroy_conflicts (hlt : pid < s.threadCount) (hevents : s.events ≠ [])
    (hdestroy : s.mutexDestroy pid m = some t) : t.Conflicts s.prefixIdx := by
  rw [mutexDestroy] at hdestroy
  obtain ⟨u, hu, hdestroy⟩ := Option.bind_eq_some_iff.mp hdestroy
  obtain ⟨mutex, -, hdestroy⟩ := Option.bind_eq_some_iff.mp hdestroy
  cases hdestroy
  have hfence := fence_part hu
  have hltu := Nat.lt_of_lt_of_le hlt hfence.threadCount
  obtain ⟨hopen, hconflicts⟩ := opening hltu (events_ne_nil hfence.pids hevents) (.w m)
  rw [prefixIdx_congr hopen.pids, prefixIdx_congr hfence.pids] at hconflicts
  have hsees := Part.seeEvents (Nat.lt_of_lt_of_le hltu hopen.threadCount)
    ((u.conflicting.wakeup pid (.w m)).mutexSees mutex)
  exact hsees.conflicts _ hconflicts

theorem join_tables {tgtProc : ℕ} (hjoin : s.join pid tgtProc = some t) : SameTables s t := by
  rw [join] at hjoin
  obtain ⟨tgt, -, hjoin⟩ := Option.bind_eq_some_iff.mp hjoin
  cases hjoin
  exact ⟨rfl, rfl, rfl⟩

/-- The last access to a mutex is noted, so that its event has conflicts. -/
theorem Running.usesMutex (hrun : Running h)
    (hpart : Part h.recorder t h.current wakeups written) (hbuffers : SameBuffers h.recorder t)
    (huses : UsesMutex h.recorder t m (some h.recorder.prefixIdx)) :
    Invariant ⟨t, h.pending, h.log ++ [h.logged (.mutex m false)]⟩ :=
  hrun.mutex hpart hbuffers huses (hrun.conflicts_of_uses hpart huses)

theorem Running.condWait (hrun : Running h) (hwait : h.recorder.condWait h.current c m = some t) :
    Invariant ⟨t, h.pending, h.log ++ h.accesses (.condWait c m)⟩ := by
  have hlt := hrun.current_lt
  rw [PsoRecorder.condWait] at hwait
  rw [accesses]
  split at hwait
  · rename_i haccepts
    rw [if_pos haccepts]
    obtain ⟨u, hunlock, hwait⟩ := Option.bind_eq_some_iff.mp hwait
    have hpart := mutexUnlock_part hlt hrun.events hunlock
    have hinv := hrun.usesMutex hpart (mutexUnlock_buffers hunlock)
      (mutexUnlock_uses hrun.events hunlock)
    have hrun' : Running ⟨u, h.pending, h.log ++ [h.logged (.mutex m false)]⟩ :=
      ⟨hinv, hpart.running.trans hrun.running⟩
    have hcurrent : u.pidOf u.prefixIdx = h.current := by
      rw [prefixIdx_congr hpart.pids, pidOf_congr hpart.pids]
      rfl
    have hpart' := waitFor_part (Nat.lt_of_lt_of_le hlt hpart.threadCount)
      (events_ne_nil hpart.pids hrun.events) hwait
    rw [← hcurrent] at hpart'
    exact hrun'.neutral hpart' (waitFor_tables hwait) (waitFor_buffers hwait)
  · rename_i haccepts
    rw [if_neg haccepts, List.append_nil]
    cases hwait
    exact hrun.toInvariant

theorem Running.load_or_early (hrun : Running h)
    (howner : (h.recorder.threads h.current).owner = none)
    (hready : Ready (h.recorder.threads h.current).storeBuffers (.load ml))
    (hload : h.recorder.load h.current ml = some t) :
    Invariant ⟨t, h.notePending (.load ml), h.log ++ h.reads ml⟩ := by
  rw [notePending]
  cases hpending : h.recorder.hasPendingStore h.current ml.1.addr with
  | true =>
      rw [if_pos rfl, reads, if_pos hpending, List.append_nil]
      exact hrun.loadEarly howner hready hpending hload
  | false =>
      rw [if_neg Bool.false_ne_true]
      exact hrun.load howner hready hpending hload

theorem Running.exec (hrun : Running h) (hpermitted : h.recorder.permitted h.current call = true)
    (hexec : h.recorder.exec h.current call = some t) :
    Invariant ⟨t, h.notePending call, h.log ++ h.accesses call⟩ := by
  have hlt := hrun.current_lt
  have hready := ready_of_permitted hpermitted
  cases call with
  | spawn =>
      cases hexec
      simp only [accesses, List.append_nil]
      exact hrun.toInvariant.spawn hrun.events (hrun.sleepers_of_part (spawn_part hlt _))
  | store ml =>
      cases hexec
      simp only [accesses, List.append_nil]
      exact hrun.store (Option.isNone_iff_eq_none.mp hpermitted)
  | atomicStore ml =>
      rw [PsoRecorder.exec, atomicStore] at hexec
      rw [notePending, accesses]
      cases howner : (h.recorder.threads h.current).owner with
      | none =>
          rw [howner] at hexec
          exact hrun.realStore howner hexec
      | some tid =>
          rw [howner] at hexec
          refine hrun.update howner ?_ hexec
          rw [permitted, howner, Option.all_some, List.all_eq_true] at hpermitted
          intro b hb
          obtain ⟨pst, hpst, heq⟩ := (Option.any_eq_true _ _).mp (hpermitted b hb)
          exact ⟨pst, hpst, of_decide_eq_true heq⟩
  | compareExchange ml success =>
      rw [permitted, Bool.and_eq_true, Option.isNone_iff_eq_none] at hpermitted
      rw [PsoRecorder.exec, compareExchange] at hexec
      cases success with
      | true =>
          rw [if_pos rfl, atomicStore, hpermitted.1] at hexec
          exact hrun.realStore hpermitted.1 hexec
      | false =>
          exact hrun.load hpermitted.1 (hrun.ready_load hpermitted.1 hready)
            (not_hasPendingStore hready) hexec
  | atomicRmw ml =>
      rw [permitted, Bool.and_eq_true, Option.isNone_iff_eq_none] at hpermitted
      exact hrun.atomicRmw hpermitted.1 hready hexec
  | load ml =>
      rw [permitted, Bool.and_eq_true, Option.isNone_iff_eq_none] at hpermitted
      exact hrun.load_or_early hpermitted.1 hready hexec
  | fullMemoryConflict =>
      cases hexec
      exact hrun.fullMemoryConflict
  | mutexLock m | condAwake c m =>
      exact hrun.usesMutex (mutexLock_part hlt hrun.events hexec) (mutexLock_buffers hexec)
        (mutexLock_uses hrun.events hexec)
  | mutexUnlock m =>
      exact hrun.usesMutex (mutexUnlock_part hlt hrun.events hexec) (mutexUnlock_buffers hexec)
        (mutexUnlock_uses hrun.events hexec)
  | mutexTrylock m =>
      exact hrun.usesMutex (mutexTrylock_part hlt hrun.events hexec) (mutexTrylock_buffers hexec)
        (mutexTrylock_uses hrun.events hexec)
  | mutexInit m =>
      exact hrun.usesMutex (mutexInit_part hlt hrun.events hexec) (mutexInit_buffers hexec)
        (mutexInit_uses hrun.events hexec)
  | mutexDestroy m =>
      exact hrun.mutex (mutexDestroy_part hlt hrun.events hexec) (mutexDestroy_buffers hexec)
        (mutexDestroy_uses hrun.events hexec) (mutexDestroy_conflicts hlt hrun.events hexec)
  | condWait c m => exact hrun.condWait hexec
  | fence =>
      simp only [accesses, List.append_nil]
      exact hrun.neutral (fence_part hexec) (SameView.fence hexec).tables (.fence hexec)
  | join tgtProc =>
      simp only [accesses, List.append_nil]
      exact hrun.neutral (join_part hexec) (join_tables hexec) (join_buffers hexec)
  | condInit c =>
      simp only [accesses, List.append_nil]
      exact hrun.neutral (condInit_part hlt hrun.events hexec) (condInit_tables hexec)
        (condInit_buffers hexec)
  | condSignal c =>
      simp only [accesses, List.append_nil]
      exact hrun.neutral (condSignal_part hlt hrun.events hexec) (condSignal_tables hexec)
        (condSignal_buffers hexec)
  | condBroadcast c =>
      simp only [accesses, List.append_nil]
      exact hrun.neutral (condBroadcast_part hlt hrun.events hexec) (condBroadcast_tables hexec)
        (condBroadcast_buffers hexec)
  | condDestroy c =>
      simp only [accesses, List.append_nil]
      exact hrun.neutral (condDestroy_part hlt hrun.events hexec) (condDestroy_tables hexec)
        (condDestroy_buffers hexec)
  | registerAlternatives altCount =>
      cases hexec
      simp only [accesses, List.append_nil]
      exact hrun.neutral (.conflicting _) (SameView.conflicting _).tables ⟨fun _ => rfl⟩

end Nidhugg.PsoHistory
