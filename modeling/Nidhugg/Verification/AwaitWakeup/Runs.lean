import Mathlib.Data.Set.Basic
import Nidhugg.Verification.AwaitWakeup.Turns

/-! # Wakeups of blocked awaits

A store wakes the awaits of exactly the range that is written. In a run without stores that make the
condition of another await true, no thread stays blocked at an await whose condition holds. -/

namespace Nidhugg.Interpreter

open Hoare

variable {β : Type} {env : Env β} {s₀ s t u : Recorded β} {B C : Set (Ptr × Waiting)} {e : Effect}

/-- The condition of an await at an address holds. -/
def Holds (env : Env β) (s : Recorded β) (a : Ptr × Waiting) : Prop :=
  a.2.2.2.satisfiedBy env (readBytes s.memory a.1 a.2.1.size) = true

theorem Holds.congr {a : Ptr × Waiting} (h : Holds env t a) (hmem : t.memory = s.memory) :
    Holds env s a := by
  unfold Holds at h ⊢
  rwa [← hmem]

/-! ### Stores -/

theorem forM_notify_eq_ok {entries : List Waiting} {a : Unit}
    (h : (entries.forM fun a => notify (recording env) (.markAvailable a.2.1)) s = .ok (a, t)) :
    ∃ b, t = { s with
      builder := (s.builder.1 ++ entries.map fun a => .markAvailable a.2.1, b) } := by
  induction entries generalizing s with
  | nil =>
      cases h
      exact ⟨t.builder.2, by simp⟩
  | cons entry entries ih =>
      obtain ⟨_, u, hnotify, h⟩ := bind_eq_ok.mp h
      cases hnotify
      obtain ⟨b, rfl⟩ := ih h
      exact ⟨b, by simp [recording]⟩

/-- The awaits that a store to `ml` wakes. -/
def woken (env : Env β) (ml : SymAddrSize) (data : List Byte) (a : Waiting) : Bool :=
  a.1 = ml && a.2.2.satisfiedBy env data

/-- A store is kept for a dry run, or wakes awaits. -/
structure Stored (env : Env β) (s t : Recorded β) (ptr : Ptr) (ml : SymAddrSize) : Prop where
  dry : s.dryRun = true → t.memory = s.memory ∧ t.blockingAwaits = s.blockingAwaits ∧
    t.builder.1 = s.builder.1
  wakes : s.dryRun = false → ∃ data, data = readBytes t.memory ptr ml.size ∧
    t.blockingAwaits = s.blockingAwaits.filter (fun a => !woken env ml data a) ∧
    t.builder.1 = s.builder.1 ++
      (s.blockingAwaits.filter (woken env ml data)).map fun a => .markAvailable a.2.1

theorem performStore_eq_ok {v : Value} {ptr : Ptr} {width : Width} {ml : AccessRange} {a : Unit}
    (h : performStore (recording env) v ptr width ml s = .ok (a, t)) :
    Stored env s t ptr ml.1 := by
  obtain ⟨_, _, hget, h⟩ := bind_eq_ok.mp h
  cases hget
  split at h
  · rename_i hdry
    cases h
    constructor
    · exact fun _ => ⟨rfl, rfl, rfl⟩
    · intro hdry'
      rw [hdry] at hdry'
      cases hdry'
  · rename_i hdry
    obtain ⟨_, u, hstore, h⟩ := bind_eq_ok.mp h
    cases hstore
    obtain ⟨_, _, hget, h⟩ := bind_eq_ok.mp h
    cases hget
    obtain ⟨_, w, hforM, h⟩ := bind_eq_ok.mp h
    obtain ⟨b, rfl⟩ := forM_notify_eq_ok hforM
    cases h
    constructor
    · exact fun hdry' => (hdry hdry').elim
    · exact fun _ => ⟨_, rfl, rfl, rfl⟩

/-! ### Runs -/

/-- The blocked awaits after a part of a turn, with their addresses. -/
def blockedAfter (B : Set (Ptr × Waiting)) (s : Recorded β) (e : Effect) (t : Recorded β) :
    Set (Ptr × Waiting) :=
  fun a => (a ∈ B ∧ ¬Marked s t a.2.2.1) ∨ e = .refuse a.1 a.2

/-- The trace builder has chosen a thread. -/
def scheduled (s : Recorded β) (proc alt : ℕ) (dryRun : Bool) : Recorded β :=
  { s with currentThread := proc, currentAlt := alt, dryRun := dryRun }

/-- A condition on the parts of a run. -/
abbrev PartCondition (β : Type) := Set (Ptr × Waiting) → Recorded β → Effect → Recorded β → Prop

/-- Parts of a turn. -/
inductive Within (env : Env β) (ok : PartCondition β) (s : Recorded β) (B : Set (Ptr × Waiting)) :
    Recorded β → Set (Ptr × Waiting) → Prop where
  | start : Within env ok s B s B
  | part {t u : Recorded β} {C : Set (Ptr × Waiting)} {e : Effect} (h : Within env ok s B t C)
      (hpart : Part env t e u) (hok : ok C t e u) : Within env ok s B u (blockedAfter C t e u)

/-- The states between the turns of a run, each with the blocked awaits. A blocked thread gets its
next turn only after it has been marked available. -/
inductive Run (env : Env β) (ok : PartCondition β) : Recorded β → Set (Ptr × Waiting) → Prop where
  | start {s : Recorded β} (hawaits : s.blockingAwaits = []) : Run env ok s ∅
  | turn {s t : Recorded β} {B C : Set (Ptr × Waiting)} (h : Run env ok s B) (proc alt : ℕ)
      (dryRun : Bool) (fuel : ℕ) (havailable : ∀ a ∈ B, a.2.2.1 ≠ proc)
      (hstep : step (recording env) fuel (scheduled s proc alt dryRun) = .ok ((), t))
      (hparts : Within env ok (scheduled s proc alt dryRun) B t C) : Run env ok t C

/-- Every turn consists of parts. -/
theorem exists_within {fuel : ℕ} (h : step (recording env) fuel s = .ok ((), t))
    (B : Set (Ptr × Waiting)) : ∃ C, Within env (fun _ _ _ _ => True) s B t C := by
  have hparts : Parts env s t := (parts_step fuel).returns Relation.ReflTransGen.refl h
  clear h
  induction hparts with
  | refl => exact ⟨B, .start⟩
  | tail _ hpart ih =>
      obtain ⟨C, hC⟩ := ih
      obtain ⟨e, he⟩ := hpart
      exact ⟨_, hC.part he trivial⟩

/-- A part makes the condition of a blocked await true only by a store to exactly its range, and the
refused thread is not entered with another condition. -/
structure Careful (env : Env β) (B : Set (Ptr × Waiting)) (s : Recorded β) (e : Effect)
    (t : Recorded β) : Prop where
  range : ∀ a ∈ B, Holds env t a → Holds env s a ∨ e = .store a.1 a.2.1
  entered : ∀ ptr a, e = .refuse ptr a →
    ∀ b ∈ s.blockingAwaits, b.1 = a.1 → b.2.1 = a.2.1 → b = a

/-- The blocked awaits are entered, and their conditions do not hold. -/
structure Awaiting (env : Env β) (s : Recorded β) (B : Set (Ptr × Waiting)) : Prop where
  entered : ∀ a ∈ B, a.2 ∈ s.blockingAwaits
  blocked : ∀ a ∈ B, ¬Holds env s a

theorem mem_emplaceAwait {a b : Waiting} {entries : List Waiting} (h : b ∈ entries) :
    b ∈ emplaceAwait a entries := by
  induction entries with
  | nil => cases h
  | cons c entries ih =>
      rw [emplaceAwait]
      split
      · exact h
      · split
        · exact List.mem_cons_of_mem a h
        · cases List.mem_cons.mp h with
          | inl heq => exact heq ▸ List.mem_cons_self
          | inr h => exact List.mem_cons_of_mem c (ih h)

theorem mem_emplaceAwait_self {a : Waiting} {entries : List Waiting}
    (h : ∀ b ∈ entries, b.1 = a.1 → b.2.1 = a.2.1 → b = a) : a ∈ emplaceAwait a entries := by
  induction entries with
  | nil => exact List.mem_cons_self
  | cons c entries ih =>
      rw [emplaceAwait]
      split
      · rename_i hkey
        rw [h c List.mem_cons_self hkey.1 hkey.2]
        exact List.mem_cons_self
      · split
        · exact List.mem_cons_self
        · exact List.mem_cons_of_mem c (ih fun b hb => h b (List.mem_cons_of_mem c hb))

/-- A blocked await whose condition comes to hold is woken. -/
theorem Awaiting.marked (h : Awaiting env s B) (hpart : Part env s e t)
    (hcareful : Careful env B s e t) {a : Ptr × Waiting} (ha : a ∈ B) (hholds : Holds env t a) :
    Marked s t a.2.2.1 := by
  cases hcareful.range a ha hholds with
  | inl hbefore => exact (h.blocked a ha hbefore).elim
  | inr he =>
      cases hpart with
      | quiet hq => cases he
      | refuse haddr hrefuse => cases he
      | store hstore =>
          obtain ⟨rfl, hml⟩ := Effect.store.inj he
          have hstored := performStore_eq_ok hstore
          cases hdry : s.dryRun with
          | true => exact (h.blocked a ha (hholds.congr (hstored.dry hdry).1)).elim
          | false =>
              obtain ⟨data, hdata, _, hrecord⟩ := hstored.wakes hdry
              refine ⟨_, hrecord, List.mem_map.mpr ⟨a.2, ?_, rfl⟩⟩
              apply List.mem_filter.mpr
              refine ⟨h.entered a ha, ?_⟩
              unfold Holds at hholds
              rw [woken, hml, decide_eq_true rfl, hdata, hml, hholds]
              rfl

/-- Awaits that are not woken stay entered. -/
theorem Awaiting.part (h : Awaiting env s B) (hpart : Part env s e t)
    (hcareful : Careful env B s e t) : Awaiting env t (blockedAfter B s e t) := by
  have hmarked := fun a (ha : a ∈ B) => h.marked hpart hcareful ha
  cases hpart with
  | quiet hq =>
      constructor
      · rintro a (⟨ha, _⟩ | he)
        · rw [hq.blockingAwaits]
          exact h.entered a ha
        · cases he
      · rintro a (⟨ha, hnot⟩ | he)
        · exact fun hholds => hnot (hmarked a ha hholds)
        · cases he
  | store hstore =>
      have hstored := performStore_eq_ok hstore
      constructor
      · rintro a (⟨ha, hnot⟩ | he)
        · cases hdry : s.dryRun with
          | true =>
              rw [(hstored.dry hdry).2.1]
              exact h.entered a ha
          | false =>
              obtain ⟨data, _, hawaits, hrecord⟩ := hstored.wakes hdry
              rw [hawaits, List.mem_filter, Bool.not_eq_true']
              refine ⟨h.entered a ha, Bool.eq_false_iff.mpr ?_⟩
              intro hwoken
              have hmem := List.mem_filter.mpr ⟨h.entered a ha, hwoken⟩
              exact hnot ⟨_, hrecord, List.mem_map.mpr ⟨a.2, hmem, rfl⟩⟩
        · cases he
      · rintro a (⟨ha, hnot⟩ | he)
        · exact fun hholds => hnot (hmarked a ha hholds)
        · cases he
  | @refuse ptr width cond event addr t haddr hrefuse =>
      rcases refuseAwait_eq_ok hrefuse with ⟨hfalse, _⟩ | ⟨_, addr', hrefused⟩
      · cases hfalse
      obtain rfl : addr = addr' := Option.some.inj (haddr.symm.trans hrefused.addr)
      constructor
      · rintro a (⟨ha, _⟩ | he)
        · rw [hrefused.blockingAwaits]
          exact mem_emplaceAwait (h.entered a ha)
        · obtain ⟨_, ha⟩ := Effect.refuse.inj he
          rw [hrefused.blockingAwaits, ha]
          exact mem_emplaceAwait_self (ha ▸ hcareful.entered a.1 a.2 he)
      · rintro a (⟨ha, hnot⟩ | he)
        · exact fun hholds => hnot (hmarked a ha hholds)
        · obtain ⟨hptr, ha⟩ := Effect.refuse.inj he
          intro hholds
          unfold Holds at hholds
          rw [← hptr, ← ha, hrefused.memory, hrefused.not_holds] at hholds
          cases hholds

theorem Awaiting.within (h : Awaiting env s B) (hw : Within env (Careful env) s B t C) :
    Awaiting env t C := by
  induction hw with
  | start => exact h
  | part _ hpart hok ih => exact ih.part hpart hok

theorem Awaiting.scheduled (h : Awaiting env s B) (proc alt : ℕ) (dryRun : Bool) :
    Awaiting env (scheduled s proc alt dryRun) B :=
  ⟨h.entered, h.blocked⟩

theorem Run.awaiting (h : Run env (Careful env) s B) : Awaiting env s B := by
  induction h with
  | start hawaits => exact ⟨fun _ ha => ha.elim, fun _ ha => ha.elim⟩
  | turn _ proc alt dryRun fuel _ _ hparts ih => exact (ih.scheduled proc alt dryRun).within hparts

/-- Every part of a turn, in particular every store, marks the threads available that are blocked at
an await whose condition holds afterwards. -/
theorem marked_of_run (h : Run env (Careful env) s B) {proc alt : ℕ} {dryRun : Bool}
    (hparts : Within env (Careful env) (scheduled s proc alt dryRun) B t C)
    (hpart : Part env t e u) (hcareful : Careful env C t e u) :
    ∀ a ∈ C, Holds env u a → Marked t u a.2.2.1 :=
  fun _ ha hholds =>
    ((h.awaiting.scheduled proc alt dryRun).within hparts).marked hpart hcareful ha hholds

/-! ### Stores to a part of the range and to the whole range -/

/-- The first thread stores one, with a given width, to a variable of two bytes. The second thread
awaits the value one. -/
def awaitProgram (width : Width) : Ptr → Option Callee
  | 1 => some (.builtin (.loadAwait ⟨2, by decide⟩))
  | 2 => some (.function ⟨false, [], some [⟨[], [.store (.constant 1) (.constant 100) width false],
      by simp [Instruction.results]⟩], false, false⟩)
  | 3 => some (.function ⟨false, [], some [⟨[], [.call none (.direct 1)
      [.constant 100, .constant 2, .constant 1]], by decide⟩], false, false⟩)
  | _ => none

def awaitEnv (width : Width) : Env Unit := .accepting (awaitProgram width)

/-- Two threads, each before its only instruction. -/
def beforeAwait : Recorded Unit :=
  .started 2 [{ Thread.new with ecStack := [⟨2, 0, 0, fun _ => 0, none⟩] },
    { Thread.new with ecStack := [⟨3, 0, 0, fun _ => 0, none⟩] }] false ([], ())

def awaitOne : Waiting := (⟨⟨.global 0, 0⟩, 2⟩, 1, ⟨.eq, [1, 0]⟩)

/-- The second thread has fetched its instruction. -/
def fetchedAwait : Recorded Unit :=
  { scheduled beforeAwait 1 0 false with
    threads := [{ Thread.new with ecStack := [⟨2, 0, 0, fun _ => 0, none⟩] },
      { Thread.new with ecStack := [⟨3, 0, 1, fun _ => 0, none⟩] }] }

/-- The await is refused. -/
def refusedAwait : Recorded Unit :=
  { fetchedAwait with
    blockingAwaits := [awaitOne]
    builder := ([.loadAwaitFail awaitOne.1 awaitOne.2.2, .refuseSchedule], ()) }

/-- The second thread has moved back to its instruction. -/
def afterAwait : Recorded Unit := { refusedAwait with threads := beforeAwait.threads }

theorem width_pos (width : Width) : 0 < width.1 := width.2

/-- The first thread is about to store. -/
def beforeStore (width : Width) : Recorded Unit :=
  { scheduled afterAwait 0 0 false with
    threads := [{ Thread.new with ecStack := [⟨2, 0, 1, fun _ => 0, none⟩] },
      { Thread.new with ecStack := [⟨3, 0, 0, fun _ => 0, none⟩] }]
    builder := (afterAwait.builder.1 ++ [.metadata, .atomicStore
      (getSymData (awaitEnv width) ⟨⟨⟨.global 0, 0⟩, width.1⟩, width_pos width⟩ 1)], ()) }

theorem not_marked_of_record {s t : Recorded Unit} {proc : ℕ} {new : List Callback}
    (h : t.builder.1 = s.builder.1 ++ new) (hnew : .markAvailable proc ∉ new) :
    ¬Marked s t proc := by
  rintro ⟨new', hnew', hmem⟩
  rw [List.append_cancel_left (hnew'.symm.trans h)] at hmem
  exact hnew hmem

theorem eq_of_mem_blockedAfter {a : Ptr × Waiting} (hB : ∀ a ∈ B, a = (100, awaitOne))
    (he : ∀ ptr a, e = .refuse ptr a → (ptr, a) = (100, awaitOne))
    (ha : a ∈ blockedAfter B s e t) : a = (100, awaitOne) := by
  cases ha with
  | inl ha => exact hB a ha.1
  | inr ha => exact he a.1 a.2 ha

theorem eq_of_mem_blockedAfter_quiet {a : Ptr × Waiting} (hB : ∀ a ∈ B, a = (100, awaitOne))
    (ha : a ∈ blockedAfter B s .quiet t) : a = (100, awaitOne) :=
  eq_of_mem_blockedAfter hB (fun _ _ he => by cases he) ha

/-- The blocked awaits after the turn of the second thread. -/
def blockedOne : Set (Ptr × Waiting) :=
  blockedAfter (blockedAfter (blockedAfter ∅ (scheduled beforeAwait 1 0 false) .quiet fetchedAwait)
    fetchedAwait (.refuse 100 awaitOne) refusedAwait) refusedAwait .quiet afterAwait

theorem eq_of_mem_blockedRefused {a : Ptr × Waiting}
    (ha : a ∈ blockedAfter (blockedAfter ∅ (scheduled beforeAwait 1 0 false) .quiet fetchedAwait)
      fetchedAwait (.refuse 100 awaitOne) refusedAwait) : a = (100, awaitOne) := by
  apply eq_of_mem_blockedAfter _ _ ha
  · exact fun _ ha => eq_of_mem_blockedAfter_quiet (fun _ ha => ha.elim) ha
  · intro ptr a he
    obtain ⟨hptr, ha⟩ := Effect.refuse.inj he
    exact Prod.ext hptr.symm ha.symm

theorem mem_blockedOne_iff (a : Ptr × Waiting) : a ∈ blockedOne ↔ a = (100, awaitOne) := by
  apply Iff.intro (eq_of_mem_blockedAfter_quiet fun _ ha => eq_of_mem_blockedRefused ha)
  rintro rfl
  exact .inl ⟨.inr rfl, not_marked_of_record (List.append_nil _).symm List.not_mem_nil⟩

/-- The run up to the store. -/
theorem run_afterAwait (width : Width) {ok : PartCondition Unit}
    (hquiet : ∀ B s t, (∀ a ∈ B, a = (100, awaitOne)) →
      ¬Holds (awaitEnv width) t (100, awaitOne) → ok B s .quiet t)
    (hrefuse : ∀ B, (∀ a ∈ B, a = (100, awaitOne)) →
      ok B fetchedAwait (.refuse 100 awaitOne) refusedAwait) :
    Run (awaitEnv width) ok afterAwait blockedOne := by
  have hstep : step (recording (awaitEnv width)) 0 (scheduled beforeAwait 1 0 false) =
      .ok ((), afterAwait) := by with_unfolding_all rfl
  have hawait : refuseAwait (recording (awaitEnv width)) 100 ⟨2, by decide⟩ awaitOne.2.2
      (fun ml => .loadAwaitFail ml.1 awaitOne.2.2) fetchedAwait = .ok (true, refusedAwait) := rfl
  have hpart : Part (awaitEnv width) fetchedAwait (.refuse 100 awaitOne) refusedAwait :=
    .refuse rfl hawait
  have hfetch : Part (awaitEnv width) (scheduled beforeAwait 1 0 false) .quiet fetchedAwait :=
    .quiet (.of_same rfl rfl)
  have hback : Part (awaitEnv width) refusedAwait .quiet afterAwait := .quiet (.of_same rfl rfl)
  have hfetched := Within.start.part hfetch
    (hquiet ∅ _ _ (fun _ ha => ha.elim) (by rintro ⟨⟩))
  have hrefused := hfetched.part hpart
    (hrefuse _ fun _ => eq_of_mem_blockedAfter_quiet fun _ ha => ha.elim)
  have hmoved := hrefused.part hback
    (hquiet _ _ _ (fun _ => eq_of_mem_blockedRefused) (by rintro ⟨⟩))
  exact Run.turn (.start rfl) 1 0 false 0 (fun _ ha => ha.elim) hstep hmoved

/-- The first thread has stored one byte, which makes the condition of the await true. -/
def storedByte : Recorded Unit :=
  { beforeStore ⟨1, by decide⟩ with
    memory := writeBytes (fun _ => 0) 100 (bytesOf (awaitEnv ⟨1, by decide⟩) 1 1).1 }

/-- A store to a part of the awaited range that does not wake the thread. -/
theorem not_marked_storedByte : ¬∀ (β : Type) (env : Env β) (s t u v : Recorded β)
    (B C D : Set (Ptr × Waiting)) (proc alt fuel : ℕ) (ptr : Ptr) (ml : SymAddrSize),
    Run env (fun _ _ _ _ => True) s B → (∀ a ∈ B, a.2.2.1 ≠ proc) →
    step (recording env) fuel (scheduled s proc alt false) = .ok ((), v) →
    Within env (fun _ _ _ _ => True) (scheduled s proc alt false) B t C →
    Part env t (.store ptr ml) u →
    Within env (fun _ _ _ _ => True) u (blockedAfter C t (.store ptr ml) u) v D →
    ∀ a ∈ C, Holds env u a → Marked t u a.2.2.1 := by
  intro hwakes
  have hparts : Within (awaitEnv ⟨1, by decide⟩) (fun _ _ _ _ => True)
      (scheduled afterAwait 0 0 false) blockedOne (beforeStore ⟨1, by decide⟩) _ :=
    .part .start (.quiet ⟨rfl, _, rfl⟩) trivial
  have hmem : (100, awaitOne) ∈ blockedAfter blockedOne (scheduled afterAwait 0 0 false) .quiet
      (beforeStore ⟨1, by decide⟩) := by
    refine .inl ⟨(mem_blockedOne_iff _).mpr rfl, not_marked_of_record rfl ?_⟩
    simp
  have hstore : Part (awaitEnv ⟨1, by decide⟩) (beforeStore ⟨1, by decide⟩)
      (.store 100 ⟨⟨.global 0, 0⟩, 1⟩) storedByte := by
    have hperform : performStore (recording (awaitEnv ⟨1, by decide⟩)) 1 100 ⟨1, by decide⟩
        ⟨⟨⟨.global 0, 0⟩, 1⟩, by decide⟩ (beforeStore ⟨1, by decide⟩) = .ok ((), storedByte) := rfl
    exact .store hperform
  have hmarked := hwakes Unit _ afterAwait _ _ storedByte _ _ _ 0 0 0 100 ⟨⟨.global 0, 0⟩, 1⟩
    (run_afterAwait ⟨1, by decide⟩ (fun _ _ _ _ _ => trivial) fun _ _ => trivial)
    (fun a ha => by rw [(mem_blockedOne_iff a).mp ha]; decide) rfl hparts hstore .start
    (100, awaitOne) hmem rfl
  exact not_marked_of_record (List.append_nil _).symm List.not_mem_nil hmarked

/-- The first thread has stored two bytes and woken the second thread. -/
def storedWord : Recorded Unit :=
  { beforeStore ⟨2, by decide⟩ with
    memory := writeBytes (fun _ => 0) 100 (bytesOf (awaitEnv ⟨2, by decide⟩) 2 1).1
    blockingAwaits := []
    builder := ((beforeStore ⟨2, by decide⟩).builder.1 ++ [.markAvailable 1], ()) }

theorem careful_quiet (hB : ∀ a ∈ B, a = (100, awaitOne)) (hnot : ¬Holds env t (100, awaitOne)) :
    Careful env B s .quiet t := by
  constructor
  · intro a ha hholds
    rw [hB a ha] at hholds
    exact (hnot hholds).elim
  · intro _ _ he
    cases he

theorem marked_storedWord : Marked (beforeStore ⟨2, by decide⟩) storedWord 1 := by
  have hrefuse : ∀ B, (∀ a ∈ B, a = (100, awaitOne)) → Careful (awaitEnv ⟨2, by decide⟩) B
      fetchedAwait (.refuse 100 awaitOne) refusedAwait := by
    intro B hB
    constructor
    · intro a ha hholds
      rw [hB a ha] at hholds
      cases hholds
    · intro _ _ _ b hb
      cases hb
  have hrun : Run (awaitEnv ⟨2, by decide⟩) (Careful (awaitEnv ⟨2, by decide⟩)) afterAwait
      blockedOne := run_afterAwait ⟨2, by decide⟩ (fun _ _ _ => careful_quiet) hrefuse
  have hall := fun a => (mem_blockedOne_iff a).mp
  have hparts : Within (awaitEnv ⟨2, by decide⟩) (Careful (awaitEnv ⟨2, by decide⟩))
      (scheduled afterAwait 0 0 false) blockedOne (beforeStore ⟨2, by decide⟩) _ :=
    .part .start (.quiet ⟨rfl, _, rfl⟩) (careful_quiet hall (by rintro ⟨⟩))
  have hperform : performStore (recording (awaitEnv ⟨2, by decide⟩)) 1 100 ⟨2, by decide⟩
      ⟨⟨⟨.global 0, 0⟩, 2⟩, by decide⟩ (beforeStore ⟨2, by decide⟩) = .ok ((), storedWord) := rfl
  have hcareful : Careful (awaitEnv ⟨2, by decide⟩) (blockedAfter blockedOne
      (scheduled afterAwait 0 0 false) .quiet (beforeStore ⟨2, by decide⟩))
      (beforeStore ⟨2, by decide⟩) (.store 100 ⟨⟨.global 0, 0⟩, 2⟩) storedWord := by
    constructor
    · intro a ha _
      rw [eq_of_mem_blockedAfter_quiet hall ha]
      exact .inr rfl
    · intro _ _ he
      cases he
  have hmem : (100, awaitOne) ∈ blockedAfter blockedOne (scheduled afterAwait 0 0 false) .quiet
      (beforeStore ⟨2, by decide⟩) := by
    refine .inl ⟨(mem_blockedOne_iff _).mpr rfl, not_marked_of_record rfl ?_⟩
    simp
  exact marked_of_run hrun hparts (.store hperform) hcareful (100, awaitOne) hmem rfl

end Nidhugg.Interpreter
