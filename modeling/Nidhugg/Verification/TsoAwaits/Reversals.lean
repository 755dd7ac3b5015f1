import Nidhugg.Library.FoldInvariant
import Nidhugg.Verification.TsoAwaits.Search
import Nidhugg.Verification.TsoTraceBuilder.Recomputation
import Nidhugg.Verification.VClock.LatticeLaws

/-! # Clocks only know earlier events

Every entry of a computed clock comes from an event of its process at or before the position of
the clock. So no event happens after a later one. -/

namespace Nidhugg

namespace FrontierFilter

variable {α : Type} {less : α → α → Bool}

theorem mem_of_checkFill (n : ℕ) {current : ℕ} {seq seq' : List α} {check fill fill' : ℕ}
    {included : Bool} (hn : fill - check ≤ n)
    (h : checkFill less current seq check fill = some (included, seq', fill')) {x : α}
    (hx : x ∈ seq') : x ∈ seq := by
  induction n generalizing seq check fill with
  | zero =>
      rw [checkFill, if_neg (by omega)] at h
      cases h
      exact hx
  | succ n ih =>
      rw [checkFill] at h
      split at h
      · obtain ⟨y, -, h⟩ := Option.bind_eq_some_iff.mp h
        obtain ⟨z, -, h⟩ := Option.bind_eq_some_iff.mp h
        split at h
        · cases h
          exact hx
        · split at h
          · obtain ⟨swapped, hswap, h⟩ := Option.bind_eq_some_iff.mp h
            exact SwapRemove.mem_of_swap hswap (ih (by omega) h)
          · exact ih (by omega) h
      · cases h
        exact hx

theorem mem_of_addCurrent {s s' : List α × ℕ} {current : ℕ}
    (h : addCurrent less s current = some s') {x : α} (hx : x ∈ s'.1) : x ∈ s.1 := by
  obtain ⟨⟨included, seq, fill⟩, hcheck, h⟩ := Option.bind_eq_some_iff.mp h
  have hmem {y : α} (hy : y ∈ seq) : y ∈ s.1 := mem_of_checkFill _ le_rfl hcheck hy
  simp only at h
  split at h
  · split at h
    · obtain ⟨moved, hmoved, h⟩ := Option.bind_eq_some_iff.mp h
      cases h
      exact hmem (SwapRemove.mem_of_swap hmoved hx)
    · cases h
      exact hmem hx
  · cases h
    exact hmem hx

/-- Filtering adds nothing to a sequence. -/
theorem mem_of_frontierFilter {seq seq' : List α} {fill : ℕ}
    (h : frontierFilter less seq = some (seq', fill)) {x : α} (hx : x ∈ seq') : x ∈ seq := by
  let Kept : List α × ℕ → Prop := fun s => ∀ x ∈ s.1, x ∈ seq
  have hkept : Kept (seq', fill) := FoldInvariant.of_foldlM (List.range seq.length)
    (fun s _ s' _ hs hturn x hx => hs x (mem_of_addCurrent hturn hx)) (fun _ hx => hx) h
  exact hkept x hx

end FrontierFilter

namespace TsoTraceBuilder

/-- The entries of a clock come from events before a position. -/
def Behind (pre : List Event) (n : ℕ) (c : VClock) : Prop :=
  ∀ p, c.get p = 0 ∨
    ∃ l < n, (eventAt pre l).iid.pid = p ∧ c.get p ≤ (eventAt pre l).iid.index

variable {pre : List Event}

theorem Behind.mono {m n : ℕ} {c : VClock} (h : Behind pre m c) (hle : m ≤ n) :
    Behind pre n c := by
  intro p
  cases h p with
  | inl hzero => exact .inl hzero
  | inr hsome =>
      obtain ⟨l, hl, hpid, hindex⟩ := hsome
      exact .inr ⟨l, hl.trans_le hle, hpid, hindex⟩

theorem Behind.empty (n : ℕ) : Behind pre n .empty := fun p => .inl (VClock.get_empty p)

theorem Behind.set {n i : ℕ} {c : VClock} (h : Behind pre n c) (hi : i < n) :
    Behind pre n (c.set (eventAt pre i).iid.pid (eventAt pre i).iid.index) := by
  intro p
  rw [VClock.get_set]
  by_cases hp : p = (eventAt pre i).iid.pid
  · rw [if_pos hp]
    exact .inr ⟨i, hi, hp.symm, le_rfl⟩
  · rw [if_neg hp]
    exact h p

theorem Behind.addAssign {n : ℕ} {c c' : VClock} (h : Behind pre n c) (h' : Behind pre n c') :
    Behind pre n (c.addAssign c') := by
  intro p
  rw [VClock.get_addAssign]
  cases max_choice (c.get p) (c'.get p) with
  | inl hmax =>
      rw [hmax]
      exact h p
  | inr hmax =>
      rw [hmax]
      exact h' p

theorem Behind.joinClocks {n : ℕ} {ks : List ℕ} {c : VClock} (h : Behind pre n c)
    (hks : ∀ k ∈ ks, Behind pre n (eventAt pre k).clock) :
    Behind pre n (joinClocks pre c ks) := by
  induction ks generalizing c with
  | nil => exact h
  | cons k ks ih =>
      exact ih (h.addAssign (hks k List.mem_cons_self))
        fun l hl => hks l (List.mem_cons_of_mem k hl)

theorem Behind.joinLater {n : ℕ} {later : List (Option ℕ)} {c : VClock} (h : Behind pre n c)
    (hlater : ∀ b, some b ∈ later → Behind pre n (eventAt pre b).clock) :
    Behind pre n (joinLater pre c later) := by
  induction later generalizing c with
  | nil => exact h
  | cons b later ih =>
      have hrest : ∀ b, some b ∈ later → Behind pre n (eventAt pre b).clock :=
        fun b' hb' => hlater b' (List.mem_cons_of_mem b hb')
      cases b with
      | none => exact ih h hrest
      | some b =>
          rw [TsoTraceBuilder.joinLater, List.foldl_cons]
          simp only
          split
          · exact ih (h.addAssign (hlater b List.mem_cons_self)) hrest
          · exact ih h hrest

/-- The entries of a clock depend on the identifiers of the events only. -/
theorem Behind.congr {pre' : List Event} (hiid : ∀ k, (eventAt pre' k).iid = (eventAt pre k).iid)
    {n : ℕ} {c : VClock} (h : Behind pre n c) : Behind pre' n c := by
  intro p
  cases h p with
  | inl hzero => exact .inl hzero
  | inr hsome =>
      obtain ⟨l, hl, hpid, hindex⟩ := hsome
      exact .inr ⟨l, hl, (hiid l).symm ▸ hpid, (hiid l).symm ▸ hindex⟩

/-! ## What is recorded during an execution -/

/-- The events of a process are in program order, and what an event refers to is earlier. -/
structure Sound (pre : List Event) : Prop where
  index_pos : ∀ k < pre.length, 0 < (eventAt pre k).iid.index
  ordered : ∀ k m, k < m → m < pre.length → (eventAt pre k).iid.pid = (eventAt pre m).iid.pid →
    (eventAt pre k).iid.index < (eventAt pre m).iid.index
  races : ∀ i < pre.length, ∀ r ∈ (eventAt pre i).races, r.isNondet = false →
    ∀ b, r.joined? = some b → b < i
  later : ∀ i < pre.length, ∀ b, some b ∈ (eventAt pre i).happensAfterLater → b < i

/-- The races of failed locks are kept apart. -/
structure VclockState.WellFormed (st : VclockState) : Prop extends Sound st.pre where
  lockFailRaces : ∀ r ∈ st.lockFailRaces, ∃ first second process,
    r = .lockFail first second process

theorem eventAt_set (pre : List Event) (i k : ℕ) (e : Event) :
    eventAt (pre.set i e) k = if k = i ∧ i < pre.length then e else eventAt pre k := by
  simp only [eventAt, List.getD_eq_getElem?_getD, List.getElem?_set]
  by_cases hk : i = k
  · subst hk
    by_cases hi : i < pre.length <;> simp [hi]
  · simp [hk, Ne.symm hk]

theorem iid_eventAt_set {i : ℕ} {e : Event} (he : e.iid = (eventAt pre i).iid) (k : ℕ) :
    (eventAt (pre.set i e) k).iid = (eventAt pre k).iid := by
  rw [eventAt_set]
  split
  · rename_i h
    rw [h.1, he]
  · rfl

theorem Sound.set (h : Sound pre) {i : ℕ} {e : Event} (he : e.iid = (eventAt pre i).iid)
    (hraces : ∀ r ∈ e.races, r.isNondet = false → ∀ b, r.joined? = some b → b < i)
    (hlater : ∀ b, some b ∈ e.happensAfterLater → b < i) : Sound (pre.set i e) where
  index_pos k hk := by
    rw [iid_eventAt_set he]
    exact h.index_pos k (by simpa using hk)
  ordered k m hkm hm := by
    rw [iid_eventAt_set he, iid_eventAt_set he]
    exact h.ordered k m hkm (by simpa using hm)
  races k hk := by
    rw [eventAt_set]
    split
    · rename_i heq
      exact heq.1 ▸ hraces
    · exact h.races k (by simpa using hk)
  later k hk := by
    rw [eventAt_set]
    split
    · rename_i heq
      exact heq.1 ▸ hlater
    · exact h.later k (by simpa using hk)

theorem Sound.addHappensAfter (h : Sound pre) {second first : ℕ} {pre' : List Event}
    (hadd : addHappensAfter pre second first = some pre') :
    Sound pre' ∧ pre'.length = pre.length := by
  rw [TsoTraceBuilder.addHappensAfter] at hadd
  split at hadd
  · rename_i hlt
    simp only at hadd
    split at hadd
    · cases hadd
      exact ⟨h, rfl⟩
    · cases hadd
      exact ⟨h.set rfl (h.races second hlt.2) (h.later second hlt.2), by simp⟩
  · cases hadd

theorem Sound.addSpawn (h : Sound pre) {t : Thread} {pre' : List Event}
    (hadd : addSpawn pre t = some pre') : Sound pre' ∧ pre'.length = pre.length := by
  rw [TsoTraceBuilder.addSpawn] at hadd
  split at hadd
  · exact h.addHappensAfter hadd
  · cases hadd
    exact ⟨h, rfl⟩

theorem Sound.moveLockFail {st st' : List Event × List Race} (h : Sound st.1) {r : Race}
    (hr : ∃ first second process, r = .lockFail first second process)
    (hmove : moveLockFail st r = some st') : Sound st'.1 ∧ st'.1.length = st.1.length := by
  obtain ⟨first, second, process, rfl⟩ := hr
  simp only [TsoTraceBuilder.moveLockFail, Race.secondEvent?, Option.bind_some] at hmove
  split at hmove
  · rename_i hlt
    cases hmove
    refine ⟨h.set rfl ?_ (h.later second hlt), by simp⟩
    intro r hr hkind b hb
    cases List.mem_append.mp hr with
    | inl hr => exact h.races second hlt r hr hkind b hb
    | inr hr =>
        cases List.mem_singleton.mp hr
        cases hb
  · split at hmove
    · cases hmove
      exact ⟨h, rfl⟩
    · cases hmove

theorem VclockState.WellFormed.prepare {st : VclockState} (h : st.WellFormed)
    {threads : List Thread} {prepared : List Event × List Race}
    (hprepare : prepareVclocks threads st = some prepared) :
    Sound prepared.1 ∧ prepared.1.length = st.pre.length := by
  obtain ⟨spawned, hspawned, hmoved⟩ := Option.bind_eq_some_iff.mp hprepare
  let Kept : List Event → Prop := fun pre => Sound pre ∧ pre.length = st.pre.length
  have hkept : Kept spawned := FoldInvariant.of_foldlM threads (fun s t s' _ hs hturn => by
    obtain ⟨hsound, hlength⟩ := hs.1.addSpawn hturn
    exact ⟨hsound, hlength.trans hs.2⟩) ⟨h.toSound, rfl⟩ hspawned
  let Moved : List Event × List Race → Prop := fun s => Kept s.1
  have hinv : Moved prepared :=
    FoldInvariant.of_foldlM st.lockFailRaces (fun s r s' hr hs hturn => by
      obtain ⟨hsound, hlength⟩ := hs.1.moveLockFail (h.lockFailRaces r hr) hturn
      exact ⟨hsound, hlength.trans hs.2⟩) hkept hmoved
  exact hinv

/-! ## The loop -/

/-- The clocks of the events before a position are known to be right. -/
structure Clocked (pre : List Event) (n : ℕ) : Prop extends Sound pre where
  behind : ∀ k < n, Behind pre (k + 1) (eventAt pre k).clock

theorem Clocked.behind_of_lt {n k : ℕ} (h : Clocked pre n) (hk : k < n) :
    Behind pre (n + 1) (eventAt pre k).clock :=
  (h.behind k hk).mono (by omega)

theorem findProcessEvent_lt (h : Sound pre) {threads : List Thread} {i last : ℕ}
    (hi : i < pre.length) (hindex : 1 < (eventAt pre i).iid.index)
    (hfind : findProcessEvent threads pre (eventAt pre i).iid.pid
      ((eventAt pre i).iid.index - 1) = some last) : last < i := by
  obtain ⟨t, -, hfind⟩ := Option.bind_eq_some_iff.mp hfind
  rw [if_pos (by omega)] at hfind
  obtain ⟨k, -, hfind⟩ := Option.bind_eq_some_iff.mp hfind
  obtain ⟨e, he, hfind⟩ := Option.bind_eq_some_iff.mp hfind
  split at hfind
  · rename_i hspec
    cases hfind
    obtain ⟨-, hpid, hle, -⟩ := hspec
    have hlast : eventAt pre last = e := by
      simp [eventAt, List.getD_eq_getElem?_getD, he]
    rw [← hlast] at hpid hle
    -- A later event of the process has a greater index.
    rcases lt_trichotomy last i with hlt | heq | hgt
    · exact hlt
    · subst heq
      omega
    · have hlt := h.ordered i last hgt (List.getElem?_eq_some_iff.mp he).1 hpid.symm
      omega
  · cases hfind

theorem behind_startClock {i : ℕ} (h : Clocked pre i) {threads : List Thread} {c : VClock}
    (hi : i < pre.length) (hstart : startClock threads pre (eventAt pre i).iid = some c) :
    Behind pre (i + 1) c := by
  obtain ⟨start, hclock, rfl⟩ := Option.map_eq_some_iff.mp hstart
  apply Behind.set _ i.lt_succ_self
  split at hclock
  · rename_i hindex
    obtain ⟨last, hlast, rfl⟩ := Option.map_eq_some_iff.mp hclock
    exact h.behind_of_lt (findProcessEvent_lt h.toSound hi hindex hlast)
  · cases hclock
    exact .empty (i + 1)

theorem awaitRaces_lt {conf : Configuration} {bigEndian : Bool} {i : ℕ} {e : Event} {c : VClock}
    {pushed : List Race} (h : awaitRaces conf bigEndian pre i e c = some pushed) :
    ∀ r ∈ pushed, ∀ b, r.joined? = some b → b < i := by
  rw [awaitRaces] at h
  split at h
  · split at h
    · split at h
      · obtain ⟨outcome, hawait, rfl⟩ := Option.map_eq_some_iff.mp h
        obtain ⟨later, heq, hlater⟩ := races_of_doAwaitFrom hawait
        intro r hr b hb
        rw [heq, List.nil_append] at hr
        obtain ⟨k, hk, X, rfl⟩ := hlater r hr
        cases hb
        exact hk
      · cases h
    · cases h
  · cases h
    intro r hr
    cases hr

theorem mem_of_split {partition : Partition Race} {p : Race → Bool} {races : List Race} {r : Race}
    (hr : r ∈ (partition.split p races).1 ∨ r ∈ (partition.split p races).2) : r ∈ races :=
  (partition.perm p races).mem_iff.mp (List.mem_append.mpr hr)

theorem mem_unlocks {races : List Race} {b : ℕ} (hb : b ∈ unlocks races) :
    ∃ r ∈ races, r.isNondet = false ∧ r.joined? = some b := by
  obtain ⟨r, hr, hunlock⟩ := List.mem_filterMap.mp hb
  cases r with
  | lockSuc first second unlock =>
      cases hunlock
      exact ⟨_, hr, rfl, rfl⟩
  | _ => cases hunlock

/-- Dropping races joins clocks that the dropped races refer to. -/
theorem behind_dropCovered {partition : Partition Race} {n m : ℕ} {races : List Race} {c : VClock}
    (hc : Behind pre n c) (hraces : ∀ r ∈ races, r.isNondet = false →
      ∀ b, r.joined? = some b → Behind pre n (eventAt pre b).clock) :
    Behind pre n (dropCovered partition pre m races c).2 ∧
      ∀ r ∈ (dropCovered partition pre m races c).1, r ∈ races := by
  induction m generalizing races c with
  | zero => exact ⟨hc, fun r hr => hr⟩
  | succ m ih =>
      rw [dropCovered]
      simp only
      split
      · exact ⟨hc, fun r hr => mem_of_split (.inl hr)⟩
      · have hjoined : Behind pre n (joinClocks pre c (unlocks (partition.split
            (fun r => !(eventAt pre r.firstEvent).clock.leq c) races).2)) := by
          apply hc.joinClocks
          intro b hb
          obtain ⟨r, hr, hkind, hjoin⟩ := mem_unlocks hb
          exact hraces r (mem_of_split (.inr hr)) hkind b hjoin
        obtain ⟨hbehind, hmem⟩ := ih hjoined fun r hr => hraces r (mem_of_split (.inl hr))
        exact ⟨hbehind, fun r hr => mem_of_split (.inl (hmem r hr))⟩

section Loop

variable {partition : Partition Race} {conf : Configuration} {bigEndian : Bool}
  {threads : List Thread}

theorem Clocked.computeVclock {i : ℕ} (h : Clocked pre i) {pre' : List Event}
    (hturn : computeVclock partition conf bigEndian threads pre i = some pre') :
    Clocked pre' (i + 1) ∧ pre'.length = pre.length := by
  obtain ⟨e, he, hturn⟩ := Option.bind_eq_some_iff.mp hturn
  obtain ⟨start, hstart, hturn⟩ := Option.bind_eq_some_iff.mp hturn
  obtain ⟨_, hguard, hturn⟩ := Option.bind_eq_some_iff.mp hturn
  obtain ⟨pushed, hpushed, hturn⟩ := Option.bind_eq_some_iff.mp hturn
  have hi : i < pre.length := (List.getElem?_eq_some_iff.mp he).1
  have hevent : eventAt pre i = e := by simp [eventAt, List.getD_eq_getElem?_getD, he]
  simp only at hturn
  obtain ⟨⟨filtered, fill⟩, hfilter, hturn⟩ := Option.bind_eq_some_iff.mp hturn
  obtain ⟨-, -, hturn⟩ := Option.bind_eq_some_iff.mp hturn
  obtain ⟨-, -, hturn⟩ := Option.bind_eq_some_iff.mp hturn
  cases hturn
  subst hevent
  have hbefore : ∀ k ∈ (eventAt pre i).happensAfter, k < i := by simpa using hguard
  -- All races of the event, recorded or pushed, refer to earlier events.
  have hraces : ∀ r ∈ (eventAt pre i).races ++ pushed, r.isNondet = false →
      ∀ b, r.joined? = some b → b < i := by
    intro r hr hkind
    cases List.mem_append.mp hr with
    | inl hr => exact h.races i hi r hr hkind
    | inr hr => exact awaitRaces_lt hpushed r hr
  have hjoined : Behind pre (i + 1) (joinClocks pre start (eventAt pre i).happensAfter) :=
    (behind_startClock h hi hstart).joinClocks fun k hk => h.behind_of_lt (hbefore k hk)
  obtain ⟨hcovered, hkept⟩ := behind_dropCovered hjoined fun r hr hkind b hb =>
    h.behind_of_lt (hraces r (mem_of_split (.inr hr)) hkind b hb)
  have hfiltered : ∀ r ∈ filtered.take fill, r ∈ (eventAt pre i).races ++ pushed ∧
      r.isNondet = false := by
    intro r hr
    have hpair := hkept r (FrontierFilter.mem_of_frontierFilter hfilter (List.mem_of_mem_take hr))
    exact ⟨mem_of_split (.inr hpair), partition.of_mem_right _ _ r hpair⟩
  have hclock := (hcovered.joinClocks fun b hb => by
    obtain ⟨r, hr, hjoin⟩ := List.mem_filterMap.mp hb
    obtain ⟨hmem, hkind⟩ := hfiltered r hr
    exact h.behind_of_lt (hraces r hmem hkind b hjoin)).joinLater
      fun b hb => h.behind_of_lt (h.later i hi b hb)
  refine ⟨⟨h.toSound.set rfl ?_ (by simp), ?_⟩, by simp⟩
  · intro r hr hkind
    cases List.mem_append.mp hr with
    | inl hr =>
        rw [partition.of_mem_left _ _ r hr] at hkind
        cases hkind
    | inr hr => exact hraces r (hfiltered r hr).1 hkind
  · intro k hk
    apply Behind.congr (iid_eventAt_set (by rfl))
    rw [eventAt_set]
    split
    · rename_i heq
      exact heq.1 ▸ hclock
    · rename_i hne
      exact h.behind k (by omega)

/-- The clocks that are computed for the events before a position. -/
theorem VclockState.WellFormed.vclocksBelow {st : VclockState} (h : st.WellFormed) {n : ℕ}
    (hclocks : vclocksBelow partition conf bigEndian threads st n = some pre) :
    Clocked pre n ∧ pre.length = st.pre.length := by
  obtain ⟨prepared, hprepare, hfold⟩ := Option.bind_eq_some_iff.mp hclocks
  obtain ⟨hsound, hlength⟩ := h.prepare hprepare
  let Inv : ℕ → List Event → Prop := fun k pre => Clocked pre k ∧ pre.length = st.pre.length
  have hinv : Inv (0 + (List.range n).length) pre := by
    refine FoldInvariant.of_foldlM_indexed ?_
      (⟨⟨hsound, fun k hk => absurd hk k.not_lt_zero⟩, hlength⟩ : Inv 0 prepared.1) hfold
    intro k s x s' hx hs hturn
    obtain ⟨hk, rfl⟩ := List.getElem?_eq_some_iff.mp hx
    rw [List.getElem_range] at hturn
    rw [Nat.zero_add] at hs ⊢
    obtain ⟨hcomputed, hsame⟩ := hs.1.computeVclock hturn
    exact ⟨hcomputed, hsame.trans hs.2⟩
  rw [Nat.zero_add, List.length_range] at hinv
  exact hinv

end Loop

/-- No event happens after a later one. -/
theorem Clocked.not_includes {n k m : ℕ} (h : Clocked pre n) (hk : k < n) (hkm : k < m)
    (hm : m < pre.length) : (eventAt pre k).clock.includes (eventAt pre m).iid = false := by
  have hpos := h.index_pos m hm
  rw [VClock.includes, decide_eq_false_iff_not]
  intro hle
  cases h.behind k hk (eventAt pre m).iid.pid with
  | inl hzero => omega
  | inr hsome =>
      obtain ⟨l, hl, hpid, hindex⟩ := hsome
      have hlt := h.ordered l m (by omega) hm hpid
      omega

end TsoTraceBuilder

end Nidhugg

/-! # Which reversals an await finds

An await can be executed before an earlier write if its condition holds without the write and
without a set of later writes that nothing kept depends on. The search finds these sets, each once,
as far as it computes the content of memory right. -/

namespace Nidhugg.TsoTraceBuilder

open Splits

variable (conf : Configuration) (bigEndian : Bool) (m : Memory) (pre : List Event) (aw : Await)

/-- The writes between the event at `i` and the await that do not happen after that event. -/
def laterWrites (i : ℕ) : List ℕ := notdep pre i (writesFrom pre aw.ml (i + 1) aw.pos)

/-- What is executed before the await if the event at `i` and a set of later writes are not. -/
def executed (i : ℕ) (X : Finset ℕ) : List SymEv :=
  opsBefore (pre.map (·.sym)) i ((laterWrites pre aw i).filter (· ∉ X))

/-- A race with the event at `i`, and the later writes of a set excluded. -/
def reversal (i : ℕ) (X : Finset ℕ) : Race :=
  .sequence i aw.pos aw.iid aw.ev ((laterWrites pre aw i).filter (· ∈ X))

/-- Nothing prevents leaving out a set of later writes. -/
structure Removable (i : ℕ) (X : Finset ℕ) : Prop where
  subset : ∀ x ∈ X, x ∈ laterWrites pre aw i
  not_above : ∀ x ∈ X, aw.aboveClock.includes (eventAt pre x).iid = false
  closed : ∀ k ∈ laterWrites pre aw i, k ∉ X →
    ∀ x ∈ X, (eventAt pre k).clock.includes (eventAt pre x).iid = false

/-- The condition of the await holds after a sequence of operations. -/
def SatisfiedAfter (ops : List SymEv) : Prop :=
  aw.cond.satisfiedBy bigEndian ((content bigEndian m ops).read aw.ml) = true

/-- The search visits a write to the location that is not before the await in any case. -/
structure Tried (i : ℕ) : Prop where
  reaches : ∃ st, Reaches conf bigEndian pre aw (i + 1) st
  no_conflict : (eventAt pre i).sym.any (· = .fullmem) = false
  writes : (eventAt pre i).writes aw.ml = true
  not_above : aw.aboveClock.includes (eventAt pre i).iid = false

/-- The search of an await pushes one race for every set of later writes whose removal satisfies
the await, and no other races. -/
def EnumeratesReversals : Prop :=
  ∃ outcome, doAwait conf bigEndian pre aw = some outcome ∧
    ∀ i, Tried conf bigEndian pre aw i →
      (∀ X, Removable pre aw i X → SatisfiedAfter bigEndian m aw (executed pre aw i X) →
        outcome.races.count (reversal pre aw i X) = 1) ∧
      ∀ r ∈ outcome.races, r.firstEvent = i →
        ∃ X, Removable pre aw i X ∧ SatisfiedAfter bigEndian m aw (executed pre aw i X) ∧
          r = reversal pre aw i X

/-- Memory is computed right for what the search tries: no operation that the content of the
location depends on leaves it, and memory that is zero initially gives the same answer. -/
def ComputesMemory : Prop :=
  ∀ i, Tried conf bigEndian pre aw i → ∀ X, Removable pre aw i X →
    StaysInside bigEndian aw.ml (executed pre aw i X) ∧
      (SatisfiedAfter bigEndian (fun _ => 0) aw (executed pre aw i X) ↔
        SatisfiedAfter bigEndian m aw (executed pre aw i X))

variable {conf bigEndian m pre aw}

/-! ### Leaves and sets -/

theorem mem_laterWrites {i k : ℕ} (hk : k ∈ laterWrites pre aw i) : i < k ∧ k < aw.pos := by
  have hmem := (mem_writesFrom.mp (List.mem_of_mem_filter hk)).1
  exact ⟨by omega, hmem.2⟩

theorem pairwise_laterWrites (i : ℕ) : (laterWrites pre aw i).Pairwise (· < ·) :=
  (pairwise_writesFrom aw.ml (i + 1) aw.pos).filter _

theorem nodup_laterWrites (i : ℕ) : (laterWrites pre aw i).Nodup :=
  (pairwise_laterWrites i).imp fun h => h.ne

/-- A set of later writes can be recovered from its elements in order. -/
theorem eq_of_filter_eq {i : ℕ} {X Y : Finset ℕ} (hX : Removable pre aw i X)
    (hY : Removable pre aw i Y)
    (h : (laterWrites pre aw i).filter (· ∈ X) = (laterWrites pre aw i).filter (· ∈ Y)) :
    X = Y := by
  ext x
  have hmem (Z : Finset ℕ) (hZ : Removable pre aw i Z) :
      x ∈ Z ↔ x ∈ (laterWrites pre aw i).filter (· ∈ Z) := by
    rw [List.mem_filter, decide_eq_true_eq]
    exact ⟨fun hx => ⟨hZ.subset x hx, hx⟩, fun hx => hx.2⟩
  rw [hmem X hX, hmem Y hY, h]

theorem mem_leaves_iff (hclocks : Clocked pre aw.pos) (hpos : aw.pos ≤ pre.length) (i : ℕ)
    (s : List ℕ × List ℕ) :
    s ∈ leaves pre aw i (writesFrom pre aw.ml (i + 1) aw.pos) [] [] ↔
      ∃ X, Removable pre aw i X ∧
        s = ((laterWrites pre aw i).filter (· ∉ X), (laterWrites pre aw i).filter (· ∈ X)) := by
  have hlater : (laterWrites pre aw i).Pairwise fun k x =>
      (eventAt pre k).clock.includes (eventAt pre x).iid = false :=
    (pairwise_laterWrites i).imp_of_mem fun hk hx hkx =>
      hclocks.not_includes (mem_laterWrites hk).2 hkx ((mem_laterWrites hx).2.trans_le hpos)
  rw [leaves, ← laterWrites, mem_splits_iff (nodup_laterWrites i) hlater]
  constructor
  · rintro ⟨X, hsubset, hX, rfl⟩
    refine ⟨X, ⟨hsubset, ?_, ?_⟩, rfl⟩
    · intro x hx
      simpa using hX.allowed x (hsubset x hx) hx
    · exact fun k hk hkX x hx => hX.closed k hk hkX x (hsubset x hx) hx
  · rintro ⟨X, hX, rfl⟩
    refine ⟨X, hX.subset, ⟨?_, ?_⟩, rfl⟩
    · intro x _ hx
      simp [hX.not_above x hx]
    · exact fun k hk hkX x _ hx => hX.closed k hk hkX x hx

/-- How the search decides the await for a set of later writes. -/
theorem decides_eq_some_iff (hrecorded : ∀ e ∈ pre, ∀ p ∈ e.sym, p.Recorded)
    (hml : aw.ml.Placed) (hpos : aw.pos ≤ pre.length) (i : ℕ) (X : Finset ℕ) (b : Bool) :
    decides bigEndian pre aw i ((laterWrites pre aw i).filter (· ∉ X)) = some b ↔
      StaysInside bigEndian aw.ml (executed pre aw i X) ∧
        (SatisfiedAfter bigEndian (fun _ => 0) aw (executed pre aw i X) ↔ b = true) := by
  have hpre : ∀ sym ∈ pre.map (·.sym), ∀ p ∈ sym, p.Recorded := by
    intro sym hsym
    obtain ⟨e, he, rfl⟩ := List.mem_map.mp hsym
    exact hrecorded e he
  have hseq : ∀ k ∈ (laterWrites pre aw i).filter (· ∉ X), k < (pre.map (·.sym)).length := by
    intro k hk
    rw [List.length_map]
    exact (mem_laterWrites (List.mem_of_mem_filter hk)).2.trans_le hpos
  rw [decides, awaitcondSatisfiedBy_eq_some_iff hpre hml hseq, ← executed, SatisfiedAfter,
    Bool.coe_iff_coe]

/-! ### The races with one write -/

/-- The races with a write that is tried are those found for the splits of the later writes. -/
theorem races_of_tried (hconf : conf.commuteRmws = true) {outcome : Outcome}
    (h : doAwait conf bigEndian pre aw = some outcome) {i : ℕ}
    (hi : Tried conf bigEndian pre aw i) :
    (∀ s ∈ leaves pre aw i (writesFrom pre aw.ml (i + 1) aw.pos) [] [],
      (decides bigEndian pre aw i s.1).isSome = true) ∧
    outcome.races.filter (·.firstEvent = i) =
      found bigEndian pre aw i (leaves pre aw i (writesFrom pre aw.ml (i + 1) aw.pos) [] []) := by
  obtain ⟨st, hreaches⟩ := hi.reaches
  rw [hreaches.doAwait_eq, doAwaitFrom] at h
  obtain ⟨t, ht, hrest⟩ := Option.bind_eq_some_iff.mp h
  have hbefore : st.races.filter (·.firstEvent = i) = [] := by
    rw [List.filter_eq_nil_iff]
    intro r hr
    have hle := hreaches.le_firstEvent r hr
    simp only [decide_eq_true_eq]
    omega
  cases visited_of_visit hconf ht with
  | conflict _ hfull => cases hfull.symm.trans hi.no_conflict
  | skip _ hwrites => cases hwrites.symm.trans hi.writes
  | write pushed _ _ _ _ htried hturn =>
      obtain ⟨hpushed, hleaves⟩ := trySubsequences_spec (htried hi.not_above)
      rw [hreaches.unorderedAccesses_eq hconf] at hpushed hleaves
      refine ⟨hleaves, ?_⟩
      have hsame : pushed.filter (·.firstEvent = i) = pushed := by
        rw [List.filter_eq_self]
        intro r hr
        rw [hpushed] at hr
        obtain ⟨s, -, -, rfl⟩ := mem_found.mp hr
        simp [Race.firstEvent]
      rw [← hpushed]
      cases hturn with
      | inl hturn =>
          subst hturn
          cases hrest
          rw [List.filter_append, hbefore, hsame, List.nil_append]
      | inr hturn =>
          obtain ⟨canStop, rfl⟩ := hturn
          obtain ⟨later, heq, hlater⟩ := races_of_doAwaitFrom hrest
          have hafter : later.filter (·.firstEvent = i) = [] := by
            rw [List.filter_eq_nil_iff]
            intro r hr
            obtain ⟨k, hk, X, rfl⟩ := hlater r hr
            exact fun heq => hk.ne (of_decide_eq_true heq)
          rw [heq, List.filter_append, List.filter_append, hbefore, hsame, hafter, List.nil_append,
            List.append_nil]

theorem mem_races_iff (hconf : conf.commuteRmws = true) {outcome : Outcome}
    (h : doAwait conf bigEndian pre aw = some outcome) {i : ℕ}
    (hi : Tried conf bigEndian pre aw i) (hclocks : Clocked pre aw.pos)
    (hpos : aw.pos ≤ pre.length) (r : Race) :
    r ∈ outcome.races ∧ r.firstEvent = i ↔
      ∃ X, Removable pre aw i X ∧
        decides bigEndian pre aw i ((laterWrites pre aw i).filter (· ∉ X)) = some true ∧
        r = reversal pre aw i X := by
  have hfilter : r ∈ outcome.races ∧ r.firstEvent = i ↔
      r ∈ outcome.races.filter (·.firstEvent = i) := by simp
  rw [hfilter, (races_of_tried hconf h hi).2, mem_found]
  constructor
  · rintro ⟨s, hs, hdecides, rfl⟩
    obtain ⟨X, hX, rfl⟩ := (mem_leaves_iff hclocks hpos i s).mp hs
    exact ⟨X, hX, hdecides, rfl⟩
  · rintro ⟨X, hX, hdecides, rfl⟩
    exact ⟨_, (mem_leaves_iff hclocks hpos i _).mpr ⟨X, hX, rfl⟩, hdecides, rfl⟩

theorem count_reversal (hconf : conf.commuteRmws = true) {outcome : Outcome}
    (h : doAwait conf bigEndian pre aw = some outcome) {i : ℕ}
    (hi : Tried conf bigEndian pre aw i) {X : Finset ℕ}
    (hmem : reversal pre aw i X ∈ outcome.races) :
    outcome.races.count (reversal pre aw i X) = 1 := by
  have hnodup : (outcome.races.filter (·.firstEvent = i)).Nodup := by
    rw [(races_of_tried hconf h hi).2]
    exact nodup_found i ((pairwise_writesFrom aw.ml (i + 1) aw.pos).imp fun h => h.ne)
  have hin : reversal pre aw i X ∈ outcome.races.filter (·.firstEvent = i) :=
    List.mem_filter.mpr ⟨hmem, decide_eq_true rfl⟩
  rw [← List.count_filter (p := fun r : Race => r.firstEvent = i) (decide_eq_true rfl)]
  exact List.count_eq_one_of_mem hnodup hin

/-! ### The whole search -/

/-- The search fails only if it cannot decide the await for some write. -/
theorem Reaches.isSome_doAwaitFrom (hconf : conf.commuteRmws = true) {n : ℕ} {st : Search}
    (h : Reaches conf bigEndian pre aw n st)
    (hdecides : ∀ i, Tried conf bigEndian pre aw i →
      ∀ s ∈ leaves pre aw i (writesFrom pre aw.ml (i + 1) aw.pos) [] [],
        (decides bigEndian pre aw i s.1).isSome = true) :
    (doAwaitFrom conf bigEndian pre aw n st).isSome = true := by
  induction n generalizing st with
  | zero => rfl
  | succ i ih =>
      have hvisit : (visit conf bigEndian pre aw i st).isSome = true := by
        simp only [visit]
        split
        · rfl
        · rename_i hfull
          split
          · rfl
          · rename_i hwrites
            rw [Option.isSome_map]
            split
            · rename_i habove
              simp only [Bool.not_eq_true', Bool.not_eq_false, Bool.not_eq_true] at *
              rw [h.unorderedAccesses_eq hconf]
              apply isSome_trySubsequences
              · exact (pairwise_writesFrom aw.ml (i + 1) aw.pos).imp fun h => h.le
              · exact hdecides i ⟨⟨st, h⟩, hfull, hwrites, habove⟩
            · rfl
      obtain ⟨t, ht⟩ := Option.isSome_iff_exists.mp hvisit
      rw [doAwaitFrom, ht, Option.bind_some]
      cases t with
      | stop outcome => rfl
      | next st' => exact ih (.next h ht)

/-- The search finds exactly the reversals of the await if and only if memory is computed right
for what it tries. -/
theorem enumeratesReversals_iff {partition : Partition Race} {threads : List Thread}
    {st : VclockState} (hst : st.WellFormed) (hconf : conf.commuteRmws = true)
    (hclocks : vclocksBelow partition conf bigEndian threads st aw.pos = some pre)
    (hpos : aw.pos ≤ pre.length) (hrecorded : ∀ e ∈ pre, ∀ p ∈ e.sym, p.Recorded)
    (hml : aw.ml.Placed) :
    EnumeratesReversals conf bigEndian m pre aw ↔ ComputesMemory conf bigEndian m pre aw := by
  have hclocked : Clocked pre aw.pos := (hst.vclocksBelow hclocks).1
  have hsome (i : ℕ) (X : Finset ℕ) (b : Bool) :=
    @decides_eq_some_iff bigEndian pre aw hrecorded hml hpos i X b
  constructor
  · rintro ⟨outcome, hawait, hexact⟩ i hi X hX
    have hdecided := (races_of_tried hconf hawait hi).1 _
      ((mem_leaves_iff hclocked hpos i _).mpr ⟨X, hX, rfl⟩)
    obtain ⟨b, hb⟩ := Option.isSome_iff_exists.mp hdecided
    obtain ⟨hstays, hzero⟩ := (hsome i X b).mp hb
    refine ⟨hstays, hzero.trans ?_⟩
    constructor
    · intro htrue
      subst htrue
      obtain ⟨hmem, hfirst⟩ :=
        (mem_races_iff hconf hawait hi hclocked hpos _).mpr ⟨X, hX, hb, rfl⟩
      obtain ⟨Y, hY, hsat, heq⟩ := (hexact i hi).2 _ hmem hfirst
      simp only [reversal, Race.sequence.injEq, true_and] at heq
      rwa [eq_of_filter_eq hX hY heq]
    · intro hsat
      have hmem : reversal pre aw i X ∈ outcome.races := by
        rw [← List.count_pos_iff, (hexact i hi).1 X hX hsat]
        exact Nat.one_pos
      obtain ⟨Y, hY, htrue, heq⟩ :=
        (mem_races_iff hconf hawait hi hclocked hpos _).mp ⟨hmem, rfl⟩
      simp only [reversal, Race.sequence.injEq, true_and] at heq
      rw [← eq_of_filter_eq hX hY heq, hb] at htrue
      exact Option.some.inj htrue
  · intro hmemory
    have hdecided {i : ℕ} (hi : Tried conf bigEndian pre aw i) {X : Finset ℕ}
        (hX : Removable pre aw i X) :
        decides bigEndian pre aw i ((laterWrites pre aw i).filter (· ∉ X)) = some true ↔
          SatisfiedAfter bigEndian m aw (executed pre aw i X) := by
      obtain ⟨hstays, hsame⟩ := hmemory i hi X hX
      rw [hsome, hsame]
      simp [hstays]
    have htotal : (doAwait conf bigEndian pre aw).isSome = true := by
      apply Reaches.start.isSome_doAwaitFrom hconf
      intro i hi s hs
      obtain ⟨X, hX, rfl⟩ := (mem_leaves_iff hclocked hpos i s).mp hs
      obtain ⟨hstays, -⟩ := hmemory i hi X hX
      by_cases hsat : SatisfiedAfter bigEndian (fun _ => 0) aw (executed pre aw i X)
      · rw [(hsome i X true).mpr ⟨hstays, by simpa using hsat⟩]
        rfl
      · rw [(hsome i X false).mpr ⟨hstays, by simpa using hsat⟩]
        rfl
    obtain ⟨outcome, hawait⟩ := Option.isSome_iff_exists.mp htotal
    refine ⟨outcome, hawait, fun i hi => ⟨fun X hX hsat => ?_, fun r hr hfirst => ?_⟩⟩
    · apply count_reversal hconf hawait hi
      exact ((mem_races_iff hconf hawait hi hclocked hpos _).mpr
        ⟨X, hX, (hdecided hi hX).mpr hsat, rfl⟩).1
    · obtain ⟨X, hX, hb, heq⟩ :=
        (mem_races_iff hconf hawait hi hclocked hpos r).mp ⟨hr, hfirst⟩
      exact ⟨X, hX, (hdecided hi hX).mp hb, heq⟩

/-- Memory is computed right if no operation leaves the location and the bytes that are read before
they are written are zero initially. -/
theorem computesMemory_of_readsZeros
    (h : ∀ i, Tried conf bigEndian pre aw i → ∀ X, Removable pre aw i X →
      StaysInside bigEndian aw.ml (executed pre aw i X) ∧
        ReadsZeros bigEndian m { a | a ∈ aw.ml.bytes } (executed pre aw i X)) :
    ComputesMemory conf bigEndian m pre aw := by
  intro i hi X hX
  obtain ⟨hinside, hzeros⟩ := h i hi X hX
  refine ⟨hinside, ?_⟩
  rw [SatisfiedAfter, SatisfiedAfter, read_congr fun a ha => hzeros.content_eq ha]

/-! ## A fixed run -/

/-- A thread has stored 6 to the variable, and the thread that has spawned it waits for the variable
to be at least 5. -/
def storeThenAwait : VclockState where
  pre := [⟨⟨0, 1⟩, 1, [.spawn 1], .empty, [], [], []⟩,
    ⟨⟨2, 1⟩, 1, [.store globalByte (byte 6)], .empty, [], [], []⟩,
    ⟨⟨0, 2⟩, 1, [.loadAwait globalByte .uge (byte 5)], .empty, [], [], [some 1]⟩]
  lockFailRaces := []
  hasVclocks := false

def twoThreads : List Thread := [⟨none, [0, 2]⟩, ⟨none, []⟩, ⟨some 0, [1]⟩]

/-- The prefix when the races of the await are searched. -/
def beforeAwait : List Event := [⟨⟨0, 1⟩, 1, [.spawn 1], ⟨[1]⟩, [], [], []⟩,
  ⟨⟨2, 1⟩, 1, [.store globalByte (byte 6)], ⟨[1, 0, 1]⟩, [0], [], []⟩,
  ⟨⟨0, 2⟩, 1, [.loadAwait globalByte .uge (byte 5)], .empty, [], [], [some 1]⟩]

def atLeastFive : Await :=
  ⟨2, ⟨0, 2⟩, .loadAwait globalByte .uge (byte 5), globalByte, ⟨.uge, .of [5]⟩, rfl, ⟨[2]⟩⟩

theorem vclocksBelow_storeThenAwait :
    vclocksBelow .stable ⟨true⟩ false twoThreads storeThenAwait 2 = some beforeAwait := by
  decide +kernel

theorem wellFormed_storeThenAwait : storeThenAwait.WellFormed where
  index_pos := by decide
  ordered k m hkm hm := by
    have h : ∀ m < 3, ∀ k < m, (eventAt storeThenAwait.pre k).iid.pid =
        (eventAt storeThenAwait.pre m).iid.pid → (eventAt storeThenAwait.pre k).iid.index <
          (eventAt storeThenAwait.pre m).iid.index := by decide
    exact h m hm k hkm
  races i hi r hr := by
    have h : ∀ i < 3, (eventAt storeThenAwait.pre i).races = [] := by decide
    rw [h i hi] at hr
    cases hr
  later i hi b hb := by
    have h : ∀ i < 3, ∀ b ∈ (eventAt storeThenAwait.pre i).happensAfterLater,
        b.all (· < i) = true := by decide
    simpa using h i hi (some b) hb
  lockFailRaces := by simp [storeThenAwait]

theorem mem_executed {i : ℕ} {X : Finset ℕ} {p : SymEv} (hp : p ∈ executed pre aw i X) :
    ∃ e ∈ pre, p ∈ e.sym := by
  cases List.mem_append.mp hp with
  | inl hp =>
      obtain ⟨sym, hsym, hp⟩ := List.mem_flatten.mp hp
      obtain ⟨e, he, rfl⟩ := List.mem_map.mp (List.mem_of_mem_take hsym)
      exact ⟨e, he, hp⟩
  | inr hp =>
      obtain ⟨k, -, hp⟩ := List.mem_flatMap.mp hp
      rw [List.getD_eq_getElem?_getD, List.getElem?_map] at hp
      cases he : pre[k]? with
      | none => simp [he] at hp
      | some e =>
          rw [he] at hp
          exact ⟨e, List.mem_of_getElem? he, hp⟩

theorem enumeratesReversals_zeroed :
    EnumeratesReversals ⟨true⟩ false (fun _ => 0) beforeAwait atLeastFive := by
  apply (enumeratesReversals_iff wellFormed_storeThenAwait rfl vclocksBelow_storeThenAwait
    (by decide) (by simp [beforeAwait, SymEv.Recorded, byte, placed_globalByte])
    placed_globalByte).mpr
  refine computesMemory_of_readsZeros fun i _ X _ =>
    ⟨staysInside_of_forall false fun p hp => ?_, fun _ _ => rfl⟩
  obtain ⟨e, he, hp⟩ := mem_executed hp
  have hinside : ∀ e ∈ beforeAwait, ∀ p ∈ e.sym, Inside globalByte p := by decide
  exact hinside e he p hp

/-- If the variable is 5 initially then the await can come before the store, but no race is pushed
for it. -/
theorem not_enumeratesReversals_initialized :
    vclocksBelow .stable ⟨true⟩ false twoThreads storeThenAwait 2 = some beforeAwait ∧
      doAwait ⟨true⟩ false beforeAwait atLeastFive = some ⟨[], none⟩ ∧
      ¬EnumeratesReversals ⟨true⟩ false (fun _ => 5) beforeAwait atLeastFive := by
  have hawait : doAwait ⟨true⟩ false beforeAwait atLeastFive = some ⟨[], none⟩ := by
    decide +kernel
  refine ⟨by decide +kernel, hawait, ?_⟩
  rintro ⟨outcome, hrun, hexact⟩
  have htried : Tried ⟨true⟩ false beforeAwait atLeastFive 1 :=
    ⟨⟨_, .start⟩, by decide, by decide, by decide⟩
  have hcount := (hexact 1 htried).1 ∅ ⟨by simp, by simp, by simp⟩ (by
    unfold SatisfiedAfter
    decide +kernel)
  cases hawait.symm.trans hrun
  cases hcount

end Nidhugg.TsoTraceBuilder
