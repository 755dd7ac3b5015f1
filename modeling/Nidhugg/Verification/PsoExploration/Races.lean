import Nidhugg.Model.PsoExploration
import Nidhugg.Verification.PsoRecorder.Tracking
import Nidhugg.Verification.VecSet.Sets

/-! # Candidates for a reversed race

`add_branch` compares an event only with the candidates found before it. By transitivity of the
order of clocks no event that is not after `prefix[i]` is missed. -/

namespace Nidhugg.PsoPrefix

open PsoRecorder

variable {s : PsoPrefix} {i j k m p : ℕ} {candidates : List (ℕ × ℕ)} {cand : Option ℕ}

/-- The first event of a thread after `i`, if the thread may go first when the race of `i` with `j`
is reversed. -/
structure InitialEvent (s : PsoRecorder) (i j p k : ℕ) : Prop where
  after : i < k
  le : k ≤ j
  pid : s.pidOf k = p
  first : ∀ m, i < m → m < k → s.pidOf m ≠ p
  unordered : k = j ∨ (s.clockOf i).leq (s.clockOf k) = false
  initial : ∀ m, i < m → m < k → (s.clockOf i).leq (s.clockOf m) = false →
    (s.clockOf m).leq (s.clockOf k) = false

/-- What a call of `add_branch` is for: afterwards there is a branch to a thread that may go first,
or such a thread is asleep. A new branch is to a thread that has none yet, and that is not the one
of `prefix[i]`. -/
def AddsSource (s : PsoPrefix) (i j : ℕ) : Prop :=
  ∃ branch, s.addBranch i j = some branch ∧
    (∃ p, (⟨p, 0⟩ ∈ branch ∨ p ∈ s.sleepSetAt i) ∧ ∃ k, InitialEvent s.recorder i j p k) ∧
    ∀ b ∈ branch, b ∉ s.branchAt i →
      b.pid ∉ (s.branchAt i).map PsoBranch.pid ∧ b.pid ≠ s.recorder.pidOf i

/-- The number of an event is at most the entry of its thread in its clock. -/
def Indexed (s : PsoRecorder) : Prop :=
  ∀ i < s.events.length, s.indexOf i ≤ (s.clockOf i).get (s.pidOf i)

/-- Branches with alternatives are to the event's own thread, or to one that is asleep. -/
def Alternatives (pid : ℕ) (sleep : List ℕ) (branch : List PsoBranch) : Prop :=
  ∀ b ∈ branch, b.alt ≠ 0 → b.pid = pid ∨ b.pid ∈ sleep

/-- The current event `j` is in a race with `i`. -/
structure Raced (s : PsoRecorder) (i j : ℕ) : Prop where
  lt : i < j
  le : j ≤ s.prefixIdx
  bound : j < s.events.length
  program : s.ProgramOrder
  indexed : Indexed s
  /-- No event of the thread of `j` before it is after `i`. -/
  unordered : ∀ k, i ≤ k → k < j → s.pidOf k = s.pidOf j → (s.clockOf i).leq (s.clockOf k) = false

theorem isAfter_iff {clock : VClock} :
    isAfter candidates clock = true ↔ ∃ c ∈ candidates, c.2 ≤ clock.get c.1 := by
  rw [isAfter, List.any_eq_true]
  simp only [decide_eq_true_eq]

theorem isAfter_mono {c d : VClock} (h : isAfter candidates c = true) (hleq : c.leq d = true) :
    isAfter candidates d = true := by
  rw [isAfter_iff] at h ⊢
  obtain ⟨x, hx, hle⟩ := h
  exact ⟨x, hx, Nat.le_trans hle ((VClock.leq_iff c d).mp hleq x.1)⟩

theorem isAfter_cons {clock : VClock} {x : ℕ × ℕ} (h : isAfter candidates clock = true) :
    isAfter (x :: candidates) clock = true := by
  rw [isAfter_iff] at h ⊢
  obtain ⟨c, hc, hle⟩ := h
  exact ⟨c, List.mem_cons_of_mem x hc, hle⟩

/-! ### The loop -/

/-- What the loop knows before it looks at the event `k`. -/
structure Searched (s : PsoPrefix) (i j k : ℕ) (candidates : List (ℕ × ℕ)) (cand : Option ℕ) :
    Prop where
  /-- Every event that is not after `i` is a candidate, or after one. -/
  covers : ∀ m, i < m → m < k → (s.recorder.clockOf i).leq (s.recorder.clockOf m) = false →
    isAfter candidates (s.recorder.clockOf m) = true
  events : ∀ c ∈ candidates, ∃ m, i < m ∧ m < k ∧ s.recorder.pidOf m = c.1 ∧
    s.recorder.indexOf m = c.2
  found : j < k → candidates ≠ []
  last : candidates ≠ [] → cand ≠ none
  fresh : ∀ p, cand = some p → (∃ k, InitialEvent s.recorder i j p k) ∧ ⟨p, 0⟩ ∉ s.branchAt i ∧
    p ∉ s.sleepSetAt i

theorem searched_start (hij : i < j) : Searched s i j (i + 1) [] none where
  covers := by
    intro m hm hlt
    omega
  events := nofun
  found := by
    intro hlt
    omega
  last := fun hne => absurd rfl hne
  fresh := nofun

/-- An event that is not made a candidate. -/
theorem Searched.skip (h : Searched s i j k candidates cand)
    (hcovers : (s.recorder.clockOf i).leq (s.recorder.clockOf k) = false →
      isAfter candidates (s.recorder.clockOf k) = true)
    (hfound : k = j → candidates ≠ []) : Searched s i j (k + 1) candidates cand where
  covers := by
    intro m him hmk hnot
    cases Nat.lt_succ_iff_lt_or_eq.mp hmk with
    | inl hlt => exact h.covers m him hlt hnot
    | inr heq =>
        subst heq
        exact hcovers hnot
  events := by
    intro c hc
    obtain ⟨m, him, hmk, hm⟩ := h.events c hc
    exact ⟨m, him, Nat.lt_succ_of_lt hmk, hm⟩
  found := by
    intro hj
    cases Nat.lt_succ_iff_lt_or_eq.mp hj with
    | inl hlt => exact h.found hlt
    | inr heq => exact hfound heq.symm
  last := h.last
  fresh := h.fresh

/-- The thread of an event that is after no candidate has no candidate event before it. -/
theorem Searched.initialEvent (h : Searched s i j k candidates cand) (hrace : Raced s.recorder i j)
    (hik : i < k) (hkj : k ≤ j)
    (hafter : isAfter candidates (s.recorder.clockOf k) = false)
    (hunordered : k = j ∨ (s.recorder.clockOf i).leq (s.recorder.clockOf k) = false) :
    InitialEvent s.recorder i j (s.recorder.pidOf k) k := by
  have hbound : k < s.recorder.events.length := Nat.lt_of_le_of_lt hkj hrace.bound
  have hnot : ∀ m, i < m → m < k →
      (s.recorder.clockOf i).leq (s.recorder.clockOf m) = false →
        (s.recorder.clockOf m).leq (s.recorder.clockOf k) = false := by
    intro m him hmk hm
    rw [← Bool.not_eq_true]
    intro hleq
    have hk := isAfter_mono (h.covers m him hmk hm) hleq
    rw [hk] at hafter
    cases hafter
  refine ⟨hik, hkj, rfl, ?_, hunordered, hnot⟩
  intro m him hmk hpid
  have hleq := hrace.program.events m k hmk hbound hpid
  cases hm : (s.recorder.clockOf i).leq (s.recorder.clockOf m) with
  | false =>
      rw [hnot m him hmk hm] at hleq
      cases hleq
  | true =>
      cases hunordered with
      | inl heq =>
          subst heq
          rw [hrace.unordered m (Nat.le_of_lt him) hmk hpid] at hm
          cases hm
      | inr hk =>
          rw [VClock.leq_trans hm hleq] at hk
          cases hk

/-- A new candidate. -/
theorem Searched.push (h : Searched s i j k candidates cand) (hrace : Raced s.recorder i j)
    (hik : i < k) (hkj : k ≤ j) (hinitial : InitialEvent s.recorder i j (s.recorder.pidOf k) k)
    (hbranch : ⟨s.recorder.pidOf k, 0⟩ ∉ s.branchAt i)
    (hsleep : s.recorder.pidOf k ∉ s.sleepSetAt i) :
    Searched s i j (k + 1) ((s.recorder.pidOf k, s.recorder.indexOf k) :: candidates)
      (some (s.recorder.pidOf k)) where
  covers := by
    intro m him hmk hnot
    cases Nat.lt_succ_iff_lt_or_eq.mp hmk with
    | inl hlt => exact isAfter_cons (h.covers m him hlt hnot)
    | inr heq =>
        subst heq
        rw [isAfter_iff]
        exact ⟨_, List.mem_cons_self, hrace.indexed m (Nat.lt_of_le_of_lt hkj hrace.bound)⟩
  events := by
    intro c hc
    cases List.mem_cons.mp hc with
    | inl heq =>
        subst heq
        exact ⟨k, hik, Nat.lt_succ_self k, rfl, rfl⟩
    | inr hc =>
        obtain ⟨m, him, hmk, hm⟩ := h.events c hc
        exact ⟨m, him, Nat.lt_succ_of_lt hmk, hm⟩
  found := fun _ => List.cons_ne_nil _ _
  last := nofun
  fresh := by
    intro p hp
    obtain rfl := Option.some.inj hp
    exact ⟨⟨k, hinitial⟩, hbranch, hsleep⟩

/-- An event of a thread that has a candidate is after it. -/
theorem Searched.isAfter_of_lookup (h : Searched s i j k candidates cand)
    (hrace : Raced s.recorder i j) (hkj : k ≤ j)
    (hlookup : (candidates.lookup (s.recorder.pidOf k)).isSome = true) :
    isAfter candidates (s.recorder.clockOf k) = true := by
  obtain ⟨index, hindex⟩ := Option.isSome_iff_exists.mp hlookup
  have hmem := AssocList.mem_of_lookup hindex
  obtain ⟨m, -, hmk, hpid, rfl⟩ := h.events _ hmem
  have hbound : k < s.recorder.events.length := Nat.lt_of_le_of_lt hkj hrace.bound
  have hleq := hrace.program.events m k hmk hbound hpid
  have hle := hrace.indexed m (Nat.lt_trans hmk hbound)
  rw [hpid] at hle
  rw [isAfter_iff]
  exact ⟨_, hmem, Nat.le_trans hle ((VClock.leq_iff _ _).mp hleq _)⟩

theorem ne_nil_of_isAfter {clock : VClock} (h : isAfter candidates clock = true) :
    candidates ≠ [] := by
  obtain ⟨c, hc, -⟩ := isAfter_iff.mp h
  exact List.ne_nil_of_mem hc

/-- How the loop ends, in terms of what `add_branch` is for. -/
def EndsWell (s : PsoPrefix) (i j : ℕ) : PsoCandidate → Prop
  | .registered => ∃ p, (⟨p, 0⟩ ∈ s.branchAt i ∨ p ∈ s.sleepSetAt i) ∧
      ∃ k, InitialEvent s.recorder i j p k
  | .last cand => ∃ p, cand = some p ∧ (∃ k, InitialEvent s.recorder i j p k) ∧
      ⟨p, 0⟩ ∉ s.branchAt i ∧ p ∉ s.sleepSetAt i

theorem findCandidate_spec (hrace : Raced s.recorder i j) {n : ℕ} (hik : i < k)
    (hn : k + n = j + 1) (h : Searched s i j k candidates cand) :
    EndsWell s i j (s.findCandidate i j candidates cand (List.range' k n)) := by
  induction n generalizing k candidates cand with
  | zero =>
      have hne := h.last (h.found (by omega))
      obtain ⟨p, rfl⟩ := Option.ne_none_iff_exists'.mp hne
      exact ⟨p, rfl, h.fresh p rfl⟩
  | succ n ih =>
      have hkj : k ≤ j := by omega
      rw [List.range'_succ, findCandidate]
      split
      · rename_i hlookup
        have hafter := h.isAfter_of_lookup hrace hkj hlookup
        exact ih (Nat.lt_succ_of_lt hik) (by omega)
          (h.skip (fun _ => hafter) fun _ => ne_nil_of_isAfter hafter)
      · split
        · rename_i hordered
          rw [Bool.and_eq_true, decide_eq_true_eq] at hordered
          refine ih (Nat.lt_succ_of_lt hik) (by omega) (h.skip ?_ fun heq => absurd heq hordered.1)
          intro hnot
          rw [hnot] at hordered
          cases hordered.2
        · rename_i hunordered
          split
          · rename_i hafter
            exact ih (Nat.lt_succ_of_lt hik) (by omega)
              (h.skip (fun _ => hafter) fun _ => ne_nil_of_isAfter hafter)
          · rename_i hafter
            have hcase : k = j ∨
                (s.recorder.clockOf i).leq (s.recorder.clockOf k) = false := by
              rw [Bool.and_eq_true, decide_eq_true_eq, not_and, Bool.not_eq_true] at hunordered
              by_cases heq : k = j
              · exact .inl heq
              · exact .inr (hunordered heq)
            have hinitial := h.initialEvent hrace hik hkj (Bool.not_eq_true _ ▸ hafter) hcase
            split
            · rename_i hregistered
              rw [Bool.or_eq_true, decide_eq_true_eq, decide_eq_true_eq] at hregistered
              exact ⟨_, hregistered, k, hinitial⟩
            · rename_i hfresh
              rw [Bool.or_eq_true, decide_eq_true_eq, decide_eq_true_eq, not_or] at hfresh
              exact ih (Nat.lt_succ_of_lt hik) (by omega)
                (h.push hrace hik hkj hinitial hfresh.1 hfresh.2)

/-! ### All of `add_branch` -/

/-- A thread with an initial event is not the one of `i`. -/
theorem InitialEvent.pid_ne {s : PsoRecorder} (h : InitialEvent s i j p k) (hrace : Raced s i j) :
    p ≠ s.pidOf i := by
  intro hp
  have hpid : s.pidOf i = s.pidOf k := (h.pid.trans hp).symm
  cases h.unordered with
  | inl heq =>
      subst heq
      have hleq := hrace.unordered i (Nat.le_refl i) h.after hpid
      rw [VClock.leq_refl] at hleq
      cases hleq
  | inr hnot =>
      rw [hrace.program.events i k h.after (Nat.lt_of_le_of_lt h.le hrace.bound) hpid] at hnot
      cases hnot

theorem strictTotal_lt : VecSet.StrictTotal PsoBranch.lt where
  irrefl := by simp [PsoBranch.lt]
  trans := by
    intro x y z hxy hyz
    simp only [PsoBranch.lt, Bool.or_eq_true, Bool.and_eq_true, decide_eq_true_eq] at *
    omega
  eq := by
    intro x y hxy
    simp only [VecSet.Equivalent, PsoBranch.lt, Bool.or_eq_false_iff, Bool.and_eq_false_iff,
      decide_eq_false_iff_not] at hxy
    have hpid : x.pid = y.pid := by omega
    have halt : x.alt = y.alt := by omega
    cases x
    cases y
    rw [PsoBranch.mk.injEq]
    exact ⟨hpid, halt⟩

theorem mem_sleepSetAt (h : p ∈ s.sleepAt i) : p ∈ s.sleepSetAt i := List.mem_append_right _ h

/-- Every call for a race does what it is for. -/
theorem Raced.addsSource (hrace : Raced s.recorder i j)
    (halternatives : Alternatives (s.recorder.pidOf i) (s.sleepAt i) (s.branchAt i)) :
    AddsSource s i j := by
  have hspec := findCandidate_spec hrace (Nat.lt_succ_self i)
    (by have := hrace.lt; omega) (searched_start (s := s) hrace.lt) (n := j - i)
  have hguard : (decide (i < j) && decide (j ≤ s.recorder.prefixIdx)) = true := by
    rw [Bool.and_eq_true, decide_eq_true_eq, decide_eq_true_eq]
    exact ⟨hrace.lt, hrace.le⟩
  rw [AddsSource, addBranch, if_pos hguard]
  cases hend : s.findCandidate i j [] none (List.range' (i + 1) (j - i)) with
  | registered =>
      rw [hend] at hspec
      exact ⟨_, rfl, hspec, fun b hb hnot => absurd hb hnot⟩
  | last cand =>
      rw [hend] at hspec
      obtain ⟨p, rfl, hinitial, hbranch, hsleep⟩ := hspec
      refine ⟨_, rfl, ⟨p, .inl ?_, hinitial⟩, ?_⟩
      · exact (VecSet.mem_insert strictTotal_lt).mpr (.inl rfl)
      · intro b hb hnot
        cases (VecSet.mem_insert strictTotal_lt).mp hb with
        | inr hold => exact absurd hold hnot
        | inl heq =>
            subst heq
            obtain ⟨k, hk⟩ := hinitial
            have hne := hk.pid_ne hrace
            refine ⟨?_, hne⟩
            intro hmem
            obtain ⟨old, hold, rfl⟩ := List.mem_map.mp hmem
            by_cases halt : old.alt = 0
            · apply hbranch
              rwa [← halt]
            · cases halternatives old hold halt with
              | inl heq => exact hne heq
              | inr hmem => exact hsleep (mem_sleepSetAt hmem)

end Nidhugg.PsoPrefix

/-! # Races of the current event

A call adds branches only for events that the clock of the current event is not above. -/

namespace Nidhugg.PsoRecorder

variable {s t : PsoRecorder} {pid p i : ℕ} {c : VClock} {a : PsoAccess} {m : SymAddr}
  {ml : AccessRange}

/-- What stays the same about the events during calls: their numbers, and who is put to sleep. -/
def headers (s : PsoRecorder) : List (IID × List ℕ) := s.events.map fun e => (e.iid, e.sleep)

theorem length_headers : s.headers.length = s.events.length := List.length_map _

theorem indexOf_eq : s.indexOf i = (s.headers[i]?.map fun e => e.1.index).getD 0 := by
  rw [indexOf, headers, List.getElem?_map, Option.map_map]
  rfl

theorem pidOf_eq_headers : s.pidOf i = (s.headers[i]?.map fun e => e.1.pid).getD 0 := by
  rw [pidOf, headers, List.getElem?_map, Option.map_map]
  rfl

theorem headers_modifyCurnode {f : PsoEvent → PsoEvent}
    (h : ∀ e, (f e).iid = e.iid ∧ (f e).sleep = e.sleep) :
    (s.modifyCurnode f).headers = s.headers := by
  apply List.ext_getElem?
  intro j
  simp only [headers, modifyCurnode, List.getElem?_map, List.getElem?_modify, Option.map_eq_map,
    Option.map_map]
  congr 1
  funext e
  dsimp only [Function.comp_apply]
  split
  · rw [(h e).1, (h e).2]
  · rfl

theorem headers_foldl {α : Type} {f : PsoRecorder → α → PsoRecorder}
    (hf : ∀ u x, (f u x).headers = u.headers) (xs : List α) :
    (xs.foldl f s).headers = s.headers := by
  induction xs generalizing s with
  | nil => rfl
  | cons x xs ih => rw [List.foldl_cons, ih, hf]

theorem headers_conflicting : s.conflicting.headers = s.headers :=
  headers_modifyCurnode fun _ => ⟨rfl, rfl⟩

theorem headers_addClock : (s.addClock pid c).headers = s.headers :=
  headers_modifyCurnode (s := s) fun _ => ⟨rfl, rfl⟩

theorem headers_wakeup : (s.wakeup pid a).headers = s.headers :=
  headers_modifyCurnode (s := s) fun _ => ⟨rfl, rfl⟩

theorem headers_opening : (s.conflicting.wakeup pid a).headers = s.headers :=
  headers_wakeup.trans headers_conflicting

theorem headers_seeEvents (seen : List ℕ) : (s.seeEvents pid seen).headers = s.headers :=
  headers_foldl (fun _ _ => headers_addClock) seen

theorem headers_fence (h : s.fence pid = some t) : t.headers = s.headers := by
  rw [(fence_eq_some h).2.2]
  exact headers_addClock

theorem headers_registerStore {lastRowe : Option ℕ} :
    (s.registerStore pid ml lastRowe).headers = s.headers := by
  apply headers_foldl
  intro u b
  exact headers_wakeup (s := u.writeByte b _)

theorem headers_readByte (b : SymAddr) : (readByte pid s b).headers = s.headers :=
  headers_wakeup (s := s.writeByte b _)

end Nidhugg.PsoRecorder

namespace Nidhugg.PsoExploration

open PsoRecorder PsoPrefix PsoHistory

variable {s : PsoRecorder} {t u : PsoExploration} {pid tipid i : ℕ} {seen : List ℕ}
  {ml : AccessRange} {c m : SymAddr}

/-- What holds of the branches at all times. -/
structure Branching (t : PsoExploration) : Prop where
  nodes : t.nodes.length = t.recorder.events.length
  alternatives : ∀ i, Alternatives (t.recorder.pidOf i) (t.sleepAt i) (t.branchAt i)
  planned : ∀ e ∈ t.planned, Alternatives e.pid e.sleep e.node.branch
  calls : ∀ call ∈ t.calls, AddsSource call.before call.i call.j

/-- The state in the middle of a call by the current event of `pid`, made in the state `s` of the
recorder. -/
structure Calling (s : PsoRecorder) (pid : ℕ) (t : PsoExploration) : Prop extends Branching t where
  sound : Sound t.recorder
  program : t.recorder.ProgramOrder
  indexed : Indexed t.recorder
  current : t.recorder.pidOf t.recorder.prefixIdx = pid
  events : t.recorder.events ≠ []
  headers : t.recorder.headers = s.headers

/-! ### Calls of `add_branch` -/

theorem sleepAt_eq (s : PsoPrefix) (i : ℕ) :
    s.sleepAt i = (s.recorder.headers[i]?.map Prod.snd).getD [] := by
  rw [sleepAt, PsoRecorder.headers, List.getElem?_map, Option.map_map]
  rfl

theorem Branching.of_headers (h : Branching t) (hnodes : u.nodes = t.nodes)
    (hplanned : u.planned = t.planned) (hcalls : u.calls = t.calls)
    (hheaders : u.recorder.headers = t.recorder.headers) : Branching u where
  nodes := by
    rw [hnodes, h.nodes, ← length_headers, ← hheaders, length_headers]
  alternatives := by
    intro i
    have hi := h.alternatives i
    rwa [pidOf_eq_headers, sleepAt_eq, ← hheaders, ← sleepAt_eq, ← pidOf_eq_headers, branchAt,
      ← hnodes] at hi
  planned := by
    rw [hplanned]
    exact h.planned
  calls := by
    rw [hcalls]
    exact h.calls

theorem mem_branchAt_modifyBranch {f : List PsoBranch → List PsoBranch} {b : PsoBranch} {j : ℕ}
    (hb : b ∈ (t.modifyBranch i f).branchAt j) :
    b ∈ t.branchAt j ∨ i = j ∧ b ∈ f (t.branchAt j) := by
  rw [branchAt, modifyBranch, List.getElem?_modify, Option.map_eq_map] at hb
  rw [branchAt]
  cases hj : t.nodes[j]? with
  | none =>
      rw [hj] at hb
      exact absurd hb List.not_mem_nil
  | some n =>
      rw [hj] at hb
      simp only [Option.map_some, Option.getD_some] at hb ⊢
      split at hb
      · exact .inr ⟨‹_›, hb⟩
      · exact .inl hb

/-- Adding branches, all of them with the first alternative or to the thread of the event. -/
theorem Branching.modifyBranch (h : Branching t) {f : List PsoBranch → List PsoBranch}
    (hf : ∀ b ∈ f (t.branchAt i), b ∈ t.branchAt i ∨ b.alt = 0 ∨ b.pid = t.recorder.pidOf i) :
    Branching (t.modifyBranch i f) where
  nodes := by
    rw [PsoExploration.modifyBranch, List.length_modify]
    exact h.nodes
  alternatives := by
    intro j b hb halt
    cases mem_branchAt_modifyBranch hb with
    | inl hold => exact h.alternatives j b hold halt
    | inr hnew =>
        obtain ⟨rfl, hnew⟩ := hnew
        rcases hf b hnew with hold | hzero | hpid
        · exact h.alternatives i b hold halt
        · exact absurd hzero halt
        · exact .inl hpid
  planned := h.planned
  calls := h.calls

theorem mem_foldl_insert {alts : List ℕ} {branch : List PsoBranch} {p : ℕ} {b : PsoBranch}
    (hb : b ∈ alts.foldl (fun branch alt => VecSet.insert PsoBranch.lt branch ⟨p, alt⟩) branch) :
    b ∈ branch ∨ b.pid = p := by
  induction alts generalizing branch with
  | nil => exact .inl hb
  | cons alt alts ih =>
      cases ih hb with
      | inr hpid => exact .inr hpid
      | inl hb =>
          cases (VecSet.mem_insert strictTotal_lt).mp hb with
          | inl heq => exact .inr (by rw [heq])
          | inr hold => exact .inl hold

theorem Branching.insertAlternatives (h : Branching t) (altCount : ℕ) :
    Branching (t.insertAlternatives altCount) := by
  rw [PsoExploration.insertAlternatives]
  split
  · exact h.modifyBranch fun b hb => (mem_foldl_insert hb).imp_right .inr
  · exact h

theorem recorder_insertAlternatives (altCount : ℕ) :
    (t.insertAlternatives altCount).recorder = t.recorder := by
  rw [PsoExploration.insertAlternatives]
  split
  · rfl
  · rfl

theorem mem_addBranch {s : PsoPrefix} {j : ℕ} {branch : List PsoBranch} {b : PsoBranch}
    (h : s.addBranch i j = some branch) (hb : b ∈ branch) : b ∈ s.branchAt i ∨ b.alt = 0 := by
  rw [PsoPrefix.addBranch, Option.ite_none_right_eq_some] at h
  have hend := h.2
  split at hend
  · cases hend
    exact .inl hb
  · cases hend
  · cases hend
    cases (VecSet.mem_insert strictTotal_lt).mp hb with
    | inl heq => exact .inr (by rw [heq])
    | inr hold => exact .inl hold

theorem Calling.current_lt (h : Calling s pid t) : pid < t.recorder.threadCount := by
  rw [← h.current]
  exact h.sound.pids _ (prefixIdx_lt h.events)

theorem Calling.callAddBranch (h : Calling s pid t)
    (hrace : Raced t.recorder i t.recorder.prefixIdx) : Calling s pid (t.callAddBranch i) := by
  have hadds := hrace.addsSource (h.alternatives i)
  obtain ⟨branch, hbranch, -⟩ := id hadds
  have hmodify : Branching (t.modifyBranch i fun branch =>
      (t.toPsoPrefix.addBranch i t.recorder.prefixIdx).getD branch) := by
    refine h.toBranching.modifyBranch ?_
    intro b hb
    rw [hbranch, Option.getD_some] at hb
    exact (mem_addBranch hbranch hb).imp_right .inl
  refine ⟨⟨hmodify.nodes, hmodify.alternatives, hmodify.planned, ?_⟩, h.sound, h.program, h.indexed,
    h.current, h.events, h.headers⟩
  intro call hcall
  cases List.mem_append.mp hcall with
  | inl hcall => exact h.calls call hcall
  | inr hcall =>
      rw [List.mem_singleton.mp hcall]
      exact hadds

/-- An event that the clock of the current event is not above. -/
theorem Calling.raced (h : Calling s pid t) (hi : i < t.recorder.events.length)
    (hnot : (t.recorder.clockOf i).leq (t.recorder.clockOf t.recorder.prefixIdx) = false) :
    Raced t.recorder i t.recorder.prefixIdx where
  lt := by
    apply Nat.lt_of_le_of_ne (le_prefixIdx hi)
    intro heq
    rw [heq, VClock.leq_refl] at hnot
    cases hnot
  le := Nat.le_refl _
  bound := prefixIdx_lt h.events
  program := h.program
  indexed := h.indexed
  unordered := by
    intro k _ hk hpid
    have hleq := h.program.events k _ hk (prefixIdx_lt h.events) hpid
    rw [← Bool.not_eq_true] at hnot ⊢
    exact fun hik => hnot (VClock.leq_trans hik hleq)

theorem Calling.conflictWith (h : Calling s pid t) (hi : i < t.recorder.events.length) :
    Calling s pid (t.conflictWith i) := by
  rw [PsoExploration.conflictWith]
  split
  · exact h
  · rename_i hnot
    exact h.callAddBranch (h.raced hi (Bool.not_eq_true _ ▸ hnot))

theorem recorder_conflictWith : (t.conflictWith i).recorder = t.recorder := by
  rw [PsoExploration.conflictWith]
  split
  · rfl
  · rfl

theorem recorder_foldl_conflictWith (seen : List ℕ) :
    (seen.foldl conflictWith t).recorder = t.recorder := by
  induction seen generalizing t with
  | nil => rfl
  | cons i seen ih => rw [List.foldl_cons, ih, recorder_conflictWith]

theorem Calling.foldl_conflictWith (h : Calling s pid t)
    (hseen : ∀ i ∈ seen, i < t.recorder.events.length) :
    Calling s pid (seen.foldl PsoExploration.conflictWith t) := by
  induction seen generalizing t with
  | nil => exact h
  | cons i seen ih =>
      refine ih (h.conflictWith (hseen i List.mem_cons_self)) ?_
      intro k hk
      rw [recorder_conflictWith]
      exact hseen k (List.mem_cons_of_mem i hk)

theorem recorder_foldl_callAddBranch (races : List ℕ) :
    (races.foldl callAddBranch t).recorder = t.recorder := by
  induction races generalizing t with
  | nil => rfl
  | cons i races ih => exact ih

theorem Calling.foldl_callAddBranch {races : List ℕ} (h : Calling s pid t)
    (hraces : ∀ i ∈ races, Raced t.recorder i t.recorder.prefixIdx) :
    Calling s pid (races.foldl PsoExploration.callAddBranch t) := by
  induction races generalizing t with
  | nil => exact h
  | cons i races ih =>
      exact ih (h.callAddBranch (hraces i List.mem_cons_self)) fun k hk =>
        hraces k (List.mem_cons_of_mem i hk)

/-! ### Parts of calls -/

theorem indexed_grows {s t : PsoRecorder} (h : Indexed s) (hgrows : Grows s t pid)
    (hheaders : t.headers = s.headers) : Indexed t := by
  intro i hi
  rw [← length_headers, hheaders, length_headers] at hi
  rw [indexOf_eq, pidOf_eq_headers, hheaders, ← indexOf_eq, ← pidOf_eq_headers]
  by_cases hcur : i = s.prefixIdx
  · subst hcur
    exact Nat.le_trans (h _ hi) ((VClock.leq_iff _ _).mp hgrows.current _)
  · rw [hgrows.older i hcur]
    exact h i hi

theorem Calling.of_part {wakeups : List PsoAccess} {written : List PsoLocation}
    (h : Calling s pid t) (hu : Branching u)
    (hpart : Part t.recorder u.recorder pid wakeups written)
    (hheaders : u.recorder.headers = t.recorder.headers) : Calling s pid u where
  toBranching := hu
  sound := h.sound.part hpart
  program := programOrder_grows h.program h.sound hpart.grows hpart.pids h.current
  indexed := indexed_grows h.indexed hpart.grows hheaders
  current := by
    rw [prefixIdx_congr hpart.pids, pidOf_congr hpart.pids]
    exact h.current
  events := events_ne_nil hpart.pids h.events
  headers := hheaders.trans h.headers

theorem Calling.record {f : PsoRecorder → PsoRecorder} {wakeups : List PsoAccess}
    {written : List PsoLocation} (h : Calling s pid t)
    (hpart : Part t.recorder (f t.recorder) pid wakeups written)
    (hheaders : (f t.recorder).headers = t.recorder.headers) : Calling s pid (t.record f) :=
  h.of_part (h.toBranching.of_headers rfl rfl rfl hheaders) hpart hheaders

/-- The last part of a call. -/
theorem Calling.finish {f : PsoRecorder → PsoRecorder} (h : Calling s pid t)
    (hheaders : (f t.recorder).headers = t.recorder.headers) :
    Branching (t.record f) ∧ (t.record f).recorder.headers = s.headers :=
  ⟨h.toBranching.of_headers rfl rfl rfl hheaders, hheaders.trans h.headers⟩

theorem recorder_seeEvents : (t.seeEvents pid seen).recorder = t.recorder.seeEvents pid seen :=
  recorder_foldl_callAddBranch _

/-- The races with a current event stay races when it sees events. -/
theorem Raced.grows {s t : PsoRecorder} {j : ℕ} (h : Raced s i j) (hj : j = s.prefixIdx)
    (hgrows : Grows s t pid) (hheaders : t.headers = s.headers) (hprogram : t.ProgramOrder) :
    Raced t i j := by
  have hpids : ∀ k, t.pidOf k = s.pidOf k := by
    intro k
    rw [pidOf_eq_headers, hheaders, pidOf_eq_headers]
  have hlength : t.events.length = s.events.length := by
    rw [← length_headers, hheaders, length_headers]
  have hidx : t.prefixIdx = s.prefixIdx := by rw [prefixIdx, hlength, prefixIdx]
  refine ⟨h.lt, ?_, ?_, hprogram, indexed_grows h.indexed hgrows hheaders, ?_⟩
  · rw [hidx]
    exact h.le
  · rw [hlength]
    exact h.bound
  · intro k hik hkj hpid
    rw [hpids, hpids] at hpid
    subst hj
    rw [hgrows.older k (Nat.ne_of_lt hkj), hgrows.older i (Nat.ne_of_lt h.lt)]
    exact h.unordered k hik hkj hpid

theorem mem_races {s : PsoRecorder} (h : i ∈ s.races seen) :
    i ∈ seen ∧ (s.clockOf i).leq (s.clockOf s.prefixIdx) = false := by
  obtain ⟨hmem, hrace⟩ := List.mem_filter.mp h
  rw [Bool.and_eq_true, Bool.not_eq_true'] at hrace
  exact ⟨((VecSet.ofRange_spec VecSet.strictTotal_nat seen).2 i).mp hmem, hrace.1⟩

theorem Calling.seeEvents (h : Calling s pid t)
    (hseen : ∀ i ∈ seen, i < t.recorder.events.length) : Calling s pid (t.seeEvents pid seen) := by
  have hpart : Part t.recorder (t.recorder.seeEvents pid seen) pid [] [] :=
    .seeEvents h.current_lt seen
  have hsees : Calling s pid (t.record (·.seeEvents pid seen)) :=
    h.record hpart (headers_seeEvents seen)
  refine hsees.foldl_callAddBranch ?_
  intro i hi
  obtain ⟨hmem, hnot⟩ := mem_races hi
  have hidx : (t.recorder.seeEvents pid seen).prefixIdx = t.recorder.prefixIdx :=
    prefixIdx_congr hpart.pids
  have hrace := Raced.grows (h.raced (hseen i hmem) hnot) rfl hpart.grows (headers_seeEvents seen)
    hsees.program
  change Raced (t.recorder.seeEvents pid seen) i (t.recorder.seeEvents pid seen).prefixIdx
  rwa [hidx]

end Nidhugg.PsoExploration
