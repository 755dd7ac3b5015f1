import Nidhugg.Verification.RfscAlternatives.Restoration
import Nidhugg.Verification.RfscTraceBuilder.Candidates

/-! # What is left after all alternatives

The loop of `compute_prefixes` leaves the sources of swapped events behind and nothing else. -/

namespace Nidhugg.RfscPlan

open RfscTraceBuilder SortedSearch

variable {o : RfscOracle} {s s' : RfscTraceBuilder} {p q : RfscPlan} {i : ℕ}

/-! ### Operations on mutexes -/

/-- The swap with a later lock, and the source that the lock is given. -/
def relockSwaps (o : RfscOracle) (s : RfscTraceBuilder) (i : ℕ) (next : List ℕ) : List (ℕ × ℕ) :=
  if s.isAt doesLock i then
    match next.dropWhile (s.isAt isTrylockFail) with
    | unlock :: relock :: _ =>
        if s.isAt isUnlock unlock && s.isAt isLock relock then
          if swapsEvents o (.swapLock i unlock relock) i relock s then [(relock, unlock)] else []
        else []
    | _ => []
  else []

/-- The swaps with the accesses to a mutex after an event. -/
def accessSwaps (o : RfscOracle) (s : RfscTraceBuilder) (i : ℕ) (e : RfscTraceBuilder.Event) :
    List ℕ → List (ℕ × ℕ)
  | [] => []
  | j :: next =>
      if isUnlock e && s.isAt isLock j then []
      else (if swapsEvents o (.swap i j) i j s then [(j, i)] else []) ++
        relockSwaps o s i (j :: next)

/-- The events that an operation on a mutex is swapped with, each with the source it is given. -/
def swaps (o : RfscOracle) (s : RfscTraceBuilder) (i : ℕ) : List (ℕ × ℕ) :=
  match s.events[i]? with
  | none => []
  | some e =>
      if e.pinned || !symevIsLockType e.sym then []
      else match getAddr e with
        | none => []
        | some ml =>
            let accesses := s.writesByAddress ml.addr
            accessSwaps o s i e (accesses.drop (upperBound accesses i))

/-- An attempt that leaves some sources behind. -/
structure Leaves (resets : List (ℕ × ℕ)) (p q : RfscPlan) : Prop where
  core : q.core = (p.resetSources resets).core
  history : ∀ w ∈ q.history, w ∈ p.history ∨ w = p.writesByAddress

theorem writesByAddress_resetSources (resets : List (ℕ × ℕ)) (p : RfscPlan) :
    (p.resetSources resets).writesByAddress = p.writesByAddress := by
  induction resets generalizing p with
  | nil => rfl
  | cons reset resets ih => exact ih _

namespace Leaves

theorem refl (p : RfscPlan) : Leaves [] p p := ⟨rfl, fun _ => .inl⟩

theorem writesByAddress {resets : List (ℕ × ℕ)} (h : Leaves resets p q) :
    q.writesByAddress = p.writesByAddress := by
  have hcore := congrArg RfscPlan.writesByAddress h.core
  exact hcore.trans (writesByAddress_resetSources resets p)

theorem trans {resets resets' : List (ℕ × ℕ)} {r : RfscPlan} (h : Leaves resets p q)
    (h' : Leaves resets' q r) : Leaves (resets ++ resets') p r := by
  refine ⟨?_, fun w hw => ?_⟩
  · rw [h'.core, core_resetSources, h.core, ← core_resetSources, resetSources, resetSources,
      resetSources, List.foldl_append]
  · rcases h'.history w hw with hw | hw
    · exact h.history w hw
    · exact .inr (hw.trans h.writesByAddress)

theorem attempted {attempt : RfscPlan → Option RfscPlan} {resets : List (ℕ × ℕ)}
    (h : ∀ q, attempt p = some q →
      q.core = (p.resetSources resets).core ∧ q.history = p.history)
    (hq : p.attempted attempt = some q) : Leaves resets p q := by
  rw [RfscPlan.attempted, Option.map_eq_some_iff] at hq
  obtain ⟨q, hattempt, rfl⟩ := hq
  obtain ⟨hcore, hhistory⟩ := h q hattempt
  refine ⟨hcore, fun w hw => ?_⟩
  rcases List.mem_append.mp hw with hw | hw
  · exact .inl (hhistory ▸ hw)
  · have hwrites := congrArg RfscPlan.writesByAddress hcore
    rw [List.mem_singleton.mp hw]
    exact .inr (hwrites.trans (writesByAddress_resetSources resets p))

end Leaves

/-! ### Nothing but sources -/

def unsourced (e : RfscTraceBuilder.Event) : RfscTraceBuilder.Event := { e with readFrom := none }

/-- The events are the same except for their sources. -/
def SameButSources (s s' : RfscTraceBuilder) : Prop :=
  s'.events.map unsourced = s.events.map unsourced

namespace SameButSources

theorem length (h : SameButSources s s') : s'.events.length = s.events.length := by
  simpa using congrArg List.length h

theorem getElem? (h : SameButSources s s') (i : ℕ) :
    s'.events[i]?.map unsourced = s.events[i]?.map unsourced := by
  rw [← List.getElem?_map, ← List.getElem?_map, h]

theorem exists_event {e' : RfscTraceBuilder.Event} (h : SameButSources s s')
    (he : s'.events[i]? = some e') :
    ∃ e, s.events[i]? = some e ∧ unsourced e' = unsourced e := by
  have hmap := h.getElem? i
  rw [he, Option.map_some] at hmap
  obtain ⟨e, he, heq⟩ := Option.map_eq_some_iff.mp hmap.symm
  exact ⟨e, he, heq.symm⟩

/-- Tests that do not look at sources. -/
theorem any {kind : RfscTraceBuilder.Event → Bool} (h : SameButSources s s')
    (hkind : ∀ e, kind (unsourced e) = kind e) (i : ℕ) :
    s'.events[i]?.any kind = s.events[i]?.any kind := by
  have hany : ∀ events : List RfscTraceBuilder.Event,
      events[i]?.any kind = (events[i]?.map unsourced).any kind := by
    intro events
    cases events[i]? with
    | none => rfl
    | some e => exact (hkind e).symm
  rw [hany, hany, h.getElem? i]

theorem writesByAddress (h : SameButSources s s') : s'.writesByAddress = s.writesByAddress := by
  funext a
  rw [RfscTraceBuilder.writesByAddress, RfscTraceBuilder.writesByAddress, h.length]
  congr 1
  funext j
  exact h.any (fun _ => rfl) j

theorem canSwapByVclocks (h : SameButSources s s') (i j : ℕ) :
    s'.canSwapByVclocks i j = s.canSwapByVclocks i j := by
  have hclocks : ∀ s : RfscTraceBuilder, s.canSwapByVclocks i j =
      (s.events[i]?.map unsourced).bind fun read => (s.events[j]?.map unsourced).map fun write =>
        !happensBefore read write.aboveClock := by
    intro s
    rw [RfscTraceBuilder.canSwapByVclocks]
    cases s.events[i]? with
    | none => rfl
    | some d =>
        cases s.events[j]? with
        | none => rfl
        | some e => rfl
  rw [hclocks, hclocks, h.getElem?, h.getElem?]

theorem swapsEvents (h : SameButSources s s') (o : RfscOracle) (attempt : RfscAttempt) (i j : ℕ) :
    RfscPlan.swapsEvents o attempt i j s' = RfscPlan.swapsEvents o attempt i j s := by
  rw [RfscPlan.swapsEvents, RfscPlan.swapsEvents, h.canSwapByVclocks]

theorem relockSwaps (h : SameButSources s s') (o : RfscOracle) (i : ℕ) (next : List ℕ) :
    RfscPlan.relockSwaps o s' i next = RfscPlan.relockSwaps o s i next := by
  have hfail : s'.isAt isTrylockFail = s.isAt isTrylockFail := funext (h.any fun _ => rfl)
  have hlocks : s'.isAt doesLock = s.isAt doesLock := funext (h.any fun _ => rfl)
  have hlock : s'.isAt isLock = s.isAt isLock := funext (h.any fun _ => rfl)
  have hunlock : s'.isAt isUnlock = s.isAt isUnlock := funext (h.any fun _ => rfl)
  rw [RfscPlan.relockSwaps, RfscPlan.relockSwaps, hfail, hlocks, hlock, hunlock]
  simp only [h.swapsEvents]

theorem accessSwaps (h : SameButSources s s') (o : RfscOracle) (i : ℕ)
    {e e' : RfscTraceBuilder.Event} (he : unsourced e' = unsourced e) (accesses : List ℕ) :
    RfscPlan.accessSwaps o s' i e' accesses = RfscPlan.accessSwaps o s i e accesses := by
  have hlock : s'.isAt isLock = s.isAt isLock := funext (h.any fun _ => rfl)
  have hunlock : isUnlock e' = isUnlock e := by
    have hkind := congrArg isUnlock he
    exact hkind
  cases accesses with
  | nil => rfl
  | cons j next =>
      rw [RfscPlan.accessSwaps, RfscPlan.accessSwaps, hlock, hunlock, h.swapsEvents, h.relockSwaps]

theorem swaps (h : SameButSources s s') (o : RfscOracle) (i : ℕ) :
    RfscPlan.swaps o s' i = RfscPlan.swaps o s i := by
  rw [RfscPlan.swaps, RfscPlan.swaps]
  cases he' : s'.events[i]? with
  | none =>
      have hmap := h.getElem? i
      rw [he', Option.map_none, eq_comm, Option.map_eq_none_iff] at hmap
      rw [hmap]
  | some e' =>
      obtain ⟨e, he, heq⟩ := h.exists_event he'
      have hpinned : e'.pinned = e.pinned := by
        have hpinned := congrArg RfscTraceBuilder.Event.pinned heq
        exact hpinned
      have hsym : e'.sym = e.sym := by
        have hsym := congrArg RfscTraceBuilder.Event.sym heq
        exact hsym
      rw [he]
      simp only [hpinned, hsym, getAddr, h.writesByAddress, h.accessSwaps o i heq]

end SameButSources

theorem sameButSources_setReadFrom (p : RfscPlan) (i : ℕ) (source : Option ℕ) :
    SameButSources p.builder (p.setReadFrom i source).builder := by
  rw [SameButSources, setReadFrom_eq_mapSources, mapSources]
  apply List.ext_getElem?
  intro k
  rw [List.getElem?_map, List.getElem?_map, List.getElem?_mapIdx, Option.map_map]
  rfl

theorem sameButSources_resetSources (resets : List (ℕ × ℕ)) (p : RfscPlan) :
    SameButSources p.builder (p.resetSources resets).builder := by
  induction resets generalizing p with
  | nil => exact rfl
  | cons reset resets ih => exact (ih _).trans (sameButSources_setReadFrom p reset.1 (some reset.2))

theorem scheduled_resetSources (resets : List (ℕ × ℕ)) (p : RfscPlan) :
    (p.resetSources resets).builder.scheduled = p.builder.scheduled := by
  induction resets generalizing p with
  | nil => rfl
  | cons reset resets ih => exact ih _

theorem builder_of_core (h : p.core = q.core) : p.builder = q.builder := by
  have hbuilder := congrArg RfscPlan.builder h
  exact hbuilder

theorem Leaves.sameButSources {resets : List (ℕ × ℕ)} (h : Leaves resets p q) :
    SameButSources p.builder q.builder := by
  rw [builder_of_core h.core]
  exact sameButSources_resetSources resets p

/-! ### One event -/

theorem exploreRelock_leaves {next : List ℕ} (h : p.exploreRelock o i next = some q) :
    Leaves (relockSwaps o p.builder i next) p q := by
  rw [exploreRelock] at h
  rw [relockSwaps]
  by_cases hlocks : p.builder.isAt doesLock i = true
  · rw [if_pos hlocks] at h ⊢
    cases hnext : next.dropWhile (p.builder.isAt isTrylockFail) with
    | nil =>
        rw [hnext] at h
        cases h
        exact .refl p
    | cons unlock rest =>
        rw [hnext] at h
        cases rest with
        | nil =>
            cases h
            exact .refl p
        | cons relock rest =>
            by_cases hkinds :
                (p.builder.isAt isUnlock unlock && p.builder.isAt isLock relock) = true
            · simp only [if_pos hkinds] at h ⊢
              exact Leaves.attempted (fun _ => exchange_core) h
            · simp only [if_neg hkinds] at h ⊢
              cases h
              exact .refl p
  · rw [if_neg hlocks] at h ⊢
    cases h
    exact .refl p

/-- Before the loop, and after each event. -/
structure Consistent (p : RfscPlan) : Prop where
  complete : p.builder.scheduled = p.builder.events.length
  writes : p.writesByAddress = p.builder.writesByAddress

theorem Leaves.consistent {resets : List (ℕ × ℕ)} (h : Leaves resets p q) (hp : Consistent p) :
    Consistent q := by
  have hsame := h.sameButSources
  constructor
  · rw [hsame.length, builder_of_core h.core, scheduled_resetSources, hp.complete]
  · rw [h.writesByAddress, hsame.writesByAddress, hp.writes]

theorem Returns.consistent (h : Returns i p q) (hp : Consistent p) : Consistent q := by
  have hbuilder := builder_of_core (h.core none)
  have hsame : SameButSources p.builder q.builder := by
    have hq := sameButSources_setReadFrom q i none
    rw [hbuilder] at hq
    exact hq.symm.trans (sameButSources_setReadFrom p i none)
  constructor
  · have hscheduled := congrArg RfscTraceBuilder.scheduled hbuilder
    rw [hsame.length, ← hp.complete]
    exact hscheduled
  · rw [h.writesByAddress, hsame.writesByAddress, hp.writes]

theorem exploreLock_leaves {e : RfscTraceBuilder.Event} {ml : SymAddrSize} (hp : Consistent p)
    (he : p.builder.events[i]? = some e) (hpinned : e.pinned = false) (hml : getAddr e = some ml)
    (h : p.exploreLock o i e = some q) :
    Leaves (accessSwaps o p.builder i e ((p.builder.writesByAddress ml.addr).drop
      (upperBound (p.builder.writesByAddress ml.addr) i))) p q := by
  simp only [exploreLock, hml, Option.bind_eq_bind, Option.bind_some, hp.writes] at h
  split at h
  · rename_i hnext
    rw [hnext]
    split at h
    · -- the attempts with blocked threads leave nothing behind
      have hinv : Leaves [] p q := by
        refine FoldInvariant.of_foldlM _ (fun r other t _ hr ht => ?_) (.refl p) h
        have hrconsistent := hr.consistent hp
        have her : r.builder.events[i]? = some e := by
          rw [builder_of_core hr.core]
          exact he
        exact hr.trans (Leaves.attempted
          (fun _ => trySwapBlocked_core hrconsistent.complete her hpinned) ht)
      exact hinv
    · cases h
      exact .refl p
  · rename_i j next hnext
    rw [hnext, accessSwaps]
    split at h
    · rename_i hrelock
      rw [if_pos hrelock]
      cases h
      exact .refl p
    · rename_i hrelock
      rw [if_neg hrelock]
      simp only [Option.bind_eq_some_iff] at h
      obtain ⟨r, hswap, h⟩ := h
      have hswap := Leaves.attempted (fun _ => exchange_core) hswap
      have hrelock := exploreRelock_leaves h
      rw [hswap.sameButSources.relockSwaps] at hrelock
      exact hswap.trans hrelock

theorem swaps_eq_nil {e : RfscTraceBuilder.Event} (he : s.events[i]? = some e)
    (h : e.pinned = true ∨ symevIsLockType e.sym = false) : swaps o s i = [] := by
  have hskip : (e.pinned || !symevIsLockType e.sym) = true := by simpa using h
  simp only [swaps, he, if_pos hskip]

theorem swaps_eq_accessSwaps {e : RfscTraceBuilder.Event} {ml : SymAddrSize}
    (he : s.events[i]? = some e) (hpinned : e.pinned = false) (hlock : symevIsLockType e.sym = true)
    (hml : getAddr e = some ml) :
    swaps o s i = accessSwaps o s i e ((s.writesByAddress ml.addr).drop
      (upperBound (s.writesByAddress ml.addr) i)) := by
  have hskip : ¬(e.pinned || !symevIsLockType e.sym) = true := by simp [hpinned, hlock]
  simp only [swaps, he, if_neg hskip, hml]

theorem exploreEvent_leaves {below : List ClockRef} (hp : Consistent p)
    (h : p.exploreEvent o below i = some q) : Leaves (swaps o p.builder i) p q := by
  simp only [exploreEvent, Option.bind_eq_bind, Option.bind_eq_some_iff] at h
  obtain ⟨e, he, h⟩ := h
  cases hpinned : e.pinned with
  | true =>
      rw [swaps_eq_nil he (.inl hpinned)]
      rw [if_pos hpinned] at h
      cases h
      exact .refl p
  | false =>
      rw [hpinned, if_neg (by simp)] at h
      cases hlock : symevIsLockType e.sym with
      | true =>
          rw [if_pos hlock] at h
          cases hml : getAddr e with
          | none =>
              rw [exploreLock, hml] at h
              cases h
          | some ml =>
              rw [swaps_eq_accessSwaps he hpinned hlock hml]
              exact exploreLock_leaves hp he hpinned hml h
      | false =>
          rw [swaps_eq_nil he (.inr hlock)]
          rw [hlock, if_neg (by simp)] at h
          split at h
          · obtain ⟨hcore, hhistory⟩ := exploreLoad_core he h
            exact ⟨hcore, hhistory⟩
          · cases h
            exact .refl p

/-! ### All events -/

/-- The sources that are left behind by the swaps for the first `n` events. -/
def allSwaps (o : RfscOracle) (s : RfscTraceBuilder) (n : ℕ) : List (ℕ × ℕ) :=
  (List.range n).flatMap (swaps o s)

/-- The invariant of the loop. -/
def LeavesSwaps (o : RfscOracle) (start : RfscPlan) (n : ℕ) (p : RfscPlan) : Prop :=
  Leaves (allSwaps o start.builder n) start p

theorem computePrefixes_leaves {below : List ClockRef} {decisions : List (Option DecisionNode)}
    (hcomplete : s.scheduled = s.events.length)
    (h : computePrefixes o below s decisions = some p) :
    Leaves (allSwaps o s s.events.length) (start s decisions) p := by
  have hstart : Consistent (start s decisions) := ⟨hcomplete, rfl⟩
  have hstep : ∀ n q i r, (List.range s.events.length)[n]? = some i →
      LeavesSwaps o (start s decisions) (0 + n) q → q.exploreEvent o below i = some r →
      LeavesSwaps o (start s decisions) (0 + n + 1) r := by
    intro n q i r hi hq hr
    obtain ⟨hlt, rfl⟩ := List.getElem?_eq_some_iff.mp hi
    rw [List.getElem_range] at hr
    have hleaves := exploreEvent_leaves (Leaves.consistent hq hstart) hr
    rw [(Leaves.sameButSources hq).swaps] at hleaves
    rw [Nat.zero_add, LeavesSwaps] at hq ⊢
    rw [allSwaps, List.range_succ, List.flatMap_append, List.flatMap_singleton]
    exact hq.trans hleaves
  have hinv := FoldInvariant.of_foldlM_indexed hstep (Leaves.refl _) h
  rwa [List.length_range, Nat.zero_add] at hinv

/-! ### The previous access -/

theorem writesByAddress_pairwise (s : RfscTraceBuilder) (a : SymAddr) :
    (s.writesByAddress a).Pairwise (· < ·) :=
  List.pairwise_lt_range.sublist List.filter_sublist

theorem mem_writesByAddress {a : SymAddr} {j : ℕ} :
    j ∈ s.writesByAddress a ↔
      ∃ e, s.events[j]? = some e ∧ isStore e = true ∧ ∃ ml, getAddr e = some ml ∧ ml.addr = a := by
  rw [RfscTraceBuilder.writesByAddress, List.mem_filter, List.mem_range]
  constructor
  · rintro ⟨-, hany⟩
    obtain ⟨e, he, hstore⟩ := (Option.any_eq_true _ _).mp hany
    rw [Bool.and_eq_true] at hstore
    obtain ⟨ml, hml, haddr⟩ := (Option.any_eq_true _ _).mp hstore.2
    exact ⟨e, he, hstore.1, ml, hml, of_decide_eq_true haddr⟩
  · rintro ⟨e, he, hstore, ml, hml, rfl⟩
    refine ⟨(List.getElem?_eq_some_iff.mp he).1, ?_⟩
    rw [he]
    simp [hstore, hml]

theorem isStore_of_lockType {e : RfscTraceBuilder.Event} (h : symevIsLockType e.sym = true) :
    isStore e = true := by
  rw [isStore]
  split
  · rfl
  · rfl
  · rfl
  · exact h

/-- An event that is swapped is given the access before it. -/
theorem previous_of_relockSwaps {next pre accesses : List ℕ} {swap : ℕ × ℕ}
    (haccesses : accesses = pre ++ next) (h : swap ∈ relockSwaps o s i next) :
    ∃ pre post, accesses = pre ++ swap.2 :: swap.1 :: post := by
  rw [relockSwaps] at h
  split at h
  · split at h
    · rename_i unlock relock rest hnext
      split at h
      · split at h
        · rw [List.mem_singleton] at h
          subst h
          refine ⟨pre ++ next.takeWhile (s.isAt isTrylockFail), rest, ?_⟩
          rw [haccesses, ← hnext, List.append_assoc, List.takeWhile_append_dropWhile]
        · cases h
      · cases h
    · cases h
  · cases h

theorem previous_of_swaps {swap : ℕ × ℕ} (h : swap ∈ swaps o s i) :
    ∃ a pre post, s.writesByAddress a = pre ++ swap.2 :: swap.1 :: post := by
  cases he : s.events[i]? with
  | none => simp [swaps, he] at h
  | some e =>
      by_cases hskip : e.pinned = true ∨ symevIsLockType e.sym = false
      · rw [swaps_eq_nil he hskip] at h
        cases h
      · rw [not_or, Bool.not_eq_true, Bool.not_eq_false] at hskip
        cases hml : getAddr e with
        | none => simp [swaps, he, hml] at h
        | some ml =>
            rw [swaps_eq_accessSwaps he hskip.1 hskip.2 hml] at h
            have hsorted := writesByAddress_pairwise s ml.addr
            have hsplit := List.take_append_drop (upperBound (s.writesByAddress ml.addr) i)
              (s.writesByAddress ml.addr)
            cases hdrop : (s.writesByAddress ml.addr).drop
                (upperBound (s.writesByAddress ml.addr) i) with
            | nil =>
                rw [hdrop] at h
                cases h
            | cons j next =>
                rw [hdrop] at h hsplit
                rw [accessSwaps] at h
                split at h
                · cases h
                · rcases List.mem_append.mp h with h | h
                  · split at h
                    · rw [List.mem_singleton] at h
                      subst h
                      have hi : i ∈ s.writesByAddress ml.addr :=
                        mem_writesByAddress.mpr ⟨e, he, isStore_of_lockType hskip.2, ml, hml, rfl⟩
                      obtain ⟨pre, hpre⟩ := consecutive_upperBound hsorted hi hdrop
                      exact ⟨ml.addr, pre, next, hpre⟩
                    · cases h
                  · obtain ⟨pre, post, hpost⟩ := previous_of_relockSwaps hsplit.symm h
                    exact ⟨ml.addr, pre, post, hpost⟩

/-- All swaps give an event the same source. -/
theorem source_unique {i' j u v : ℕ} (h : (j, u) ∈ swaps o s i) (h' : (j, v) ∈ swaps o s i') :
    u = v := by
  obtain ⟨a, pre, post, ha⟩ := previous_of_swaps h
  obtain ⟨b, pre', post', hb⟩ := previous_of_swaps h'
  have hja : j ∈ s.writesByAddress a := by simp [ha]
  have hjb : j ∈ s.writesByAddress b := by simp [hb]
  obtain ⟨e, he, -, ml, hml, rfl⟩ := mem_writesByAddress.mp hja
  obtain ⟨e', he', -, ml', hml', rfl⟩ := mem_writesByAddress.mp hjb
  rw [he, Option.some.injEq] at he'
  subst he'
  rw [hml, Option.some.injEq] at hml'
  subst hml'
  exact eq_of_consecutive (writesByAddress_pairwise s ml.addr) ha hb

/-! ### Main result -/

/-- Whether an event has the source. -/
def hasSource (s : RfscTraceBuilder) (j u : ℕ) : Prop :=
  s.events[j]?.map RfscTraceBuilder.Event.readFrom = some (some (some u))

theorem getElem?_setReadFrom_ne {j k : ℕ} {source : Option ℕ} (h : j ≠ k) :
    (p.setReadFrom j source).builder.events[k]? = p.builder.events[k]? := by
  rw [setReadFrom, modifyEvent, List.getElem?_modify_ne _ _ h]

/-- Sources that are not reset stay. -/
theorem getElem?_resetSources {resets : List (ℕ × ℕ)} {j : ℕ} (h : ∀ u, (j, u) ∉ resets) :
    (p.resetSources resets).builder.events[j]? = p.builder.events[j]? := by
  induction resets generalizing p with
  | nil => rfl
  | cons reset resets ih =>
      have hne : reset.1 ≠ j := by
        rintro rfl
        exact h reset.2 List.mem_cons_self
      have hrest := ih (p := p.setReadFrom reset.1 (some reset.2))
        fun u hu => h u (List.mem_cons_of_mem _ hu)
      exact hrest.trans (getElem?_setReadFrom_ne hne)

/-- If all resets of an event agree, it ends up with that source. -/
theorem hasSource_resetSources {resets : List (ℕ × ℕ)} {j u : ℕ} (h : (j, u) ∈ resets)
    (hunique : ∀ v, (j, v) ∈ resets → v = u) (hj : j < p.builder.events.length) :
    hasSource (p.resetSources resets).builder j u := by
  induction resets generalizing p with
  | nil => cases h
  | cons reset resets ih =>
      have hlength : (p.setReadFrom reset.1 (some reset.2)).builder.events.length =
          p.builder.events.length := List.length_modify _ _ _
      by_cases hrest : (j, u) ∈ resets
      · exact ih hrest (fun v hv => hunique v (List.mem_cons_of_mem _ hv)) (by rwa [hlength])
      · rcases List.mem_cons.mp h with rfl | h
        · have hlater : ∀ v, (j, v) ∉ resets := by
            intro v hv
            rw [hunique v (List.mem_cons_of_mem _ hv)] at hv
            exact hrest hv
          have hsame := getElem?_resetSources (p := p.setReadFrom j (some u)) hlater
          rw [hasSource]
          refine (congrArg (Option.map _) hsame).trans ?_
          rw [setReadFrom, modifyEvent, List.getElem?_modify_eq, List.getElem?_eq_getElem hj]
          rfl
        · exact absurd h hrest

theorem resetSources_eq_self {resets : List (ℕ × ℕ)}
    (h : ∀ reset ∈ resets, hasSource p.builder reset.1 reset.2) : p.resetSources resets = p := by
  induction resets with
  | nil => rfl
  | cons reset resets ih =>
      obtain ⟨e, he, hsource⟩ := Option.map_eq_some_iff.mp (h reset List.mem_cons_self)
      rw [resetSources, List.foldl_cons, setReadFrom_self he hsource]
      exact ih fun reset hreset => h reset (List.mem_cons_of_mem _ hreset)

theorem lt_length_of_swaps {swap : ℕ × ℕ} (h : swap ∈ swaps o s i) :
    swap.1 < s.events.length := by
  obtain ⟨a, pre, post, ha⟩ := previous_of_swaps h
  have hmem : swap.1 ∈ s.writesByAddress a := by simp [ha]
  obtain ⟨e, he, -⟩ := mem_writesByAddress.mp hmem
  exact (List.getElem?_eq_some_iff.mp he).1

theorem mem_allSwaps {swap : ℕ × ℕ} :
    swap ∈ allSwaps o s s.events.length ↔ ∃ i, swap ∈ swaps o s i := by
  rw [allSwaps, List.mem_flatMap]
  constructor
  · rintro ⟨i, -, h⟩
    exact ⟨i, h⟩
  · rintro ⟨i, h⟩
    refine ⟨i, List.mem_range.mpr ?_, h⟩
    by_contra hi
    have hnone : s.events[i]? = none := List.getElem?_eq_none (Nat.le_of_not_lt hi)
    simp [swaps, hnone] at h

/-- The recorded execution is as before the search for alternatives, the lists of stores were as
before after every attempt, and nested recomputations have no effect. -/
def NoSideEffects (s : RfscTraceBuilder) (decisions : List (Option DecisionNode)) (p : RfscPlan) :
    Prop :=
  (p.builder = s ∧ p.decisions = decisions) ∧
    (∀ writes ∈ p.history, writes = s.writesByAddress) ∧
    ∀ (n : Nesting) (q r : RfscPlan), n.perform q = some r → r = n.sources q

/-- For every completed execution, exploring its alternatives has no side effects if and only if
every event that is swapped with an access to its mutex reads from the access before it. -/
theorem noSideEffects_iff {below : List ClockRef} {decisions : List (Option DecisionNode)}
    (hcomplete : s.scheduled = s.events.length)
    (h : computePrefixes o below s decisions = some p) :
    NoSideEffects s decisions p ↔
      ∀ i, ∀ swap ∈ swaps o s i, hasSource s swap.1 swap.2 := by
  have hleaves := computePrefixes_leaves hcomplete h
  constructor
  · rintro ⟨⟨hbuilder, -⟩, -⟩ i ⟨j, u⟩ hswap
    have hall : (j, u) ∈ allSwaps o s s.events.length := mem_allSwaps.mpr ⟨i, hswap⟩
    have hunique : ∀ v, (j, v) ∈ allSwaps o s s.events.length → v = u := by
      intro v hv
      obtain ⟨i', hv⟩ := mem_allSwaps.mp hv
      exact source_unique hv hswap
    have hsource := hasSource_resetSources (p := start s decisions) hall hunique
      (lt_length_of_swaps hswap)
    rwa [← builder_of_core hleaves.core, hbuilder] at hsource
  · intro hsources
    have hself : (start s decisions).resetSources (allSwaps o s s.events.length) =
        start s decisions := by
      apply resetSources_eq_self
      intro swap hswap
      obtain ⟨i, hswap⟩ := mem_allSwaps.mp hswap
      exact hsources i swap hswap
    have hcore := hleaves.core
    rw [hself] at hcore
    refine ⟨⟨builder_of_core hcore, ?_⟩, ?_, fun _ _ _ => Nesting.perform_eq⟩
    · have hdecisions := congrArg RfscPlan.decisions hcore
      exact hdecisions
    · intro writes hwrites
      rcases hleaves.history writes hwrites with hwrites | hwrites
      · cases hwrites
      · exact hwrites

/-- All alternatives are new, and there is no execution for any of them. -/
def newAlternatives : RfscOracle := ⟨fun _ => true, fun _ _ => false⟩

/-- A decision for each of the reads. -/
def decideReads (s : RfscTraceBuilder) : List (Option DecisionNode) :=
  s.events.zipIdx.map fun x => if isLoad x.1 then some (.child .root x.2) else none

/-- Two threads lock and unlock `m`. -/
def lockedTwice : RfscTraceBuilder := finish none noLeaf
  [⟨.spawn, [], false⟩, ⟨.spawn, [], false⟩, ⟨.invisible, [(0, false)], false⟩,
    ⟨.mutexLock mutexM, [], false⟩, ⟨.mutexUnlock mutexM, [], false⟩,
    ⟨.invisible, [(1, false)], false⟩, ⟨.mutexLock mutexM, [], false⟩,
    ⟨.mutexUnlock mutexM, [], false⟩, ⟨.invisible, [(2, false)], false⟩]

/-- One thread destroys `m` and another one initializes it again. -/
def initializedAgain : RfscTraceBuilder := finish none noLeaf
  [⟨.mutexInit mutexM, [], false⟩, ⟨.spawn, [], false⟩, ⟨.spawn, [], false⟩,
    ⟨.invisible, [(0, false)], false⟩, ⟨.mutexDestroy mutexM, [], false⟩,
    ⟨.invisible, [(1, false)], false⟩, ⟨.mutexInit mutexM, [], false⟩,
    ⟨.invisible, [(2, false)], false⟩]

theorem execution_initializedAgain : Execution none noLeaf initializedAgain :=
  execution_finish (by decide +kernel)

theorem noSideEffects_lockedTwice : ∃ t below p,
    lockedTwice.computeVclocks = some (t, below) ∧
    computePrefixes newAlternatives below t (decideReads t) = some p ∧
    swaps newAlternatives t 2 = [(4, 3)] ∧ NoSideEffects t (decideReads t) p := by
  obtain ⟨⟨t, below⟩, hclocks⟩ : ∃ r, lockedTwice.computeVclocks = some r :=
    Option.isSome_iff_exists.mp (by decide +kernel)
  have hfacts : ∀ r ∈ lockedTwice.computeVclocks,
      (computePrefixes newAlternatives r.2 r.1 (decideReads r.1)).isSome = true ∧
      r.1.scheduled = r.1.events.length ∧ swaps newAlternatives r.1 2 = [(4, 3)] ∧
      ∀ swap ∈ allSwaps newAlternatives r.1 r.1.events.length,
        r.1.events[swap.1]?.map RfscTraceBuilder.Event.readFrom = some (some (some swap.2)) := by
    decide +kernel
  obtain ⟨hsome, hcomplete, hswaps, hsources⟩ := hfacts (t, below) hclocks
  obtain ⟨p, hp⟩ := Option.isSome_iff_exists.mp hsome
  refine ⟨t, below, p, hclocks, hp, hswaps, (noSideEffects_iff hcomplete hp).mpr ?_⟩
  intro i swap hswap
  exact hsources swap (mem_allSwaps.mpr ⟨i, hswap⟩)

/-- The second initialization has no source, but is left with one. -/
theorem not_noSideEffects_initializedAgain : ∃ t below p,
    Execution none noLeaf initializedAgain ∧ initializedAgain.computeVclocks = some (t, below) ∧
    t.scheduled = t.events.length ∧
    computePrefixes newAlternatives below t (decideReads t) = some p ∧
    t.events[4]?.map RfscTraceBuilder.Event.readFrom = some (some none) ∧
    p.builder.events[4]?.map RfscTraceBuilder.Event.readFrom = some (some (some 3)) ∧
    ¬NoSideEffects t (decideReads t) p := by
  obtain ⟨⟨t, below⟩, hclocks⟩ : ∃ r, initializedAgain.computeVclocks = some r :=
    Option.isSome_iff_exists.mp (by decide +kernel)
  have hfacts : ∀ r ∈ initializedAgain.computeVclocks, r.1.scheduled = r.1.events.length ∧
      r.1.events[4]?.map RfscTraceBuilder.Event.readFrom = some (some none) ∧
      (computePrefixes newAlternatives r.2 r.1 (decideReads r.1)).any (fun p =>
        p.builder.events[4]?.map RfscTraceBuilder.Event.readFrom = some (some (some 3))) =
          true := by
    decide +kernel
  obtain ⟨hcomplete, hbefore, hany⟩ := hfacts (t, below) hclocks
  obtain ⟨p, hp, hafter⟩ := (Option.any_eq_true _ _).mp hany
  rw [decide_eq_true_eq] at hafter
  refine ⟨t, below, p, execution_initializedAgain, hclocks, hcomplete, hp, hbefore, hafter, ?_⟩
  rintro ⟨⟨hbuilder, -⟩, -⟩
  rw [hbuilder, hbefore] at hafter
  cases hafter

end Nidhugg.RfscPlan
