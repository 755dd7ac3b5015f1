import Nidhugg.Verification.SymEv.Outcome
import Nidhugg.Verification.TsoTraceBuilder.Recomputation

/-! # Outcomes of compare-exchanges in reordered prefixes

Whether a compare-exchange succeeds is decided on the bytes that the events before it have recorded
in the original run. These can differ from what they write in the new order. -/

namespace Nidhugg.TsoTraceBuilder

/-- The operations of an event with the outcomes that they have when they are executed. -/
def outcomes (bigEndian : Bool) (m : Memory) : List SymEv → List SymEv
  | [] => []
  | e :: es => e.outcome m.read :: outcomes bigEndian (execute bigEndian (e.outcome m.read) m) es

/-- The operations before those of the event. -/
def opsBeforeEvent (pre : List (List SymEv)) (v : List Branch) (i : ℕ) : List SymEv :=
  (pre.take i).flatten ++ (v.map (·.sym)).flatten

/-- An operation writes another byte than it has recorded, which only a read-modify-write does. -/
def Stale (bigEndian : Bool) (m : Memory) (p : SymEv) (a : SymAddr) : Prop :=
  execute bigEndian p m a ≠ executeRecorded p m a

/-- The last write of a byte is not stale. A byte that is not written is zero initially. -/
structure UpToDate (bigEndian : Bool) (m : Memory) (ops : List SymEv) (a : SymAddr) : Prop where
  current : ∀ before p after, ops = before ++ p :: after → a ∈ written p →
    (∀ q ∈ after, a ∉ written q) → ¬Stale bigEndian (content bigEndian m before) p a
  zero : (∀ p ∈ ops, a ∉ written p) → m a = 0

/-- The location of a compare-exchange is up to date. -/
def LocationUpToDate (bigEndian : Bool) (m : Memory) (ops : List SymEv) : SymEv → Prop
  | .cmpXhg addr _ _ | .cmpXhgFail addr _ _ => ∀ a ∈ addr.bytes, UpToDate bigEndian m ops a
  | _ => True

/-- The location of each compare-exchange of an event is up to date when it is executed. -/
def LocationsUpToDate (bigEndian : Bool) (m : Memory) (ops : List SymEv) : List SymEv → Prop
  | [] => True
  | e :: es =>
      LocationUpToDate bigEndian m ops e ∧
        LocationsUpToDate bigEndian m (ops ++ [e.outcome (content bigEndian m ops).read]) es

/-! ## Bytes that are up to date -/

theorem content_concat {bigEndian : Bool} {m : Memory} (ops : List SymEv) (p : SymEv) :
    content bigEndian m (ops ++ [p]) = execute bigEndian p (content bigEndian m ops) :=
  Commands.run_append m ops [p]

/-- Operations that do not write a byte leave it up to date. -/
theorem UpToDate.of_concat {bigEndian : Bool} {m : Memory} {ops : List SymEv} {p : SymEv}
    {a : SymAddr} (h : UpToDate bigEndian m (ops ++ [p]) a) (hp : a ∉ written p) :
    UpToDate bigEndian m ops a := by
  constructor
  · intro before q after hops hq hafter
    refine h.current before q (after ++ [p]) (by simp [hops]) hq fun r hr => ?_
    rcases List.mem_append.mp hr with hr | hr
    · exact hafter r hr
    · rw [List.mem_singleton.mp hr]
      exact hp
  · intro hops
    refine h.zero fun q hq => ?_
    rcases List.mem_append.mp hq with hq | hq
    · exact hops q hq
    · rw [List.mem_singleton.mp hq]
      exact hp

theorem upToDate_concat {bigEndian : Bool} {m : Memory} {ops : List SymEv} {p : SymEv}
    {a : SymAddr} (hp : a ∈ written p) (h : ¬Stale bigEndian (content bigEndian m ops) p a) :
    UpToDate bigEndian m (ops ++ [p]) a := by
  constructor
  · intro before q after hops hq hafter
    rcases List.eq_nil_or_concat after with rfl | ⟨after', r, rfl⟩
    · obtain ⟨rfl, hlast⟩ := List.append_inj' hops rfl
      cases hlast
      exact h
    · rw [List.concat_eq_append, ← List.cons_append, ← List.append_assoc] at hops
      cases (List.append_inj' hops rfl).2
      exact absurd hp (hafter p (by simp))
  · intro hops
    exact absurd hp (hops p (by simp))

/-- A byte that is up to date is the one recorded last. -/
theorem UpToDate.content_eq {bigEndian : Bool} {m : Memory} {ops : List SymEv} {a : SymAddr}
    (h : UpToDate bigEndian m ops a) :
    content bigEndian m ops a = recordedContent (fun _ => 0) ops a := by
  induction ops using List.reverseRecOn with
  | nil => exact h.zero (by simp)
  | append_singleton ops p ih =>
      rw [content_concat, recordedContent_concat]
      by_cases hp : a ∈ written p
      · have hcurrent := h.current ops p [] rfl hp (by simp)
        rw [Stale, not_not] at hcurrent
        rw [hcurrent]
        exact executeRecorded_congr _ _ hp
      · rw [execute_frame bigEndian _ hp, executeRecorded_frame _ hp]
        exact ih (h.of_concat hp)

/-! ## The loop over an event -/

section

variable {bigEndian : Bool} {m : Memory} {pre : List (List SymEv)} {v : List Branch} {i : ℕ}

/-- The three scans of a compare-exchange are one scan over the operations before it. -/
theorem recomputeCmpxhg_eq {front : List SymEv}
    (hops : ∀ p ∈ opsBeforeEvent pre v i ++ front, p.Recorded) {addr : SymAddrSize}
    (haddr : addr.Placed) (w expected : Bytes addr.size) :
    recomputeCmpxhg pre v i front addr (some w) (some expected) =
      some (if expected.val =
            (recordedContent (fun _ => 0) (opsBeforeEvent pre v i ++ front)).read addr then
          .cmpXhg addr (some w) (some expected)
        else .cmpXhgFail addr (some w) (some expected)) := by
  have hneeded : ∀ a ∈ addr.bytes.toFinset, addr.includes a = true :=
    fun a ha => (mem_bytes_iff haddr a).mp (List.mem_toFinset.mp ha)
  obtain ⟨rest, hscan⟩ := revRecomputeData_spec
    (fun p hp => hops p (List.mem_reverse.mp hp)) hneeded (fun _ => 0)
  have hreverse : (opsBeforeEvent pre v i ++ front).reverse =
      front.reverse ++ ((v.map (·.sym)).flatten.reverse ++ (pre.take i).flatten.reverse) := by
    simp [opsBeforeEvent]
  rw [hreverse, revRecomputeData_append, ← hreverse, List.reverse_reverse] at hscan
  simp only [revRecomputeData_append] at hscan
  have hread : Memory.read (fun a => if a ∈ addr.bytes.toFinset then
      recordedContent (fun _ => 0) (opsBeforeEvent pre v i ++ front) a else 0) addr =
      (recordedContent (fun _ => 0) (opsBeforeEvent pre v i ++ front)).read addr := by
    apply read_congr
    intro a ha
    simp [ha]
  simp only [recomputeCmpxhg, revRecomputeAll_eq, SymData.zero, Option.bind_eq_bind]
  cases hfirst : revRecomputeData front.reverse (addr.bytes.toFinset, ⟨addr, fun _ => 0⟩) with
  | none =>
      rw [hfirst] at hscan
      cases hscan
  | some st =>
      rw [hfirst, Option.bind_some] at hscan
      cases hsecond : revRecomputeData (v.map (·.sym)).flatten.reverse st with
      | none =>
          rw [hsecond] at hscan
          cases hscan
      | some st' =>
          rw [hsecond, Option.bind_some] at hscan
          simp only [Option.bind_some, hsecond, hscan, hread, Option.pure_def]
          split <;> rfl

theorem outcome_recorded {m : Memory} {e : SymEv} (he : e.Recorded) :
    (e.outcome m.read).Recorded := by
  unfold SymEv.outcome
  split
  · split
    · exact he
    · exact he
  · split
    · exact he
    · exact he
  · exact he

/-- The step of the loop: an operation whose location is up to date gets its outcome. -/
theorem recomputeCmpxhgFrom_cons {front : List SymEv} {e : SymEv} (he : e.Recorded)
    (hops : ∀ p ∈ opsBeforeEvent pre v i ++ front, p.Recorded)
    (h : LocationUpToDate bigEndian m (opsBeforeEvent pre v i ++ front) e) (es : List SymEv) :
    recomputeCmpxhgFrom pre v i front (e :: es) =
      recomputeCmpxhgFrom pre v i
        (front ++ [e.outcome (content bigEndian m (opsBeforeEvent pre v i ++ front)).read]) es := by
  cases e with
  | cmpXhg addr w expected | cmpXhgFail addr w expected =>
      obtain ⟨hplaced, hw, hexpected⟩ := he
      obtain ⟨w, rfl⟩ := Option.isSome_iff_exists.mp hw
      obtain ⟨expected, rfl⟩ := Option.isSome_iff_exists.mp hexpected
      rw [recomputeCmpxhgFrom, recomputeCmpxhg_eq hops hplaced, Option.bind_some, SymEv.outcome,
        read_congr fun a ha => (h a ha).content_eq]
  | _ => rfl

theorem recomputeCmpxhgFrom_eq {front es : List SymEv} (hes : ∀ e ∈ es, e.Recorded)
    (hops : ∀ p ∈ opsBeforeEvent pre v i ++ front, p.Recorded)
    (h : LocationsUpToDate bigEndian m (opsBeforeEvent pre v i ++ front) es) :
    recomputeCmpxhgFrom pre v i front es = some (front ++
      outcomes bigEndian (content bigEndian m (opsBeforeEvent pre v i ++ front)) es) := by
  induction es generalizing front with
  | nil => simp [recomputeCmpxhgFrom, outcomes]
  | cons e es ih =>
      have he : e.Recorded := hes e List.mem_cons_self
      obtain ⟨hlocation, hrest⟩ := h
      rw [List.append_assoc] at hrest
      rw [recomputeCmpxhgFrom_cons he hops hlocation, ih (fun q hq => hes q (.tail e hq)) _ hrest,
        ← List.append_assoc, content_concat, List.append_assoc front, List.singleton_append,
        outcomes]
      intro p hp
      rw [← List.append_assoc] at hp
      rcases List.mem_append.mp hp with hp | hp
      · exact hops p hp
      · rw [List.mem_singleton.mp hp]
        exact outcome_recorded he

/-- Compare-exchanges get the outcomes that they have in the reordered prefix if no byte of their
locations has been written last by a stale read-modify-write, and the bytes that are not written
are zero initially. -/
theorem recomputeCmpxhgSuccess_of_upToDate {es : List SymEv}
    (hpre : ∀ sym ∈ pre, ∀ p ∈ sym, p.Recorded) (hv : ∀ b ∈ v, ∀ p ∈ b.sym, p.Recorded)
    (hes : ∀ e ∈ es, e.Recorded)
    (h : LocationsUpToDate bigEndian m (opsBeforeEvent pre v i) es) :
    recomputeCmpxhgSuccess pre es v i =
      some (outcomes bigEndian (content bigEndian m (opsBeforeEvent pre v i)) es) := by
  have hops : ∀ p ∈ opsBeforeEvent pre v i ++ [], p.Recorded := by
    intro p hp
    rw [List.append_nil, opsBeforeEvent] at hp
    cases List.mem_append.mp hp with
    | inl hp =>
        obtain ⟨sym, hsym, hmem⟩ := List.mem_flatten.mp hp
        exact hpre sym (List.mem_of_mem_take hsym) p hmem
    | inr hp =>
        obtain ⟨sym, hsym, hmem⟩ := List.mem_flatten.mp hp
        obtain ⟨b, hb, rfl⟩ := List.mem_map.mp hsym
        exact hv b hb p hmem
  rw [← List.append_nil (opsBeforeEvent pre v i)] at h
  have hall := recomputeCmpxhgFrom_eq hes hops h
  rwa [List.append_nil, List.nil_append] at hall

end

/-- Two increments of a variable that is zero initially, of which the first is taken out of the
sequence. The second one has recorded 2. -/
def secondIncrement : Branch := ⟨[.rmw globalByte (byte 2) .add (byte 1) false], 2, 0, 1⟩

theorem recorded_secondIncrement : ∀ b ∈ [secondIncrement], ∀ p ∈ b.sym, p.Recorded := by
  simp [secondIncrement, SymEv.Recorded, byte, placed_globalByte]

theorem recomputeCmpxhgSuccess_afterStore :
    recomputeCmpxhgSuccess [[.store globalByte (byte 1)]]
        [.cmpXhgFail globalByte (byte 9) (byte 2)] [secondIncrement] 1 =
      some (outcomes false (content false (fun _ => 0)
          (opsBeforeEvent [[.store globalByte (byte 1)]] [secondIncrement] 1))
        [.cmpXhgFail globalByte (byte 9) (byte 2)]) := by
  have hpre : ∀ sym ∈ [[SymEv.store globalByte (byte 1)]], ∀ p ∈ sym, p.Recorded := by
    simp [SymEv.Recorded, byte, placed_globalByte]
  have hes : ∀ e ∈ [SymEv.cmpXhgFail globalByte (byte 9) (byte 2)], e.Recorded := by
    simp [SymEv.Recorded, byte, placed_globalByte]
  refine recomputeCmpxhgSuccess_of_upToDate hpre recorded_secondIncrement hes ⟨?_, trivial⟩
  intro a ha
  -- The increment finds 1 as in the original run.
  cases List.mem_singleton.mp ha
  change UpToDate false _ ([.store globalByte (byte 1)] ++
    [.rmw globalByte (byte 2) .add (byte 1) false]) _
  refine upToDate_concat ⟨globalByte, rfl, by decide⟩ ?_
  rw [Stale, not_not]
  decide +kernel

/-- The second increment alone leaves 1, so that the compare-exchange for 1 succeeds. -/
theorem not_recomputeCmpxhgSuccess_incremented :
    recomputeCmpxhgSuccess [[.rmw globalByte (byte 1) .add (byte 1) false]]
        [.cmpXhgFail globalByte (byte 9) (byte 1)] [secondIncrement] 0 ≠
      some (outcomes false (content false (fun _ => 0)
          (opsBeforeEvent [[.rmw globalByte (byte 1) .add (byte 1) false]] [secondIncrement] 0))
        [.cmpXhgFail globalByte (byte 9) (byte 1)]) := by
  have hfails : recomputeCmpxhgSuccess [[.rmw globalByte (byte 1) .add (byte 1) false]]
      [.cmpXhgFail globalByte (byte 9) (byte 1)] [secondIncrement] 0 =
      some [.cmpXhgFail globalByte (byte 9) (byte 1)] := rfl
  have hsucceeds : outcomes false (content false (fun _ => 0)
      (opsBeforeEvent [[.rmw globalByte (byte 1) .add (byte 1) false]] [secondIncrement] 0))
      [.cmpXhgFail globalByte (byte 9) (byte 1)] =
      [.cmpXhg globalByte (byte 9) (byte 1)] := rfl
  rw [hfails, hsucceeds]
  simp

end Nidhugg.TsoTraceBuilder
