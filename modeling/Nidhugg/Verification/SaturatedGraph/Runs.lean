import Nidhugg.Verification.SaturatedGraph.AddEvent
import Nidhugg.Verification.SaturatedGraph.ReverseSaturate
import Nidhugg.Verification.SaturatedGraph.Saturated

/-! # Runs of calls

A graph is built by calls of `add_event`, `add_edge` and `saturate`. Every graph that valid
calls build satisfies the saturation invariant and records the events it was given. -/

namespace Nidhugg

open Relation ReadsFrom

/-! ## Calls -/

namespace EventSpec

/-- The identifier is new, and the source and the explicit predecessors have been added. -/
structure Placed (prior : List EventSpec) (s : EventSpec) : Prop where
  fresh : s.extId ∉ prior.map EventSpec.extId
  source : ∀ r ∈ s.readFrom, s.kind.isLoad = true ∧ r ∈ prior.map EventSpec.extId
  after : ∀ x ∈ s.happensAfter, x ∈ prior.map EventSpec.extId

/-- The source is a store to the address of the event. -/
def Matches (prior : List EventSpec) (s : EventSpec) : Prop :=
  ∀ r ∈ s.readFrom, ∃ w ∈ prior, w.extId = r ∧ w.kind.isStore = true ∧ w.addr = s.addr

instance (prior : List EventSpec) (s : EventSpec) : Decidable (s.Matches prior) :=
  inferInstanceAs (Decidable (∀ r ∈ s.readFrom, _))

instance (prior : List EventSpec) (s : EventSpec) : Decidable (s.Placed prior) :=
  decidable_of_iff
    (s.extId ∉ prior.map EventSpec.extId ∧
      (∀ r ∈ s.readFrom, s.kind.isLoad = true ∧ r ∈ prior.map EventSpec.extId) ∧
      ∀ x ∈ s.happensAfter, x ∈ prior.map EventSpec.extId)
    ⟨fun h => ⟨h.1, h.2.1, h.2.2⟩, fun h => ⟨h.1, h.2, h.3⟩⟩

end EventSpec

namespace SaturatedGraph

inductive Call where
  | addEvent (s : EventSpec)
  | addEdge (src dst : IID)
  | saturate
deriving DecidableEq

/-- Performs a call. A graph on which `saturate` has failed is not used any further. -/
def perform (g : SaturatedGraph) : Call → Option SaturatedGraph
  | .addEvent s => g.addEvent s
  | .addEdge x y => g.addEdge x y
  | .saturate =>
      match g.saturate with
      | .ok (true, g') => some g'
      | _ => none

def run (calls : List Call) : Option SaturatedGraph := calls.foldlM perform empty

/-- The events that calls add. -/
def Call.specs : Call → List EventSpec
  | .addEvent s => [s]
  | .addEdge _ _ | .saturate => []

/-- The edges that calls fix. -/
def Call.gives : Call → IID → IID → Prop
  | .addEvent s, x, y => y = s.extId ∧ x ∈ s.happensAfter
  | .addEdge a b, x, y => x = a ∧ y = b
  | .saturate, _, _ => False

def givenBy (calls : List Call) (x y : IID) : Prop := ∃ c ∈ calls, c.gives x y

/-- The call is valid after the events `prior` have been added. -/
def Call.Valid (prior : List EventSpec) : Call → Prop
  | .addEvent s => s.Placed prior ∧ s.Matches prior
  | .addEdge x y => x ∈ prior.map EventSpec.extId ∧ y ∈ prior.map EventSpec.extId
  | .saturate => True

def ValidFrom : List EventSpec → List Call → Prop
  | _, [] => True
  | prior, c :: calls => c.Valid prior ∧ ValidFrom (prior ++ c.specs) calls

def ValidCalls (calls : List Call) : Prop := ValidFrom [] calls

instance (prior : List EventSpec) : (c : Call) → Decidable (c.Valid prior)
  | .addEvent _ => inferInstanceAs (Decidable (_ ∧ _))
  | .addEdge _ _ => inferInstanceAs (Decidable (_ ∧ _))
  | .saturate => inferInstanceAs (Decidable True)

instance decidableValidFrom : (prior : List EventSpec) → (calls : List Call) →
    Decidable (ValidFrom prior calls)
  | _, [] => inferInstanceAs (Decidable True)
  | prior, c :: calls =>
      have := decidableValidFrom (prior ++ c.specs) calls
      inferInstanceAs (Decidable (_ ∧ _))

instance (calls : List Call) : Decidable (ValidCalls calls) :=
  inferInstanceAs (Decidable (ValidFrom [] calls))

/-! ## Recorded events -/

/-- The event `i` of a graph records the arguments `s`. -/
structure Records (g : SaturatedGraph) (s : EventSpec) (i : ℕ) : Prop where
  pid : (g.events i).iid.pid = s.pid
  extId : (g.events i).extId = s.extId
  isLoad : (g.events i).isLoad = s.kind.isLoad
  isStore : (g.events i).isStore = s.kind.isStore
  addr : (g.events i).addr = s.addr
  source : (g.events i).readFrom.map (fun w => (g.events w).extId) = s.readFrom

structure Represents (specs : List EventSpec) (g : SaturatedGraph) : Prop where
  size : g.size = specs.length
  event : ∀ i s, specs[i]? = some s → Records g s i

theorem Represents.of_same {specs : List EventSpec} {g g' : SaturatedGraph}
    (h : Represents specs g) (hs : SameLayout g g') : Represents specs g' := by
  refine ⟨hs.size.trans h.size, fun i s hi => ?_⟩
  obtain ⟨h₁, h₂, h₃, h₄, h₅, h₆⟩ := h.event i s hi
  constructor <;> rw [hs.events] <;> assumption

theorem Represents.exists_event {specs : List EventSpec} {g : SaturatedGraph}
    (h : Represents specs g) {s : EventSpec} (hs : s ∈ specs) :
    ∃ i < g.size, specs[i]? = some s ∧ Records g s i := by
  obtain ⟨i, hi⟩ := List.mem_iff_getElem?.mp hs
  obtain ⟨hlt, -⟩ := List.getElem?_eq_some_iff.mp hi
  exact ⟨i, by rw [h.size]; exact hlt, hi, h.event i s hi⟩

theorem Represents.exists_spec {specs : List EventSpec} {g : SaturatedGraph}
    (h : Represents specs g) {i : ℕ} (hi : i < g.size) :
    ∃ s ∈ specs, specs[i]? = some s ∧ Records g s i := by
  rw [h.size] at hi
  have hget := List.getElem?_eq_getElem hi
  exact ⟨_, List.getElem_mem hi, hget, h.event i _ hget⟩

theorem Represents.hasEvent_iff {specs : List EventSpec} {g : SaturatedGraph}
    (h : Represents specs g) (hl : Layout g) (x : IID) :
    g.hasEvent x = true ↔ x ∈ specs.map EventSpec.extId := by
  rw [hasEvent, Option.isSome_iff_exists, List.mem_map]
  constructor
  · rintro ⟨i, hi⟩
    obtain ⟨his, rfl⟩ := (hl.extid_iff x i).mp hi
    obtain ⟨s, hs, -, hrec⟩ := h.exists_spec his
    exact ⟨s, hs, hrec.extId.symm⟩
  · rintro ⟨s, hs, rfl⟩
    obtain ⟨i, hi, -, hrec⟩ := h.exists_event hs
    exact ⟨i, (hl.extid_iff _ i).mpr ⟨hi, hrec.extId⟩⟩

theorem Represents.validCall {specs : List EventSpec} {g : SaturatedGraph}
    (h : Represents specs g) (hl : Layout g) {s : EventSpec} (hp : s.Placed specs)
    (hm : s.Matches specs) : ValidCall g s where
  fresh := by
    rw [← Bool.not_eq_true, h.hasEvent_iff hl]
    exact hp.fresh
  source := by
    intro r hr
    obtain ⟨w, hw, rfl, hst, haddr⟩ := hm r hr
    obtain ⟨i, hi, -, hrec⟩ := h.exists_event hw
    exact ⟨(hp.source _ hr).1, i, (hl.extid_iff _ i).mpr ⟨hi, hrec.extId⟩,
      hrec.isStore.trans hst, hrec.addr.trans haddr⟩
  after := fun x hx => (h.hasEvent_iff hl x).mpr (hp.after x hx)

theorem Represents.addResolved {specs : List EventSpec} {g : SaturatedGraph}
    (h : Represents specs g) (hl : Layout g) (hq : QueueOk g) {s : EventSpec}
    (hv : ValidCall g s) (origIn : List ℕ) :
    Represents (specs ++ [s]) (g.addResolved s (s.readFrom.bind g.extidToId) origIn) := by
  set rf := s.readFrom.bind g.extidToId with hrf
  refine Represents.of_same ?_ (addResolved_extends hq s rf origIn).layout
  have hold : ∀ {i}, i < g.size → SameButReaders (g.events i) ((g.withEvent s rf).events i) :=
    fun hi => (withEvent_old g s rf hi).1
  refine ⟨?_, fun i t hi => ?_⟩
  · rw [List.length_append, ← h.size]
    rfl
  · rw [List.getElem?_append] at hi
    split at hi
    · rename_i hlt
      rw [← h.size] at hlt
      obtain ⟨h₁, h₂, h₃, h₄, h₅, h₆⟩ := h.event i t hi
      refine ⟨?_, ?_, ?_, ?_, ?_, ?_⟩
      · rw [(hold hlt).iid, h₁]
      · rw [(hold hlt).extId, h₂]
      · rw [(hold hlt).isLoad, h₃]
      · rw [(hold hlt).isStore, h₄]
      · rw [(hold hlt).addr, h₅]
      · rw [(hold hlt).readFrom, ← h₆]
        refine Option.map_congr fun w hw => ?_
        exact (hold ((hl.readFrom_spec i hlt w hw).1.trans hlt)).extId
    · rename_i hge
      obtain ⟨hlt, hget⟩ := List.getElem?_eq_some_iff.mp hi
      simp only [List.length_singleton] at hlt
      obtain rfl : i = g.size := by rw [h.size]; omega
      obtain rfl : s = t := by simpa using hget
      have hnew := withEvent_new g s rf
      refine ⟨by rw [hnew]; rfl, by rw [hnew]; rfl, by rw [hnew]; rfl, by rw [hnew]; rfl,
        by rw [hnew]; rfl, ?_⟩
      rw [hnew, show (g.newEvent s rf).readFrom = rf from rfl]
      cases hr : s.readFrom with
      | none =>
          have hval : rf = none := by simp [hrf, hr]
          exact congrArg (Option.map _) hval
      | some r =>
          obtain ⟨-, w, hw, -⟩ := hv.source r hr
          obtain ⟨hws, hext⟩ := (hl.extid_iff r w).mp hw
          have hval : rf = some w := by simp [hrf, hr, hw]
          exact (congrArg (Option.map _) hval).trans (congrArg some ((hold hws).extId.trans hext))

/-! ## The invariant of a run -/

theorem Invariant.congr {given given' : IID → IID → Prop} {g : SaturatedGraph}
    (h : Invariant given g) (hiff : ∀ x y, given x y ↔ given' x y) : Invariant given' g := by
  have heq : given = given' := funext fun x => funext fun y => propext (hiff x y)
  exact heq ▸ h

theorem invariant_empty : Invariant (fun _ _ => False) empty := by
  refine ⟨⟨?_, ?_, ?_, ?_, ?_, ?_, ?_, ?_, ?_, ?_, ?_, ?_, ?_, ?_⟩, ?_, ?_⟩
  · constructor <;> simp [empty]
  · constructor <;> simp [empty]
  · constructor <;> simp [empty]
  all_goals simp [empty, InitLinked]

theorem represents_empty : Represents [] empty := ⟨rfl, by simp⟩

/-- `saturate` on a graph with the invariant: the broken assertion, a forced cycle, or a
saturated graph. -/
theorem Invariant.saturate {given : IID → IID → Prop} {g : SaturatedGraph}
    (h : Invariant given g) :
    (Tangled g ∧ g.saturate = .error .zeroIndex) ∨
      (¬ Tangled g ∧ ∃ g', g.saturate = .ok (false, g') ∧ ∃ e, Forced (choice g given) e e) ∨
      (¬ Tangled g ∧ ∃ g', g.saturate = .ok (true, g') ∧ Saturated given g' ∧
        SameLayout g g') := by
  rcases h.reverseSaturate with ⟨ht, herr⟩ | ⟨ht, g₁, hrun, h₁, hs₁, hsat⟩
  · left
    refine ⟨ht, ?_⟩
    simp only [SaturatedGraph.saturate, herr, Bind.bind, Except.bind]
  · right
    have hloop : g.saturate = g₁.saturateLoop g₁.fuel := by
      simp only [SaturatedGraph.saturate, hrun, Bind.bind, Except.bind]
    rw [hloop]
    rcases h₁.saturateLoop g₁.fuel hsat h₁.kept.work_lt_fuel with
      ⟨g', hrun', hcyc⟩ | ⟨g', hrun', h', hs', hsu', hq'⟩
    · rw [choice_of_same hs₁] at hcyc
      exact .inl ⟨ht, g', hrun', hcyc⟩
    · exact .inr ⟨ht, g', hrun', ⟨h', hq', by rw [hsu', hsat, hs'.size]⟩, hs₁.trans hs'⟩

theorem Invariant.saturate_true {given : IID → IID → Prop} {g g' : SaturatedGraph}
    (h : Invariant given g) (hrun : g.saturate = .ok (true, g')) :
    Saturated given g' ∧ SameLayout g g' := by
  rcases h.saturate with ⟨-, herr⟩ | ⟨-, g₁, hfalse, -⟩ | ⟨-, g₁, htrue, hs, hlay⟩
  · rw [herr] at hrun
    exact absurd hrun (by simp)
  · rw [hfalse] at hrun
    exact absurd hrun (by simp)
  · rw [htrue] at hrun
    obtain rfl : g₁ = g' := by simpa using hrun
    exact ⟨hs, hlay⟩

theorem Invariant.saturate_false {given : IID → IID → Prop} {g g' : SaturatedGraph}
    (h : Invariant given g) (hrun : g.saturate = .ok (false, g')) :
    ∃ e, Forced (choice g given) e e := by
  rcases h.saturate with ⟨-, herr⟩ | ⟨-, g₁, hfalse, hcyc⟩ | ⟨-, g₁, htrue, -⟩
  · rw [herr] at hrun
    exact absurd hrun (by simp)
  · exact hcyc
  · rw [htrue] at hrun
    exact absurd hrun (by simp)

/-- What a run keeps: the invariant and the record of the added events. -/
structure Built (specs : List EventSpec) (given : IID → IID → Prop) (g : SaturatedGraph) :
    Prop where
  invariant : Invariant given g
  represents : Represents specs g

theorem Built.perform {specs : List EventSpec} {given : IID → IID → Prop}
    {g g' : SaturatedGraph} {c : Call} (h : Built specs given g) (hv : c.Valid specs)
    (hrun : g.perform c = some g') :
    Built (specs ++ c.specs) (fun x y => given x y ∨ c.gives x y) g' := by
  cases c with
  | addEvent s =>
      have hcall := h.represents.validCall h.invariant.layout hv.1 hv.2
      obtain ⟨origIn, hadd, hacc⟩ := hcall.addEvent h.invariant.layout
      obtain rfl : g.addResolved s (s.readFrom.bind g.extidToId) origIn = g' :=
        Option.some.inj (hadd.symm.trans hrun)
      exact ⟨h.invariant.addResolved hacc,
        h.represents.addResolved h.invariant.layout h.invariant.queueOk hcall origIn⟩
  | addEdge x y =>
      obtain ⟨hinv, hs, -⟩ := h.invariant.addEdge hrun
      exact ⟨hinv, by simpa [Call.specs] using h.represents.of_same hs⟩
  | saturate =>
      have hsat : g.saturate = .ok (true, g') := by
        simp only [SaturatedGraph.perform] at hrun
        split at hrun
        · rename_i g₁ heq
          rw [heq, Option.some.inj hrun]
        · exact absurd hrun (by simp)
      obtain ⟨hsatd, hs⟩ := h.invariant.saturate_true hsat
      exact ⟨hsatd.toInvariant.congr (by simp [Call.gives]),
        by simpa [Call.specs] using h.represents.of_same hs⟩

theorem Built.run {calls : List Call} : ∀ {specs : List EventSpec}
    {given : IID → IID → Prop} {g g' : SaturatedGraph}, Built specs given g →
      ValidFrom specs calls → calls.foldlM SaturatedGraph.perform g = some g' →
      Built (specs ++ calls.flatMap Call.specs) (fun x y => given x y ∨ givenBy calls x y) g' := by
  induction calls with
  | nil =>
      intro specs given g g' h _ hrun
      obtain rfl : g = g' := by simpa using hrun
      have : (fun x y => given x y ∨ givenBy [] x y) = given := by
        funext x y
        simp [givenBy]
      rw [this]
      simpa using h
  | cons c calls ih =>
      intro specs given g g' h hv hrun
      rw [List.foldlM_cons] at hrun
      obtain ⟨g₁, hc, hrest⟩ := Option.bind_eq_some_iff.mp hrun
      have := ih (h.perform hv.1 hc) hv.2 hrest
      have hgiven : (fun x y => (given x y ∨ c.gives x y) ∨ givenBy calls x y) =
          fun x y => given x y ∨ givenBy (c :: calls) x y := by
        funext x y
        simp [givenBy, or_assoc]
      rw [hgiven] at this
      simpa using this

/-- Every graph that valid calls build satisfies the invariant. -/
theorem run_built {calls : List Call} {g : SaturatedGraph} (hv : ValidCalls calls)
    (hrun : run calls = some g) : Built (calls.flatMap Call.specs) (givenBy calls) g := by
  have := Built.run ⟨invariant_empty, represents_empty⟩ hv hrun
  simpa using this

end SaturatedGraph

end Nidhugg

/-! # Exactness of the saturated state -/

namespace Nidhugg.SaturatedGraph

open Relation

/-- The path relation of the graph: at least one program-order, reads-from or `ins` edge. -/
def Reaches (g : SaturatedGraph) : ℕ → ℕ → Prop := TransGen (Edge g)

/-- The indices of the events of process `p` that reach the event `e` or are it. -/
def indicesBelow (g : SaturatedGraph) (p e : ℕ) : Set ℕ :=
  {k | ∃ a < g.size, (g.events a).iid.pid = p ∧ (a = e ∨ Reaches g a e) ∧
    (g.events a).iid.index = k}

/-- The event `w` is a write to the address of `e`. -/
def WritesTo (g : SaturatedGraph) (w e : ℕ) : Prop :=
  w < g.size ∧ (g.events w).isStore = true ∧ (g.events w).addr = (g.events e).addr

/-- What saturation establishes: an acyclic graph with exact clocks that is closed under
the from-read and coherence rules. -/
structure ExactState (g : SaturatedGraph) : Prop where
  acyclic : ∀ e, ¬ Reaches g e e
  clocks : ∀ e < g.size, ∀ p, IsGreatest (insert 0 (indicesBelow g p e)) ((g.vclocks e).get p)
  fromRead : ∀ w r w', r < g.size → (g.events r).readFrom = some w → WritesTo g w' w → w' ≠ w →
    Reaches g w w' → r ≠ w' → Reaches g r w'
  coherence : ∀ w r w', r < g.size → (g.events r).readFrom = some w → WritesTo g w' w →
    Reaches g w' r → w' = w ∨ Reaches g w' w
  initial : ∀ w r, r < g.size → (g.events r).isLoad = true → (g.events r).readFrom = none →
    WritesTo g w r → ¬ Reaches g w r

theorem Saturated.exactState {given : IID → IID → Prop} {g : SaturatedGraph}
    (h : Saturated given g) : ExactState g := by
  have hl := h.layout
  have hreads : ∀ {r w}, r < g.size → (g.events r).readFrom = some w →
      (choice g given).reads r (some w) := by
    intro r w hr hrf
    exact ⟨hr, (hl.readFrom_spec r hr w hrf).2.1, hrf⟩
  have hstore : ∀ {r w w'}, r < g.size → (g.events r).readFrom = some w → WritesTo g w' w →
      (choice g given).storeTo ((choice g given).addr r) w' := by
    rintro r w w' hr hrf ⟨hw', hst, haddr⟩
    exact ⟨hw', hst, haddr.trans (hl.readFrom_spec r hr w hrf).2.2.2⟩
  constructor
  case acyclic => exact h.acyclic
  case clocks =>
    intro e he p
    obtain ⟨hle, hex⟩ := h.clock_exact he p
    constructor
    · rcases hex with ⟨a, ha, hap, hae, hai⟩ | ⟨hz, -⟩
      · refine .inr ⟨a, ha, hap, ?_, hai⟩
        exact (reflTransGen_iff_eq_or_transGen.mp hae).imp_left Eq.symm
      · exact .inl hz
    · rintro k (rfl | ⟨a, ha, hap, hae, rfl⟩)
      · exact Nat.zero_le _
      · exact hle a ha hap (reflTransGen_iff_eq_or_transGen.mpr (hae.imp_left Eq.symm))
  case fromRead =>
    intro w r w' hr hrf hw' hne hww' hrw'
    exact h.closed.fromRead (hreads hr hrf) (hstore hr hrf hw') hne hrw'.symm hww'
  case coherence =>
    intro w r w' hr hrf hw' hw'r
    by_cases hne : w' = w
    · exact .inl hne
    · right
      refine h.closed.coherence (hreads hr hrf) (hstore hr hrf hw') hne ?_ hw'r
      rintro rfl
      exact h.acyclic _ hw'r
  case initial =>
    rintro w r hr hload hrf ⟨hw, hst, haddr⟩ hwr
    have hne : w ≠ r := by
      rintro rfl
      exact h.acyclic w hwr
    have hrw := h.closed.fromInit (r := r) (w := w) ⟨hr, hload, hrf⟩ ⟨hw, hst, haddr⟩ hne
    exact h.acyclic r (hrw.trans hwr)

/-- After any valid calls of `add_event` and `add_edge`, with or without successful
`saturate` calls in between, a `saturate` that succeeds leaves an exact state behind. -/
theorem saturate_exact {calls : List Call} (hv : ValidCalls calls) {g g' : SaturatedGraph}
    (hrun : run calls = some g) (hsat : g.saturate = .ok (true, g')) : ExactState g' :=
  ((run_built hv hrun).invariant.saturate_true hsat).1.exactState

/-- Two stores of different processes, a load of the first and an edge from the second
store to the load. -/
def orderedStores : List Call :=
  [.addEvent ⟨0, ⟨0, 1⟩, .store, ⟨.global 0, 0⟩, none, []⟩,
    .addEvent ⟨1, ⟨1, 1⟩, .store, ⟨.global 0, 0⟩, none, []⟩,
    .addEvent ⟨2, ⟨2, 1⟩, .load, ⟨.global 0, 0⟩, some ⟨0, 1⟩, []⟩,
    .addEdge ⟨1, 1⟩ ⟨2, 1⟩]

theorem saturate_exact_orderedStores :
    ∃ g g', run orderedStores = some g ∧ g.saturate = .ok (true, g') ∧ ExactState g' :=
  ⟨_, _, rfl, rfl, saturate_exact (by decide : ValidCalls orderedStores) rfl rfl⟩

end Nidhugg.SaturatedGraph
