import Nidhugg.Verification.SaturatedGraph.Runs

/-! # Soundness of saturation

A total order of the added events witnesses the reads-from choice when every load reads
the last earlier store to its address. If `saturate` fails, there is no such order. -/

namespace Nidhugg.SaturatedGraph

open Relation ReadsFrom

/-- The identifier `x` comes before `y` in the order. -/
def Before (o : List IID) (x y : IID) : Prop := o.idxOf x < o.idxOf y

instance (o : List IID) (x y : IID) : Decidable (Before o x y) :=
  inferInstanceAs (Decidable (_ < _))

/-- `w` is a store to the address of `r`. -/
def StoresTo (w r : EventSpec) : Prop := w.kind.isStore = true ∧ w.addr = r.addr

instance (w r : EventSpec) : Decidable (StoresTo w r) := inferInstanceAs (Decidable (_ ∧ _))

/-- In the order `o` the load `r` reads exactly the source it was given: the last earlier
store to its address, or the initial value when no store precedes it. -/
def ReadsExactly (specs : List EventSpec) (o : List IID) (r : EventSpec) : Prop :=
  match r.readFrom with
  | some x => (∃ w ∈ specs, w.extId = x ∧ StoresTo w r ∧ Before o x r.extId) ∧
      ∀ w ∈ specs, StoresTo w r → Before o w.extId r.extId →
        w.extId = x ∨ Before o w.extId x
  | none => ∀ w ∈ specs, StoresTo w r → ¬ Before o w.extId r.extId

/-- A total order of the events that extends program order and the explicit edges and in
which every load reads its source. -/
structure Witness (specs : List EventSpec) (o : List IID) : Prop where
  perm : o.Perm (specs.map EventSpec.extId)
  programOrder : specs.Pairwise fun s t => s.pid = t.pid → Before o s.extId t.extId
  happensAfter : ∀ s ∈ specs, ∀ x ∈ s.happensAfter, Before o x s.extId
  reads : ∀ r ∈ specs, r.kind.isLoad = true → ReadsExactly specs o r

/-- Every event is added after its source and its explicit predecessors. -/
def PlacedFrom : List EventSpec → List EventSpec → Prop
  | _, [] => True
  | prior, s :: specs => s.Placed prior ∧ PlacedFrom (prior ++ [s]) specs

def PlacedInOrder (specs : List EventSpec) : Prop := PlacedFrom [] specs

instance decidablePlacedFrom : (prior specs : List EventSpec) →
    Decidable (PlacedFrom prior specs)
  | _, [] => inferInstanceAs (Decidable True)
  | prior, s :: specs =>
      have := decidablePlacedFrom (prior ++ [s]) specs
      inferInstanceAs (Decidable (_ ∧ _))

instance (specs : List EventSpec) : Decidable (PlacedInOrder specs) :=
  inferInstanceAs (Decidable (PlacedFrom [] specs))

/-- The calls that add the events one after another. -/
def addCalls (specs : List EventSpec) : List Call := specs.map Call.addEvent

theorem flatMap_specs_addCalls (specs : List EventSpec) :
    (addCalls specs).flatMap Call.specs = specs := by
  induction specs with
  | nil => rfl
  | cons s specs ih =>
      simp only [addCalls, List.map_cons, List.flatMap_cons] at ih ⊢
      rw [ih]
      rfl

theorem givenBy_addCalls {specs : List EventSpec} {x y : IID} :
    givenBy (addCalls specs) x y ↔ ∃ s ∈ specs, y = s.extId ∧ x ∈ s.happensAfter := by
  simp [givenBy, addCalls, Call.gives]

/-! ## From witnesses to justifying orders -/

theorem PlacedFrom.nodup {specs : List EventSpec} : ∀ {prior : List EventSpec},
    PlacedFrom prior specs → (prior.map EventSpec.extId).Nodup →
      ((prior ++ specs).map EventSpec.extId).Nodup := by
  induction specs with
  | nil => exact fun _ h => by simpa using h
  | cons s specs ih =>
      intro prior hp hnodup
      have hcons : ((prior ++ [s]).map EventSpec.extId).Nodup := by
        rw [List.map_append, List.nodup_append]
        refine ⟨hnodup, by simp, fun a ha b hb hab => hp.1.fresh ?_⟩
        have hbs : b = s.extId := by simpa using hb
        rw [← hbs, ← hab]
        exact ha
      simpa using ih hp.2 hcons

theorem eq_of_extId_eq {specs : List EventSpec} (h : (specs.map EventSpec.extId).Nodup)
    {s t : EventSpec} (hs : s ∈ specs) (ht : t ∈ specs) (heq : s.extId = t.extId) : s = t :=
  List.inj_on_of_nodup_map h hs ht heq

/-- When a witness exists, every source is a store to the address of its reader. -/
theorem PlacedFrom.valid {specs all : List EventSpec} {o : List IID} (hw : Witness all o)
    (hnodup : (all.map EventSpec.extId).Nodup) : ∀ {prior : List EventSpec},
      prior ++ specs = all → PlacedFrom prior specs → ValidFrom prior (addCalls specs) := by
  induction specs with
  | nil => exact fun _ _ => trivial
  | cons s specs ih =>
      intro prior hall hp
      refine ⟨⟨hp.1, ?_⟩, ih (by simpa [Call.specs] using hall) hp.2⟩
      intro r hr
      have hs : s ∈ all := by simp [← hall]
      have hreads := hw.reads s hs (hp.1.source r hr).1
      unfold ReadsExactly at hreads
      rw [Option.mem_def.mp hr] at hreads
      obtain ⟨⟨w, hwa, hwx, hst, -⟩, -⟩ := hreads
      obtain ⟨v, hv, hvx⟩ := List.mem_map.mp (hp.1.source r hr).2
      obtain rfl : w = v := eq_of_extId_eq hnodup hwa (by simp [← hall, hv]) (hwx.trans hvx.symm)
      exact ⟨w, hv, hwx, hst.1, hst.2⟩

/-- A witness numbers the events of the graph in a justifying order. -/
theorem Witness.justifies {specs : List EventSpec} {o : List IID} {g : SaturatedGraph}
    (hw : Witness specs o) (hg : Built specs (givenBy (addCalls specs)) g) :
    Justifies (choice g (givenBy (addCalls specs))) fun i => o.idxOf (g.events i).extId := by
  have hl := hg.invariant.layout
  have hrep := hg.represents
  have hmem : ∀ {i}, i < g.size → (g.events i).extId ∈ o := by
    intro i hi
    obtain ⟨s, hs, -, hrec⟩ := hrep.exists_spec hi
    rw [hw.perm.mem_iff, hrec.extId]
    exact List.mem_map_of_mem hs
  have hextInj : ∀ {i j}, i < g.size → j < g.size → (g.events i).extId = (g.events j).extId →
      i = j := by
    intro i j hi hj heq
    have h₁ := (hl.extid_iff _ i).mpr ⟨hi, heq⟩
    have h₂ := (hl.extid_iff _ j).mpr ⟨hj, rfl⟩
    exact Option.some.inj (h₁.symm.trans h₂)
  -- what the witness says about a load of the graph
  have hload : ∀ {r source}, (choice g (givenBy (addCalls specs))).reads r source →
      ∃ s ∈ specs, Records g s r ∧ r < g.size ∧ ReadsExactly specs o s := by
    rintro r source ⟨hr, hlr, -⟩
    obtain ⟨s, hs, -, hrec⟩ := hrep.exists_spec hr
    exact ⟨s, hs, hrec, hr, hw.reads s hs (hrec.isLoad.symm.trans hlr)⟩
  have hstore : ∀ {r s w}, Records g s r →
      (choice g (givenBy (addCalls specs))).storeTo (g.events r).addr w →
      ∃ v ∈ specs, Records g v w ∧ StoresTo v s := by
    rintro r s w hrec ⟨hws, hst, haddr⟩
    obtain ⟨v, hv, -, hrecv⟩ := hrep.exists_spec hws
    refine ⟨v, hv, hrecv, hrecv.isStore.symm.trans hst, ?_⟩
    exact hrecv.addr.symm.trans (haddr.trans hrec.addr)
  constructor
  case injective =>
    intro a b ha hb heq
    exact hextInj ha hb ((List.idxOf_inj (hmem ha)).mp heq)
  case order =>
    rintro a b ⟨ha, hb, hpo | hgiven⟩
    · obtain ⟨-, hpid, hidx⟩ := (hl.po_iff b hb a).mp hpo
      have hlt : a < b := (hl.lt_iff_index_lt ha hb hpid).mpr (by omega)
      obtain ⟨s, -, hsa, hrecs⟩ := hrep.exists_spec ha
      obtain ⟨t, -, htb, hrect⟩ := hrep.exists_spec hb
      obtain ⟨hla, hgs⟩ := List.getElem?_eq_some_iff.mp hsa
      obtain ⟨hlb, hgt⟩ := List.getElem?_eq_some_iff.mp htb
      have := List.pairwise_iff_getElem.mp hw.programOrder a b hla hlb hlt
      rw [hgs, hgt, ← hrecs.pid, ← hrect.pid, ← hrecs.extId, ← hrect.extId] at this
      exact this hpid
    · obtain ⟨s, hs, hext, hx⟩ := givenBy_addCalls.mp hgiven
      have := hw.happensAfter s hs _ hx
      rw [← hext] at this
      exact this
  case source =>
    intro r w hr
    obtain ⟨s, hs, hrec, hrs, hexact⟩ := hload hr
    obtain ⟨hwr, -, hst, haddr⟩ := hl.readFrom_spec r hrs w hr.2.2
    have hws := hwr.trans hrs
    have hsrc : s.readFrom = some (g.events w).extId := by
      rw [← hrec.source, show (g.events r).readFrom = some w from hr.2.2]
      rfl
    unfold ReadsExactly at hexact
    rw [hsrc] at hexact
    obtain ⟨⟨-, -, -, -, hbefore⟩, -⟩ := hexact
    rw [← hrec.extId] at hbefore
    exact ⟨⟨hws, hst, haddr⟩, hbefore⟩
  case last =>
    intro r w w' hr hw' hlt
    obtain ⟨s, hs, hrec, hrs, hexact⟩ := hload hr
    have hws := (hl.readFrom_spec r hrs w hr.2.2).1.trans hrs
    have hsrc : s.readFrom = some (g.events w).extId := by
      rw [← hrec.source, show (g.events r).readFrom = some w from hr.2.2]
      rfl
    unfold ReadsExactly at hexact
    rw [hsrc] at hexact
    obtain ⟨v, hv, hrecv, hsto⟩ := hstore hrec hw'
    have := hexact.2 v hv hsto (by rw [← hrecv.extId, ← hrec.extId]; exact hlt)
    rw [← hrecv.extId] at this
    exact this.imp_left (hextInj hw'.1 hws)
  case init =>
    intro r w' hr hw' hlt
    obtain ⟨s, hs, hrec, hrs, hexact⟩ := hload hr
    have hsrc : s.readFrom = none := by
      rw [← hrec.source, show (g.events r).readFrom = none from hr.2.2]
      rfl
    unfold ReadsExactly at hexact
    rw [hsrc] at hexact
    obtain ⟨v, hv, hrecv, hsto⟩ := hstore hrec hw'
    exact hexact v hv hsto (by rw [← hrecv.extId, ← hrec.extId]; exact hlt)

/-- If `saturate` fails on the graph of a reads-from choice, no total order of the events
justifies the choice. -/
theorem saturate_sound {specs : List EventSpec} (hp : PlacedInOrder specs)
    {g g' : SaturatedGraph} (hrun : run (addCalls specs) = some g)
    (hsat : g.saturate = .ok (false, g')) : ¬ ∃ o, Witness specs o := by
  rintro ⟨o, hw⟩
  have hnodup : (specs.map EventSpec.extId).Nodup := by
    simpa using (show PlacedFrom [] specs from hp).nodup (by simp)
  have hvalid : ValidCalls (addCalls specs) := hp.valid hw hnodup rfl
  have hg := run_built hvalid hrun
  rw [flatMap_specs_addCalls] at hg
  obtain ⟨e, hcyc⟩ := hg.invariant.saturate_false hsat
  exact not_justifies_of_forced_self hcyc _ (hw.justifies hg)

/-- A process that stores to an address and then reads its initial value. -/
def overwrittenRead : List EventSpec :=
  [⟨0, ⟨0, 1⟩, .store, ⟨.global 0, 0⟩, none, []⟩, ⟨0, ⟨0, 2⟩, .load, ⟨.global 0, 0⟩, none, []⟩]

theorem saturate_sound_overwrittenRead :
    ∃ g g', run (addCalls overwrittenRead) = some g ∧ g.saturate = .ok (false, g') ∧
      ¬ ∃ o, Witness overwrittenRead o :=
  ⟨_, _, rfl, rfl, saturate_sound (by decide) rfl rfl⟩

end Nidhugg.SaturatedGraph

/-! # Incremental saturation

The same events are added in batches with a successful `saturate` after each, or all at
once. The final `saturate` gives the same verdict and the same clocks exactly when the
reverse walk of its first phase meets no cycle. -/

namespace Nidhugg.SaturatedGraph

open Relation ReadsFrom

/-! ## Graphs with the same tables -/

theorem newEvent_of_same {g h : SaturatedGraph} (hs : SameLayout g h) (s : EventSpec)
    (readFrom : Option ℕ) : h.newEvent s readFrom = g.newEvent s readFrom := by
  simp only [newEvent, hs.eventsByPid, hs.events]

theorem withEvent_sameLayout {g h : SaturatedGraph} (hs : SameLayout g h) (s : EventSpec)
    (readFrom : Option ℕ) :
    SameLayout (g.withEvent s readFrom) (h.withEvent s readFrom) := by
  have hfirst : h.isFirstWrite s = g.isFirstWrite s := by
    simp only [isFirstWrite, hs.writesByAddress]
  have hnew := newEvent_of_same hs s readFrom
  refine ⟨?_, ?_, ?_, ?_, ?_, ?_, ?_, ?_⟩
  · exact congrArg (· + 1) hs.size
  · simp only [withEvent, withWrite, withReader, addProgramOrder, hs.extidToId, hs.size]
  · simp only [withEvent, withWrite, withReader, addProgramOrder, hs.events, hs.size, hnew]
  · have hg : ∀ k : SaturatedGraph, (k.withEvent s readFrom).writesByAddress =
        if k.isFirstWrite s then
          Function.update k.writesByAddress s.addr (k.writesByAddress s.addr ++ [(s.pid, k.size)])
        else k.writesByAddress := fun _ => rfl
    rw [hg, hg, hfirst, hs.writesByAddress, hs.size]
  · simp only [withEvent, withWrite, withReader, addProgramOrder, hs.readsFromInit, hs.size]
  · simp only [withEvent, withWrite, withReader, addProgramOrder, hs.numPids]
  · simp only [withEvent, withWrite, withReader, addProgramOrder, hs.eventsByPid, hs.size]
  · simp only [withEvent, withWrite, withReader, addProgramOrder, hs.size,
      hs.writesByProcessAndAddress]

/-- The calls without their `saturate` calls. -/
def stripSaturate (calls : List Call) : List Call := calls.filter (· ≠ .saturate)

/-- Two graphs that a call has treated alike: the second has never been saturated. -/
structure Twins (specs : List EventSpec) (given : IID → IID → Prop) (g h : SaturatedGraph) :
    Prop where
  left : Built specs given g
  right : Built specs given h
  layout : SameLayout g h
  unsaturated : h.saturatedUntil = 0

theorem Built.addEvent {specs : List EventSpec} {given : IID → IID → Prop}
    {g : SaturatedGraph} {s : EventSpec} (h : Built specs given g)
    (hv : (Call.addEvent s).Valid specs) : ∃ g', g.addEvent s = some g' ∧
      SameLayout (g.withEvent s (s.readFrom.bind g.extidToId)) g' ∧
      g'.saturatedUntil = g.saturatedUntil := by
  have hcall := h.represents.validCall h.invariant.layout hv.1 hv.2
  obtain ⟨origIn, hadd, -⟩ := hcall.addEvent h.invariant.layout
  have hx := addResolved_extends h.invariant.queueOk s (s.readFrom.bind g.extidToId) origIn
  exact ⟨_, hadd, hx.layout, hx.saturatedUntil⟩

theorem Twins.perform {specs : List EventSpec} {given : IID → IID → Prop}
    {g g' h : SaturatedGraph} {c : Call} (ht : Twins specs given g h) (hv : c.Valid specs)
    (hrun : g.perform c = some g') :
    ∃ h', (stripSaturate [c]).foldlM SaturatedGraph.perform h = some h' ∧
      Twins (specs ++ c.specs) (fun x y => given x y ∨ c.gives x y) g' h' := by
  have hleft := ht.left.perform hv hrun
  cases c with
  | addEvent s =>
      obtain ⟨g₁, hg₁, hlay, -⟩ := ht.left.addEvent hv
      obtain ⟨h₁, hh₁, hlay', hsat⟩ := ht.right.addEvent hv
      obtain rfl : g₁ = g' := Option.some.inj (hg₁.symm.trans hrun)
      refine ⟨h₁, by simp [stripSaturate, SaturatedGraph.perform, hh₁], hleft,
        ht.right.perform hv hh₁, ?_, hsat.trans ht.unsaturated⟩
      rw [ht.layout.extidToId] at hlay'
      exact hlay.symm.trans ((withEvent_sameLayout ht.layout s _).trans hlay')
  | addEdge x y =>
      have hlay := (ht.left.invariant.addEdge hrun).2.1
      obtain ⟨h₁, hh₁⟩ : ∃ h₁, h.addEdge x y = some h₁ := by
        simp only [SaturatedGraph.perform, SaturatedGraph.addEdge, Option.bind_eq_bind,
          Option.bind_eq_some_iff] at hrun
        obtain ⟨f, hf, t, htt, -⟩ := hrun
        exact ⟨h.addEdgeInternal f t, by simp [SaturatedGraph.addEdge, ht.layout.extidToId, hf, htt]⟩
      obtain ⟨-, hlay', hsat⟩ := ht.right.invariant.addEdge hh₁
      exact ⟨h₁, by simp [stripSaturate, SaturatedGraph.perform, hh₁], hleft,
        ht.right.perform hv hh₁, hlay.symm.trans (ht.layout.trans hlay'),
        hsat.trans ht.unsaturated⟩
  | saturate =>
      refine ⟨h, by simp [stripSaturate], hleft, ?_, ?_, ht.unsaturated⟩
      · refine ⟨ht.right.invariant.congr (by simp [Call.gives]), ?_⟩
        simpa [Call.specs] using ht.right.represents
      · have hsat : g.saturate = .ok (true, g') := by
          simp only [SaturatedGraph.perform] at hrun
          split at hrun
          · rename_i g₁ heq
            rw [heq, Option.some.inj hrun]
          · exact absurd hrun (by simp)
        exact (ht.left.invariant.saturate_true hsat).2.symm.trans ht.layout

/-- A run and the run without its `saturate` calls build graphs with the same tables. -/
theorem Twins.run {calls : List Call} : ∀ {specs : List EventSpec}
    {given : IID → IID → Prop} {g g' h : SaturatedGraph}, Twins specs given g h →
      ValidFrom specs calls → calls.foldlM SaturatedGraph.perform g = some g' →
      ∃ h' specs' given', (stripSaturate calls).foldlM SaturatedGraph.perform h = some h' ∧
        Twins specs' given' g' h' := by
  induction calls with
  | nil =>
      intro specs given g g' h ht _ hrun
      obtain rfl : g = g' := by simpa using hrun
      exact ⟨h, specs, given, rfl, ht⟩
  | cons c calls ih =>
      intro specs given g g' h ht hv hrun
      rw [List.foldlM_cons] at hrun
      obtain ⟨g₁, hc, hrest⟩ := Option.bind_eq_some_iff.mp hrun
      obtain ⟨h₁, hstep, ht₁⟩ := ht.perform hv.1 hc
      obtain ⟨h', specs', given', hrun', ht'⟩ := ih ht₁ hv.2 hrest
      refine ⟨h', specs', given', ?_, ht'⟩
      have hsplit : stripSaturate (c :: calls) = stripSaturate [c] ++ stripSaturate calls := by
        rw [stripSaturate, ← List.singleton_append, List.filter_append]
        rfl
      rw [hsplit, List.foldlM_append, hstep]
      exact hrun'

/-! ## Verdicts -/

/-- Both graphs get a verdict, the verdicts agree, and a positive one leaves the same
clocks on every event. -/
def SameResult (g h : SaturatedGraph) : Prop :=
  ∃ v g' h', g.saturate = .ok (v, g') ∧ h.saturate = .ok (v, h') ∧
    (v = true → ∀ id < g.size, ∀ p, (g'.vclocks id).get p = (h'.vclocks id).get p)

theorem not_tangled_of_unsaturated {h : SaturatedGraph} (hsat : h.saturatedUntil = 0) :
    ¬ Tangled h := by
  rintro ⟨w, r, x, y, hw, -⟩
  omega

/-- The verdicts of twins differ only through a broken assertion. -/
theorem Twins.sameResult_iff {specs : List EventSpec} {given : IID → IID → Prop}
    {g h : SaturatedGraph} (ht : Twins specs given g h) : SameResult g h ↔ ¬ Tangled g := by
  have hch : choice h given = choice g given := choice_of_same ht.layout given
  constructor
  · rintro ⟨v, g', h', hg, -, -⟩ htangled
    rcases ht.left.invariant.saturate with ⟨-, herr⟩ | ⟨hno, -⟩ | ⟨hno, -⟩
    · rw [herr] at hg
      exact absurd hg (by simp)
    · exact hno htangled
    · exact hno htangled
  · intro hnot
    rcases ht.left.invariant.saturate with ⟨htangled, -⟩ | ⟨-, g', hg, e, hcyc⟩ |
      ⟨-, g', hg, hsat, hlay⟩
    · exact absurd htangled hnot
    · rcases ht.right.invariant.saturate with ⟨htangled, -⟩ | ⟨-, h', hh, -⟩ |
        ⟨-, h', hh, hsat', hlay'⟩
      · exact absurd htangled (not_tangled_of_unsaturated ht.unsaturated)
      · exact ⟨false, g', h', hg, hh, by simp⟩
      · rw [← hch, ← choice_of_same hlay'] at hcyc
        exact absurd hcyc (hsat'.not_forced_self e)
    · rcases ht.right.invariant.saturate with ⟨htangled, -⟩ | ⟨-, h', hh, e, hcyc⟩ |
        ⟨-, h', hh, hsat', hlay'⟩
      · exact absurd htangled (not_tangled_of_unsaturated ht.unsaturated)
      · rw [hch, ← choice_of_same hlay] at hcyc
        exact absurd hcyc (hsat.not_forced_self e)
      · refine ⟨true, g', h', hg, hh, fun _ id hid p => ?_⟩
        have hsame := hlay.symm.trans (ht.layout.trans hlay')
        exact hsat.clock_unique hsat' hsame (by rw [hlay.size]; exact hid) p

/-! ## Batches -/

/-- The calls that add the batches with a `saturate` after each, and then the last batch. -/
def batchCalls (batches : List (List EventSpec)) (last : List EventSpec) : List Call :=
  batches.flatMap (fun batch => addCalls batch ++ [Call.saturate]) ++ addCalls last

theorem stripSaturate_addCalls (specs : List EventSpec) :
    stripSaturate (addCalls specs) = addCalls specs := by
  simp [stripSaturate, addCalls]

theorem stripSaturate_batchCalls (batches : List (List EventSpec)) (last : List EventSpec) :
    stripSaturate (batchCalls batches last) = addCalls (batches.flatten ++ last) := by
  induction batches with
  | nil => simpa [batchCalls] using stripSaturate_addCalls last
  | cons batch batches ih =>
      have happ : ∀ xs ys, stripSaturate (xs ++ ys) = stripSaturate xs ++ stripSaturate ys :=
        fun xs ys => List.filter_append xs ys
      have hsplit : batchCalls (batch :: batches) last =
          addCalls batch ++ ([Call.saturate] ++ batchCalls batches last) := by
        simp [batchCalls]
      rw [hsplit, happ, happ, ih, stripSaturate_addCalls]
      simp [stripSaturate, addCalls]

theorem ValidFrom.of_strip {calls : List Call} : ∀ {prior : List EventSpec},
    ValidFrom prior (stripSaturate calls) → ValidFrom prior calls := by
  induction calls with
  | nil => exact id
  | cons c calls ih =>
      intro prior h
      by_cases hc : c = .saturate
      · subst hc
        have hstrip : stripSaturate (Call.saturate :: calls) = stripSaturate calls := by
          simp [stripSaturate]
        rw [hstrip] at h
        exact ⟨trivial, ih (by simpa [Call.specs] using h)⟩
      · have hstrip : stripSaturate (c :: calls) = c :: stripSaturate calls := by
          simp [stripSaturate, hc]
        rw [hstrip] at h
        exact ⟨h.1, ih h.2⟩

/-- Saturating in batches gives the same final result as saturating once, exactly when no
two events below an old write that the last batch reads reach each other. -/
theorem incremental_sameResult_iff {batches : List (List EventSpec)} {last : List EventSpec}
    (hv : ValidCalls (addCalls (batches.flatten ++ last))) {g : SaturatedGraph}
    (hrun : run (batchCalls batches last) = some g) :
    ∃ h, run (addCalls (batches.flatten ++ last)) = some h ∧
      (SameResult g h ↔ ¬ Tangled g) := by
  rw [← stripSaturate_batchCalls] at hv ⊢
  have hstart : Twins [] (fun _ _ => False) empty empty :=
    ⟨⟨invariant_empty, represents_empty⟩, ⟨invariant_empty, represents_empty⟩, .refl _, rfl⟩
  obtain ⟨h, specs, given, hh, ht⟩ := hstart.run hv.of_strip hrun
  exact ⟨h, hh, ht.sameResult_iff⟩

/-- A store, a read of the initial value behind it, and a read of the store. -/
def storeThenReads : List EventSpec × List EventSpec :=
  ([⟨0, ⟨0, 1⟩, .store, ⟨.global 0, 0⟩, none, []⟩],
    [⟨0, ⟨0, 2⟩, .load, ⟨.global 0, 0⟩, none, []⟩,
      ⟨1, ⟨1, 1⟩, .load, ⟨.global 0, 0⟩, some ⟨0, 1⟩, []⟩])

theorem incremental_storeThenReads_faults :
    ∃ g h, ValidCalls (addCalls ([storeThenReads.1].flatten ++ storeThenReads.2)) ∧
      run (batchCalls [storeThenReads.1] storeThenReads.2) = some g ∧
      run (addCalls ([storeThenReads.1].flatten ++ storeThenReads.2)) = some h ∧
      g.saturate = .error .zeroIndex ∧ (∃ h', h.saturate = .ok (false, h')) ∧
      ¬ SameResult g h := by
  refine ⟨_, _, by decide, rfl, rfl, rfl, ⟨_, rfl⟩, ?_⟩
  rintro ⟨v, g', h', hg, -⟩
  cases hg

/-- A store in the first batch and a read of it in the second. -/
theorem incremental_storeThenRead :
    ∃ g h, run (batchCalls [storeThenReads.1] [storeThenReads.2[1]]) = some g ∧
      run (addCalls ([storeThenReads.1].flatten ++ [storeThenReads.2[1]])) = some h ∧
      (SameResult g h ↔ ¬ Tangled g) := by
  obtain ⟨h, hh, hiff⟩ := incremental_sameResult_iff
    (by decide : ValidCalls (addCalls ([storeThenReads.1].flatten ++ [storeThenReads.2[1]]))) rfl
  exact ⟨_, h, rfl, hh, hiff⟩

end Nidhugg.SaturatedGraph
