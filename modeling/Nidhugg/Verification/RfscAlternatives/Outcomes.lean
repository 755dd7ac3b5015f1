import Nidhugg.Verification.RfscAlternatives.Loop
import Nidhugg.Verification.SymEv.Outcome

/-! # Outcomes after a change of sources

The kinds that compare-exchanges are given when two adjacent read-modify-writes are swapped or an
event is given another source. They are decided on the bytes that the source has recorded. -/

namespace Nidhugg.RfscPlan

open RfscTraceBuilder SwapRemove

/-- A change of sources that is attempted for event `i`, whose address is that of the lists. -/
inductive Change where
  | swap (i j : ℕ)
  | redirect (i : ℕ) (source : Option ℕ)

def Change.events : Change → List ℕ
  | .swap i j => [j, i]
  | .redirect i _ => [i]

/-- The plan that the solver is asked about. -/
def change (a : SymAddr) (original : Option ℕ) (p : RfscPlan) : Change → Option RfscPlan
  | .swap i j => do
      let (_, p) ← ((p.setReadFrom j original).setReadFrom i (some j)).recomputeCmpxhgSuccess j a
      let (_, p) ← p.recomputeCmpxhgSuccess i a
      return p
  | .redirect i source => do
      let (_, p) ← (p.setReadFrom i source).recomputeCmpxhgSuccess i a
      return p

/-- The source of an event. -/
def readAt (p : RfscPlan) (i : ℕ) : Option (Option (Option ℕ)) :=
  p.builder.events[i]?.map (·.readFrom)

/-! ## Attempts -/

section

variable {o : RfscOracle} {decision : DecisionNode} {a : SymAddr} {original : Option ℕ}
  {p q : RfscPlan}

def attempt (o : RfscOracle) (decision : DecisionNode) (a : SymAddr) (original : Option ℕ)
    (p : RfscPlan) : Change → Option RfscPlan
  | .swap i j => p.tryReadFromRmw o decision a i original j
  | .redirect i source => p.tryReadFromPlain o decision a i original source

/-- What `try_read_from` checks before the attempt. -/
def Checked (original : Option ℕ) (p : RfscPlan) : Change → Prop
  | .swap i j =>
      i < j ∧ ∃ e, p.builder.events[j]? = some e ∧
        p.builder.isStoreWhenReadingFrom e original = some true
  | .redirect .. => True

/-- The attempt is not given up. -/
def GoesOn (o : RfscOracle) (original : Option ℕ) (p : RfscPlan) : Change → Prop
  | .swap i j =>
      p.readAt j = some (some (some i)) ∧ o.tryAllocUnf (.readFromRmw i j) = true ∧
        p.builder.canSwapByVclocks i j = some true
  | .redirect i source =>
      o.tryAllocUnf (.readFrom i source) = true ∧
        p.builder.canRfByVclocks i original source = some true

/-- If the attempt goes on, the solver is asked about the plan. -/
def AsksAbout (a : SymAddr) (original : Option ℕ) (p : RfscPlan) (c : Change) (q : RfscPlan) :
    Prop :=
  ∀ o decision, p.GoesOn o original c →
    ∃ r, p.attempt o decision a original c = some r ∧
      r.siblings = (q.constructSibling o decision c.events).siblings

theorem tryReadFromStore_cases {i j : ℕ} (hij : i < j)
    (h : p.tryReadFromStore o decision a i original j = some q) :
    q = p ∨ p.Checked original (.swap i j) ∧
      p.attempt o decision a original (.swap i j) = some q := by
  simp only [tryReadFromStore, Option.bind_eq_bind, Option.bind_eq_some_iff] at h
  obtain ⟨e, he, store, hstore, h⟩ := h
  split at h
  · rename_i hstores
    subst hstores
    exact .inr ⟨⟨hij, e, he, hstore⟩, h⟩
  · cases h
    exact .inl rfl

/-- The loop attempts nothing but changes, each of them on a plan whose lists of stores are those of
the events. -/
theorem tryReadFrom_cases {i : ℕ} {source : Option ℕ} (hp : Consistent p)
    (h : p.tryReadFrom o decision a i original source = some q) :
    Consistent q ∧
      (q = p ∨ ∃ c, p.Checked original c ∧ p.attempt o decision a original c = some q) := by
  refine ⟨(tryReadFrom_returns h).consistent hp, ?_⟩
  rw [tryReadFrom.eq_def] at h
  split at h
  · cases h
    exact .inl rfl
  · cases source with
    | none => exact .inr ⟨.redirect i none, trivial, h⟩
    | some j =>
        simp only at h
        split at h
        · rename_i hpair
          simp only [Bool.and_eq_true, decide_eq_true_eq] at hpair
          rcases tryReadFromStore_cases hpair.1.1 h with hq | hq
          · exact .inl hq
          · exact .inr ⟨_, hq⟩
        · exact .inr ⟨.redirect i (some j), trivial, h⟩

/-- What an attempt does to the plan before it asks the solver is the change. -/
theorem asksAbout_change {c : Change} (h : p.change a original c = some q) :
    p.AsksAbout a original c q := by
  intro o decision hgoes
  cases c with
  | redirect i source =>
      obtain ⟨halloc, hclocks⟩ := hgoes
      simp only [change, Option.bind_eq_bind, Option.bind_eq_some_iff] at h
      obtain ⟨⟨log, r⟩, hrecompute, h⟩ := h
      cases h
      have hcore : (r.constructSibling o decision [i]).core = (r.mapSources fun _ => id).core := by
        rw [core_constructSibling, mapSources_id]
      have hundo := undo_recompute hrecompute hcore
      refine ⟨{ p.setReadFrom i source with
        siblings := (r.constructSibling o decision [i]).siblings,
        history := (r.constructSibling o decision [i]).history }, ?_, rfl⟩
      simp only [attempt, tryReadFromPlain, halloc, hclocks, hrecompute, hundo, mapSources_id,
        Option.bind_eq_bind, Option.bind_some, if_true]
  | swap i j =>
      obtain ⟨hread, halloc, hclocks⟩ := hgoes
      obtain ⟨e, he, hread⟩ := Option.map_eq_some_iff.mp hread
      simp only [change, Option.bind_eq_bind, Option.bind_eq_some_iff] at h
      obtain ⟨⟨undoj, p₁⟩, hj, ⟨undoi, p₂⟩, hi, h⟩ := h
      cases h
      obtain ⟨f, hf⟩ : ∃ f, ∀ p : RfscPlan, p.setReadFrom j (some i) = p.mapSources f :=
        ⟨_, fun p => setReadFrom_eq_mapSources p j (some i)⟩
      have hcore : ((p₂.constructSibling o decision [j, i]).setReadFrom j (some i)).core =
          (p₂.mapSources f).core := by
        rw [core_setReadFrom, core_constructSibling, ← hf, core_setReadFrom]
      have hundoi := undo_recompute hi hcore
      have hundoj := undo_recompute hj (core_of_undo hi hcore hundoi)
      obtain ⟨r, hr, hsiblings⟩ : ∃ r, p.attempt o decision a original (.swap i j) = some r ∧
          r.siblings =
            ((p₂.constructSibling o decision [j, i]).setReadFrom j (some i)).siblings := by
        simp only [attempt, tryReadFromRmw, he, hread, halloc, hclocks, hj, hi, hundoi, hundoj,
          Option.bind_eq_bind, Option.bind_some, and_self, if_true]
        exact ⟨_, rfl, rfl⟩
      exact ⟨r, hr, hsiblings⟩

end

/-! ## What really happens -/

/-- The operation of an event. -/
def symAt (p : RfscPlan) (i : ℕ) : Option SymEv := p.builder.events[i]?.map (·.sym)

/-- The content of a location after a source. -/
def sourceContent (p : RfscPlan) (initial : List Byte) : Option ℕ → List Byte
  | none => initial
  | some w => ((p.symAt w).bind SymEv.data?).getD initial

/-- The content of its location that an event leaves. -/
def leaves (bigEndian : Bool) (content : List Byte) : SymEv → List Byte
  | .rmw _ _ kind (some operand) _ => RmwAction.result bigEndian kind content operand.val
  | .load _ | .cmpXhgFail .. => content
  | sym => sym.data?.getD content

/-- The solver is asked about a plan in which the changed events have the outcomes that they have
when they are executed. The second event of a swapped pair is executed on what the first one
leaves. -/
def RightOutcomes (bigEndian : Bool) (initial : List Byte) (a : SymAddr) (original : Option ℕ)
    (p : RfscPlan) (c : Change) : Prop :=
  ∃ q, p.change a original c = some q ∧ p.AsksAbout a original c q ∧
    match c with
    | .swap i j =>
        ∃ e d, p.symAt j = some e ∧ p.symAt i = some d ∧
          q.symAt j = some (e.outcome fun _ => p.sourceContent initial original) ∧
          q.symAt i = some (d.outcome fun _ => leaves bigEndian
            (p.sourceContent initial original)
            (e.outcome fun _ => p.sourceContent initial original))
    | .redirect i source =>
        ∃ d, p.symAt i = some d ∧
          q.symAt i = some (d.outcome fun _ => p.sourceContent initial source)

/-! ## When the recorded bytes are right -/

/-- Memory is zero initially, if the initial content is read. -/
def KnownSource (initial : List Byte) (addr : SymAddrSize) : Option ℕ → Prop
  | none => initial = List.replicate addr.size 0
  | some _ => True

/-- A read-modify-write that has recorded another result than it has on a content. -/
def Stale (bigEndian : Bool) (content : List Byte) : SymEv → Prop
  | .rmw _ written kind (some operand) _ =>
      written.map Subtype.val ≠ some (RmwAction.result bigEndian kind content operand.val)
  | _ => False

def IsCompareExchange (p : RfscPlan) (i : ℕ) : Prop :=
  ((p.symAt i).bind succeeded?).isSome = true

/-- No compare-exchange is compared with zeros for the initial content if that is not zero, or with
what a stale read-modify-write has recorded. -/
def Settled (bigEndian : Bool) (initial : List Byte) (addr : SymAddrSize) (original : Option ℕ)
    (p : RfscPlan) : Change → Prop
  | .swap i j =>
      (p.IsCompareExchange j → KnownSource initial addr original) ∧
        (p.IsCompareExchange i →
          ∀ e ∈ p.symAt j, ¬Stale bigEndian (p.sourceContent initial original) e)
  | .redirect i source => p.IsCompareExchange i → KnownSource initial addr source

/-! ## Events of a change -/

/-- The bytes that the code compares with. -/
def recordedContent (p : RfscPlan) (addr : SymAddrSize) (source : Option ℕ) : List Byte :=
  p.sourceContent (List.replicate addr.size 0) source

/-- A load or a read-modify-write of a location. -/
def IsLoadOf (addr : SymAddrSize) : SymEv → Prop
  | .load addr' => addr' = addr
  | .rmw addr' _ _ operand _ => addr' = addr ∧ operand.isSome
  | .cmpXhg addr' _ expected | .cmpXhgFail addr' _ expected => addr' = addr ∧ expected.isSome
  | _ => False

def Loads (p : RfscPlan) (addr : SymAddrSize) (i : ℕ) : Prop :=
  ∃ e, p.symAt i = some e ∧ IsLoadOf addr e

/-- The initial content or an event with data for a location. -/
def IsSource (p : RfscPlan) (addr : SymAddrSize) : Option ℕ → Prop
  | none => True
  | some w => ∃ bytes, (p.symAt w).bind SymEv.data? = some bytes ∧ bytes.length = addr.size

/-- The changed events access the location, and the attempt for the change is made. -/
def Attemptable (p : RfscPlan) (addr : SymAddrSize) (original : Option ℕ) : Change → Prop
  | .swap i j =>
      p.Checked original (.swap i j) ∧ p.Loads addr i ∧ p.Loads addr j ∧
        p.IsSource addr original ∧ p.IsSource addr (some j)
  | .redirect i source => p.Loads addr i ∧ p.IsSource addr source

/-- An event that can be given another source. A compare-exchange that has succeeded is in the list
of the stores. -/
structure Changeable (p : RfscPlan) (addr : SymAddrSize) (i : ℕ) : Prop where
  load : p.Loads addr i
  listed : (p.symAt i).bind succeeded? = some true → i ∈ p.writesByAddress addr.addr

/-- The lists of stores are those of the events. -/
theorem Loads.changeable {p : RfscPlan} {addr : SymAddrSize} {i : ℕ} (h : p.Loads addr i)
    (hp : Consistent p) : p.Changeable addr i := by
  refine ⟨h, fun hsucceeded => ?_⟩
  obtain ⟨sym, hsym, hload⟩ := h
  obtain ⟨e, he, rfl⟩ := Option.map_eq_some_iff.mp hsym
  rw [hsym, Option.bind_some] at hsucceeded
  rw [hp.writes, mem_writesByAddress]
  cases hcase : e.sym with
  | cmpXhg addr' w expected =>
      rw [hcase] at hload
      exact ⟨e, he, by simp [isStore, hcase], addr', by simp [getAddr, hcase, SymEv.addr?],
        congrArg SymAddrSize.addr hload.1⟩
  | mutex =>
      rw [hcase] at hload
      exact hload.elim
  | _ => simp [hcase, succeeded?] at hsucceeded

/-! ## Recomputation -/

theorem readsExpected_eq {p : RfscPlan} {addr : SymAddrSize} {source : Option ℕ}
    (h : p.IsSource addr source) (expected : Bytes addr.size) :
    p.builder.readsExpected addr (some expected) source =
      some (decide (expected.val = p.recordedContent addr source)) := by
  have hdata : p.builder.getData source addr = some (p.recordedContent addr source) ∧
      (p.recordedContent addr source).length = addr.size := by
    cases source with
    | none => exact ⟨rfl, List.length_replicate⟩
    | some w =>
        obtain ⟨bytes, hbytes, hlength⟩ := h
        have hget : p.builder.getData (some w) addr = (p.symAt w).bind SymEv.data? := by
          rw [getData, symAt, Option.bind_map]
          rfl
        rw [hget, hbytes]
        simp [recordedContent, sourceContent, hbytes, hlength]
  obtain ⟨hget, hlength⟩ := hdata
  simp only [readsExpected, hget, Option.bind_eq_bind, Option.bind_some, Option.pure_def,
    le_of_eq hlength.symm, if_true, List.take_of_length_le (le_of_eq hlength)]
  simp only [eq_comm]

theorem updateWrites_spec {idx : ℕ} {before : Bool} {writes : List ℕ}
    (h : before = true → idx ∈ writes) :
    ∃ pos writes', updateWrites idx before writes = some (pos, writes') ∧
      ∀ k ≠ idx, k ∈ writes → k ∈ writes' := by
  cases before with
  | true =>
      obtain ⟨pos, writes', hremove⟩ := exists_removeLast (h rfl)
      exact ⟨pos, writes', hremove, fun k hk hmem => mem_of_removeLast hremove hmem hk⟩
  | false =>
      exact ⟨writes.length, writes ++ [idx], rfl, fun k _ hmem => List.mem_append_left [idx] hmem⟩

/-- What a compare-exchange becomes is its outcome on the recorded bytes. -/
theorem outcome_eq_withSuccess {p : RfscPlan} {addr : SymAddrSize} {source : Option ℕ}
    {e : SymEv} {before : Bool} (hload : IsLoadOf addr e) (hbefore : succeeded? e = some before)
    (hsource : p.IsSource addr source) :
    ∃ after, succeeds p.builder e source = some after ∧
      (e.outcome fun _ => p.recordedContent addr source) = withSuccess after e ∧
      (after = before → withSuccess after e = e) := by
  cases e with
  | cmpXhg addr' w expected | cmpXhgFail addr' w expected =>
      obtain ⟨rfl, hexpected⟩ := hload
      obtain ⟨expected, rfl⟩ := Option.isSome_iff_exists.mp hexpected
      refine ⟨decide (expected.val = p.recordedContent addr' source),
        readsExpected_eq hsource expected, ?_, ?_⟩
      · by_cases hread : expected.val = p.recordedContent addr' source
        · simp [SymEv.outcome, withSuccess, hread]
        · simp [SymEv.outcome, withSuccess, hread]
      · intro hafter
        cases hbefore
        rw [hafter]
        rfl
  | mutex => exact hload.elim
  | _ => cases hbefore

theorem outcome_of_succeeded?_eq_none {e : SymEv} (h : succeeded? e = none)
    (content : SymAddrSize → List Byte) : e.outcome content = e := by
  cases e with
  | cmpXhg | cmpXhgFail => cases h
  | _ => rfl

/-- A recomputation gives the event its outcome on the recorded bytes of its source. -/
theorem recomputeCmpxhgSuccess_eq {p : RfscPlan} {addr : SymAddrSize} {idx : ℕ}
    {e : RfscTraceBuilder.Event} {source : Option ℕ} (he : p.builder.events[idx]? = some e)
    (hread : e.readFrom = some source) (hload : IsLoadOf addr e.sym)
    (hlisted : succeeded? e.sym = some true → idx ∈ p.writesByAddress addr.addr)
    (hsource : p.IsSource addr source) :
    ∃ log q, p.recomputeCmpxhgSuccess idx addr.addr = some (log, q) ∧
      q.builder.events = p.builder.events.modify idx (fun e =>
        { e with sym := e.sym.outcome fun _ => p.recordedContent addr source }) ∧
      ∀ k ≠ idx, k ∈ p.writesByAddress addr.addr → k ∈ q.writesByAddress addr.addr := by
  have hkept (hsym : (e.sym.outcome fun _ => p.recordedContent addr source) = e.sym) :
      p.builder.events = p.builder.events.modify idx (fun e =>
        { e with sym := e.sym.outcome fun _ => p.recordedContent addr source }) :=
    (modify_eq_self he (by rw [hsym])).symm
  cases hbefore : succeeded? e.sym with
  | none =>
      have hsym := outcome_of_succeeded?_eq_none hbefore fun _ => p.recordedContent addr source
      refine ⟨⟨.none, idx, 0⟩, p, ?_, hkept hsym, fun k _ hk => hk⟩
      simp [recomputeCmpxhgSuccess, he, hbefore]
  | some before =>
      obtain ⟨after, hafter, houtcome, hsame⟩ := outcome_eq_withSuccess hload hbefore hsource
      by_cases heq : after = before
      · refine ⟨⟨.none, idx, 0⟩, p, ?_, hkept (houtcome.trans (hsame heq)), fun k _ hk => hk⟩
        simp [recomputeCmpxhgSuccess, he, hbefore, hread, hafter, heq]
      · obtain ⟨pos, writes, hwrites, hmem⟩ := updateWrites_spec
          (fun h : before = true => hlisted (h ▸ hbefore))
        refine ⟨⟨undoKind e.sym before, idx, pos⟩,
          (p.setSym idx (withSuccess after e.sym)).setWrites addr.addr writes, ?_, ?_, ?_⟩
        · simp [recomputeCmpxhgSuccess, he, hbefore, hread, hafter, heq, hwrites]
        · rw [← houtcome]
          apply List.ext_getElem?
          intro k
          simp only [setWrites, setSym, modifyEvent, List.getElem?_modify]
          by_cases hk : idx = k
          · subst hk
            simp [he]
          · simp [hk]
        · intro k hk hkmem
          simpa [setWrites] using hmem k hk hkmem

theorem data?_outcome (content : SymAddrSize → List Byte) (e : SymEv) :
    (e.outcome content).data? = e.data? := by
  cases e with
  | cmpXhg addr w expected | cmpXhgFail addr w expected =>
      cases expected with
      | none => rfl
      | some expected =>
          rw [SymEv.outcome]
          split <;> rfl
  | _ => rfl

theorem symAt_of_modify {p q : RfscPlan} {idx : ℕ} {f : SymEv → SymEv}
    (h : q.builder.events = p.builder.events.modify idx fun e => { e with sym := f e.sym })
    (k : ℕ) : q.symAt k = if idx = k then (p.symAt k).map f else p.symAt k := by
  rw [symAt, h, map_getElem?_modify, symAt, Option.map_map]
  rfl

theorem symAt_setReadFrom (p : RfscPlan) (i : ℕ) (source : Option ℕ) (k : ℕ) :
    (p.setReadFrom i source).symAt k = p.symAt k := by
  rw [symAt, setReadFrom, modifyEvent, map_getElem?_modify]
  exact ite_self _

/-- The data of the events determines the content after a source. -/
theorem sourceContent_congr {p q : RfscPlan}
    (h : ∀ k, (q.symAt k).bind SymEv.data? = (p.symAt k).bind SymEv.data?) (initial : List Byte)
    (source : Option ℕ) : q.sourceContent initial source = p.sourceContent initial source := by
  cases source with
  | none => rfl
  | some w => simp [sourceContent, h w]

theorem isSource_congr {p q : RfscPlan}
    (h : ∀ k, (q.symAt k).bind SymEv.data? = (p.symAt k).bind SymEv.data?) {addr : SymAddrSize}
    {source : Option ℕ} (hsource : p.IsSource addr source) : q.IsSource addr source := by
  cases source with
  | none => trivial
  | some w =>
      rw [IsSource, h w]
      exact hsource

theorem readAt_of_modify {p q : RfscPlan} {idx : ℕ} {f : SymEv → SymEv}
    (h : q.builder.events = p.builder.events.modify idx fun e => { e with sym := f e.sym })
    (k : ℕ) : q.readAt k = p.readAt k := by
  rw [readAt, h, map_getElem?_modify]
  exact ite_self _

theorem readAt_setReadFrom {p : RfscPlan} {k : ℕ} (hk : (p.symAt k).isSome) (i : ℕ)
    (source : Option ℕ) :
    (p.setReadFrom i source).readAt k = if i = k then some (some source) else p.readAt k := by
  obtain ⟨e, he⟩ := Option.isSome_iff_exists.mp (Option.isSome_map .. ▸ hk)
  rw [readAt, setReadFrom, modifyEvent, map_getElem?_modify, readAt, he]
  rfl

/-- A recomputation in terms of the operations and the sources. -/
theorem recompute_spec {p : RfscPlan} {addr : SymAddrSize} {idx : ℕ} {source : Option ℕ}
    (hread : p.readAt idx = some (some source)) (hchange : p.Changeable addr idx)
    (hsource : p.IsSource addr source) :
    ∃ log q, p.recomputeCmpxhgSuccess idx addr.addr = some (log, q) ∧
      (∀ k, q.symAt k =
        if idx = k then (p.symAt k).map (SymEv.outcome fun _ => p.recordedContent addr source)
        else p.symAt k) ∧
      (∀ k, q.readAt k = p.readAt k) ∧
      ∀ k ≠ idx, k ∈ p.writesByAddress addr.addr → k ∈ q.writesByAddress addr.addr := by
  obtain ⟨e, he, hsome⟩ := Option.map_eq_some_iff.mp hread
  obtain ⟨sym, hsym, hload⟩ := hchange.load
  have hesym : p.symAt idx = some e.sym := by simp [symAt, he]
  have heq : sym = e.sym := Option.some.inj (hsym.symm.trans hesym)
  subst heq
  have hlisted := hchange.listed
  rw [hesym, Option.bind_some] at hlisted
  obtain ⟨log, q, hq, hevents, hwrites⟩ := recomputeCmpxhgSuccess_eq he hsome hload hlisted hsource
  exact ⟨log, q, hq, symAt_of_modify hevents, readAt_of_modify hevents, hwrites⟩

/-! ## Changes -/

theorem Changeable.isSome {p : RfscPlan} {addr : SymAddrSize} {i : ℕ} (h : p.Changeable addr i) :
    (p.symAt i).isSome := by
  obtain ⟨sym, hsym, -⟩ := h.load
  rw [hsym]
  rfl

theorem Changeable.congr {p q : RfscPlan} {addr : SymAddrSize} {i : ℕ}
    (hsym : q.symAt i = p.symAt i)
    (hwrites : i ∈ p.writesByAddress addr.addr → i ∈ q.writesByAddress addr.addr)
    (h : p.Changeable addr i) : q.Changeable addr i := by
  constructor
  · rw [Loads, hsym]
    exact h.load
  · rw [hsym]
    exact fun hsucceeded => hwrites (h.listed hsucceeded)

/-- A redirected event gets its outcome on the recorded bytes. -/
theorem change_redirect {p : RfscPlan} {addr : SymAddrSize} {original source : Option ℕ} {i : ℕ}
    (hp : Consistent p) (h : p.Attemptable addr original (.redirect i source)) :
    ∃ q, p.change addr.addr original (.redirect i source) = some q ∧
      q.symAt i = (p.symAt i).map (SymEv.outcome fun _ => p.recordedContent addr source) := by
  obtain ⟨hload, hsource⟩ := h
  have hchange := hload.changeable hp
  have hsyms := symAt_setReadFrom p i source
  have hdata : ∀ k, ((p.setReadFrom i source).symAt k).bind SymEv.data? =
      (p.symAt k).bind SymEv.data? := fun k => by rw [hsyms k]
  have hread : (p.setReadFrom i source).readAt i = some (some source) := by
    rw [readAt_setReadFrom hchange.isSome, if_pos rfl]
  obtain ⟨log, q, hq, hqsyms, -⟩ :=
    recompute_spec hread (hchange.congr (hsyms i) id) (isSource_congr hdata hsource)
  refine ⟨q, by simp [change, hq], ?_⟩
  rw [hqsyms i, if_pos rfl, hsyms i, recordedContent, sourceContent_congr hdata, recordedContent]

/-- The events of a swapped pair get their outcomes on the recorded bytes. -/
theorem change_swap {p : RfscPlan} {addr : SymAddrSize} {original : Option ℕ} {i j : ℕ}
    (hp : Consistent p) (h : p.Attemptable addr original (.swap i j)) :
    ∃ q, p.change addr.addr original (.swap i j) = some q ∧
      q.symAt j = (p.symAt j).map (SymEv.outcome fun _ => p.recordedContent addr original) ∧
      q.symAt i = (p.symAt i).map (SymEv.outcome fun _ => p.recordedContent addr (some j)) := by
  obtain ⟨⟨hlt, -⟩, hloadi, hloadj, horiginal, hsource⟩ := h
  have hij : i ≠ j := hlt.ne
  have hi := hloadi.changeable hp
  have hj := hloadj.changeable hp
  let p' := (p.setReadFrom j original).setReadFrom i (some j)
  have hsyms (k : ℕ) : p'.symAt k = p.symAt k := by
    rw [symAt_setReadFrom, symAt_setReadFrom]
  have hdata : ∀ k, (p'.symAt k).bind SymEv.data? = (p.symAt k).bind SymEv.data? :=
    fun k => by rw [hsyms k]
  have hreadj : p'.readAt j = some (some original) := by
    rw [readAt_setReadFrom (by rw [symAt_setReadFrom]; exact hj.isSome), if_neg hij,
      readAt_setReadFrom hj.isSome, if_pos rfl]
  have hreadi : p'.readAt i = some (some (some j)) := by
    rw [readAt_setReadFrom (by rw [symAt_setReadFrom]; exact hi.isSome), if_pos rfl]
  obtain ⟨log, q, hq, hqsyms, hqreads, hqwrites⟩ :=
    recompute_spec hreadj (hj.congr (hsyms j) id) (isSource_congr hdata horiginal)
  -- The first recomputation changes the kind of `j`, but neither its data nor event `i`.
  have hqi : q.symAt i = p.symAt i := by rw [hqsyms i, if_neg (Ne.symm hij), hsyms i]
  have hqdata : ∀ k, (q.symAt k).bind SymEv.data? = (p.symAt k).bind SymEv.data? := by
    intro k
    rw [hqsyms k, hsyms k]
    split
    · rw [Option.bind_map]
      congr 1
      funext e
      exact data?_outcome _ e
    · rfl
  obtain ⟨log', r, hr, hrsyms, -⟩ :=
    recompute_spec ((hqreads i).trans hreadi) (hi.congr hqi (hqwrites i hij))
      (isSource_congr hqdata hsource)
  refine ⟨r, ?_, ?_, ?_⟩
  · simp only [change, Option.bind_eq_bind]
    rw [hq, Option.bind_some, hr]
    rfl
  · rw [hrsyms j, if_neg hij, hqsyms j, if_pos rfl, hsyms j, recordedContent,
      sourceContent_congr hdata, recordedContent]
  · rw [hrsyms i, if_pos rfl, hqi, recordedContent, sourceContent_congr hqdata, recordedContent]

/-! ## Settled changes -/

theorem recordedContent_eq {p : RfscPlan} {addr : SymAddrSize} {source : Option ℕ}
    {initial : List Byte} (hsource : p.IsSource addr source)
    (hknown : KnownSource initial addr source) :
    p.recordedContent addr source = p.sourceContent initial source := by
  cases source with
  | none => exact hknown.symm
  | some w =>
      obtain ⟨bytes, hbytes, -⟩ := hsource
      simp [recordedContent, sourceContent, hbytes]

/-- The outcome of an event that is either no compare-exchange or executed on the recorded bytes. -/
theorem outcome_eq_of_known {p : RfscPlan} {i : ℕ} {d : SymEv} (hd : p.symAt i = some d)
    {recorded actual : List Byte} (h : p.IsCompareExchange i → recorded = actual) :
    (d.outcome fun _ => recorded) = d.outcome fun _ => actual := by
  rw [IsCompareExchange, hd, Option.bind_some] at h
  cases hsucceeded : succeeded? d with
  | none => rw [outcome_of_succeeded?_eq_none hsucceeded, outcome_of_succeeded?_eq_none hsucceeded]
  | some => rw [h (by rw [hsucceeded]; rfl)]

/-- The first event of a swapped pair leaves what it has recorded. -/
theorem leaves_eq_recordedContent {bigEndian : Bool} {initial : List Byte} {p : RfscPlan}
    {addr : SymAddrSize} {original : Option ℕ} {i j : ℕ} {e : SymEv}
    (h : p.Attemptable addr original (.swap i j)) (he : p.symAt j = some e)
    (hknown : p.IsCompareExchange j → KnownSource initial addr original)
    (hstale : ¬Stale bigEndian (p.sourceContent initial original) e) :
    p.recordedContent addr (some j) =
      leaves bigEndian (p.sourceContent initial original)
        (e.outcome fun _ => p.sourceContent initial original) := by
  obtain ⟨⟨-, e', he', hstore⟩, -, ⟨e'', he'', hload⟩, horiginal, bytes, hbytes, -⟩ := h
  cases he.symm.trans he''
  have hsym : e = e'.sym := by simpa [symAt, he', eq_comm] using he
  rw [he, Option.bind_some] at hbytes
  have hrecorded : p.recordedContent addr (some j) = bytes := by
    simp [recordedContent, sourceContent, he, hbytes]
  rw [hrecorded]
  cases e with
  | load addr' => cases hbytes
  | rmw addr' w kind operand used =>
      obtain ⟨operand, rfl⟩ := Option.isSome_iff_exists.mp hload.2
      rw [Stale, not_not] at hstale
      exact Option.some.inj (hbytes.symm.trans hstale)
  | cmpXhg addr' w expected | cmpXhgFail addr' w expected =>
      obtain ⟨rfl, hexpected⟩ := hload
      obtain ⟨expected, rfl⟩ := Option.isSome_iff_exists.mp hexpected
      -- It has been checked that the compare-exchange succeeds with the original source.
      have hsucceeds : expected.val = p.sourceContent initial original := by
        rw [isStoreWhenReadingFrom, ← hsym] at hstore
        have hreads := (readsExpected_eq horiginal expected).symm.trans hstore
        rw [Option.some.injEq, decide_eq_true_eq] at hreads
        have hcmp : p.IsCompareExchange j := by simp [IsCompareExchange, he, succeeded?]
        rw [hreads, recordedContent_eq horiginal (hknown hcmp)]
      rw [SymEv.outcome, if_pos hsucceeds]
      have hleft := congrArg (·.getD (p.sourceContent initial original)) hbytes
      exact hleft.symm
  | _ => exact hload.elim

/-- After a change of sources in which nothing is compared with zeros for a nonzero initial content,
or with what a stale read-modify-write has recorded, the kinds are the outcomes of the changed
events. -/
theorem rightOutcomes_of_settled {bigEndian : Bool} {initial : List Byte} {p : RfscPlan}
    {addr : SymAddrSize} {original : Option ℕ} {c : Change} (hp : Consistent p)
    (h : p.Attemptable addr original c) (hsettled : p.Settled bigEndian initial addr original c) :
    p.RightOutcomes bigEndian initial addr.addr original c := by
  cases c with
  | swap i j =>
      obtain ⟨q, hq, hj, hi⟩ := change_swap hp h
      obtain ⟨hknown, hstale⟩ := hsettled
      obtain ⟨-, ⟨d, hd, -⟩, ⟨e, he, -⟩, horiginal, -⟩ := id h
      rw [he, Option.map_some] at hj
      rw [hd, Option.map_some] at hi
      refine ⟨q, hq, asksAbout_change hq, e, d, he, hd, ?_, ?_⟩
      · rw [hj, outcome_eq_of_known he fun hcmp => recordedContent_eq horiginal (hknown hcmp)]
      · rw [hi, outcome_eq_of_known hd fun hcmp =>
          leaves_eq_recordedContent h he hknown (hstale hcmp e he)]
  | redirect i source =>
      obtain ⟨q, hq, hi⟩ := change_redirect hp h
      obtain ⟨⟨d, hd, -⟩, hsource⟩ := h
      rw [hd, Option.map_some] at hi
      refine ⟨q, hq, asksAbout_change hq, d, hd, ?_⟩
      rw [hi, outcome_eq_of_known hd fun hcmp => recordedContent_eq hsource (hsettled hcmp)]

/-! ## Fixed executions -/

/-- The main thread exchanges 0 for 5 in `x`, which another thread then modifies. -/
def exchangedThenModified (kind : RmwKind) (operand result : Byte) : RfscTraceBuilder :=
  finish none noLeaf
    [⟨.spawn, [], false⟩,
      ⟨.compareExchange byteX (some (.of [5])) (some (.of [0])) true, [], false⟩,
      ⟨.invisible, [(0, false)], false⟩,
      ⟨.atomicRmw byteX (some (.of [result])) ⟨.of [operand], kind, false⟩, [], false⟩,
      ⟨.invisible, [(1, false)], false⟩]

theorem symAt_exchangedThenSubtracted :
    (start (exchangedThenModified .sub 5 0) []).symAt 1 =
        some (.cmpXhg byteX (some ⟨[5], rfl⟩) (some ⟨[0], rfl⟩)) ∧
      (start (exchangedThenModified .sub 5 0) []).symAt 2 =
        some (.rmw byteX (some ⟨[0], rfl⟩) .sub (some ⟨[5], rfl⟩) false) := by
  decide +kernel

theorem symAt_exchangedThenJoined :
    (start (exchangedThenModified .or 5 5) []).symAt 1 =
        some (.cmpXhg byteX (some ⟨[5], rfl⟩) (some ⟨[0], rfl⟩)) ∧
      (start (exchangedThenModified .or 5 5) []).symAt 2 =
        some (.rmw byteX (some ⟨[5], rfl⟩) .or (some ⟨[5], rfl⟩) false) := by
  decide +kernel

/-- The pair can be swapped. -/
theorem attemptable_swap {p : RfscPlan} {kind : RmwKind} {result operand : Byte}
    (hi : p.symAt 1 = some (.cmpXhg byteX (some ⟨[5], rfl⟩) (some ⟨[0], rfl⟩)))
    (hj : p.symAt 2 = some (.rmw byteX (some ⟨[result], rfl⟩) kind (some ⟨[operand], rfl⟩) false)) :
    p.Attemptable byteX none (.swap 1 2) := by
  obtain ⟨e, he, hsym⟩ := Option.map_eq_some_iff.mp hj
  refine ⟨⟨by decide, e, he, ?_⟩, ⟨_, hi, rfl, rfl⟩, ⟨_, hj, rfl, rfl⟩, trivial, [result], ?_, rfl⟩
  · rw [isStoreWhenReadingFrom, hsym]
  · simp [hj, SymEv.data?]

/-- If 5 is joined first, `x` is 5 as recorded. -/
theorem rightOutcomes_joined :
    (start (exchangedThenModified .or 5 5) []).RightOutcomes false [0] byteX.addr none
      (.swap 1 2) := by
  obtain ⟨hi, hj⟩ := symAt_exchangedThenJoined
  refine rightOutcomes_of_settled ⟨by decide +kernel, rfl⟩ (attemptable_swap hi hj)
    ⟨fun _ => rfl, fun _ e he => ?_⟩
  cases hj.symm.trans he
  rw [Stale, not_not]
  decide +kernel

/-- After 5 has been subtracted first, `x` is not 0, but the exchange is left successful. -/
theorem not_rightOutcomes_subtracted :
    Execution none noLeaf (exchangedThenModified .sub 5 0) ∧
      (start (exchangedThenModified .sub 5 0) []).Attemptable byteX none (.swap 1 2) ∧
      ¬(start (exchangedThenModified .sub 5 0) []).RightOutcomes false [0] byteX.addr none
        (.swap 1 2) := by
  obtain ⟨hi, hj⟩ := symAt_exchangedThenSubtracted
  refine ⟨execution_finish (by decide +kernel), attemptable_swap hi hj, ?_⟩
  rintro ⟨q, hq, -, e, d, he, hd, -, houtcome⟩
  cases hj.symm.trans he
  cases hi.symm.trans hd
  have hkept : ∀ q ∈ (start (exchangedThenModified .sub 5 0) []).change byteX.addr none (.swap 1 2),
      q.symAt 1 = some (.cmpXhg byteX (some ⟨[5], rfl⟩) (some ⟨[0], rfl⟩)) := by decide +kernel
  rw [hkept q hq, Option.some.injEq] at houtcome
  revert houtcome
  decide +kernel

end Nidhugg.RfscPlan
