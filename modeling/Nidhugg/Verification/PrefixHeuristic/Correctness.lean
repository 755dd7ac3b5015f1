import Nidhugg.Model.PrefixHeuristic
import Nidhugg.Verification.SaturatedGraph.Soundness

/-! # Soundness of the prefix heuristic

Every guess is saturated, so that the guessed coherence lists are chains of the forced
order. A topological order of a graph whose stores to each address form a chain justifies
the reads-from choice. -/

namespace Nidhugg.PrefixHeuristic

open Relation ReadsFrom PostOrder SaturatedGraph ExceptBind

/-! ## Coherence lists -/

theorem mapM_withClock_fst {g : SaturatedGraph} {co : List IID} {clocks : List (IID × VClock)}
    (h : co.mapM (withClock g) = .ok clocks) : clocks.map Prod.fst = co := by
  have hall := mapM_eq_ok h
  clear h
  induction hall with
  | nil => rfl
  | cons hx _ ih =>
      obtain ⟨c, -, hc⟩ := bind_eq_ok.mp hx
      rw [List.map_cons, ih, ← pure_eq_ok.mp hc]

theorem rdropWhile_append_rtakeWhile {α : Type*} (p : α → Bool) (xs : List α) :
    xs.rdropWhile p ++ xs.rtakeWhile p = xs := by
  rw [List.rdropWhile, List.rtakeWhile, ← List.reverse_append, List.takeWhile_append_dropWhile,
    List.reverse_reverse]

theorem insertionPoint_append {g : SaturatedGraph} {wc : VClock} {co front back : List IID}
    (h : insertionPoint g wc co = .ok (front, back)) : front ++ back = co := by
  obtain ⟨clocks, hc, h⟩ := bind_eq_ok.mp h
  obtain ⟨rfl, rfl⟩ := Prod.mk.inj (pure_eq_ok.mp h)
  rw [← List.map_append, rdropWhile_append_rtakeWhile, mapM_withClock_fst hc]

/-! ## Guessed edges -/

/-- Two identifiers whose events are in the forced order. -/
def ForcedIds (g : SaturatedGraph) (given : IID → IID → Prop) (x y : IID) : Prop :=
  ∃ i j, g.extidToId x = some i ∧ g.extidToId y = some j ∧ Forced (choice g given) i j

theorem ForcedIds.mono {g : SaturatedGraph} {given given' : IID → IID → Prop}
    (hgiven : ∀ x y, given x y → given' x y) {x y : IID} (h : ForcedIds g given x y) :
    ForcedIds g given' x y := by
  obtain ⟨i, j, hi, hj, hij⟩ := h
  exact ⟨i, j, hi, hj, forced_of_given hgiven hij⟩

theorem ForcedIds.trans {g : SaturatedGraph} {given : IID → IID → Prop} {x y z : IID}
    (h : ForcedIds g given x y) (h' : ForcedIds g given y z) : ForcedIds g given x z := by
  obtain ⟨i, j, hi, hj, hij⟩ := h
  obtain ⟨j', k, hj', hk, hjk⟩ := h'
  obtain rfl : j = j' := Option.some.inj (hj.symm.trans hj')
  exact ⟨i, k, hi, hk, hij.trans hjk⟩

theorem forcedIds_of_given {g : SaturatedGraph} (hl : Layout g) {given : IID → IID → Prop}
    {x y : IID} (hx : g.hasEvent x = true) (hy : g.hasEvent y = true) (h : given x y) :
    ForcedIds g given x y := by
  obtain ⟨i, hi⟩ := Option.isSome_iff_exists.mp hx
  obtain ⟨j, hj⟩ := Option.isSome_iff_exists.mp hy
  obtain ⟨his, rfl⟩ := (hl.extid_iff x i).mp hi
  obtain ⟨hjs, rfl⟩ := (hl.extid_iff y j).mp hj
  exact ⟨i, j, hi, hj, .order ⟨his, hjs, .inr h⟩⟩

theorem addEdgeBetween_spec {given : IID → IID → Prop} {g g' : SaturatedGraph}
    {oi oj : Option IID} (h : Invariant given g) (hrun : addEdgeBetween g oi oj = .ok g') :
    Invariant (fun x y => given x y ∨ (oi = some x ∧ oj = some y)) g' ∧ SameLayout g g' := by
  unfold addEdgeBetween at hrun
  split at hrun
  · rename_i i j
    split at hrun
    · rename_i g₁ hadd
      obtain rfl : g₁ = g' := Except.ok.inj hrun
      obtain ⟨hinv, hs, -⟩ := h.addEdge hadd
      refine ⟨hinv.congr fun x y => ?_, hs⟩
      simp only [Option.some.injEq, eq_comm]
    · exact absurd hrun (by simp)
  · rename_i hnone
    obtain rfl : g = g' := Except.ok.inj hrun
    refine ⟨h.congr fun x y => ?_, .refl g⟩
    refine ⟨.inl, fun hor => hor.resolve_right ?_⟩
    rintro ⟨rfl, rfl⟩
    exact hnone x y rfl rfl

/-- A chain with a new element between its two parts is a chain. -/
theorem pairwise_insert {R : IID → IID → Prop} (htrans : ∀ {x y z}, R x y → R y z → R x z)
    {front back : List IID} {w : IID} (h : (front ++ back).Pairwise R)
    (hfront : ∀ i, front.getLast? = some i → R i w)
    (hback : ∀ j, back.head? = some j → R w j) : (front ++ w :: back).Pairwise R := by
  obtain ⟨hf, hb, hcross⟩ := List.pairwise_append.mp h
  have hfw : ∀ x ∈ front, R x w := by
    intro x hx
    rcases List.eq_nil_or_concat front with rfl | ⟨init, l, rfl⟩
    · exact absurd hx (by simp)
    · simp only [List.concat_eq_append] at hx hf hfront
      have hlw : R l w := hfront l (by simp)
      rcases List.mem_append.mp hx with hx | hx
      · exact htrans ((List.pairwise_append.mp hf).2.2 x hx l (by simp)) hlw
      · rw [List.mem_singleton.mp hx]
        exact hlw
  have hwb : ∀ y ∈ back, R w y := by
    intro y hy
    cases back with
    | nil => exact absurd hy (by simp)
    | cons j back =>
        have hwj : R w j := hback j rfl
        rcases List.mem_cons.mp hy with rfl | hy
        · exact hwj
        · exact htrans hwj ((List.pairwise_cons.mp hb).1 y hy)
  refine List.pairwise_append.mpr ⟨hf, List.pairwise_cons.mpr ⟨hwb, hb⟩, ?_⟩
  intro x hx y hy
  rcases List.mem_cons.mp hy with rfl | hy
  · exact hfw x hx
  · exact hcross x hx y hy

/-- The state of the loop after the events `done`. -/
structure Guessed (g : SaturatedGraph) (given : IID → IID → Prop) (done : List IID)
    (g' : SaturatedGraph) (co : SymAddr → List IID) (given' : IID → IID → Prop) : Prop where
  saturated : Saturated given' g'
  layout : SameLayout g g'
  given_mono : ∀ x y, given x y → given' x y
  co_mem : ∀ a x, x ∈ co a ↔ x ∈ done ∧
    ∃ i, g.extidToId x = some i ∧ (g.events i).isStore = true ∧ (g.events i).addr = a
  co_chain : ∀ a, (co a).Pairwise (ForcedIds g given')

theorem idOf_eq_ok {g : SaturatedGraph} {x : IID} {i : ℕ} :
    g.idOf x = .ok i ↔ g.extidToId x = some i := by
  unfold idOf
  cases g.extidToId x <;> simp

theorem eventIsStore_eq_ok {g : SaturatedGraph} {x : IID} {b : Bool} :
    g.eventIsStore x = .ok b ↔ ∃ i, g.extidToId x = some i ∧ (g.events i).isStore = b := by
  simp only [eventIsStore, bind_eq_ok, pure_eq_ok, idOf_eq_ok]

theorem eventAddr_eq_ok {g : SaturatedGraph} {x : IID} {a : SymAddr} :
    g.eventAddr x = .ok a ↔ ∃ i, g.extidToId x = some i ∧ (g.events i).addr = a := by
  simp only [eventAddr, bind_eq_ok, pure_eq_ok, idOf_eq_ok]

/-- One turn of the loop whose guess has been saturated. -/
theorem Guessed.step {g : SaturatedGraph} {given : IID → IID → Prop} {done : List IID}
    {g₁ g₂ g₃ : SaturatedGraph} {co co' : SymAddr → List IID} {given₁ : IID → IID → Prop}
    {w : IID} (h : Guessed g given done g₁ co given₁) (hstore : g₁.eventIsStore w = .ok true)
    (hguess : guess g₁ co w = .ok (g₂, co')) (hsat : g₂.saturate = .ok (true, g₃)) :
    ∃ given₂, Guessed g given (done ++ [w]) g₃ co' given₂ := by
  obtain ⟨wc, -, hguess⟩ := bind_eq_ok.mp hguess
  obtain ⟨a, ha, hguess⟩ := bind_eq_ok.mp hguess
  obtain ⟨⟨front, back⟩, hins, hguess⟩ := bind_eq_ok.mp hguess
  obtain ⟨ga, hga, hguess⟩ := bind_eq_ok.mp hguess
  obtain ⟨gb, hgb, hguess⟩ := bind_eq_ok.mp hguess
  obtain ⟨rfl, rfl⟩ := Prod.mk.inj (pure_eq_ok.mp hguess)
  obtain ⟨hinva, hsa⟩ := addEdgeBetween_spec h.saturated.toInvariant hga
  obtain ⟨hinvb, hsb⟩ := addEdgeBetween_spec hinva hgb
  obtain ⟨hsat₃, hs₃⟩ := hinvb.saturate_true hsat
  have hco := insertionPoint_append hins
  -- the identifiers in the tables of all these graphs are those of `g`
  obtain ⟨i, hi, hist⟩ := eventIsStore_eq_ok.mp hstore
  obtain ⟨i', hi', hia⟩ := eventAddr_eq_ok.mp ha
  obtain rfl : i = i' := Option.some.inj (hi.symm.trans hi')
  rw [h.layout.extidToId] at hi
  rw [h.layout.events] at hist hia
  have hl : Layout g := h.saturated.layout.of_same h.layout.symm
  have hmono : ∀ x y, given₁ x y → (given₁ x y ∨ front.getLast? = some x ∧ some w = some y) ∨
      some w = some x ∧ back.head? = some y := fun x y hxy => .inl (.inl hxy)
  have hw : g.hasEvent w = true := by simp [hasEvent, hi]
  have hknown : ∀ x ∈ front ++ back, g.hasEvent x = true := by
    intro x hx
    rw [hco, h.co_mem] at hx
    obtain ⟨-, j, hj, -⟩ := hx
    simp [hasEvent, hj]
  refine ⟨_, hsat₃, h.layout.trans (hsa.trans (hsb.trans hs₃)),
    fun x y hxy => hmono x y (h.given_mono x y hxy), ?_, ?_⟩
  · intro b x
    by_cases hb : b = a
    · subst hb
      rw [Function.update_self, List.mem_append, List.mem_cons, or_left_comm, ← List.mem_append,
        hco, h.co_mem]
      simp only [List.mem_append, List.mem_singleton]
      constructor
      · rintro (rfl | ⟨hx, hex⟩)
        · exact ⟨.inr rfl, i, hi, hist, hia⟩
        · exact ⟨.inl hx, hex⟩
      · rintro ⟨hx | rfl, hex⟩
        · exact .inr ⟨hx, hex⟩
        · exact .inl rfl
    · rw [Function.update_of_ne hb, h.co_mem]
      simp only [List.mem_append, List.mem_singleton]
      constructor
      · rintro ⟨hx, hex⟩
        exact ⟨.inl hx, hex⟩
      · rintro ⟨hx | rfl, j, hj, hjs, hja⟩
        · exact ⟨hx, j, hj, hjs, hja⟩
        · obtain rfl : i = j := Option.some.inj (hi.symm.trans hj)
          exact absurd (hja.symm.trans hia) hb
  · intro b
    by_cases hb : b = a
    · subst hb
      rw [Function.update_self]
      refine pairwise_insert (fun hxy hyz => hxy.trans hyz) ?_ ?_ ?_
      · rw [hco]
        exact (h.co_chain b).imp fun hxy => hxy.mono hmono
      · intro l hlast
        have hmem := List.mem_of_getLast? hlast
        exact forcedIds_of_given hl (hknown l (by simp [hmem])) hw (.inl (.inr ⟨hlast, rfl⟩))
      · intro j hhead
        have hmem := List.mem_of_head? hhead
        exact forcedIds_of_given hl hw (hknown j (by simp [hmem])) (.inr ⟨rfl, hhead⟩)
    · rw [Function.update_of_ne hb]
      exact (h.co_chain b).imp fun hxy => hxy.mono hmono

/-- A completed loop leaves a saturated graph in which the stores to each address form a
chain. -/
theorem Guessed.guessAll {g : SaturatedGraph} {given : IID → IID → Prop} (ids : List IID) :
    ∀ {done : List IID} {g₁ g₂ : SaturatedGraph} {co : SymAddr → List IID}
      {given₁ : IID → IID → Prop}, Guessed g given done g₁ co given₁ →
      guessAll ids g₁ co = .ok (some g₂) →
      ∃ co₂ given₂, Guessed g given (done ++ ids) g₂ co₂ given₂ := by
  induction ids with
  | nil =>
      intro done g₁ g₂ co given₁ h hrun
      obtain rfl : g₁ = g₂ := by simpa [PrefixHeuristic.guessAll] using hrun
      exact ⟨co, given₁, by simpa using h⟩
  | cons w ids ih =>
      intro done g₁ g₂ co given₁ h hrun
      obtain ⟨store, hstore, hrun⟩ := bind_eq_ok.mp hrun
      cases store with
      | true =>
          obtain ⟨⟨g', co'⟩, hguess, hrun⟩ := bind_eq_ok.mp hrun
          obtain ⟨⟨acyclic, g''⟩, hsat, hrun⟩ := bind_eq_ok.mp hrun
          cases acyclic with
          | true =>
              obtain ⟨given', h'⟩ := h.step hstore hguess hsat
              obtain ⟨co₂, given₂, h₂⟩ := ih h' hrun
              exact ⟨co₂, given₂, by simpa using h₂⟩
          | false =>
              have := pure_eq_ok.mp hrun
              exact absurd this (by simp)
      | false =>
          have hskip : Guessed g given (done ++ [w]) g₁ co given₁ := by
            refine ⟨h.saturated, h.layout, h.given_mono, fun a x => ?_, h.co_chain⟩
            rw [h.co_mem]
            obtain ⟨i, hi, hist⟩ := eventIsStore_eq_ok.mp hstore
            rw [h.layout.extidToId] at hi
            rw [h.layout.events] at hist
            simp only [List.mem_append, List.mem_singleton]
            constructor
            · rintro ⟨hx, hex⟩
              exact ⟨.inl hx, hex⟩
            · rintro ⟨hx | rfl, j, hj, hjs, hja⟩
              · exact ⟨hx, j, hj, hjs, hja⟩
              · obtain rfl : i = j := Option.some.inj (hi.symm.trans hj)
                rw [hist] at hjs
                exact absurd hjs (by simp)
          obtain ⟨co₂, given₂, h₂⟩ := ih hskip hrun
          exact ⟨co₂, given₂, by simpa using h₂⟩

/-! ## The topological sort -/

theorem mem_inNeighbours {g : SaturatedGraph} (hl : Layout g) {i : ℕ} (hi : i < g.size)
    {y : IID} : y ∈ inNeighbours g (g.events i).extId ↔
      ∃ a, Edge g a i ∧ y = (g.events a).extId := by
  have hid : g.idOf (g.events i).extId = .ok i :=
    idOf_eq_ok.mpr ((hl.extid_iff _ i).mpr ⟨hi, rfl⟩)
  have hrun : inNeighbours g (g.events i).extId =
      (g.ins i ++ (g.events i).poPredecessor.toList ++ (g.events i).readFrom.toList).map
        fun a => (g.events a).extId := by
    simp [inNeighbours, eventIn, hid, Bind.bind, Except.bind, Pure.pure, Except.pure]
  rw [hrun, List.mem_map]
  constructor
  · rintro ⟨a, ha, rfl⟩
    refine ⟨a, ⟨hi, mem_preds.mpr ?_⟩, rfl⟩
    simp only [List.mem_append, Option.mem_toList] at ha
    tauto
  · rintro ⟨a, ⟨-, ha⟩, rfl⟩
    refine ⟨a, ?_, rfl⟩
    have := mem_preds.mp ha
    simp only [List.mem_append, Option.mem_toList]
    tauto

/-- Descending to in-neighbours follows edges backwards. -/
theorem step_inNeighbours {g : SaturatedGraph} (hl : Layout g) (hlinks : Links g) {i : ℕ}
    (hi : i < g.size) {y : IID}
    (h : ReflTransGen (PostOrder.Step (inNeighbours g)) (g.events i).extId y) :
    ∃ j < g.size, y = (g.events j).extId ∧ ReflTransGen (Edge g) j i := by
  induction h with
  | refl => exact ⟨i, hi, rfl, .refl⟩
  | tail _ hstep ih =>
      obtain ⟨j, hj, rfl, hji⟩ := ih
      obtain ⟨a, haj, rfl⟩ := (mem_inNeighbours hl hj).mp hstep
      exact ⟨a, (hl.edge_lt hlinks haj).1, rfl, .head haj hji⟩

/-- The sort lists the given events and everything below them, each once and after all of
its in-neighbours. -/
structure Sorted (g : SaturatedGraph) (ids o : List IID) : Prop where
  nodup : o.Nodup
  known : ∀ x ∈ o, g.hasEvent x = true
  ids_mem : ∀ x ∈ ids, x ∈ o
  before : ∀ {a b}, Edge g a b → (g.events b).extId ∈ o →
    Before o (g.events a).extId (g.events b).extId

theorem toposort_sorted {given : IID → IID → Prop} {g : SaturatedGraph}
    (h : Saturated given g) {ids : List IID} (hids : ∀ x ∈ ids, g.hasEvent x = true) :
    Sorted g ids (toposort g ids) := by
  have hl := h.layout
  have hext : ∀ {x}, g.hasEvent x = true ↔ ∃ i < g.size, (g.events i).extId = x := by
    intro x
    rw [hasEvent, Option.isSome_iff_exists]
    simp only [hl.extid_iff]
  have hinj : ∀ {i j}, i < g.size → j < g.size → (g.events i).extId = (g.events j).extId →
      i = j := by
    intro i j hi hj heq
    have h₁ := (hl.extid_iff _ i).mpr ⟨hi, heq⟩
    have h₂ := (hl.extid_iff _ j).mpr ⟨hj, rfl⟩
    exact Option.some.inj (h₁.symm.trans h₂)
  have hmem : ∀ {x}, x ∈ (List.range g.size).map (fun i => (g.events i).extId) ↔
      g.hasEvent x = true := by
    intro x
    simp [hext]
  have huniv : ∀ x ∈ (List.range g.size).map (fun i => (g.events i).extId),
      ∀ y ∈ inNeighbours g x, y ∈ (List.range g.size).map (fun i => (g.events i).extId) := by
    intro x hx y hy
    obtain ⟨i, hi, rfl⟩ := hext.mp (hmem.mp hx)
    obtain ⟨a, hai, rfl⟩ := (mem_inNeighbours hl hi).mp hy
    exact hmem.mpr (hext.mpr ⟨a, (hl.edge_lt h.links hai).1, rfl⟩)
  have hem : Emitted (inNeighbours g) ids (toposort g ids) :=
    visitAll_emitted huniv (fun x hx => hmem.mpr (hids x hx)) (by simp)
  have hknown : ∀ x ∈ toposort g ids, g.hasEvent x = true := by
    intro x hx
    obtain ⟨r, hr, hrx⟩ := hem.reached hx
    obtain ⟨i, hi, rfl⟩ := hext.mp (hids r hr)
    obtain ⟨j, hj, rfl, -⟩ := step_inNeighbours hl h.links hi hrx
    exact hext.mpr ⟨j, hj, rfl⟩
  have hfirst : SuccessorsFirst (inNeighbours g) (toposort g ids) := by
    refine hem.successorsFirst_iff.mpr fun x hx y hxy hyx => ?_
    obtain ⟨i, hi, rfl⟩ := hext.mp (hknown x hx)
    obtain ⟨j, hj, rfl, hji⟩ := step_inNeighbours hl h.links hi hxy
    obtain ⟨k, hk, hki, hij⟩ := step_inNeighbours hl h.links hj hyx
    obtain rfl := hinj hi hk hki
    rcases reflTransGen_iff_eq_or_transGen.mp hij with rfl | htrans
    · rfl
    · exact absurd (htrans.trans_left hji) (h.acyclic i)
  refine ⟨hem.nodup, hknown, hem.roots_mem, fun {a b} hab hb => ?_⟩
  obtain ⟨l₁, l₂, hsplit⟩ := List.append_of_mem hb
  obtain ⟨has, hbs⟩ := hl.edge_lt h.links hab
  have hne : (g.events a).extId ≠ (g.events b).extId := by
    intro heq
    obtain rfl := hinj has hbs heq
    exact h.acyclic a (.single hab)
  have hmem := hfirst l₁ _ l₂ hsplit _ ((mem_inNeighbours hl hbs).mpr ⟨a, hab, rfl⟩) hne
  exact idxOf_lt_of_mem hem.nodup hsplit hmem

/-! ## Soundness -/

theorem extIds_nodup {specs : List EventSpec} {g : SaturatedGraph} (h : Represents specs g)
    (hl : Layout g) : (specs.map EventSpec.extId).Nodup := by
  rw [List.nodup_iff_pairwise_ne, List.pairwise_iff_getElem]
  intro i j hi hj hij heq
  rw [List.length_map] at hi hj
  have hgi := h.event i _ (List.getElem?_eq_getElem hi)
  have hgj := h.event j _ (List.getElem?_eq_getElem hj)
  rw [List.getElem_map, List.getElem_map, ← hgi.extId, ← hgj.extId] at heq
  have h₁ := (hl.extid_iff _ i).mpr ⟨by rw [h.size]; exact hi, heq⟩
  have h₂ := (hl.extid_iff _ j).mpr ⟨by rw [h.size]; exact hj, rfl⟩
  exact hij.ne (Option.some.inj (h₁.symm.trans h₂))

/-- The identifiers of a saturated graph are those of the added events. -/
theorem saturate_hasEvent_iff {calls : List Call} (hv : ValidCalls calls)
    {g₀ g : SaturatedGraph} (hrun : run calls = some g₀) (hsat : g₀.saturate = .ok (true, g))
    {x : IID} : g.hasEvent x = true ↔ x ∈ (calls.flatMap Call.specs).map EventSpec.extId := by
  have hbuilt := run_built hv hrun
  obtain ⟨hsatd, hlay⟩ := hbuilt.invariant.saturate_true hsat
  exact (hbuilt.represents.of_same hlay).hasEvent_iff hsatd.layout x

/-- In a chain any two elements are related one way or the other. -/
theorem pairwise_total {R : IID → IID → Prop} {xs : List IID} (h : xs.Pairwise R) {x y : IID}
    (hx : x ∈ xs) (hy : y ∈ xs) (hne : x ≠ y) : R x y ∨ R y x := by
  obtain ⟨l₁, l₂, rfl⟩ := List.append_of_mem hx
  obtain ⟨-, h₂, hcross⟩ := List.pairwise_append.mp h
  rcases List.mem_append.mp hy with hy | hy
  · exact .inr (hcross y hy x (by simp))
  · rcases List.mem_cons.mp hy with rfl | hy
    · exact absurd rfl hne
    · exact .inl ((List.pairwise_cons.mp h₂).1 y hy)

/-- A justifying numbering of a graph's events by their places in a list makes the list a
witness. -/
theorem witness_of_justifies {specs : List EventSpec} {g : SaturatedGraph}
    {given : IID → IID → Prop} {o : List IID} (hrep : Represents specs g)
    (hperm : o.Perm (specs.map EventSpec.extId))
    (hpo : specs.Pairwise fun s t => s.pid = t.pid → Before o s.extId t.extId)
    (hafter : ∀ s ∈ specs, ∀ x ∈ s.happensAfter, Before o x s.extId)
    (hj : Justifies (choice g given) fun i => o.idxOf (g.events i).extId) : Witness specs o := by
  refine ⟨hperm, hpo, hafter, fun r hr hload => ?_⟩
  obtain ⟨i, hi, -, hrec⟩ := hrep.exists_event hr
  have hstore : ∀ w ∈ specs, StoresTo w r → ∃ k, Records g w k ∧
      (choice g given).storeTo ((choice g given).addr i) k := by
    rintro w hw ⟨hst, haddr⟩
    obtain ⟨k, hk, -, hreck⟩ := hrep.exists_event hw
    exact ⟨k, hreck, hk, hreck.isStore.trans hst,
      hreck.addr.trans (haddr.trans hrec.addr.symm)⟩
  unfold ReadsExactly
  have hsrc := hrec.source
  cases hrf : (g.events i).readFrom with
  | none =>
      rw [hrf] at hsrc
      rw [← hsrc]
      intro w hw hst hbefore
      obtain ⟨k, hreck, hk⟩ := hstore w hw hst
      refine hj.init ⟨hi, hrec.isLoad.trans hload, hrf⟩ hk ?_
      rw [hreck.extId, hrec.extId]
      exact hbefore
  | some v =>
      rw [hrf] at hsrc
      rw [← hsrc]
      have hreads : (choice g given).reads i (some v) := ⟨hi, hrec.isLoad.trans hload, hrf⟩
      obtain ⟨⟨hv, hvst, hvaddr⟩, hlt⟩ := hj.source hreads
      obtain ⟨w, hw, -, hrecv⟩ := hrep.exists_spec hv
      refine ⟨⟨w, hw, hrecv.extId.symm, ⟨hrecv.isStore.symm.trans hvst,
        hrecv.addr.symm.trans (hvaddr.trans hrec.addr)⟩, ?_⟩, ?_⟩
      · rw [← hrec.extId]
        exact hlt
      · intro w' hw' hst hbefore
        obtain ⟨k, hreck, hk⟩ := hstore w' hw' hst
        rw [← hreck.extId]
        refine (hj.last hreads hk ?_).imp_left fun heq => by rw [heq]
        rw [hreck.extId, hrec.extId]
        exact hbefore

/-- Whenever the heuristic returns a sequence for a saturated graph and an execution that
lists each of its events once, the sequence is a permutation of the events that extends
program order and the explicit edges and in which every load reads its source. -/
theorem tryGeneratePrefix_sound {calls : List Call} (hv : ValidCalls calls)
    {g₀ g : SaturatedGraph} (hrun : run calls = some g₀) (hsat : g₀.saturate = .ok (true, g))
    {noHeuristic : Bool} {currentExec : List IID}
    (hexec : ∀ x, g.hasEvent x = true → currentExec.count x = 1) {o : List IID}
    (hres : tryGeneratePrefix noHeuristic g currentExec = .ok (some o)) :
    Witness (calls.flatMap Call.specs) o := by
  have hbuilt := run_built hv hrun
  obtain ⟨hsatd, hlay₀⟩ := hbuilt.invariant.saturate_true hsat
  have hrep := hbuilt.represents.of_same hlay₀
  have hl := hsatd.layout
  -- the run of the heuristic
  unfold tryGeneratePrefix at hres
  cases noHeuristic with
  | true => exact absurd (pure_eq_ok.mp hres) (by simp)
  | false =>
  obtain ⟨res, hguess, hres⟩ := bind_eq_ok.mp hres
  cases res with
  | none => exact absurd (pure_eq_ok.mp hres) (by simp)
  | some g' =>
  obtain rfl : toposort g' (currentExec.filter g.hasEvent) = o :=
    Option.some.inj (pure_eq_ok.mp hres)
  have hstart : Guessed g (givenBy calls) [] g (fun _ => []) (givenBy calls) :=
    ⟨hsatd, .refl g, fun _ _ h => h, by simp, by simp⟩
  obtain ⟨co, given', hg⟩ := hstart.guessAll _ hguess
  set ids := currentExec.filter g.hasEvent with hids
  have hlay := hg.layout
  have hl' := hg.saturated.layout
  have hall : ∀ x, g.hasEvent x = true → x ∈ ids := by
    intro x hx
    have hmem : x ∈ currentExec := List.count_pos_iff.mp (by rw [hexec x hx]; exact Nat.one_pos)
    exact List.mem_filter.mpr ⟨hmem, hx⟩
  have hhas : ∀ x, g'.hasEvent x = g.hasEvent x := fun x => by simp only [hasEvent, hlay.extidToId]
  have hsorted : Sorted g' ids (toposort g' ids) := by
    refine toposort_sorted hg.saturated fun x hx => ?_
    rw [hhas]
    exact (List.mem_filter.mp hx).2
  have hmem : ∀ {i}, i < g'.size → (g'.events i).extId ∈ toposort g' ids := by
    intro i hi
    refine hsorted.ids_mem _ (hall _ ?_)
    rw [← hhas, hasEvent, (hl'.extid_iff _ i).mpr ⟨hi, rfl⟩]
    rfl
  have hpos : ∀ {a b}, TransGen (Edge g') a b →
      Before (toposort g' ids) (g'.events a).extId (g'.events b).extId := by
    intro a b hab
    induction hab with
    | single hab => exact hsorted.before hab (hmem hab.1)
    | tail _ hbc ih => exact Nat.lt_trans ih (hsorted.before hbc (hmem hbc.1))
  have hrep' : Represents (calls.flatMap Call.specs) g' := hrep.of_same hlay
  have hjust : Justifies (choice g' given')
      fun i => (toposort g' ids).idxOf (g'.events i).extId := by
    refine hg.saturated.closed.justifies ?_ ?_ ?_ hpos
    · rintro r w ⟨hr, -, hrf⟩
      obtain ⟨hwr, -, hst, haddr⟩ := hl'.readFrom_spec r hr w hrf
      exact ⟨hwr.trans hr, hst, haddr⟩
    · rintro a w w' ⟨hw, hst, haddr⟩ ⟨hw', hst', haddr'⟩ hne
      -- both stores are in the coherence list of their address
      have hco : ∀ {v}, v < g'.size → (g'.events v).isStore = true → (g'.events v).addr = a →
          (g'.events v).extId ∈ co a := by
        intro v hv hvst hva
        have hvid := (hl'.extid_iff _ v).mpr ⟨hv, rfl⟩
        rw [hg.co_mem]
        rw [hlay.extidToId] at hvid
        refine ⟨?_, v, hvid, by rw [← hlay.events]; exact hvst, by rw [← hlay.events]; exact hva⟩
        exact hall _ (by simp [hasEvent, hvid])
      have hforced : ∀ {v v'}, v < g'.size → v' < g'.size →
          ForcedIds g given' (g'.events v).extId (g'.events v').extId → TransGen (Edge g') v v' := by
        rintro v v' hv hv' ⟨i, j, hi, hj, hij⟩
        rw [← hlay.extidToId, (hl'.extid_iff _ v).mpr ⟨hv, rfl⟩] at hi
        rw [← hlay.extidToId, (hl'.extid_iff _ v').mpr ⟨hv', rfl⟩] at hj
        obtain rfl := Option.some.inj hi
        obtain rfl := Option.some.inj hj
        rw [← choice_of_same hlay] at hij
        exact hg.saturated.reach_iff_forced.mpr hij
      have hext : (g'.events w).extId ≠ (g'.events w').extId := by
        intro heq
        have h₁ := (hl'.extid_iff _ w).mpr ⟨hw, heq⟩
        have h₂ := (hl'.extid_iff _ w').mpr ⟨hw', rfl⟩
        exact hne (Option.some.inj (h₁.symm.trans h₂))
      exact (pairwise_total (hg.co_chain a) (hco hw hst haddr) (hco hw' hst' haddr') hext).imp
        (hforced hw hw') (hforced hw' hw)
    · intro a b ha hb heq
      have hext := (List.idxOf_inj (hmem ha)).mp heq
      have h₁ := (hl'.extid_iff _ a).mpr ⟨ha, hext⟩
      have h₂ := (hl'.extid_iff _ b).mpr ⟨hb, rfl⟩
      exact Option.some.inj (h₁.symm.trans h₂)
  refine witness_of_justifies hrep' ?_ ?_ ?_ hjust
  · refine (List.perm_ext_iff_of_nodup hsorted.nodup (extIds_nodup hrep' hl')).mpr fun x => ?_
    rw [← hrep'.hasEvent_iff hl']
    refine ⟨hsorted.known x, fun hx => hsorted.ids_mem x (hall x ?_)⟩
    rw [← hhas]
    exact hx
  · rw [List.pairwise_iff_getElem]
    intro i j hi hj hij hpid
    have hri := hrep'.event i _ (List.getElem?_eq_getElem hi)
    have hrj := hrep'.event j _ (List.getElem?_eq_getElem hj)
    rw [← hrep'.size] at hi hj
    rw [← hri.pid, ← hrj.pid] at hpid
    rw [← hri.extId, ← hrj.extId]
    exact hpos (hl'.po_reaches hi hj hpid hij)
  · intro s hs x hx
    have hgiven : givenBy calls x s.extId := by
      obtain ⟨c, hc, hsc⟩ := List.mem_flatMap.mp hs
      cases c with
      | addEvent t =>
          obtain rfl : s = t := by simpa [Call.specs] using hsc
          exact ⟨_, hc, rfl, hx⟩
      | addEdge a b => simp [Call.specs] at hsc
      | saturate => simp [Call.specs] at hsc
    obtain ⟨hxk, hyk⟩ := hg.saturated.given_known _ _ (hg.given_mono _ _ hgiven)
    obtain ⟨i, hi⟩ := Option.isSome_iff_exists.mp hxk
    obtain ⟨j, hj⟩ := Option.isSome_iff_exists.mp hyk
    obtain ⟨his, rfl⟩ := (hl'.extid_iff x i).mp hi
    obtain ⟨hjs, hje⟩ := (hl'.extid_iff _ j).mp hj
    rw [← hje] at hgiven ⊢
    exact hpos (hg.saturated.closed.order ⟨his, hjs, .inr (hg.given_mono _ _ hgiven)⟩)

/-- Two processes that store to an address, the second of which then reads the first. -/
def storesThenLoad : List Call :=
  [.addEvent ⟨0, ⟨0, 1⟩, .store, ⟨.global 0, 0⟩, none, []⟩,
    .addEvent ⟨1, ⟨1, 1⟩, .store, ⟨.global 0, 0⟩, none, []⟩,
    .addEvent ⟨1, ⟨1, 2⟩, .load, ⟨.global 0, 0⟩, some ⟨0, 1⟩, []⟩]

theorem tryGeneratePrefix_sound_storesThenLoad :
    ∃ g₀ g, run storesThenLoad = some g₀ ∧ g₀.saturate = .ok (true, g) ∧
      tryGeneratePrefix false g [⟨0, 1⟩, ⟨1, 1⟩, ⟨1, 2⟩] = .ok (some [⟨1, 1⟩, ⟨0, 1⟩, ⟨1, 2⟩]) ∧
      Witness (storesThenLoad.flatMap Call.specs) [⟨1, 1⟩, ⟨0, 1⟩, ⟨1, 2⟩] := by
  refine ⟨_, _, rfl, rfl, rfl, tryGeneratePrefix_sound (by decide) rfl rfl ?_
    (show tryGeneratePrefix false _ [⟨0, 1⟩, ⟨1, 1⟩, ⟨1, 2⟩] = _ from rfl)⟩
  intro x hx
  have hvalid : ValidCalls storesThenLoad := by decide
  have hmem := (saturate_hasEvent_iff hvalid rfl rfl).mp hx
  clear hx
  revert x
  decide

end Nidhugg.PrefixHeuristic
