import Nidhugg.Verification.MemoryModels.PsoBuffers

/-! # Inclusion of memory models

What programs can do under sequential consistency they can do under TSO, and what they can do under
TSO they can do under PSO if the stores of a thread that start at one address have one size. No
thread is stuck behind its own stores. -/

namespace Nidhugg

open LabelledRun SharedSystem

variable {γ β γ' β' ι : Type} [DecidableEq ι] {D : Discipline Memory Operation (List Byte) γ β}
  {D' : Discipline Memory Operation (List Byte) γ' β'} {Allowed : Operation → Prop}
  {Kept : γ → List SymData → Bool → Prop} {m : Memory} {c : γ} {pending : List SymData} {a : Bool}
  {op : Operation}

/-! ### Threads without pending stores -/

theorem Served.nil (ml : AccessRange) : Served [] ml := .inl (by simp)

/-- A thread without pending stores performs operations on memory, except that a store is pending
then. -/
theorem Performed.nil (m : Memory) (op : Operation) : ∃ (m₁ : Memory) (pending₁ : List SymData),
    Performed m [] op m₁ (op.perform m).2 pending₁ ∧
      pending₁.foldl Memory.write m₁ = (op.perform m).1 ∧ pending₁.length ≤ 1 := by
  cases op with
  | store sd => exact ⟨m, [sd], .store sd, rfl, Nat.le_refl 1⟩
  | load ml => exact ⟨m, [], .load ml (.nil ml), rfl, Nat.zero_le 1⟩
  | atomicStore sd => exact ⟨_, [], .fenced (.atomicStore sd) rfl rfl, rfl, Nat.zero_le 1⟩
  | fence => exact ⟨_, [], .fenced .fence rfl rfl, rfl, Nat.zero_le 1⟩
  | rmw ml update => exact ⟨_, [], .fenced (.rmw ml update) rfl rfl, rfl, Nat.zero_le 1⟩

/-- All pending stores can be performed. -/
theorem Drains.drain (h : Drains D Allowed Kept) (hkept : Kept c pending a) :
    ∃ (bs : List β) (c₁ : γ),
      D.runBackground m c bs = some (pending.foldl Memory.write m, c₁) ∧ Kept c₁ [] true := by
  induction pending generalizing m c a with
  | nil =>
      obtain rfl := h.idle hkept
      exact ⟨[], c, rfl, hkept⟩
  | cons sd pending ih =>
      obtain ⟨b, c₁, a₁, hb, hkept₁, -⟩ := h.update (m := m) hkept
      obtain ⟨bs, c₂, hbs, hkept₂⟩ := ih (m := m.write sd) hkept₁
      refine ⟨b :: bs, c₂, ?_, hkept₂⟩
      rw [Discipline.runBackground, run_cons, hb]
      exact hbs

/-! ### Simulations -/

/-- A store is performed right after it is issued. -/
theorem Drains.simulates_sc (h : Drains D Allowed Kept) :
    Simulates sc D Allowed fun _ c => Kept c [] true where
  initial := h.initial
  issue := by
    intro m m₁ stores stores₁ c idx op r hkept hallowed hissue
    cases hissue
    obtain ⟨m₂, pending₁, hperformed, hmem, -⟩ := Performed.nil m op
    obtain ⟨c₂, hissue, hkept₂⟩ := h.perform idx hkept hallowed hperformed
    obtain ⟨bs, c₁, hbs, hkept₁⟩ := h.drain (m := m₂) hkept₂
    rw [hmem] at hbs
    exact ⟨m₂, c₂, c₁, bs, hissue, hbs, hkept₁⟩
  refuse := by
    intro m m₁ stores stores₁ c idx op hkept hallowed hissue
    cases hissue
  background := fun {_ _ _ _ _ b} => b.elim

/-- TSO performs pending stores in one of the orders in which they can be performed. -/
theorem Drains.simulates_tso (h : Drains D Allowed Kept) : Simulates tso D Allowed fun c c' =>
    ∃ (pending : List SymData) (a : Bool), TsoKept c pending a ∧ Kept c' pending true where
  initial := ⟨[], true, .initial, h.initial⟩
  issue := by
    rintro m m₁ c c₁ c' idx op r ⟨pending, a, htso, hkept⟩ hallowed hissue
    obtain ⟨hnone, -⟩ | ⟨bytes, pending₁, heq, hperformed, htso₁⟩ :=
      tso_drains.issue htso trivial hissue
    · cases hnone
    · cases heq
      obtain ⟨c₂, hissue₂, hkept₂⟩ := h.perform idx hkept hallowed hperformed
      exact ⟨m₁, c₂, c₂, [], hissue₂, rfl, pending₁, true, htso₁, hkept₂⟩
  refuse := by
    rintro m m₁ c c₁ c' idx op ⟨pending, a, htso, hkept⟩ hallowed hissue
    obtain ⟨-, rfl, htso₁⟩ | ⟨bytes, pending₁, hsome, -⟩ := tso_drains.issue htso trivial hissue
    · exact ⟨[], c', rfl, pending, false, htso₁, hkept⟩
    · cases hsome
  background := by
    rintro m m₁ c c₁ c' b ⟨pending, a, htso, hkept⟩ hback
    obtain ⟨sd, rest, a₁, rfl, rfl, htso₁, -⟩ := tso_background htso hback
    obtain ⟨b', c₁', a₁', hb', hkept', htrue⟩ := h.update (m := m) hkept
    obtain rfl := htrue rfl
    exact ⟨[b'], c₁', by rw [Discipline.runBackground, run_cons, hb']; rfl, rest, a₁, htso₁, hkept'⟩

/-- Programs can do under TSO what they can do under sequential consistency, and they can do under
PSO what they can do under TSO if the stores of a thread that start at one address have one size. -/
theorem sc_tso_pso (programs : ι → Program Operation (List Byte)) (mem : Memory) :
    (∀ turns s, run (step sc programs) (start sc mem) turns = some s →
      ∃ turns' s', run (step tso programs) (start tso mem) turns' = some s' ∧
        s'.memory = s.memory ∧ s'.results = s.results) ∧
      ∀ size : ι → SymAddr → ℕ,
        (∀ t results op, programs t results = some op → op.Sized (size t)) →
          ∀ turns s, run (step tso programs) (start tso mem) turns = some s →
            ∃ turns' s', run (step pso programs) (start pso mem) turns' = some s' ∧
              s'.memory = s.memory ∧ s'.results = s.results := by
  constructor
  · intro turns s hrun
    obtain ⟨turns', s', hrun', hsimilar⟩ := Simulates.run
      (fun _ => tso_drains.simulates_sc) (fun _ _ _ _ => trivial) hrun
    exact ⟨turns', s', hrun', hsimilar.memory, hsimilar.results⟩
  · intro size hsized turns s hrun
    obtain ⟨turns', s', hrun', hsimilar⟩ :=
      Simulates.run (fun t => (pso_drains (size t)).simulates_tso) hsized hrun
    exact ⟨turns', s', hrun', hsimilar.memory, hsimilar.results⟩

/-- A byte of its own. -/
def ownByte (t : Bool) : AccessRange := ⟨⟨⟨.global (if t then 1 else 0), 0⟩, 1⟩, Nat.one_pos⟩

/-- Each of two threads stores to its byte and then loads the other one. -/
def storeBuffering (t : Bool) : Program Operation (List Byte)
  | [] => some (.store ⟨ownByte t, ⟨[1], rfl⟩⟩)
  | [_] => some (.load (ownByte !t))
  | _ => none

theorem storeBuffering_sized (t : Bool) (results : List (List Byte)) (op : Operation)
    (hop : storeBuffering t results = some op) : op.Sized fun _ => 1 := by
  cases results with
  | nil =>
      cases hop
      rfl
  | cons r rest =>
      cases rest with
      | nil =>
          cases hop
          trivial
      | cons r' rest => cases hop

theorem sc_tso_pso_storeBuffering :
    ∃ turns s, run (step pso storeBuffering) (start pso fun _ => 0) turns = some s ∧
      s.results true = [[], [0]] ∧ s.results false = [[], [0]] := by
  obtain ⟨turns, s, hrun, -, hresults⟩ :=
    (sc_tso_pso storeBuffering fun _ => 0).2 (fun _ _ => 1) storeBuffering_sized
      [.issue true 0, .issue false 1, .issue true 2, .issue false 3] _ rfl
  exact ⟨turns, s, hrun, by rw [hresults]; rfl, by rw [hresults]; rfl⟩

/-! ### Progress -/

variable {programs : ι → Program Operation (List Byte)} {AllowedOf : ι → Operation → Prop}
  {KeptOf : ι → γ → List SymData → Bool → Prop} {s u : State ι Memory (List Byte) γ}

/-- Each thread keeps its pending stores. -/
def KeptAll (KeptOf : ι → γ → List SymData → Bool → Prop) (s : State ι Memory (List Byte) γ) :
    Prop := ∀ t, ∃ (pending : List SymData) (a : Bool), KeptOf t (s.component t) pending a

theorem KeptAll.after (h : KeptAll KeptOf s) {t : ι} {r : Option (List Byte)}
    (hc : KeptOf t c pending a) : KeptAll KeptOf (s.after t m c r) := by
  intro t'
  by_cases ht : t' = t
  · subst ht
    exact ⟨pending, a, by simpa [State.after] using hc⟩
  · simpa [State.after, ht] using h t'

theorem keptAll_run (hbuffers : ∀ t, Buffers D (AllowedOf t) (KeptOf t))
    (hallowed : ∀ t results op, programs t results = some op → AllowedOf t op)
    {turns : List (Turn ι β)} (hrun : run (step D programs) (start D m) turns = some s) :
    KeptAll KeptOf s := by
  refine run_invariant ?_ (fun t => ⟨[], true, (hbuffers t).initial⟩) hrun
  intro s turn u h hstep
  cases turn with
  | issue t idx =>
      obtain ⟨op, m, c, r, hop, hissue, rfl⟩ := step_issue_eq_some.mp hstep
      obtain ⟨pending, a, hkept⟩ := h t
      obtain ⟨-, -, hkept₁⟩ | ⟨bytes, pending₁, -, -, hkept₁⟩ :=
        (hbuffers t).issue hkept (hallowed t _ op hop) hissue
      · exact h.after hkept₁
      · exact h.after hkept₁
  | background t b =>
      obtain ⟨m, c, hb, rfl⟩ := step_background_eq_some.mp hstep
      obtain ⟨pending, a, hkept⟩ := h t
      obtain ⟨front, sd, back, a₁, -, -, -, hkept₁⟩ := (hbuffers t).background hkept hb
      exact h.after hkept₁

/-- After some turns of its auxiliary threads, a thread performs an operation. -/
def Proceeds (D : Discipline Memory Operation (List Byte) γ β)
    (programs : ι → Program Operation (List Byte)) (s : State ι Memory (List Byte) γ) (t : ι)
    (idx : ℕ) : Prop :=
  ∃ (bs : List β) (u : State ι Memory (List Byte) γ) (bytes : List Byte),
    run (step D programs) s (bs.map (.background t) ++ [.issue t idx]) = some u ∧
      u.results = Function.update s.results t (s.results t ++ [bytes])

theorem Drains.progress (hdrains : ∀ t, Drains D (AllowedOf t) (KeptOf t))
    (hallowed : ∀ t results op, programs t results = some op → AllowedOf t op)
    {turns : List (Turn ι β)} (hrun : run (step D programs) (start D m) turns = some s) (t : ι)
    (hop : programs t (s.results t) = some op) (idx : ℕ) : Proceeds D programs s t idx := by
  obtain ⟨pending, a, hkept⟩ := keptAll_run (fun t => (hdrains t).toBuffers) hallowed hrun t
  obtain ⟨bs, c₁, hbs, hkept₁⟩ := (hdrains t).drain (m := s.memory) hkept
  obtain ⟨m₂, pending₂, hperformed, -⟩ := Performed.nil (pending.foldl Memory.write s.memory) op
  obtain ⟨c₂, hissue, -⟩ :=
    (hdrains t).perform idx hkept₁ (hallowed t _ op hop) hperformed
  have hlast : step D programs (s.after t (pending.foldl Memory.write s.memory) c₁ none)
      (.issue t idx) = some _ := step_issue_eq_some.mpr
    ⟨op, m₂, c₂, _, by simpa [State.after] using hop, by simpa [State.after] using hissue, rfl⟩
  refine ⟨bs, _, (op.perform (pending.foldl Memory.write s.memory)).2,
    by rw [run_concat, run_background hbs, Option.bind_some, hlast], ?_⟩
  simp [State.after]

/-- In every state that is reached, each thread can perform its next operation after some updates of
its own: under TSO always, under PSO if its stores that start at one address have one size. -/
theorem never_stuck (programs : ι → Program Operation (List Byte)) (mem : Memory) :
    (∀ turns s, run (step tso programs) (start tso mem) turns = some s →
      ∀ t op, programs t (s.results t) = some op → ∀ idx, Proceeds tso programs s t idx) ∧
      ∀ size : ι → SymAddr → ℕ,
        (∀ t results op, programs t results = some op → op.Sized (size t)) →
          ∀ turns s, run (step pso programs) (start pso mem) turns = some s →
            ∀ t op, programs t (s.results t) = some op → ∀ idx, Proceeds pso programs s t idx := by
  constructor
  · intro turns s hrun t op hop idx
    exact Drains.progress (fun _ => tso_drains) (fun _ _ _ _ => trivial) hrun t hop idx
  · intro size hsized turns s hrun t op hop idx
    exact Drains.progress (fun t => pso_drains (size t)) hsized hrun t hop idx

theorem never_stuck_storeBuffering :
    ∃ s, run (step pso storeBuffering) (start pso fun _ => 0) [.issue true 0] = some s ∧
      Proceeds pso storeBuffering s true 1 :=
  ⟨_, rfl, (never_stuck storeBuffering fun _ => 0).2 (fun _ _ => 1) storeBuffering_sized
    [.issue true 0] _ rfl true (.load (ownByte false)) rfl 1⟩

end Nidhugg
