import Nidhugg.Library.LabelledRun

/-! # Programs that share a memory

Each thread runs a program that reacts to the results of its operations. A discipline says how an
operation acts on the memory and on what is kept for its thread, and which turns are taken in the
background. A simulation of one thread is a simulation of all threads together. -/

namespace SharedSystem

/-- The next operation after the results so far. -/
abbrev Program (ω ρ : Type*) := List ρ → Option ω

/-- How operations are performed. -/
structure Discipline (μ ω ρ γ β : Type*) where
  /-- What is kept for a new thread. -/
  initial : γ
  /-- An operation of a thread at the index of an event. There is no result if it is refused. -/
  issue : μ → γ → ℕ → ω → Option (μ × γ × Option ρ)
  background : μ → γ → β → Option (μ × γ)

structure State (ι μ ρ γ : Type*) where
  memory : μ
  component : ι → γ
  results : ι → List ρ

inductive Turn (ι β : Type*) where
  | issue (t : ι) (idx : ℕ)
  | background (t : ι) (b : β)

variable {ι μ ω ρ γ β γ' β' : Type*} [DecidableEq ι]

def start (D : Discipline μ ω ρ γ β) (memory : μ) : State ι μ ρ γ :=
  ⟨memory, fun _ => D.initial, fun _ => []⟩

/-- The state after a turn in which a thread acts. -/
def State.after (s : State ι μ ρ γ) (t : ι) (m : μ) (c : γ) (r : Option ρ) : State ι μ ρ γ where
  memory := m
  component := Function.update s.component t c
  results := Function.update s.results t (s.results t ++ r.toList)

def step (D : Discipline μ ω ρ γ β) (programs : ι → Program ω ρ) (s : State ι μ ρ γ) :
    Turn ι β → Option (State ι μ ρ γ)
  | .issue t idx => (programs t (s.results t)).bind fun op =>
      (D.issue s.memory (s.component t) idx op).map fun (m, c, r) => s.after t m c r
  | .background t b =>
      (D.background s.memory (s.component t) b).map fun (m, c) => s.after t m c none

variable {D : Discipline μ ω ρ γ β} {D' : Discipline μ ω ρ γ' β'} {programs : ι → Program ω ρ}
  {s u : State ι μ ρ γ} {s' : State ι μ ρ γ'} {t : ι} {m m' : μ} {c c' : γ}

open LabelledRun

theorem step_issue_eq_some {idx : ℕ} : step D programs s (.issue t idx) = some u ↔
    ∃ (op : ω) (m : μ) (c : γ) (r : Option ρ), programs t (s.results t) = some op ∧
      D.issue s.memory (s.component t) idx op = some (m, c, r) ∧ u = s.after t m c r := by
  simp only [step, Option.bind_eq_some_iff, Option.map_eq_some_iff, Prod.exists]
  grind

theorem step_background_eq_some {b : β} : step D programs s (.background t b) = some u ↔
    ∃ (m : μ) (c : γ), D.background s.memory (s.component t) b = some (m, c) ∧
      u = s.after t m c none := by
  simp only [step, Option.map_eq_some_iff, Prod.exists]
  grind

/-! ### Turns in the background -/

/-- Several turns in the background of one thread. -/
def Discipline.runBackground (D : Discipline μ ω ρ γ β) (m : μ) (c : γ) (bs : List β) :
    Option (μ × γ) := run (fun (p : μ × γ) b => D.background p.1 p.2 b) (m, c) bs

theorem State.after_none_self : s.after t s.memory (s.component t) none = s := by
  simp [State.after]

theorem State.after_after {r r' : Option ρ} :
    (s.after t m c r).after t m' c' r' = ⟨m', Function.update s.component t c',
      Function.update s.results t (s.results t ++ r.toList ++ r'.toList)⟩ := by
  simp [State.after]

theorem run_background {bs : List β}
    (h : D.runBackground s.memory (s.component t) bs = some (m, c)) :
    run (step D programs) s (bs.map (.background t)) = some (s.after t m c none) := by
  induction bs generalizing s with
  | nil =>
      cases h
      rw [State.after_none_self]
      rfl
  | cons b bs ih =>
      rw [Discipline.runBackground, run_cons, Option.bind_eq_some_iff] at h
      obtain ⟨⟨m₁, c₁⟩, hb, hrest⟩ := h
      have hstep : step D programs s (.background t b) = some (s.after t m₁ c₁ none) :=
        step_background_eq_some.mpr ⟨m₁, c₁, hb, rfl⟩
      rw [List.map_cons, run_cons, hstep, Option.bind_some, ih, State.after_after]
      · simp [State.after]
      · simpa [State.after, Discipline.runBackground] using hrest

/-! ### Simulation -/

/-- A relation between what two disciplines keep for a thread, which the operations that are allowed
for the thread maintain. -/
structure Simulates (D : Discipline μ ω ρ γ β) (D' : Discipline μ ω ρ γ' β')
    (Allowed : ω → Prop) (R : γ → γ' → Prop) : Prop where
  initial : R D.initial D'.initial
  issue : ∀ {m m₁ : μ} {c c₁ : γ} {c' : γ'} {idx : ℕ} {op : ω} {r : ρ}, R c c' →
    Allowed op → D.issue m c idx op = some (m₁, c₁, some r) →
      ∃ (m₂ : μ) (c₂ c₁' : γ') (bs : List β'), D'.issue m c' idx op = some (m₂, c₂, some r) ∧
        D'.runBackground m₂ c₂ bs = some (m₁, c₁') ∧ R c₁ c₁'
  refuse : ∀ {m m₁ : μ} {c c₁ : γ} {c' : γ'} {idx : ℕ} {op : ω}, R c c' → Allowed op →
    D.issue m c idx op = some (m₁, c₁, none) →
      ∃ (bs : List β') (c₁' : γ'), D'.runBackground m c' bs = some (m₁, c₁') ∧ R c₁ c₁'
  background : ∀ {m m₁ : μ} {c c₁ : γ} {c' : γ'} {b : β}, R c c' →
    D.background m c b = some (m₁, c₁) →
      ∃ (bs : List β') (c₁' : γ'), D'.runBackground m c' bs = some (m₁, c₁') ∧ R c₁ c₁'

/-- Two states that nothing but the components of threads distinguishes. -/
structure Similar (R : ι → γ → γ' → Prop) (s : State ι μ ρ γ) (s' : State ι μ ρ γ') : Prop where
  memory : s'.memory = s.memory
  results : s'.results = s.results
  component : ∀ t, R t (s.component t) (s'.component t)

variable {R : ι → γ → γ' → Prop} {Allowed : ι → ω → Prop}

theorem Similar.after (h : Similar R s s') {c' : γ'} {r : Option ρ} (hc : R t c c') :
    Similar R (s.after t m c r) (s'.after t m c' r) := by
  refine ⟨rfl, ?_, fun t' => ?_⟩
  · simp [State.after, h.results]
  · by_cases ht : t' = t
    · subst ht
      simpa [State.after] using hc
    · simpa [State.after, ht] using h.component t'

theorem Similar.step (hsim : ∀ t, Simulates D D' (Allowed t) (R t))
    (hallowed : ∀ t results op, programs t results = some op → Allowed t op)
    (h : Similar R s s') {turn : Turn ι β} (hstep : step D programs s turn = some u) :
    ∃ (turns : List (Turn ι β')) (u' : State ι μ ρ γ'),
      run (SharedSystem.step D' programs) s' turns = some u' ∧ Similar R u u' := by
  cases turn with
  | issue t idx =>
      obtain ⟨op, m, c, r, hop, hissue, rfl⟩ := step_issue_eq_some.mp hstep
      have hallowed' := hallowed t _ op hop
      cases r with
      | none =>
          obtain ⟨bs, c', hbs, hc⟩ := (hsim t).refuse (h.component t) hallowed' hissue
          exact ⟨bs.map (.background t), s'.after t m c' none,
            run_background (by rw [h.memory, hbs]), h.after hc⟩
      | some r =>
          obtain ⟨m₂, c₂, c', bs, hissue', hbs, hc⟩ :=
            (hsim t).issue (h.component t) hallowed' hissue
          have hfirst : SharedSystem.step D' programs s' (.issue t idx) =
              some (s'.after t m₂ c₂ (some r)) :=
            step_issue_eq_some.mpr
              ⟨op, m₂, c₂, some r, by rw [h.results, hop], by rw [h.memory, hissue'], rfl⟩
          have hrest : run (SharedSystem.step D' programs) (s'.after t m₂ c₂ (some r))
              (bs.map (.background t)) = some (s'.after t m c' (some r)) := by
            rw [run_background (by simpa [State.after] using hbs), State.after_after]
            simp [State.after]
          exact ⟨.issue t idx :: bs.map (.background t), s'.after t m c' (some r),
            by rw [run_cons, hfirst, Option.bind_some, hrest], h.after hc⟩
  | background t b =>
      obtain ⟨m, c, hb, rfl⟩ := step_background_eq_some.mp hstep
      obtain ⟨bs, c', hbs, hc⟩ := (hsim t).background (h.component t) hb
      exact ⟨bs.map (.background t), s'.after t m c' none,
        run_background (by rw [h.memory, hbs]), h.after hc⟩

/-- Every run has a run of the other discipline with the same memory and the same results. -/
theorem Simulates.run (hsim : ∀ t, Simulates D D' (Allowed t) (R t))
    (hallowed : ∀ t results op, programs t results = some op → Allowed t op)
    {turns : List (Turn ι β)} (hrun : run (step D programs) (start D m) turns = some s) :
    ∃ (turns' : List (Turn ι β')) (s' : State ι μ ρ γ'),
      LabelledRun.run (step D' programs) (start D' m) turns' = some s' ∧ Similar R s s' := by
  induction turns using List.reverseRecOn generalizing s with
  | nil =>
      cases hrun
      exact ⟨[], start D' m, rfl, rfl, rfl, fun t => (hsim t).initial⟩
  | append_singleton turns turn ih =>
      rw [run_concat, Option.bind_eq_some_iff] at hrun
      obtain ⟨u, hu, hstep⟩ := hrun
      obtain ⟨turns₁, u', hu', hsimilar⟩ := ih hu
      obtain ⟨turns₂, s', hs', hsimilar'⟩ := hsimilar.step hsim hallowed hstep
      exact ⟨turns₁ ++ turns₂, s', by rw [run_append, hu', Option.bind_some, hs'], hsimilar'⟩

end SharedSystem
