import Mathlib.Tactic.Common

/-! # Pre- and postconditions of computations with state that can fail

`Triple P m Q` says that if `m` starts in a state with `P` and returns, its result and final state
satisfy `Q`. `Keeps P m` is the case of an invariant. Nothing is said about a computation that
fails. -/

namespace Hoare

universe u v

variable {σ α β : Type u} {ε : Type v}

/-- A computation that changes a state of type `σ` or fails with an `ε`. -/
abbrev Comp (σ : Type u) (ε : Type v) (α : Type u) := StateT σ (Except ε) α

structure Triple (P : σ → Prop) (m : Comp σ ε α) (Q : α → σ → Prop) : Prop where
  returns : ∀ {s a t}, P s → m s = .ok (a, t) → Q a t

/-- The computation keeps the invariant `P`. -/
abbrev Keeps (P : σ → Prop) (m : Comp σ ε α) : Prop := Triple P m fun _ => P

variable {P P' : σ → Prop} {m : Comp σ ε α} {f : α → Comp σ ε β} {Q Q' : α → σ → Prop}
  {R : β → σ → Prop}

theorem bind_eq_ok {s : σ} {b : β} {u : σ} :
    (m >>= f) s = .ok (b, u) ↔ ∃ a t, m s = .ok (a, t) ∧ f a t = .ok (b, u) := by
  change (m s >>= fun p => f p.1 p.2) = _ ↔ _
  cases h : m s with
  | error e => simp [Bind.bind, Except.bind]
  | ok p =>
      obtain ⟨a, t⟩ := p
      simp [Bind.bind, Except.bind]

theorem pure_eq_ok {a b : α} {s t : σ} :
    (pure a : Comp σ ε α) s = .ok (b, t) ↔ a = b ∧ s = t := by
  change (Except.ok (a, s) : Except ε (α × σ)) = _ ↔ _
  simp

theorem throw_ne_ok {e : ε} {s : σ} {p : α × σ} : (throw e : Comp σ ε α) s ≠ .ok p := by
  change (Except.error e : Except ε (α × σ)) ≠ _
  simp

theorem Triple.bind (hm : Triple P m Q) (hf : ∀ a, Triple (Q a) (f a) R) :
    Triple P (m >>= f) R := by
  constructor
  intro s b u hs h
  obtain ⟨a, t, hat, hbu⟩ := bind_eq_ok.mp h
  exact (hf a).returns (hm.returns hs hat) hbu

theorem Triple.conseq (h : Triple P' m Q') (hP : ∀ s, P s → P' s) (hQ : ∀ a s, Q' a s → Q a s) :
    Triple P m Q := by
  constructor
  intro s a t hs hat
  exact hQ a t (h.returns (hP s hs) hat)

theorem Triple.pure {a : α} (h : ∀ s, P s → Q a s) : Triple P (pure a : Comp σ ε α) Q := by
  constructor
  intro s b t hs hbt
  obtain ⟨rfl, rfl⟩ := pure_eq_ok.mp hbt
  exact h s hs

theorem Triple.throw {e : ε} : Triple P (throw e : Comp σ ε α) Q := by
  constructor
  intro s a t _ h
  exact (throw_ne_ok h).elim

theorem Triple.throw_bind {e : ε} {f : α → Comp σ ε β} :
    Triple P ((MonadExcept.throw e : Comp σ ε α) >>= f) R := by
  constructor
  intro s b u _ h
  obtain ⟨a, t, hat, _⟩ := bind_eq_ok.mp h
  exact (throw_ne_ok hat).elim

/-- Reading the state tells the continuation what it is. -/
theorem Triple.get_bind {f : σ → Comp σ ε β}
    (h : ∀ s, P s → Triple (fun t => t = s ∧ P t) (f s) R) : Triple P (get >>= f) R := by
  constructor
  intro s b u hs hbu
  exact (h s hs).returns ⟨rfl, hs⟩ hbu

theorem Triple.modify {f : σ → σ} {R : PUnit → σ → Prop} (h : ∀ s, P s → R ⟨⟩ (f s)) :
    Triple P (modify f : Comp σ ε PUnit) R := by
  constructor
  intro s a t hs hat
  obtain ⟨rfl, rfl⟩ : a = ⟨⟩ ∧ f s = t := by
    have heq : (Except.ok (⟨⟩, f s) : Except ε (PUnit × σ)) = .ok (a, t) := hat
    simpa using heq
  exact h s hs

theorem Triple.set {t : σ} {R : PUnit → σ → Prop} (h : ∀ s, P s → R ⟨⟩ t) :
    Triple P (set t : Comp σ ε PUnit) R :=
  Triple.modify (f := fun _ => t) h

theorem Triple.ite {c : Prop} [Decidable c] {m' : Comp σ ε α} (h : c → Triple P m Q)
    (h' : ¬c → Triple P m' Q) : Triple P (if c then m else m') Q := by
  by_cases hc : c
  · rw [if_pos hc]
    exact h hc
  · rw [if_neg hc]
    exact h' hc

theorem Triple.and (h : Triple P m Q) (h' : Triple P' m Q') :
    Triple (fun s => P s ∧ P' s) m fun a s => Q a s ∧ Q' a s := by
  constructor
  intro s a t hs hat
  exact ⟨h.returns hs.1 hat, h'.returns hs.2 hat⟩

/-- The precondition can be used for a fixed initial state. -/
theorem Triple.of_forall (h : ∀ s, P s → Triple (fun t => t = s) m Q) : Triple P m Q := by
  constructor
  intro s a t hs hat
  exact (h s hs).returns rfl hat

/-- A pure part of the precondition can be assumed. -/
theorem Triple.assuming {c : Prop} (h : c → Triple P m Q) : Triple (fun s => P s ∧ c) m Q := by
  constructor
  intro s a t hs hat
  exact (h hs.2).returns hs.1 hat

namespace Keeps

theorem pure {a : α} : Keeps P (pure a : Comp σ ε α) := Triple.pure fun _ h => h

theorem throw {e : ε} : Keeps P (throw e : Comp σ ε α) := Triple.throw

theorem get_bind {f : σ → Comp σ ε β} (h : ∀ s, P s → Keeps P (f s)) : Keeps P (get >>= f) := by
  apply Triple.get_bind
  intro s hs
  exact (h s hs).conseq (fun t ht => ht.2) fun _ _ ht => ht

theorem modify {f : σ → σ} (h : ∀ s, P s → P (f s)) : Keeps P (modify f : Comp σ ε PUnit) :=
  Triple.modify h

/-- A conditional computation before the rest. -/
theorem when {c : Prop} [Decidable c] {x : Comp σ ε PUnit} {k : PUnit → Comp σ ε α}
    (hx : Keeps P x) (hk : ∀ u, Keeps P (k u)) : Keeps P (if c then x >>= k else k ⟨⟩) :=
  Triple.ite (fun _ => hx.bind hk) fun _ => hk ⟨⟩

theorem forM_list {τ : Type u} {f : τ → Comp σ ε PUnit} (h : ∀ x, Keeps P (f x)) (xs : List τ) :
    Keeps P (xs.forM f) := by
  induction xs with
  | nil => exact pure
  | cons x xs ih =>
      exact (h x).bind fun _ => ih

end Keeps

end Hoare
