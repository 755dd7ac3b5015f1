import Mathlib.Data.Set.Finite.Basic
import Mathlib.Order.Nat
import Mathlib.Order.WellFounded

/-! # Properties of all reachable positions

In a graph whose edges go to later positions of a finite sequence, a property that is
passed on along edges is a property of everything that can be reached. -/

namespace Reachability

open Relation

variable {next : ℕ → ℕ → Prop} {n : ℕ}

/-- A property that holds at a position together with all its successors. -/
theorem iff_forall_reachable (hnext : ∀ {i j}, next i j → i < j ∧ j < n) {P R : ℕ → Prop}
    (hstep : ∀ i, i < n → (R i ↔ P i ∧ ∀ j, next i j → R j)) {i : ℕ} (hi : i < n) :
    R i ↔ ∀ j, ReflTransGen next i j → P j := by
  constructor
  · intro hR j hij
    induction hij using ReflTransGen.head_induction_on with
    | refl =>
        exact ((hstep _ hi).mp hR).1
    | head hij _ ih => exact ih (hnext hij).2 (((hstep _ hi).mp hR).2 _ hij)
  · intro hP
    induction hm : n - i using Nat.strong_induction_on generalizing i with
    | _ m ih =>
        apply (hstep i hi).mpr
        refine ⟨hP i .refl, fun j hij => ?_⟩
        obtain ⟨hlt, hj⟩ := hnext hij
        exact ih (n - j) (by omega) hj (fun k hjk => hP k (.head hij hjk)) rfl

/-- A walk through finitely many elements comes to an end if no element is reached again. -/
theorem acc_of_not_transGen {α : Type*} {step : α → α → Prop} {x : α}
    (hfinite : {y | ReflTransGen step x y}.Finite)
    (hcycle : ∀ y, ReflTransGen step x y → ¬TransGen step y y) : Acc (fun y x => step x y) x := by
  have : Finite {y // ReflTransGen step x y} := hfinite
  let walk : {y // ReflTransGen step x y} → {y // ReflTransGen step x y} → Prop :=
    fun z y => TransGen step y.1 z.1
  have : IsTrans _ walk := ⟨fun _ _ _ hab hbc => TransGen.trans hbc hab⟩
  have : Std.Irrefl walk := ⟨fun y => hcycle y.1 y.2⟩
  have hwf : WellFounded walk := Finite.wellFounded_of_trans_of_irrefl walk
  have hacc : ∀ y : {y // ReflTransGen step x y}, Acc (fun y x => step x y) y.1 := by
    intro y
    induction y using hwf.induction with
    | _ y ih => exact Acc.intro y.1 fun z hz => ih ⟨z, y.2.tail hz⟩ (.single hz)
  exact hacc ⟨x, .refl⟩

end Reachability

/-! # Simulation of machines with outputs

A machine takes a state and an input to a state and an output, or refuses the input. Two
machines related by a simulation accept the same inputs and give the same outputs. -/

namespace Simulation

variable {σ τ ι o : Type*}

/-- The outputs of a sequence of inputs and the final state. -/
def runOutputs (step : σ → ι → Option (σ × o)) (s : σ) : List ι → Option (σ × List o)
  | [] => some (s, [])
  | i :: is => do
      let (t, out) ← step s i
      let (u, outs) ← runOutputs step t is
      return (u, out :: outs)

variable {step : σ → ι → Option (σ × o)} {step' : τ → ι → Option (τ × o)}

/-- Both machines refuse the input, or both accept it with the same output. -/
def Agrees (R : σ → τ → Prop) (a : Option (σ × o)) (b : Option (τ × o)) : Prop :=
  match a, b with
  | none, none => True
  | some (s, x), some (t, y) => R s t ∧ x = y
  | _, _ => False

theorem Agrees.imp {R R' : σ → τ → Prop} {a : Option (σ × o)} {b : Option (τ × o)}
    (h : Agrees R a b) (himp : ∀ s t, R s t → R' s t) : Agrees R' a b := by
  cases a with
  | none =>
      cases b with
      | none => trivial
      | some y => exact h.elim
  | some x =>
      cases b with
      | none => exact h.elim
      | some y => exact ⟨himp _ _ h.1, h.2⟩

theorem runOutputs_agrees {R : σ → τ → Prop}
    (hstep : ∀ s t i, R s t → Agrees R (step s i) (step' t i)) {s : σ} {t : τ} (h : R s t)
    (is : List ι) :
    Agrees R (runOutputs step s is) (runOutputs step' t is) := by
  induction is generalizing s t with
  | nil => exact ⟨h, rfl⟩
  | cons i is ih =>
      have hi := hstep s t i h
      simp only [runOutputs, Option.bind_eq_bind]
      cases hs : step s i with
      | none =>
          cases ht : step' t i with
          | none => trivial
          | some b => simp [Agrees, hs, ht] at hi
      | some a =>
          cases ht : step' t i with
          | none => simp [Agrees, hs, ht] at hi
          | some b =>
              simp only [Agrees, hs, ht] at hi
              obtain ⟨hR, hout⟩ := hi
              have hrest := ih hR
              simp only [Option.bind_some]
              cases hs' : runOutputs step a.1 is with
              | none =>
                  cases ht' : runOutputs step' b.1 is with
                  | none => trivial
                  | some d => simp [Agrees, hs', ht'] at hrest
              | some c =>
                  cases ht' : runOutputs step' b.1 is with
                  | none => simp [Agrees, hs', ht'] at hrest
                  | some d =>
                      simp only [Agrees, hs', ht'] at hrest
                      obtain ⟨hR', hout'⟩ := hrest
                      exact ⟨hR', by simp [hout, hout']⟩

end Simulation
