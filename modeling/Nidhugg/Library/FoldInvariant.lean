import Mathlib.Data.Option.Basic
import Mathlib.Tactic.Common

/-! # Loops that may fail

Invariants of such loops, and when they do not fail. -/

namespace FoldInvariant

variable {σ α : Type} {f : σ → α → Option σ} {Inv : σ → Prop}

/-- What each turn of a loop keeps holds after the loop. -/
theorem of_foldlM (xs : List α) (hstep : ∀ s x s', x ∈ xs → Inv s → f s x = some s' → Inv s')
    {s s' : σ} (hs : Inv s) (hfold : xs.foldlM f s = some s') : Inv s' := by
  induction xs generalizing s with
  | nil =>
      cases hfold
      exact hs
  | cons x xs ih =>
      rw [List.foldlM_cons] at hfold
      obtain ⟨t, ht, hrest⟩ := Option.bind_eq_some_iff.mp hfold
      exact ih (fun s y s' hy => hstep s y s' (List.mem_cons_of_mem _ hy))
        (hstep s x t List.mem_cons_self hs ht) hrest

/-- The same with the number of turns made so far. -/
theorem of_foldlM_indexed {Inv : ℕ → σ → Prop} {xs : List α} {n : ℕ}
    (hstep : ∀ j s x s', xs[j]? = some x → Inv (n + j) s → f s x = some s' → Inv (n + j + 1) s')
    {s s' : σ} (hs : Inv n s) (hfold : xs.foldlM f s = some s') : Inv (n + xs.length) s' := by
  induction xs generalizing s n with
  | nil =>
      cases hfold
      exact hs
  | cons x xs ih =>
      rw [List.foldlM_cons] at hfold
      obtain ⟨t, ht, hrest⟩ := Option.bind_eq_some_iff.mp hfold
      rw [List.length_cons, Nat.add_comm xs.length 1, ← Nat.add_assoc]
      refine ih ?_ (hstep 0 s x t rfl hs ht) hrest
      intro j s y s' hy hinv hturn
      rw [Nat.add_assoc n 1 j, Nat.add_comm 1 j] at hinv ⊢
      exact hstep (j + 1) s y s' hy hinv hturn

/-- A loop over elements that all have results. -/
theorem mapM_eq_some_of_forall {α β : Type*} (f : α → Option β) (xs : List α)
    (h : ∀ x ∈ xs, (f x).isSome = true) :
    ∃ ys, xs.mapM f = some ys ∧ ∀ y, y ∈ ys ↔ ∃ x ∈ xs, f x = some y := by
  induction xs with
  | nil => exact ⟨[], rfl, by simp⟩
  | cons x xs ih =>
      obtain ⟨y, hy⟩ := Option.isSome_iff_exists.mp (h x (by simp))
      obtain ⟨ys, hys, hmem⟩ := ih fun z hz => h z (by simp [hz])
      refine ⟨y :: ys, by simp [hy, hys], fun z => ?_⟩
      simp only [List.mem_cons, hmem, exists_eq_or_imp, hy, Option.some.injEq]
      exact or_congr_left eq_comm

end FoldInvariant

/-! # Inverting computations that can fail -/

namespace ExceptBind

universe u v

variable {ε : Type u} {α β : Type v}

/-- A sequence of two computations succeeds when both do. -/
theorem bind_eq_ok {x : Except ε α} {f : α → Except ε β} {b : β} :
    (x >>= f) = .ok b ↔ ∃ a, x = .ok a ∧ f a = .ok b := by
  cases x <;> simp [Bind.bind, Except.bind]

theorem pure_eq_ok {a b : α} : (pure a : Except ε α) = .ok b ↔ a = b := by
  simp [Pure.pure, Except.pure]

/-- A successful map over a list succeeds at every element, in order. -/
theorem mapM_eq_ok {f : α → Except ε β} {xs : List α} :
    ∀ {ys : List β}, xs.mapM f = .ok ys → List.Forall₂ (fun x y => f x = .ok y) xs ys := by
  induction xs with
  | nil =>
      intro ys h
      obtain rfl : [] = ys := pure_eq_ok.mp h
      exact .nil
  | cons x xs ih =>
      intro ys h
      rw [List.mapM_cons] at h
      obtain ⟨y, hy, h⟩ := bind_eq_ok.mp h
      obtain ⟨zs, hzs, h⟩ := bind_eq_ok.mp h
      obtain rfl : y :: zs = ys := pure_eq_ok.mp h
      exact .cons hy (ih hzs)

end ExceptBind
