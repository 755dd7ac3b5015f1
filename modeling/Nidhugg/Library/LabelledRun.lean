import Mathlib.Data.List.Induction

/-! # Runs of labelled transition systems

A step function takes a state and a label and may be undefined. Invariants of steps are
invariants of runs, and an invariant that counts a kind of step decides whether a run stays
good. -/

namespace LabelledRun

variable {σ α : Type*} (step : σ → α → Option σ)

/-- The state after a sequence of labels. -/
def run (s : σ) (labels : List α) : Option σ := labels.foldlM step s

/-- Every state along the run is good. -/
def AlwaysAlong (Good : σ → Prop) (s : σ) (labels : List α) : Prop :=
  ∀ xs u, xs <+: labels → run step s xs = some u → Good u

/-- The run takes no counted step. -/
def NeverAlong (counted : σ → α → Bool) (s : σ) (labels : List α) : Prop :=
  ∀ xs a u, xs ++ [a] <+: labels → run step s xs = some u → counted u a = false

variable {step}

@[simp]
theorem run_nil (s : σ) : run step s [] = some s := rfl

theorem run_cons (s : σ) (a : α) (labels : List α) :
    run step s (a :: labels) = (step s a).bind fun t => run step t labels := rfl

theorem run_append (s : σ) (xs ys : List α) :
    run step s (xs ++ ys) = (run step s xs).bind fun t => run step t ys := by
  induction xs generalizing s with
  | nil => rfl
  | cons a xs ih =>
      rw [List.cons_append, run_cons, run_cons, Option.bind_assoc]
      congr 1
      funext t
      exact ih t

theorem run_concat (s : σ) (xs : List α) (a : α) :
    run step s (xs ++ [a]) = (run step s xs).bind fun t => step t a := by
  rw [run_append]
  congr 1
  funext t
  rw [run_cons]
  cases step t a with
  | none => rfl
  | some u => rfl

/-- A run can be cut off behind any of its labels. -/
theorem exists_of_prefix {s t : σ} {xs labels : List α} (hrun : run step s labels = some t)
    (hpre : xs <+: labels) : ∃ u, run step s xs = some u := by
  obtain ⟨ys, rfl⟩ := hpre
  rw [run_append] at hrun
  obtain ⟨u, hu, -⟩ := Option.bind_eq_some_iff.mp hrun
  exact ⟨u, hu⟩

/-- Follows the run and tests each step. -/
def avoids (step : σ → α → Option σ) (counted : σ → α → Bool) : σ → List α → Bool
  | _, [] => true
  | s, a :: labels => !counted s a && (step s a).all fun t => avoids step counted t labels

theorem neverAlong_of_avoids {counted : σ → α → Bool} {s : σ} {labels : List α}
    (h : avoids step counted s labels = true) : NeverAlong step counted s labels := by
  intro xs a u hpre hrun
  induction xs generalizing s labels with
  | nil =>
      cases hrun
      obtain ⟨rest, rfl⟩ := hpre
      simp only [List.nil_append, List.singleton_append, avoids, Bool.and_eq_true,
        Bool.not_eq_true'] at h
      exact h.1
  | cons x xs ih =>
      obtain ⟨rest, rfl⟩ := hpre
      obtain ⟨t, hstep, hrun⟩ := Option.bind_eq_some_iff.mp (run_cons s x xs ▸ hrun)
      simp only [List.cons_append, avoids, hstep, Option.all_some, Bool.and_eq_true] at h
      exact ih h.2 (List.prefix_append _ rest) hrun

/-- What holds at the start and is kept by every step holds after every run. -/
theorem run_invariant {Inv : σ → Prop} (hstep : ∀ s a t, Inv s → step s a = some t → Inv t)
    {s t : σ} {labels : List α} (h : Inv s) (hrun : run step s labels = some t) : Inv t := by
  induction labels generalizing s with
  | nil =>
      rw [run_nil, Option.some.injEq] at hrun
      rwa [← hrun]
  | cons a labels ih =>
      rw [run_cons] at hrun
      obtain ⟨u, hu, hrun⟩ := Option.bind_eq_some_iff.mp hrun
      exact ih (hstep s a u h hu) hrun

/-- The states of a run are good exactly as long as it takes no counted step, if an
invariant counts these steps and a state is good exactly at count zero. -/
theorem good_iff_uncounted {Inv : ℕ → σ → Prop} {Good : σ → Prop} {counted : σ → α → Bool}
    (hstep : ∀ n s a t, Inv n s → step s a = some t →
      Inv (n + if counted s a then 1 else 0) t)
    (hgood : ∀ n s, Inv n s → (Good s ↔ n = 0)) {s t : σ} {labels : List α} (hs : Inv 0 s)
    (hrun : run step s labels = some t) :
    AlwaysAlong step Good s labels ↔ NeverAlong step counted s labels := by
  -- the count at the end of a prefix
  have hcount : ∀ xs u, run step s xs = some u → ∃ n, Inv n u ∧
      (n = 0 ↔ NeverAlong step counted s xs) := by
    intro xs
    induction xs using List.reverseRecOn with
    | nil =>
        intro u hu
        rw [run_nil, Option.some.injEq] at hu
        refine ⟨0, hu ▸ hs, ?_⟩
        simp [NeverAlong]
    | append_singleton xs a ih =>
        intro u hu
        rw [run_concat] at hu
        obtain ⟨v, hv, hu⟩ := Option.bind_eq_some_iff.mp hu
        obtain ⟨n, hn, hzero⟩ := ih v hv
        refine ⟨_, hstep n v a u hn hu, ?_⟩
        constructor
        · intro h ys b w hys hw
          have hn0 : n = 0 := by omega
          rcases List.prefix_concat_iff.mp hys with heq | hpre
          · obtain ⟨rfl, hab⟩ := List.append_inj' heq rfl
            obtain rfl : b = a := by simpa using hab
            obtain rfl : w = v := Option.some.inj (hw.symm.trans hv)
            cases hc : counted w b with
            | false => rfl
            | true => simp [hc] at h
          · exact hzero.mp hn0 ys b w hpre hw
        · intro h
          have hn0 : n = 0 :=
            hzero.mpr fun ys b w hys hw => h ys b w (hys.trans (List.prefix_append _ _)) hw
          have hc := h xs a v List.prefix_rfl hv
          simp [hn0, hc]
  constructor
  · intro hall xs a u hpre hu
    obtain ⟨v, hv⟩ := exists_of_prefix hrun hpre
    obtain ⟨n, hn, hzero⟩ := hcount _ v hv
    have hn0 := (hgood n v hn).mp (hall _ v hpre hv)
    exact hzero.mp hn0 xs a u List.prefix_rfl hu
  · intro hall xs u hpre hu
    obtain ⟨n, hn, hzero⟩ := hcount xs u hu
    exact (hgood n u hn).mpr (hzero.mpr fun ys a v hys hv => hall ys a v (hys.trans hpre) hv)

/-- The states of a run are good exactly as long as it takes no bad step, if a step from a good
state leads to a good state exactly if it is not bad. -/
theorem good_iff_never {Inv Good : σ → Prop} {bad : σ → α → Bool}
    (hinv : ∀ s a t, Inv s → step s a = some t → Inv t)
    (hgood : ∀ s a t, Inv s → Good s → step s a = some t → (Good t ↔ bad s a = false))
    {s t : σ} {labels : List α} (hs : Inv s) (hs' : Good s) (hrun : run step s labels = some t) :
    AlwaysAlong step Good s labels ↔ NeverAlong step bad s labels := by
  constructor
  · intro hall xs a u hpre hu
    obtain ⟨v, hv⟩ := exists_of_prefix hrun hpre
    have hstep := hv
    rw [run_concat, hu, Option.bind_some] at hstep
    have hpre' : xs <+: labels := (List.prefix_append xs [a]).trans hpre
    exact (hgood u a v (run_invariant hinv hs hu) (hall xs u hpre' hu) hstep).mp
      (hall _ v hpre hv)
  · intro hall xs
    induction xs using List.reverseRecOn with
    | nil =>
        intro u _ hu
        rw [run_nil, Option.some.injEq] at hu
        exact hu ▸ hs'
    | append_singleton xs a ih =>
        intro u hpre hu
        rw [run_concat] at hu
        obtain ⟨v, hv, hstep⟩ := Option.bind_eq_some_iff.mp hu
        have hv' := ih v ((List.prefix_append xs [a]).trans hpre) hv
        exact (hgood v a u (run_invariant hinv hs hv) hv' hstep).mpr (hall xs a v hpre hv)

/-- The same if a step that is not bad keeps something stronger than being good, and a bad step leads
to a state that is not good. -/
theorem good_iff_never_of_strong {Inv Strong Good : σ → Prop} {bad : σ → α → Bool}
    (hinv : ∀ s a t, Inv s → step s a = some t → Inv t)
    (hstrong : ∀ s a t, Inv s → Strong s → step s a = some t → bad s a = false → Strong t)
    (hgood : ∀ s, Strong s → Good s)
    (hbad : ∀ s a t, Inv s → step s a = some t → bad s a = true → ¬ Good t)
    {s t : σ} {labels : List α} (hs : Inv s) (hs' : Strong s) (hrun : run step s labels = some t) :
    AlwaysAlong step Good s labels ↔ NeverAlong step bad s labels := by
  constructor
  · intro hall xs a u hpre hu
    obtain ⟨v, hv⟩ := exists_of_prefix hrun hpre
    have hstep := hv
    rw [run_concat, hu, Option.bind_some] at hstep
    rw [← Bool.not_eq_true]
    intro ha
    exact hbad u a v (run_invariant hinv hs hu) hstep ha (hall _ v hpre hv)
  · intro hall xs u hpre hu
    apply hgood
    induction xs using List.reverseRecOn generalizing u with
    | nil =>
        rw [run_nil, Option.some.injEq] at hu
        exact hu ▸ hs'
    | append_singleton xs a ih =>
        have hu' := hu
        rw [run_concat] at hu'
        obtain ⟨v, hv, hstep⟩ := Option.bind_eq_some_iff.mp hu'
        have hv' := ih v ((List.prefix_append xs [a]).trans hpre) hv
        exact hstrong v a u (run_invariant hinv hs hv) hv' hstep (hall xs a v hpre hv)

end LabelledRun
