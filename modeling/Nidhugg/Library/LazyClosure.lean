import Mathlib.Order.Nat

/-! # Lazily maintained transitive closures

A relation grows edge by edge. Every element keeps a set of elements that it is known to reach, the
time of its last change and the time up to which it knows about the changes of others. A set is
complete once it is up to date. -/

namespace LazyClosure

open Relation

variable {ι : Type*}

/-- What is contained can be reached, and what is missing from a set is due to a change that the
element has not seen yet. -/
structure Tracks (direct contains : ι → ι → Prop) (change update : ι → ℕ) (time : ℕ) : Prop where
  complete : ∀ {x y}, direct x y → contains x y
  sound : ∀ {x y}, contains x y → ReflTransGen direct x y
  stale : ∀ {x y z}, contains x y → direct y z → contains x z ∨ update x < change y
  change_le : ∀ x, change x ≤ time
  update_le : ∀ x, update x ≤ time

theorem update_le_of_le [DecidableEq ι] {f : ι → ℕ} {m n : ℕ} (h : ∀ u, f u ≤ m) (hmn : m ≤ n)
    (x u : ι) : Function.update f x n u ≤ n := by
  by_cases hu : u = x
  · rw [hu, Function.update_self]
  · rw [Function.update_of_ne hu]
    exact (h u).trans hmn

/-! ### Edges that are added -/

section

variable {r q : ι → ι → Prop} {a c x y : ι}

/-- An edge to something that is reached already does not change what is reached. -/
theorem reaches_add_reached (h : ReflTransGen r a c) :
    ReflTransGen (fun u v => r u v ∨ u = a ∧ v = c) x y ↔ ReflTransGen r x y := by
  constructor
  · refine reflTransGen_closed (fun u v huv => ?_) x y
    cases huv with
    | inl huv => exact .single huv
    | inr huv => exact huv.1 ▸ huv.2 ▸ h
  · exact ReflTransGen.mono (fun _ _ => Or.inl) x y

/-- Relations by which the same is reached stay so when an edge is added to both. -/
theorem reaches_add_congr (h : ∀ u v, ReflTransGen r u v ↔ ReflTransGen q u v) :
    ReflTransGen (fun u v => r u v ∨ u = a ∧ v = c) x y ↔
      ReflTransGen (fun u v => q u v ∨ u = a ∧ v = c) x y := by
  have hclosed : ∀ {r q : ι → ι → Prop}, (∀ u v, ReflTransGen r u v → ReflTransGen q u v) →
      ReflTransGen (fun u v => r u v ∨ u = a ∧ v = c) x y →
        ReflTransGen (fun u v => q u v ∨ u = a ∧ v = c) x y := by
    intro r q hrq
    refine reflTransGen_closed (fun u v huv => ?_) x y
    cases huv with
    | inl huv => exact ReflTransGen.mono (fun _ _ => Or.inl) _ _ (hrq u v (.single huv))
    | inr huv => exact .single (.inr huv)
  exact ⟨hclosed fun u v => (h u v).mp, hclosed fun u v => (h u v).mpr⟩

end

namespace Tracks

variable {direct contains : ι → ι → Prop} {change update : ι → ℕ} {time : ℕ} {x y z : ι}

/-- An element that is up to date knows everything that it reaches. -/
theorem contains_iff (h : Tracks direct contains change update time) (hx : update x = time)
    (hself : contains x x) : contains x y ↔ ReflTransGen direct x y := by
  refine ⟨h.sound, fun hreach => ?_⟩
  induction hreach with
  | refl => exact hself
  | @tail y z _ hyz ih =>
      cases h.stale ih hyz with
      | inl hz => exact hz
      | inr hlt =>
          have hle := h.change_le y
          omega

/-- Taking over the set of an element that is up to date, in the middle of a refresh. -/
theorem absorb {contains' : ι → ι → Prop} (h : Tracks direct contains change update time)
    (hy : update y = time) (hself : contains y y) (hreach : ReflTransGen direct x y)
    (hcontains : ∀ u v, contains' u v ↔ contains u v ∨ u = x ∧ contains y v) :
    Tracks direct contains' change update time where
  complete := fun huv => (hcontains _ _).mpr (.inl (h.complete huv))
  sound := by
    intro u v huv
    cases (hcontains u v).mp huv with
    | inl huv => exact h.sound huv
    | inr huv => exact huv.1 ▸ hreach.trans (h.sound huv.2)
  stale := by
    intro u v w huv hvw
    cases (hcontains u v).mp huv with
    | inl huv =>
        cases h.stale huv hvw with
        | inl huw => exact .inl ((hcontains u w).mpr (.inl huw))
        | inr hlt => exact .inr hlt
    | inr huv =>
        have hyw := (h.contains_iff hy hself).mpr ((h.sound huv.2).tail hvw)
        exact .inl ((hcontains u w).mpr (.inr ⟨huv.1, hyw⟩))
  change_le := h.change_le
  update_le := h.update_le

/-- A refresh is over once all successors of what is contained are contained. -/
theorem finish [DecidableEq ι] (h : Tracks direct contains change update time)
    (hclosed : ∀ y z, contains x y → direct y z → contains x z) :
    Tracks direct contains change (Function.update update x time) time where
  complete := h.complete
  sound := h.sound
  stale := by
    intro u v w huv hvw
    by_cases hu : u = x
    · subst hu
      exact .inl (hclosed v w huv hvw)
    · rw [Function.update_of_ne hu]
      exact h.stale huv hvw
  change_le := h.change_le
  update_le := update_le_of_le h.update_le (Nat.le_refl time) x

/-- A new edge to an element that is up to date. Its target stays up to date, even if it contains
the source. -/
theorem add_edge [DecidableEq ι] {contains' : ι → ι → Prop}
    (h : Tracks direct contains change update time) (hy : update y = time) (hself : contains y y)
    (hne : x ≠ y) (hcontains : ∀ u v, contains' u v ↔ contains u v ∨ u = x ∧ contains y v) :
    Tracks (fun u v => direct u v ∨ u = x ∧ v = y) contains'
      (Function.update change x (time + 1)) (Function.update update y (time + 1)) (time + 1) := by
  have hmono : ∀ {u v}, ReflTransGen direct u v →
      ReflTransGen (fun u v => direct u v ∨ u = x ∧ v = y) u v :=
    fun huv => ReflTransGen.mono (fun _ _ => Or.inl) _ _ huv
  have hchange : ∀ v, change v ≤ Function.update change x (time + 1) v := by
    intro v
    by_cases hv : v = x
    · subst hv
      rw [Function.update_self]
      exact (h.change_le v).trans (Nat.le_succ time)
    · rw [Function.update_of_ne hv]
  have hxy : contains' x y := (hcontains x y).mpr (.inr ⟨rfl, hself⟩)
  constructor
  · intro u v huv
    cases huv with
    | inl huv => exact (hcontains u v).mpr (.inl (h.complete huv))
    | inr huv => exact huv.1 ▸ huv.2 ▸ hxy
  · intro u v huv
    cases (hcontains u v).mp huv with
    | inl huv => exact hmono (h.sound huv)
    | inr huv =>
        rw [huv.1]
        exact (hmono (h.sound huv.2)).head (.inr ⟨rfl, rfl⟩)
  · intro u v w huv hvw
    have hyclosed : ∀ {v w}, contains y v → direct v w → contains y w := fun hyv hvw =>
      (h.contains_iff hy hself).mpr ((h.sound hyv).tail hvw)
    cases (hcontains u v).mp huv with
    | inr huv =>
        obtain ⟨rfl, hyv⟩ := huv
        cases hvw with
        | inl hvw => exact .inl ((hcontains u w).mpr (.inr ⟨rfl, hyclosed hyv hvw⟩))
        | inr hvw => exact .inl (hvw.2 ▸ hxy)
    | inl huv =>
        by_cases hu : u = y
        · subst hu
          cases hvw with
          | inl hvw => exact .inl ((hcontains u w).mpr (.inl (hyclosed huv hvw)))
          | inr hvw => exact .inl ((hcontains u w).mpr (.inl (hvw.2 ▸ hself)))
        · rw [Function.update_of_ne hu]
          cases hvw with
          | inl hvw =>
              cases h.stale huv hvw with
              | inl huw => exact .inl ((hcontains u w).mpr (.inl huw))
              | inr hlt => exact .inr (Nat.lt_of_lt_of_le hlt (hchange v))
          | inr hvw =>
              rw [hvw.1, Function.update_self]
              exact .inr (Nat.lt_succ_of_le (h.update_le u))
  · exact update_le_of_le h.change_le (Nat.le_succ time) x
  · exact update_le_of_le h.update_le (Nat.le_succ time) y

/-- A new element contains itself. -/
theorem add_element [DecidableEq ι] {contains' : ι → ι → Prop}
    (h : Tracks direct contains change update time) (hdirect : ∀ y, ¬direct x y)
    (hnew : ∀ y, ¬contains x y)
    (hcontains : ∀ u v, contains' u v ↔ contains u v ∨ u = x ∧ v = x) :
    Tracks direct contains' (Function.update change x time) (Function.update update x time)
      time where
  complete := fun huv => (hcontains _ _).mpr (.inl (h.complete huv))
  sound := by
    intro u v huv
    cases (hcontains u v).mp huv with
    | inl huv => exact h.sound huv
    | inr huv =>
        rw [huv.1, huv.2]
  stale := by
    intro u v w huv hvw
    cases (hcontains u v).mp huv with
    | inr huv => exact absurd (huv.2 ▸ hvw) (hdirect w)
    | inl huv =>
        have hu : u ≠ x := fun hu => hnew v (hu ▸ huv)
        have hv : v ≠ x := fun hv => hdirect w (hv ▸ hvw)
        rw [Function.update_of_ne hu, Function.update_of_ne hv]
        cases h.stale huv hvw with
        | inl huw => exact .inl ((hcontains u w).mpr (.inl huw))
        | inr hlt => exact .inr hlt
  change_le := update_le_of_le h.change_le (Nat.le_refl time) x
  update_le := update_le_of_le h.update_le (Nat.le_refl time) x

end Tracks

end LazyClosure
