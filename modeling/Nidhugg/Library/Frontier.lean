import Mathlib.Data.List.Perm.Basic

/-! # Maximal elements of a list

A list is split into a frontier of incomparable elements and the elements below it. Elements come
in one by one. -/

namespace Frontier

variable {α : Type*} (less : α → α → Bool)

/-- The elements that are not less than any element. -/
def maxima (xs : List α) : List α := xs.filter fun x => xs.all fun y => !less x y

variable {less}

/-- The maximal elements do not depend on the order of the list. -/
theorem maxima_perm {xs ys : List α} (h : xs.Perm ys) :
    (maxima less xs).Perm (maxima less ys) := by
  have hall : ∀ x, (xs.all fun y => !less x y) = ys.all fun y => !less x y := by
    intro x
    rw [Bool.eq_iff_iff]
    simp [h.mem_iff]
  simp only [maxima, hall]
  exact h.filter _

variable (less)

/-- The elements of the frontier are incomparable, and every other element is below one of them. -/
structure IsFrontier (kept dropped : List α) : Prop where
  incomparable : ∀ x ∈ kept, ∀ y ∈ kept, less x y = false
  dominated : ∀ x ∈ dropped, ∃ y ∈ kept, less x y = true

variable {less}

namespace IsFrontier

theorem nil : IsFrontier less [] [] := ⟨by simp, by simp⟩

theorem perm {kept dropped kept' dropped' : List α} (h : IsFrontier less kept dropped)
    (hkept : kept.Perm kept') (hdropped : dropped.Perm dropped') :
    IsFrontier less kept' dropped' := by
  constructor
  · intro x hx y hy
    exact h.incomparable x (hkept.mem_iff.mpr hx) y (hkept.mem_iff.mpr hy)
  · intro x hx
    obtain ⟨y, hy, hxy⟩ := h.dominated x (hdropped.mem_iff.mpr hx)
    exact ⟨y, hkept.mem_iff.mp hy, hxy⟩

/-- An element that is below one of the frontier joins the elements below it. -/
theorem discard {kept dropped : List α} {x y : α} (h : IsFrontier less kept dropped)
    (hy : y ∈ kept) (hxy : less x y = true) : IsFrontier less kept (dropped ++ [x]) := by
  refine ⟨h.incomparable, ?_⟩
  intro z hz
  cases List.mem_append.mp hz with
  | inl hz => exact h.dominated z hz
  | inr hz =>
      rw [List.mem_singleton.mp hz]
      exact ⟨y, hy, hxy⟩

variable [IsStrictOrder α (less · · = true)]

theorem less_irrefl (x : α) : less x x = false := by
  have h := irrefl_of (less · · = true) x
  simpa using h

theorem less_trans {x y z : α} (hxy : less x y = true) (hyz : less y z = true) :
    less x z = true :=
  trans_of (less · · = true) hxy hyz

/-- Nothing outside the frontier is maximal, everything in it is. -/
theorem perm_maxima {kept dropped : List α} (h : IsFrontier less kept dropped) :
    kept.Perm (maxima less (kept ++ dropped)) := by
  have hkept : kept.filter (fun x => (kept ++ dropped).all fun y => !less x y) = kept := by
    rw [List.filter_eq_self]
    intro x hx
    simp only [List.all_append, Bool.and_eq_true, List.all_eq_true, Bool.not_eq_true']
    refine ⟨fun y hy => h.incomparable x hx y hy, ?_⟩
    intro y hy
    obtain ⟨z, hz, hyz⟩ := h.dominated y hy
    cases hxy : less x y with
    | false => rfl
    | true => exact absurd (less_trans hxy hyz) (by simp [h.incomparable x hx z hz])
  have hdropped : dropped.filter (fun x => (kept ++ dropped).all fun y => !less x y) = [] := by
    rw [List.filter_eq_nil_iff]
    intro x hx hall
    obtain ⟨y, hy, hxy⟩ := h.dominated x hx
    have hmax := List.all_eq_true.mp hall y (List.mem_append_left _ hy)
    simp [hxy] at hmax
  rw [maxima, List.filter_append, hkept, hdropped, List.append_nil]

/-- An element that no element of the frontier is above replaces those that it is above. -/
theorem keep {kept below dropped : List α} {x : α} (h : IsFrontier less (kept ++ below) dropped)
    (hkept : ∀ y ∈ kept, less x y = false ∧ less y x = false)
    (hbelow : ∀ y ∈ below, less y x = true) :
    IsFrontier less (kept ++ [x]) (below ++ dropped) := by
  constructor
  · intro y hy z hz
    cases List.mem_append.mp hy with
    | inl hy =>
        cases List.mem_append.mp hz with
        | inl hz =>
            exact h.incomparable y (List.mem_append_left _ hy) z (List.mem_append_left _ hz)
        | inr hz =>
            rw [List.mem_singleton.mp hz]
            exact (hkept y hy).2
    | inr hy =>
        rw [List.mem_singleton.mp hy]
        cases List.mem_append.mp hz with
        | inl hz => exact (hkept z hz).1
        | inr hz =>
            rw [List.mem_singleton.mp hz]
            exact less_irrefl x
  · have hx : x ∈ kept ++ [x] := by simp
    intro y hy
    cases List.mem_append.mp hy with
    | inl hy => exact ⟨x, hx, hbelow y hy⟩
    | inr hy =>
        obtain ⟨z, hz, hyz⟩ := h.dominated y hy
        cases List.mem_append.mp hz with
        | inl hz => exact ⟨z, List.mem_append_left _ hz, hyz⟩
        | inr hz => exact ⟨x, hx, less_trans hyz (hbelow z hz)⟩

/-- Nothing of the frontier is below an element that is below another element of it. -/
theorem nothing_below {kept below dropped : List α} {x y : α}
    (h : IsFrontier less (kept ++ below) dropped) (hbelow : ∀ y ∈ below, less y x = true)
    (hy : y ∈ kept) (hxy : less x y = true) : below = [] := by
  cases below with
  | nil => rfl
  | cons z below =>
      have hz := h.incomparable z (by simp) y (by simp [hy])
      simp [less_trans (hbelow z (by simp)) hxy] at hz

end IsFrontier

end Frontier
