import Mathlib.Tactic.Common

/-! # The later of two comparable elements

A strict order is extended by a least element. Two elements have a later one if they are comparable,
and the later one of several does not depend on how they are grouped. -/

namespace LaterPoint

variable {α : Type*}

/-- A strict order that is decided. -/
structure StrictOrder (lt : α → α → Bool) : Prop where
  irrefl : ∀ a, lt a a = false
  trans : ∀ {a b c}, lt a b = true → lt b c = true → lt a c = true

/-- There is nothing before `none`. -/
def Le (lt : α → α → Bool) : Option α → Option α → Prop
  | none, _ => True
  | some _, none => False
  | some a, some b => a = b ∨ lt a b = true

def later [DecidableEq α] (lt : α → α → Bool) : Option α → Option α → Option (Option α)
  | none, b => some b
  | some a, none => some (some a)
  | some a, some b =>
      if a = b then some (some a)
      else if lt a b then some (some b)
      else if lt b a then some (some a)
      else none

variable {lt : α → α → Bool} {a b c : Option α}

theorem Le.refl (lt : α → α → Bool) (a : Option α) : Le lt a a := by
  cases a with
  | none => trivial
  | some a => exact .inl rfl

theorem Le.trans (h : StrictOrder lt) (hab : Le lt a b) (hbc : Le lt b c) : Le lt a c := by
  cases a with
  | none => trivial
  | some a =>
      cases b with
      | none => cases hab
      | some b =>
          cases c with
          | none => cases hbc
          | some c =>
              cases hab with
              | inl heq => exact heq ▸ hbc
              | inr hlt =>
                  cases hbc with
                  | inl heq => exact .inr (heq ▸ hlt)
                  | inr hlt' => exact .inr (h.trans hlt hlt')

theorem Le.antisymm (h : StrictOrder lt) (hab : Le lt a b) (hba : Le lt b a) : a = b := by
  cases a with
  | none =>
      cases b with
      | none => rfl
      | some b => cases hba
  | some a =>
      cases b with
      | none => cases hab
      | some b =>
          cases hab with
          | inl heq => exact congrArg some heq
          | inr hlt =>
              cases hba with
              | inl heq => exact congrArg some heq.symm
              | inr hlt' =>
                  have hself := h.trans hlt hlt'
                  rw [h.irrefl] at hself
                  cases hself

variable [DecidableEq α]

theorem later_of_le (h : StrictOrder lt) (hab : Le lt a b) : later lt a b = some b := by
  cases a with
  | none => rfl
  | some a =>
      cases b with
      | none => cases hab
      | some b =>
          rw [later]
          cases hab with
          | inl heq => rw [if_pos heq, heq]
          | inr hlt =>
              have hne : a ≠ b := by
                rintro rfl
                rw [h.irrefl] at hlt
                cases hlt
              rw [if_neg hne, if_pos hlt]

theorem later_comm (h : StrictOrder lt) (a b : Option α) : later lt a b = later lt b a := by
  cases a with
  | none =>
      cases b with
      | none => rfl
      | some b => rfl
  | some a =>
      cases b with
      | none => rfl
      | some b =>
          rw [later, later]
          by_cases heq : a = b
          · rw [if_pos heq, if_pos heq.symm, heq]
          · rw [if_neg heq, if_neg (Ne.symm heq)]
            by_cases hab : lt a b = true
            · have hba : ¬lt b a = true := by
                intro hba
                have hself := h.trans hab hba
                rw [h.irrefl] at hself
                cases hself
              rw [if_pos hab, if_neg hba, if_pos hab]
            · rw [if_neg hab, if_neg hab]

theorem le_or_le_of_later (hlater : later lt a b = some c) :
    (Le lt a b ∧ c = b) ∨ (Le lt b a ∧ c = a) := by
  cases a with
  | none => exact .inl ⟨trivial, (Option.some.inj hlater).symm⟩
  | some a =>
      cases b with
      | none => exact .inr ⟨trivial, (Option.some.inj hlater).symm⟩
      | some b =>
          rw [later] at hlater
          split at hlater
          · next heq => exact .inr ⟨.inl heq.symm, (Option.some.inj hlater).symm⟩
          · split at hlater
            · next hlt => exact .inl ⟨.inr hlt, (Option.some.inj hlater).symm⟩
            · split at hlater
              · next hlt => exact .inr ⟨.inr hlt, (Option.some.inj hlater).symm⟩
              · cases hlater

/-- The later one is not before either of them, and before all others like that. -/
theorem later_le_iff (h : StrictOrder lt) (hlater : later lt a b = some c) {d : Option α} :
    Le lt c d ↔ Le lt a d ∧ Le lt b d := by
  cases le_or_le_of_later hlater with
  | inl hb =>
      obtain ⟨hab, rfl⟩ := hb
      exact ⟨fun hd => ⟨hab.trans h hd, hd⟩, And.right⟩
  | inr ha =>
      obtain ⟨hba, rfl⟩ := ha
      exact ⟨fun hd => ⟨hd, hba.trans h hd⟩, And.left⟩

/-- Both groupings of three elements have the same latest one. -/
theorem later_assoc (h : StrictOrder lt) {ab bc l r : Option α} (hab : later lt a b = some ab)
    (hl : later lt ab c = some l) (hbc : later lt b c = some bc) (hr : later lt a bc = some r) :
    l = r := by
  have hiff : ∀ d, Le lt l d ↔ Le lt r d := by
    intro d
    rw [later_le_iff h hl, later_le_iff h hab, later_le_iff h hr, later_le_iff h hbc, and_assoc]
  exact ((hiff r).mpr (.refl lt r)).antisymm h ((hiff l).mp (.refl lt l))

end LaterPoint
