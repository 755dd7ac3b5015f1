import Mathlib.Order.Nat
import Mathlib.Tactic.Common

/-! # Reads-from choices and the orders that justify them

A reads-from choice fixes, for every load, the store it takes its value from. An order of
the events justifies the choice when every load reads the last earlier store to its
address. The edges that every justifying order must contain are generated by a few
closure rules. -/

namespace ReadsFrom

/-- Events with an order that has to be kept and a source for every load. A load without
a source reads the initial value. -/
structure Choice (E A : Type*) where
  mem : E → Prop
  order : E → E → Prop
  load : E → Prop
  store : E → Prop
  addr : E → A
  rf : E → Option E

variable {E A : Type*}

/-- The event `w` is a store of the choice to the address `a`. -/
def Choice.storeTo (c : Choice E A) (a : A) (w : E) : Prop :=
  c.mem w ∧ c.store w ∧ c.addr w = a

/-- The event `r` is a load of the choice with the given source. -/
def Choice.reads (c : Choice E A) (r : E) (source : Option E) : Prop :=
  c.mem r ∧ c.load r ∧ c.rf r = source

/-- The least transitive relation that contains the fixed order and the reads-from edges
and is closed under the from-read and coherence rules. -/
inductive Forced (c : Choice E A) : E → E → Prop where
  | order {a b} : c.order a b → Forced c a b
  | readFrom {w r} : c.reads r (some w) → Forced c w r
  | trans {a b d} : Forced c a b → Forced c b d → Forced c a d
  | fromInit {r w} : c.reads r none → c.storeTo (c.addr r) w → w ≠ r → Forced c r w
  | fromRead {w r w'} : c.reads r (some w) → c.storeTo (c.addr r) w' → w' ≠ w → w' ≠ r →
      Forced c w w' → Forced c r w'
  | coherence {w r w'} : c.reads r (some w) → c.storeTo (c.addr r) w' → w' ≠ w → w' ≠ r →
      Forced c w' r → Forced c w' w

/-- A numbering of the events justifies the choice when it keeps the fixed order and every
load reads exactly its source. -/
structure Justifies (c : Choice E A) (pos : E → ℕ) : Prop where
  injective : ∀ {a b}, c.mem a → c.mem b → pos a = pos b → a = b
  order : ∀ {a b}, c.order a b → pos a < pos b
  source : ∀ {r w}, c.reads r (some w) → c.storeTo (c.addr r) w ∧ pos w < pos r
  last : ∀ {r w w'}, c.reads r (some w) → c.storeTo (c.addr r) w' → pos w' < pos r →
    w' = w ∨ pos w' < pos w
  init : ∀ {r w'}, c.reads r none → c.storeTo (c.addr r) w' → ¬ pos w' < pos r

/-- Every forced edge points forward in every justifying order. -/
theorem Justifies.lt_of_forced {c : Choice E A} {pos : E → ℕ} (h : Justifies c pos) {a b : E}
    (hab : Forced c a b) : pos a < pos b := by
  induction hab with
  | order hord => exact h.order hord
  | readFrom hr => exact (h.source hr).2
  | trans _ _ ih₁ ih₂ => exact ih₁.trans ih₂
  | fromInit hr hw hne =>
      refine lt_of_le_of_ne (Nat.le_of_not_lt (h.init hr hw)) ?_
      intro heq
      exact hne (h.injective hw.1 hr.1 heq.symm)
  | fromRead hr hw hne hner _ ih =>
      refine lt_of_le_of_ne (Nat.le_of_not_lt ?_) ?_
      · intro hlt
        rcases h.last hr hw hlt with heq | hlt'
        · exact hne heq
        · exact Nat.lt_asymm ih hlt'
      · intro heq
        exact hner (h.injective hw.1 hr.1 heq.symm)
  | coherence hr hw hne _ _ ih =>
      rcases h.last hr hw ih with heq | hlt
      · exact absurd heq hne
      · exact hlt

/-- A forced cycle leaves no justifying order. -/
theorem not_justifies_of_forced_self {c : Choice E A} {a : E} (h : Forced c a a)
    (pos : E → ℕ) : ¬ Justifies c pos :=
  fun hpos => Nat.lt_irrefl _ (hpos.lt_of_forced h)

/-- A relation closed under the rules that generate the forced edges. -/
structure Closed (c : Choice E A) (rel : E → E → Prop) : Prop where
  order : ∀ {a b}, c.order a b → rel a b
  readFrom : ∀ {w r}, c.reads r (some w) → rel w r
  trans : ∀ {a b d}, rel a b → rel b d → rel a d
  fromInit : ∀ {r w}, c.reads r none → c.storeTo (c.addr r) w → w ≠ r → rel r w
  fromRead : ∀ {w r w'}, c.reads r (some w) → c.storeTo (c.addr r) w' → w' ≠ w → w' ≠ r →
    rel w w' → rel r w'
  coherence : ∀ {w r w'}, c.reads r (some w) → c.storeTo (c.addr r) w' → w' ≠ w → w' ≠ r →
    rel w' r → rel w' w

theorem Closed.of_forced {c : Choice E A} {rel : E → E → Prop} (h : Closed c rel) {a b : E}
    (hab : Forced c a b) : rel a b := by
  induction hab with
  | order hord => exact h.order hord
  | readFrom hr => exact h.readFrom hr
  | trans _ _ ih₁ ih₂ => exact h.trans ih₁ ih₂
  | fromInit hr hw hne => exact h.fromInit hr hw hne
  | fromRead hr hw hne hner _ ih => exact h.fromRead hr hw hne hner ih
  | coherence hr hw hne hner _ ih => exact h.coherence hr hw hne hner ih

/-- Every order that extends a closed relation justifies the choice, provided the relation
already orders any two stores to the same address. -/
theorem Closed.justifies {c : Choice E A} {rel : E → E → Prop} (h : Closed c rel)
    (hsource : ∀ {r w}, c.reads r (some w) → c.storeTo (c.addr r) w)
    (htotal : ∀ {a w w'}, c.storeTo a w → c.storeTo a w' → w ≠ w' → rel w w' ∨ rel w' w)
    {pos : E → ℕ} (hinj : ∀ {a b}, c.mem a → c.mem b → pos a = pos b → a = b)
    (hpos : ∀ {a b}, rel a b → pos a < pos b) : Justifies c pos where
  injective := hinj
  order hord := hpos (h.order hord)
  source hr := ⟨hsource hr, hpos (h.readFrom hr)⟩
  last := by
    intro r w w' hr hw' hlt
    by_cases heq : w' = w
    · exact .inl heq
    · right
      have hner : w' ≠ r := by
        intro hr'
        subst hr'
        exact Nat.lt_irrefl _ hlt
      rcases htotal hw' (hsource hr) heq with hrel | hrel
      · exact hpos hrel
      · exact absurd (hpos (h.fromRead hr hw' heq hner hrel)) (Nat.lt_asymm hlt)
  init := by
    intro r w' hr hw' hlt
    have hner : w' ≠ r := by
      intro hr'
      subst hr'
      exact Nat.lt_irrefl _ hlt
    exact Nat.lt_asymm hlt (hpos (h.fromInit hr hw' hner))

/-- Forced edges only grow when a choice is extended. -/
theorem Forced.mono {c c' : Choice E A} (horder : ∀ {a b}, c.order a b → c'.order a b)
    (hmem : ∀ {a}, c.mem a → c'.mem a)
    (hstore : ∀ {a}, c.mem a → c.store a → c'.store a)
    (hload : ∀ {a}, c.mem a → c.load a → c'.load a)
    (haddr : ∀ {a}, c.mem a → c'.addr a = c.addr a)
    (hrf : ∀ {a}, c.mem a → c'.rf a = c.rf a) {a b : E} (h : Forced c a b) :
    Forced c' a b := by
  have hreads : ∀ {r source}, c.reads r source → c'.reads r source := by
    rintro r source ⟨hm, hl, hs⟩
    exact ⟨hmem hm, hload hm hl, (hrf hm).trans hs⟩
  have hto : ∀ {r w source}, c.reads r source → c.storeTo (c.addr r) w →
      c'.storeTo (c'.addr r) w := by
    rintro r w source hr ⟨hm, hs, ha⟩
    exact ⟨hmem hm, hstore hm hs, by rw [haddr hm, haddr hr.1, ha]⟩
  induction h with
  | order hord => exact .order (horder hord)
  | readFrom hr => exact .readFrom (hreads hr)
  | trans _ _ ih₁ ih₂ => exact .trans ih₁ ih₂
  | fromInit hr hw hne => exact .fromInit (hreads hr) (hto hr hw) hne
  | fromRead hr hw hne hner _ ih => exact .fromRead (hreads hr) (hto hr hw) hne hner ih
  | coherence hr hw hne hner _ ih => exact .coherence (hreads hr) (hto hr hw) hne hner ih

end ReadsFrom
