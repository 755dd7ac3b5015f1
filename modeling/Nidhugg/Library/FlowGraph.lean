import Nidhugg.Library.PostOrder

/-! # Natural loops of flow graphs

A flow graph is given by the successors of each block and the block where it is entered. The loop of
a header has the blocks from which a back edge to the header is reached without the header. -/

namespace FlowGraph

open Relation PostOrder

variable {β : Type*} {succ : β → List β} {entry h a b c : β}

/-- There is a path on which a block does not occur. -/
def Avoiding (succ : β → List β) (h a b : β) : Prop :=
  a ≠ h ∧ ReflTransGen (fun x y => Step succ x y ∧ y ≠ h) a b

/-- All paths from the entry to a block go through another one. -/
def Dominates (succ : β → List β) (entry h b : β) : Prop := ¬Avoiding succ h entry b

/-- The natural loop of all back edges to a header. -/
def InLoop (succ : β → List β) (entry h b : β) : Prop :=
  b = h ∨ ∃ latch, Step succ latch h ∧ Dominates succ entry h latch ∧ Avoiding succ h b latch

theorem Avoiding.head (hstep : Step succ a b) (ha : a ≠ h) (hb : Avoiding succ h b c) :
    Avoiding succ h a c := ⟨ha, .head ⟨hstep, hb.1⟩ hb.2⟩

/-- A loop is entered at its header only. -/
theorem InLoop.predecessor (hb : InLoop succ entry h b) (hne : b ≠ h) (hstep : Step succ a b) :
    InLoop succ entry h a := by
  cases hb with
  | inl heq => exact (hne heq).elim
  | inr hlatch =>
      obtain ⟨latch, hback, hdom, hpath⟩ := hlatch
      by_cases ha : a = h
      · exact .inl ha
      · exact .inr ⟨latch, hback, hdom, hpath.head hstep ha⟩

/-- Each block of a loop is reached from the header inside the loop. -/
theorem InLoop.reached (hentry : ReflTransGen (Step succ) entry b) (hb : InLoop succ entry h b) :
    ReflTransGen (fun x y => Step succ x y ∧ InLoop succ entry h y) h b := by
  induction hentry with
  | refl =>
      cases hb with
      | inl heq => exact heq ▸ .refl
      | inr hlatch =>
          obtain ⟨latch, _, hdom, hpath⟩ := hlatch
          exact (hdom hpath).elim
  | @tail a b hpath hstep ih =>
      by_cases hne : b = h
      · exact hne ▸ .refl
      · exact (ih (hb.predecessor hne hstep)).tail ⟨hstep, hb⟩

end FlowGraph
