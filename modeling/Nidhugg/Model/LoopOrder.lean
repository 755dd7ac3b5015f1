import Mathlib.Order.Lattice
import Nidhugg.Library.FlowGraph
import Nidhugg.Model.VecSet

/-! # The order of the instructions of a loop

The reverse post-order of the blocks of a loop, and the insertion points that are compared by it. An
assertion that fails, and a key that is not found, ends an operation without a result. -/

namespace Nidhugg.LoopOrder

open Relation

/-- The control flow of a function. Each block can be reached. -/
structure Cfg (β ι : Type) where
  entry : β
  successors : β → List β
  predecessors : β → List β
  mem_predecessors : ∀ p b, p ∈ predecessors b ↔ b ∈ successors p
  reachable : ∀ b, ReflTransGen (PostOrder.Step successors) entry b
  instructions : β → List ι
  getParent : ι → β
  mem_instructions : ∀ I b, I ∈ instructions b ↔ getParent I = b
  nodup_instructions : ∀ b, (instructions b).Nodup

/-- A loop, as it is found for all back edges to a header. -/
structure Loop {β ι : Type} (F : Cfg β ι) where
  blocks : List β
  header : β
  nodup : blocks.Nodup
  mem_blocks : ∀ b, b ∈ blocks ↔ FlowGraph.InLoop F.successors F.entry header b

/-- `RPO`. -/
structure RPO (β : Type) where
  blocks : List β
  blockIndices : List (β × ℕ)

variable {β ι : Type} [LinearOrder β] [DecidableEq ι] {F : Cfg β ι}

/-! ### The reverse post-order -/

/-- What `RPOVisit` has done so far. -/
structure Visit (β : Type) where
  visited : List β
  blocks : List β
  poorder : List (β × ℕ)

/-- `RPOVisit`. The fuel bounds the depth of the recursion. -/
def rpoVisit (L : Loop F) : ℕ → Visit β → β → Option (Visit β)
  | 0, _, _ => none
  | fuel + 1, rpo, BB =>
      if BB ∈ rpo.visited then some rpo
      else do
        let rpo ← ((F.successors BB).filter (· ∈ L.blocks)).foldlM (rpoVisit L fuel)
          { rpo with visited := BB :: rpo.visited }
        let blocks := rpo.blocks ++ [BB]
        some { rpo with
          blocks := blocks
          poorder := rpo.poorder ++ [(BB, L.blocks.length - blocks.length)] }

/-- `block_indices.at`. -/
def RPO.indexAt (rpo : RPO β) (BB : β) : Option ℕ :=
  (rpo.blockIndices.find? fun entry => entry.1 = BB).map (·.2)

/-- The order of pairs. -/
def pairLe (a b : β × ℕ) : Bool := a.1 < b.1 || (a.1 = b.1 && a.2 ≤ b.2)

def getLoopRPO (L : Loop F) (fuel : ℕ) : Option (RPO β) := do
  let ret ← rpoVisit L fuel ⟨[], [], []⟩ L.header
  let rpo : RPO β := ⟨ret.blocks.reverse, ret.poorder.mergeSort pairLe⟩
  if rpo.blocks.length = L.blocks.length ∧
      ∀ entry ∈ rpo.blocks.zipIdx, rpo.indexAt entry.1 = some entry.2 then
    some rpo
  else none

/-! ### Insertion points -/

/-- What is found among the predecessors of a block. -/
inductive Found where
  | target
  | others (predecessors : List ℕ)

/-- The loop over the predecessors of a block. -/
def scanPredecessors (rpo : RPO β) (IB : β) (IBI JBI : ℕ) : List β → List ℕ → Option Found
  | [], predecessors => some (.others predecessors)
  | Pred :: preds, predecessors =>
      if Pred = IB then some .target
      else do
        let PredI ← rpo.indexAt Pred
        scanPredecessors rpo IB IBI JBI preds
          (if IBI ≤ PredI ∧ PredI < JBI then VecSet.insert (fun a b => decide (a < b)) predecessors
            PredI else predecessors)

/-- The loop that goes backwards from a block. -/
def searchBackwards (F : Cfg β ι) (rpo : RPO β) (IB : β) (IBI : ℕ) :
    ℕ → β → ℕ → List ℕ → Option Bool
  | 0, _, _, _ => none
  | turns + 1, JB, JBI, predecessors => do
      match ← scanPredecessors rpo IB IBI JBI (F.predecessors JB) predecessors with
      | .target => some true
      | .others predecessors =>
          match predecessors.getLast? with
          | none => some false
          | some next =>
              if next < JBI ∧ IBI < next then do
                let JB ← rpo.blocks[next]?
                searchBackwards F rpo IB IBI turns JB next predecessors.dropLast
              else none

/-- The loop over the instructions in front of an instruction, the latest first. -/
def scanInstructions (I : ι) : List ι → Bool
  | [] => false
  | J :: rest => if I = J then true else scanInstructions I rest

def isBefore (F : Cfg β ι) (rpo : RPO β) (turns : ℕ) (I J : ι) : Option Bool :=
  let IB := F.getParent I
  let JB := F.getParent J
  if IB = JB then
    some (scanInstructions I ((F.instructions JB).takeWhile (· ≠ J)).reverse)
  else do
    let IBI ← rpo.indexAt IB
    let JBI ← rpo.indexAt JB
    if IBI = JBI then none
    else if IBI > JBI then some false
    else searchBackwards F rpo IB IBI turns JB JBI []

/-- `InsertionPoint`. -/
structure InsertionPoint (ι : Type) where
  earliest : Option ι
deriving DecidableEq

/-- `operator&`. There may be no such insertion point. -/
def InsertionPoint.meet (F : Cfg β ι) (rpo : RPO β) (turns : ℕ) (a b : InsertionPoint ι) :
    Option (Option (InsertionPoint ι)) :=
  match a.earliest, b.earliest with
  | none, other => some (some ⟨other⟩)
  | some I, none => some (some ⟨some I⟩)
  | some I, some J =>
      if I = J then some (some ⟨some I⟩)
      else do
        if ← isBefore F rpo turns I J then some (some ⟨some J⟩)
        else if ← isBefore F rpo turns J I then some (some ⟨some I⟩)
        else some none

end Nidhugg.LoopOrder
