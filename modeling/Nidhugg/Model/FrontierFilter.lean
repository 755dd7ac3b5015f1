import Nidhugg.Library.SwapRemove

/-! # Filtering a sequence from its smaller elements

`frontier_filter` of the trace builders. Iterators are positions; an access outside the sequence
has no result. -/

namespace Nidhugg.FrontierFilter

open SwapRemove

variable {α : Type*} (less : α → α → Bool)

/-- The inner loop, which moves `check` up to `fill`. Gives whether the current element is
included, the sequence and `fill`. -/
def checkFill (current : ℕ) (seq : List α) (check fill : ℕ) : Option (Bool × List α × ℕ) :=
  if check < fill then do
    let x ← seq[current]?
    let y ← seq[check]?
    if less x y then some (false, seq, fill)
    else if less y x then
      -- Drops `y` from the elements before `fill`
      checkFill current (← swap seq check (fill - 1)) check (fill - 1)
    else checkFill current seq (check + 1) fill
  else some (true, seq, fill)
termination_by fill - check

/-- One turn of the outer loop. -/
def addCurrent (s : List α × ℕ) (current : ℕ) : Option (List α × ℕ) := do
  let (included, seq, fill) ← checkFill less current s.1 0 s.2
  if included then
    let seq ← if fill ≠ current then swap seq fill current else some seq
    some (seq, fill + 1)
  else some (seq, fill)

/-- The sequence afterwards and the position beyond the last included element. -/
def frontierFilter (seq : List α) : Option (List α × ℕ) :=
  (List.range seq.length).foldlM (addCurrent less) (seq, 0)

end Nidhugg.FrontierFilter
