import Mathlib.Logic.Relation
import Mathlib.Data.List.Basic

/-! # Clocks that are brought up to date when they are read

`FBVClock`: bit vectors that take over each other's bits. A clock system stores for every clock when
it was last changed and up to when it has been brought up to date. -/

namespace Nidhugg

/-- The static data of one clock system. Clocks are named by their position. The time and the time
stamps are `int`s in the source: the model follows it while the time is below 2 ^ 31. -/
structure ClockSystem where
  time : ℕ
  size : ℕ
  changeTs : ℕ → ℕ
  updateTs : ℕ → ℕ
  clocks : ℕ → List Bool
  idxToId : List ℕ

structure FBVClock where
  id : ℕ
  idx : ℕ
deriving DecidableEq, Repr

namespace ClockSystem

def empty : ClockSystem where
  time := 0
  size := 0
  changeTs := fun _ => 0
  updateTs := fun _ => 0
  clocks := fun _ => []
  idxToId := []

/-- A bit of a clock. Bits behind its end are not set. -/
def bit (cs : ClockSystem) (id i : ℕ) : Bool := (cs.clocks id).getD i false

/-- The clock with an index. -/
def idOf (cs : ClockSystem) (i : ℕ) : ℕ := cs.idxToId.getD i 0

/-- `std::vector::resize` to at least `n` entries. -/
def resize {α : Type} (v : List α) (n : ℕ) (x : α) : List α := v ++ List.replicate (n - v.length) x

/-- The constructor of `FBVClock`. -/
def create (cs : ClockSystem) (idx : ℕ) : ClockSystem × FBVClock :=
  let id := cs.size
  ({ cs with
      size := id + 1
      clocks := Function.update cs.clocks id ((resize [] (idx + 1) false).set idx true)
      idxToId := (resize cs.idxToId (idx + 1) 0).set idx id
      changeTs := Function.update cs.changeTs id cs.time
      updateTs := Function.update cs.updateTs id cs.time },
    ⟨id, idx⟩)

/-- `add_clock` with the destination and the source named. -/
def addClock (cs : ClockSystem) (dst src : ℕ) : ClockSystem :=
  { cs with
    clocks := Function.update cs.clocks dst
      ((resize (cs.clocks dst) (cs.clocks src).length false).mapIdx fun i x => x || cs.bit src i) }

/-- One turn of the loop of `update`, with the recursive call as an argument. -/
def updateBit (updateRec : ClockSystem → ℕ → Option ClockSystem) (id updTs : ℕ) (cs : ClockSystem)
    (i : ℕ) : Option ClockSystem :=
  let iId := cs.idOf i
  if iId ≠ id ∧ cs.bit id i = true ∧ updTs < cs.changeTs iId then
    (updateRec cs iId).map fun cs => cs.addClock id iId
  else some cs

/-- `update` with the depth of the stack that there is for it. The clock can grow while the loop
runs, but not beyond `idx_to_id`, and bits behind its end are not set. -/
def update : ℕ → ClockSystem → ℕ → Option ClockSystem
  | 0, _, _ => none
  | depth + 1, cs, id =>
      if cs.updateTs id = cs.time then some cs
      else
        ((List.range cs.idxToId.length).foldlM (updateBit (update depth) id (cs.updateTs id))
          cs).map fun cs => { cs with updateTs := Function.update cs.updateTs id cs.time }

/-- `operator[]`. -/
def read (depth : ℕ) (cs : ClockSystem) (a : FBVClock) (i : ℕ) : Option (ClockSystem × Bool) :=
  (cs.update depth a.id).map fun cs => (cs, cs.bit a.id i)

/-- `operator+=`. -/
def addAssign (depth : ℕ) (cs : ClockSystem) (a c : FBVClock) : Option ClockSystem :=
  if cs.bit a.id c.idx then some cs
  else
    (cs.update depth c.id).map fun cs =>
      let cs := { cs with
        time := cs.time + 1
        updateTs := Function.update cs.updateTs c.id (cs.time + 1) }
      let cs := cs.addClock a.id c.id
      { cs with changeTs := Function.update cs.changeTs a.id cs.time }

end ClockSystem

/-! ### Programs -/

namespace FBVClock

/-- An operation. Clocks are named in the order of their creation. -/
inductive Op where
  | create (idx : ℕ)
  | addAssign (a c : ℕ)
  | read (a i : ℕ)
deriving DecidableEq, Repr

/-- The clock system and the clocks that have been created in it. -/
structure State where
  sys : ClockSystem
  handles : List FBVClock

def State.init : State := ⟨ClockSystem.empty, []⟩

/-- One operation and the bit that it has read. -/
def step (depth : ℕ) (s : State) : Op → Option (State × Option Bool)
  | .create idx => some (⟨(s.sys.create idx).1, s.handles ++ [(s.sys.create idx).2]⟩, none)
  | .addAssign a c =>
      (s.handles[a]?).bind fun a => (s.handles[c]?).bind fun c =>
        (s.sys.addAssign depth a c).map fun sys => (⟨sys, s.handles⟩, none)
  | .read a i =>
      (s.handles[a]?).bind fun a =>
        (s.sys.read depth a i).map fun r => (⟨r.1, s.handles⟩, some r.2)

def run (depth : ℕ) (s : State) : List Op → Option State
  | [] => some s
  | op :: ops => (step depth s op).bind fun r => run depth r.1 ops

end FBVClock

end Nidhugg
