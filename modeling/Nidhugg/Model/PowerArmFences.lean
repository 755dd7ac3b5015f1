import Mathlib.Data.Int.Notation
import Mathlib.Data.Nat.Notation

/-! # Fences of the POWER and ARM trace builder

The fences that a thread fetches and the edges that `fences_to_hb` adds for them when an event is
committed. Events are numbered from zero in program order. Dependencies are left out, and with
them the fence `isync`, which only changes dependencies. -/

namespace Nidhugg.PowerArmFences

inductive FenceType where
  | eieio
  | lwsync
  | sync
deriving DecidableEq, Repr

/-- One index for each type of fences. -/
structure FenceIndices where
  eieio : ℤ
  lwsync : ℤ
  sync : ℤ
deriving DecidableEq, Repr

namespace FenceIndices

/-- There are no fences. -/
def none : FenceIndices := ⟨-1, -1, -1⟩

def get (f : FenceIndices) : FenceType → ℤ
  | .eieio => f.eieio
  | .lwsync => f.lwsync
  | .sync => f.sync

def set (f : FenceIndices) (type : FenceType) (idx : ℤ) : FenceIndices :=
  match type with
  | .eieio => { f with eieio := idx }
  | .lwsync => { f with lwsync := idx }
  | .sync => { f with sync := idx }

end FenceIndices

structure PAEvent where
  hasLoad : Bool
  hasStore : Bool
  committed : Bool
  /-- The number of events in front of the last fence before this event. -/
  idxBefore : FenceIndices
  /-- The number of events in front of the first fence after this event. -/
  idxAfter : FenceIndices
deriving DecidableEq, Repr

structure Thread where
  fch : List PAEvent
  lastFetchedIdx : FenceIndices
  /-- The pairs of events that have been added to `hb`. -/
  hb : List (ℕ × ℕ)
deriving DecidableEq, Repr

def Thread.initial : Thread := ⟨[], .none, []⟩

def fetch (T : Thread) (hasLoad hasStore : Bool) : Thread :=
  { T with fch := T.fch ++ [⟨hasLoad, hasStore, false, T.lastFetchedIdx, .none⟩] }

def fetchFence (T : Thread) (type : FenceType) : Thread :=
  let idx := T.fch.length
  { T with
    fch := T.fch.mapIdx fun i evt =>
      if max 0 (T.lastFetchedIdx.get type) ≤ i then
        { evt with idxAfter := evt.idxAfter.set type idx }
      else evt
    lastFetchedIdx := T.lastFetchedIdx.set type idx }

/-- The end of the loop over earlier events. -/
def lastFenceBefore (evt : PAEvent) : ℤ :=
  let a := max evt.idxBefore.lwsync evt.idxBefore.sync
  if evt.hasStore then max a evt.idxBefore.eieio else a

/-- The start of the loop over later events. -/
def firstFenceAfter (evt : PAEvent) : ℤ :=
  let b := evt.idxAfter.lwsync
  let b := if b = -1 || (evt.idxAfter.sync ≠ -1 && evt.idxAfter.sync < b) then evt.idxAfter.sync
    else b
  if evt.hasStore && (b = -1 || (evt.idxAfter.eieio ≠ -1 && evt.idxAfter.eieio < b)) then
    evt.idxAfter.eieio
  else b

/-- Whether the earlier event `i` is added. -/
def addsBwd (evt evt2 : PAEvent) (i : ℕ) : Bool :=
  evt2.committed &&
    (i < evt.idxBefore.sync ||
      (i < evt.idxBefore.lwsync && (evt.hasStore || evt2.hasLoad)) ||
      (i < evt.idxBefore.eieio && evt.hasStore && evt2.hasStore))

/-- Whether the later event `i` is added. -/
def addsFwd (evt evt2 : PAEvent) (i : ℕ) : Bool :=
  evt2.committed &&
    (evt.idxAfter.sync ≤ i ||
      (evt.idxAfter.lwsync ≤ i && (evt2.hasStore || evt.hasLoad)) ||
      (evt.idxAfter.eieio ≤ i && evt.hasStore && evt2.hasStore))

/-- The events that `fences_to_hb` adds before and after an event. -/
def fencesToHb (T : Thread) (evt : PAEvent) : List ℕ × List ℕ :=
  let a := lastFenceBefore evt
  let b := firstFenceAfter evt
  ((List.range a.toNat).filter fun i => T.fch[i]?.any fun evt2 => addsBwd evt evt2 i,
    if b ≠ -1 then
      (List.range' b.toNat (T.fch.length - b.toNat)).filter fun i =>
        T.fch[i]?.any fun evt2 => addsFwd evt evt2 i
    else [])

inductive Turn where
  | fetch (hasLoad hasStore : Bool)
  | fence (type : FenceType)
  | commit (i : ℕ)
deriving DecidableEq, Repr

/-- The commit of an event. In which order events are committed depends on `cb` and is left open. -/
def commit (T : Thread) (i : ℕ) : Option Thread :=
  match T.fch[i]? with
  | some evt =>
      if evt.committed then none
      else
        let rel := fencesToHb T evt
        some { T with
          fch := T.fch.set i { evt with committed := true }
          hb := T.hb ++ rel.1.map (·, i) ++ rel.2.map (i, ·) }
  | none => none

def step (T : Thread) : Turn → Option Thread
  | .fetch hasLoad hasStore => some (fetch T hasLoad hasStore)
  | .fence type => some (fetchFence T type)
  | .commit i => commit T i

def run (turns : List Turn) : Option Thread := turns.foldlM step .initial

end Nidhugg.PowerArmFences
