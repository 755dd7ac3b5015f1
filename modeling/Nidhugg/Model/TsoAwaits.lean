import Nidhugg.Model.FrontierFilter
import Nidhugg.Model.TsoData
import Nidhugg.Model.VClock

/-! # Vector clocks and races with awaits

How `TSOTraceBuilder` orders the events of an execution, and how it searches the writes before an
await for those that the await can be executed without. A result of `none` is a failed
assertion. -/

namespace Nidhugg

/-- The location and the condition of an event that waits. -/
def SymEv.await? : SymEv → Option ((ml : SymAddrSize) × TsoTraceBuilder.AwaitCond ml.size)
  | .loadAwait addr op operand | .xchgAwait addr _ op operand =>
      operand.map fun operand => ⟨addr, op, operand⟩
  | _ => Option.none

def SymEv.hasCond : SymEv → Bool
  | .loadAwait .. | .xchgAwait .. => true
  | _ => false

namespace TsoTraceBuilder

inductive Race where
  /-- Any kind of event that does not block any other process. -/
  | nonblock (first second : ℕ)
  | observed (first second witness : ℕ)
  | lockFail (first second : ℕ) (process : IID)
  | lockSuc (first second unlock : ℕ)
  | nondet (event alternative : ℕ)
  /-- An event that can be blocked, with what to exclude from the wakeup sequence. -/
  | sequence (first second : ℕ) (process : IID) (ev : SymEv) (exclude : List ℕ)
deriving DecidableEq

def Race.isNondet : Race → Bool
  | .nondet .. => true
  | _ => false

def Race.firstEvent : Race → ℕ
  | .nonblock first _ | .observed first _ _ | .lockFail first _ _ | .lockSuc first _ _
  | .nondet first _ | .sequence first .. => first

def Race.secondEvent? : Race → Option ℕ
  | .nonblock _ second | .observed _ second _ | .lockFail _ second _ | .lockSuc _ second _
  | .sequence _ second .. => some second
  | .nondet .. => Option.none

/-- The event whose clock is joined if the race is kept. -/
def Race.joined? : Race → Option ℕ
  | .lockSuc _ _ unlock => some unlock
  | .lockFail .. => Option.none
  | r => some r.firstEvent

structure Event where
  /-- The identifier of the first event of a sequence of consecutive events. -/
  iid : IID
  size : ℕ
  sym : List SymEv
  clock : VClock
  happensAfter : List ℕ
  races : List Race
  /-- Absent positions are recorded as well. -/
  happensAfterLater : List (Option ℕ)
deriving Inhabited, DecidableEq

def eventAt (pre : List Event) (k : ℕ) : Event := pre.getD k default

def Event.writes (e : Event) (ml : SymAddrSize) : Bool :=
  e.sym.any fun s => s.storeAddr?.any (·.overlaps ml)

/-! ### Awaits -/

/-- An await, the position it is executed at and the clock of what is before it in any case. -/
structure Await where
  pos : ℕ
  iid : IID
  ev : SymEv
  ml : SymAddrSize
  cond : AwaitCond ml.size
  await_eq : ev.await? = some ⟨ml, cond⟩
  aboveClock : VClock

/-- The loop of `shadows_all_of`, with the addresses that are not shadowed so far. -/
def shadowsAllFrom : List SymEv → Finset SymAddr → Bool
  | [], _ => false
  | e :: sym, addrs =>
      match e with
      | .fullmem => true
      | .store addr _ | .xchgAwait addr _ _ _ =>
          if addrs \ addr.bytes.toFinset = ∅ then true
          else shadowsAllFrom sym (addrs \ addr.bytes.toFinset)
      | _ => shadowsAllFrom sym addrs

def shadowsAllOf (sym : List SymEv) (ml : SymAddrSize) : Bool :=
  shadowsAllFrom sym ml.bytes.toFinset

section Awaits

variable (conf : Configuration) (bigEndian : Bool) (pre : List Event) (aw : Await)

def notExcluded (exclude : List ℕ) (k : ℕ) : Bool :=
  exclude.all fun x => !(eventAt pre k).clock.includes (eventAt pre x).iid

/-- Tries the subsequences of the accesses that are left, the earliest one first. Gives the races
with the event at `i` that it pushes. -/
def trySubsequences (i : ℕ) : List ℕ → List ℕ → List ℕ → Option (List Race)
  | [], included, exclude =>
      if included.Pairwise (· ≤ ·) then
        (awaitcondSatisfiedBy bigEndian (pre.map (·.sym)) i included aw.ml aw.cond).map fun b =>
          if b then [.sequence i aw.pos aw.iid aw.ev exclude] else []
      else none
  | ke :: rest, included, exclude =>
      if (eventAt pre ke).clock.includes (eventAt pre i).iid then
        -- `ke` is not in notdep(`i`).
        trySubsequences i rest included exclude
      else
        let without :=
          if !aw.aboveClock.includes (eventAt pre ke).iid then
            trySubsequences i rest included (exclude ++ [ke])
          else some []
        let within :=
          if notExcluded pre exclude ke then trySubsequences i rest (included ++ [ke]) exclude
          else some []
        without.bind fun without => within.map (without ++ ·)

/-- What the loop over the prefix carries along. The last access that has been pushed comes
first. -/
structure Search where
  canStop : Bool
  unorderedAccesses : List ℕ
  races : List Race

/-- The races of a search, and the error that has ended it. -/
structure Outcome where
  races : List Race
  error : Option (String × IID)
deriving DecidableEq

inductive Turn where
  | stop (outcome : Outcome)
  | next (st : Search)

/-- One turn of the loop, about the event at position `i`. -/
def visit (i : ℕ) (st : Search) : Option Turn :=
  let ie := eventAt pre i
  if ie.sym.any (· = .fullmem) then
    some (.stop
      ⟨st.races, some ("Full memory conflicts are not compatible with awaits", ie.iid)⟩)
  else if !ie.writes aw.ml then some (.next st)
  else
    let canStop := st.canStop || shadowsAllOf ie.sym aw.ml
    if conf.commuteRmws then
      let pushed :=
        if !aw.aboveClock.includes ie.iid then
          trySubsequences bigEndian pre aw i st.unorderedAccesses [] []
        else some []
      pushed.map fun pushed =>
        if canStop && !pushed.isEmpty then .stop ⟨st.races ++ pushed, none⟩
        else .next ⟨canStop, i :: st.unorderedAccesses, st.races ++ pushed⟩
    else if aw.aboveClock.includes ie.iid then some (.next { st with canStop })
    else
      (awaitcondSatisfiedBefore bigEndian (pre.map (·.sym)) i aw.ml aw.cond).map fun satisfied =>
        if satisfied then
          let races := st.races ++ [.sequence i aw.pos aw.iid aw.ev []]
          if canStop then .stop ⟨races, none⟩ else .next { st with canStop, races }
        else .next { st with canStop }

/-- The loop over the positions below a bound, downwards. -/
def doAwaitFrom : ℕ → Search → Option Outcome
  | 0, st => some ⟨st.races, none⟩
  | i + 1, st =>
      (visit conf bigEndian pre aw i st).bind fun
        | .stop outcome => some outcome
        | .next st => doAwaitFrom i st

/-- `do_await`, without the races that there were before. -/
def doAwait : Option Outcome := doAwaitFrom conf bigEndian pre aw aw.pos ⟨false, [], []⟩

end Awaits

/-! ### Vector clocks -/

structure Thread where
  spawnEvent : Option ℕ
  /-- The position of every event of the thread. -/
  eventIndices : List ℕ

/-- `std::partition`, which may rearrange both parts. -/
structure Partition (α : Type) where
  split : (α → Bool) → List α → List α × List α
  perm : ∀ p l, ((split p l).1 ++ (split p l).2).Perm l
  of_mem_left : ∀ p l, ∀ x ∈ (split p l).1, p x = true
  of_mem_right : ∀ p l, ∀ x ∈ (split p l).2, p x = false

/-- A partition that keeps the order. -/
def Partition.stable {α : Type} : Partition α where
  split := List.partition
  perm p l := by
    rw [List.partition_eq_filter_filter]
    exact List.filter_append_perm p l
  of_mem_left p l x hx := by
    rw [List.partition_eq_filter_filter] at hx
    exact List.of_mem_filter hx
  of_mem_right p l x hx := by
    rw [List.partition_eq_filter_filter] at hx
    simpa using List.of_mem_filter hx

def addHappensAfter (pre : List Event) (second first : ℕ) : Option (List Event) :=
  if first < second ∧ second < pre.length then
    let e := eventAt pre second
    if e.happensAfter.getLast? = some first then some pre
    else some (pre.set second { e with happensAfter := e.happensAfter ++ [first] })
  else none

/-- The first event of a thread happens after the event that spawns it. -/
def addSpawn (pre : List Event) (t : Thread) : Option (List Event) :=
  match t.spawnEvent, t.eventIndices with
  | some spawn, first :: _ => addHappensAfter pre first spawn
  | _, _ => some pre

/-- Moves the race of a failed lock into its event. The others are for the end of the prefix. -/
def moveLockFail (st : List Event × List Race) (r : Race) : Option (List Event × List Race) :=
  r.secondEvent?.bind fun second =>
    if second < st.1.length then
      let e := eventAt st.1 second
      some (st.1.set second { e with races := e.races ++ [r] }, st.2)
    else if second = st.1.length then some (st.1, st.2 ++ [r])
    else none

def findProcessEvent (threads : List Thread) (pre : List Event) (pid index : ℕ) : Option ℕ := do
  let t ← threads[pid]?
  if 1 ≤ index then
    let k ← t.eventIndices[index - 1]?
    let e ← pre[k]?
    if 0 < e.size ∧ e.iid.pid = pid ∧ e.iid.index ≤ index ∧ index < e.iid.index + e.size then
      some k
    else none
  else none

/-- The loop over excluded events when the race `s` is asked to subsume a race. Both lists are
sorted. -/
def excludeCovers (pre : List Event) (fe : ℕ) : List ℕ → List ℕ → Bool
  | [], _ => true
  | s :: sx, fx =>
      match fx.dropWhile (· < s) with
      | [] => (eventAt pre s).clock.includes (eventAt pre fe).iid && excludeCovers pre fe sx []
      | f :: fx =>
          if f = s then excludeCovers pre fe sx fx
          else (eventAt pre s).clock.includes (eventAt pre fe).iid &&
            excludeCovers pre fe sx (f :: fx)

/-- Whether `s` subsumes `f`. -/
def subsumed (pre : List Event) (f s : Race) : Bool :=
  match f, s with
  -- A virtual event does not contribute to the clock and cannot subsume races.
  | _, .lockFail .. => false
  | .sequence fe _ _ _ fx, .sequence se _ _ _ sx =>
      (eventAt pre se).clock.includes (eventAt pre fe).iid && excludeCovers pre fe sx fx
  | f, .sequence se _ _ _ sx =>
      (eventAt pre se).clock.includes (eventAt pre f.firstEvent).iid &&
        excludeCovers pre f.firstEvent sx []
  | .observed first second witness, .observed first' second' witness' =>
      if first = first' ∧ second = second' then witness' ≤ witness
      else (eventAt pre first').clock.includes (eventAt pre first).iid
  | f, .lockSuc _ _ unlock =>
      (eventAt pre unlock).clock.includes (eventAt pre f.firstEvent).iid
  | f, s => (eventAt pre s.firstEvent).clock.includes (eventAt pre f.firstEvent).iid

def joinClocks (pre : List Event) (clock : VClock) (ks : List ℕ) : VClock :=
  ks.foldl (fun clock k => clock.addAssign (eventAt pre k).clock) clock

/-- The unlock events of some races. -/
def unlocks (races : List Race) : List ℕ :=
  races.filterMap fun
    | .lockSuc _ _ unlock => some unlock
    | _ => none

def lockOrdered (pre : List Event) : Race → Bool
  | .lockSuc first _ unlock => (eventAt pre first).clock.leq (eventAt pre unlock).clock
  | _ => true

/-- The loop that drops the races with events that are covered by the clock. Every turn but the
last drops a race, so that their number is enough turns. -/
def dropCovered (partition : Partition Race) (pre : List Event) :
    ℕ → List Race → VClock → List Race × VClock
  | 0, races, clock => (races, clock)
  | n + 1, races, clock =>
      let (kept, dropped) :=
        partition.split (fun r => !(eventAt pre r.firstEvent).clock.leq clock) races
      if unlocks dropped = [] then (kept, clock)
      else dropCovered partition pre n kept (joinClocks pre clock (unlocks dropped))

/-- The positions of `happens_after_later`. -/
def joinLater (pre : List Event) (clock : VClock) (later : List (Option ℕ)) : VClock :=
  later.foldl (fun clock b =>
    match b with
    | some b =>
        if !clock.includes (eventAt pre b).iid then clock.addAssign (eventAt pre b).clock
        else clock
    | none => clock) clock

section Clocks

variable (partition : Partition Race) (conf : Configuration) (bigEndian : Bool)
  (threads : List Thread)

/-- The races with writes that an event of the prefix pushes if it waits. -/
def awaitRaces (pre : List Event) (i : ℕ) (e : Event) (clock : VClock) : Option (List Race) :=
  if e.sym.any (·.hasCond) then
    match e.sym with
    | [ev] =>
        match h : ev.await? with
        | some ⟨ml, cond⟩ =>
            (doAwait conf bigEndian pre ⟨i, e.iid, ev, ml, cond, h, clock⟩).map (·.races)
        | none => none
    | _ => none
  else some []

/-- The clock that an event starts with: what is before it in its thread, and itself. -/
def startClock (pre : List Event) (iid : IID) : Option VClock :=
  let last :=
    if 1 < iid.index then
      (findProcessEvent threads pre iid.pid (iid.index - 1)).map fun last =>
        (eventAt pre last).clock
    else some .empty
  last.map (·.set iid.pid iid.index)

/-- One turn of the loop of `compute_vclocks`. -/
def computeVclock (pre : List Event) (i : ℕ) : Option (List Event) := do
  let e ← pre[i]?
  let start ← startClock threads pre e.iid
  guard (∀ k ∈ e.happensAfter, k < i)
  -- First the edges that cannot be reversed
  let clock := joinClocks pre start e.happensAfter
  let pushed ← awaitRaces conf bigEndian pre i e clock
  let (nondet, pairs) := partition.split Race.isNondet (e.races ++ pushed)
  let (pairs, clock) := dropCovered partition pre pairs.length pairs clock
  let (pairs, fill) ← FrontierFilter.frontierFilter (subsumed pre) pairs
  let races := pairs.take fill
  let clock := joinClocks pre clock (races.filterMap (·.joined?))
  guard (races.all (lockOrdered pre))
  guard (e.happensAfterLater = [] ∨ (e.sym.length = 1 ∧ e.sym.all (·.hasCond)))
  let clock := joinLater pre clock e.happensAfterLater
  return pre.set i { e with clock, races := nondet ++ races, happensAfterLater := [] }

/-- The part of the trace builder that `compute_vclocks` works on. -/
structure VclockState where
  pre : List Event
  lockFailRaces : List Race
  hasVclocks : Bool

/-- The prefix and the races at its end before the loop. -/
def prepareVclocks (st : VclockState) : Option (List Event × List Race) := do
  let pre ← threads.foldlM addSpawn st.pre
  st.lockFailRaces.foldlM moveLockFail (pre, [])

/-- The prefix after the turns of the loop for the events before position `n`. -/
def vclocksBelow (st : VclockState) (n : ℕ) : Option (List Event) := do
  let (pre, _) ← prepareVclocks threads st
  (List.range n).foldlM (computeVclock partition conf bigEndian threads) pre

def computeVclocks (st : VclockState) : Option VclockState := do
  if st.hasVclocks then some st
  else
    let (_, lockFailRaces) ← prepareVclocks threads st
    let pre ← vclocksBelow partition conf bigEndian threads st st.pre.length
    return ⟨pre, lockFailRaces, true⟩

end Clocks

end TsoTraceBuilder

end Nidhugg
