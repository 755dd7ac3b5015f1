import Nidhugg.Model.SymEv

/-! # Conflicts between symbolic events

When `TSOTraceBuilder` takes two events to be dependent. An event carries the list of its
symbolic operations. -/

namespace Nidhugg

namespace SymEv

/-- `operator==`: the kind and the address or number, but not the data. -/
def same : SymEv → SymEv → Bool
  | .none, .none => true
  | .nondet m, .nondet n => m = n
  | .load a, .load b => a = b
  | .loadAwait a _ _, .loadAwait b _ _ => a = b
  | .store a _, .store b _ => a = b
  | .fullmem, .fullmem => true
  | .rmw a _ _ _ _, .rmw b _ _ _ _ => a = b
  | .xchgAwait a _ _ _, .xchgAwait b _ _ _ => a = b
  | .cmpXhg a _ _, .cmpXhg b _ _ => a = b
  | .cmpXhgFail a _ _, .cmpXhgFail b _ _ => a = b
  | .mutex op a, .mutex op' b => op = op' && a = b
  | .cond op a, .cond op' b => op = op' && a = b
  | .spawn m, .spawn n => m = n
  | .join m, .join n => m = n
  | .unobsStore a _, .unobsStore b _ => a = b
  | _, _ => false

def clearObserved : SymEv → SymEv
  | .store addr written => .unobsStore addr written
  | e => e

/-- `symev_has_pid` together with the number of the process. -/
def pid? : SymEv → Option ℕ
  | .spawn proc | .join proc => some proc
  | _ => Option.none

/-- `symev_is_load`. -/
def isLoad : SymEv → Bool
  | .load _ | .cmpXhgFail .. | .loadAwait .. => true
  | _ => false

end SymEv

namespace TsoTraceBuilder

def doSymevsConflict (conf : Configuration) : SymEv → SymEv → Bool
  | .nondet _, _ | _, .nondet _ => false
  | .fullmem, _ | _, .fullmem => true
  | fst, snd =>
      if fst.isLoad && snd.isLoad then false
      else
        let overlap := fst.addr?.any fun a => snd.addr?.any fun b => a.overlaps b
        match fst, snd with
        | .unobsStore a _, .unobsStore b _ => !(a = b) && overlap
        | .rmw a _ kind _ used, .rmw b _ kind' _ used' =>
            !(a = b && rmwactionCommutes conf kind used kind' used') && overlap
        | _, _ => overlap

/-- Threads and store buffers alternate in the numbering of processes. -/
def doEventsConflict (conf : Configuration) (fstPid : ℕ) (fst : List SymEv) (sndPid : ℕ)
    (snd : List SymEv) : Bool :=
  fstPid = sndPid ||
    fst.any (fun fe => fe.pid? = some (sndPid / 2) || snd.any (doSymevsConflict conf fe)) ||
    snd.any fun se => se.pid? = some (fstPid / 2)

end TsoTraceBuilder

end Nidhugg

/-! # Wakeup sequences

How `race_detect_optimal` compares the sequence that reverses a race with a child of a wakeup tree.
A result of `none` is a failed assertion. -/

namespace Nidhugg

namespace TsoTraceBuilder

/-- A number of consecutive events of one process; only the first may be visible. -/
structure Branch where
  sym : List SymEv
  pid : ℕ
  alt : ℕ
  size : ℕ

/-- `operator==` of branches. -/
def Branch.same (b c : Branch) : Bool := b.pid = c.pid && b.alt = c.alt

/-- `operator==` of the operations of two events. -/
def sameSym (fst snd : List SymEv) : Bool :=
  fst.length = snd.length && (fst.zip snd).all fun p => p.1.same p.2

/-- Takes `missing` more events of process `pid` off the sequence after the match. -/
def dropMissing (pid : ℕ) : ℕ → List Branch → Option (List Branch)
  | 0, v => some v
  | _ + 1, [] => some []
  | missing + 1, vr :: v =>
      if vr.pid = pid then
        if vr.sym.isEmpty then
          if missing + 1 < vr.size then some ({ vr with size := missing + 1 } :: v)
          else dropMissing pid (missing + 1 - vr.size) v
        else none
      else (dropMissing pid (missing + 1) v).map (vr :: ·)

/-- Takes the events of the child off the sequence, from the matching branch `ve` on. -/
def dropCommon (child ve : Branch) (back : List Branch) : Option (List Branch) :=
  if ve.size < child.size then dropMissing ve.pid (child.size - ve.size) back
  else if child.size < ve.size then
    some ({ ve with size := ve.size - child.size, sym := [], alt := 0 } :: back)
  else some back

/-- What comes of comparing a sequence with a child. -/
inductive Match where
  /-- They conflict; the next child is tried. -/
  | incompatible
  /-- The sequence does not conflict with the child and does not contain it. -/
  | unneeded
  /-- The sequence is exhausted. -/
  | scheduled
  /-- The sequence is to be inserted below the child. -/
  | recurse (v : List Branch)

/-- The loop over the sequence, of which `front` has been passed. -/
def matchChild (conf : Configuration) (child : Branch) (front : List Branch) :
    List Branch → Option Match
  | [] => some .unneeded
  | ve :: back =>
      if child.same ve then
        -- A different operation has to be compared with what comes before it.
        if !sameSym child.sym ve.sym &&
            front.any (fun pe => doEventsConflict conf ve.pid ve.sym pe.pid pe.sym) then
          some .incompatible
        else if (front ++ ve :: back).length = 1 then some .scheduled
        else (dropCommon child ve back).map fun back => .recurse (front ++ back)
      else if doEventsConflict conf ve.pid ve.sym child.pid child.sym then some .incompatible
      else matchChild conf child (front ++ [ve]) back

end TsoTraceBuilder

end Nidhugg
