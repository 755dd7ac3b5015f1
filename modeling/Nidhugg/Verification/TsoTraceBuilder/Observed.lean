import Nidhugg.Model.TsoObserved
import Nidhugg.Verification.VecSet.Sets

/-! # Observed stores are those that are read

A store is observed if one of its bytes is read before it is overwritten. The scan does not see the
reads of awaits, and behind a full memory event it asks for all bytes instead of one. -/

namespace Nidhugg.TsoTraceBuilder

open VecSet (Sorted StrictTotal)

/-! ### Reads and overwritten bytes -/

/-- Whether an event reads a byte. -/
def reads (e : SymEv) (a : SymAddr) : Bool :=
  match e with
  | .load addr | .rmw addr _ _ _ _ | .cmpXhg addr _ _ | .cmpXhgFail addr _ _
  | .loadAwait addr _ _ | .xchgAwait addr _ _ _ => a ∈ addr.bytes
  | .fullmem => true
  | _ => false

/-- Whether an event stores to a byte. -/
def stores (e : SymEv) (a : SymAddr) : Bool :=
  match e with
  | .store addr _ | .unobsStore addr _ | .rmw addr _ _ _ _ | .cmpXhg addr _ _
  | .xchgAwait addr _ _ _ => a ∈ addr.bytes
  | _ => false

/-- Whether a byte is read by one of the events with no store to it in between. -/
def readBefore : List SymEv → SymAddr → Bool
  | [], _ => false
  | e :: es, a => reads e a || (!stores e a && readBefore es a)

/-- The store as it should be marked, in front of the events `later`. -/
def markEvent (later : List SymEv) (e : SymEv) : SymEv :=
  match e with
  | .store addr written | .unobsStore addr written =>
      if addr.bytes.any (readBefore later) then .store addr written else .unobsStore addr written
  | e => e

def markSyms (later : List SymEv) : List SymEv → List SymEv
  | [] => []
  | e :: es => markEvent (es ++ later) e :: markSyms later es

def events (v : List Branch) : List SymEv := v.flatMap Branch.sym

/-- The sequence with the stores marked by whether one of their bytes is read. -/
def markObserved : List Branch → List Branch
  | [] => []
  | b :: v => { b with sym := markSyms (events v) b.sym } :: markObserved v

/-! ### When the scan is exact -/

def isAwait : SymEv → Bool
  | .loadAwait .. | .xchgAwait .. => true
  | _ => false

/-- The events other than awaits. -/
def withoutAwaits (es : List SymEv) : List SymEv := es.filter fun e => !isAwait e

/-- Whether the first event that accesses a byte is an await. -/
def awaitFirst : List SymEv → SymAddr → Bool
  | [], _ => false
  | e :: es, a => if reads e a || stores e a then isAwait e else awaitFirst es a

/-- The condition on the bytes of a store in front of the events `later`. -/
def Decided (later : List SymEv) (bytes : List SymAddr) : Prop :=
  if .fullmem ∈ later then
    bytes ≠ [] ∧ ((∀ a ∈ bytes, readBefore (withoutAwaits later) a = true) ∨
      ∀ a ∈ bytes, readBefore later a = false)
  else
    (∃ a ∈ bytes, readBefore (withoutAwaits later) a = true) ∨
      ∀ a ∈ bytes, awaitFirst later a = false

/-- The address of a plain store. -/
def plainStore? : SymEv → Option SymAddrSize
  | .store addr _ | .unobsStore addr _ => some addr
  | _ => none

/-- The condition holds of every store of the events. -/
def AllDecided (es : List SymEv) : Prop :=
  ∀ e back, e :: back <:+ es → ∀ addr ∈ plainStore? e, Decided back addr.bytes

/-! ### The scan tracks the bytes that are read -/

theorem symMBlock_lt_iff {a b : SymMBlock} :
    a.lt b = true ↔ a.pid < b.pid ∨ a.pid = b.pid ∧ a.alloc < b.alloc := by
  obtain ⟨pid, alloc⟩ := a
  obtain ⟨pid', alloc'⟩ := b
  simp only [SymMBlock.lt, SymMBlock.le, Bool.and_eq_true, Bool.or_eq_true, decide_eq_true_eq,
    SymMBlock.mk.injEq, ne_eq]
  omega

theorem symAddr_lt_iff {a b : SymAddr} : a.lt b = true ↔
    a.block.lt b.block = true ∨ a.block = b.block ∧ a.offset < b.offset := by
  obtain ⟨block, offset⟩ := a
  obtain ⟨block', offset'⟩ := b
  have hirrefl : block.lt block = false := by simp [SymMBlock.lt]
  simp only [SymAddr.lt, SymAddr.le, Bool.and_eq_true, Bool.or_eq_true, decide_eq_true_eq,
    SymAddr.mk.injEq, ne_eq]
  by_cases hblock : block = block'
  · subst hblock
    simp [hirrefl]
    omega
  · simp [hblock]

theorem strictTotal_symAddr : StrictTotal SymAddr.lt := by
  constructor
  · intro x
    simp [SymAddr.lt]
  · intro x y z hxy hyz
    rw [symAddr_lt_iff, symMBlock_lt_iff] at hxy hyz ⊢
    rcases hxy with hxy | ⟨hxy, hlt⟩
    · rcases hyz with hyz | ⟨hyz, hlt'⟩
      · left
        omega
      · rw [← hyz]
        exact .inl hxy
    · rcases hyz with hyz | ⟨hyz, hlt'⟩
      · rw [hxy]
        exact .inl hyz
      · exact .inr ⟨hxy.trans hyz, hlt.trans hlt'⟩
  · intro x y h
    obtain ⟨hxy, hyx⟩ := h
    rw [← Bool.not_eq_true, symAddr_lt_iff, symMBlock_lt_iff, not_or, not_and] at hxy hyx
    have hblock : x.block = y.block := by
      obtain ⟨⟨pid, alloc⟩, offset⟩ := x
      obtain ⟨⟨pid', alloc'⟩, offset'⟩ := y
      simp only [SymMBlock.mk.injEq]
      dsimp only at hxy hyx
      omega
    have hle := hxy.2 hblock
    have hge := hyx.2 hblock.symm
    obtain ⟨block, offset⟩ := x
    obtain ⟨block', offset'⟩ := y
    simp only [SymAddr.mk.injEq]
    exact ⟨hblock, by dsimp only at hle hge; omega⟩

/-- The sets of the scan say which bytes are read, disregarding awaits. -/
structure Tracks (st : LastReads) (later : List SymEv) : Prop where
  sorted : Sorted SymAddr.lt st.lastReads
  readAll : st.readAll = decide (.fullmem ∈ later)
  mem : ∀ a, a ∈ st.lastReads ↔ readBefore (withoutAwaits later) a = !st.readAll

theorem tracks_nil : Tracks ⟨[], false⟩ [] :=
  ⟨List.Pairwise.nil, rfl, fun a => by simp [withoutAwaits, readBefore]⟩

/-- A step that does not change what is read. -/
theorem Tracks.same {st : LastReads} {later : List SymEv} {e : SymEv} (h : Tracks st later)
    (hfull : e ≠ .fullmem) (hmem : ∀ a, readBefore (withoutAwaits (e :: later)) a =
      readBefore (withoutAwaits later) a) : Tracks st (e :: later) := by
  refine ⟨h.sorted, ?_, ?_⟩
  · rw [h.readAll]
    simp [hfull.symm]
  · intro a
    rw [hmem, h.mem]

/-- A step that inserts bytes into the set. -/
theorem Tracks.insert {st : LastReads} {later : List SymEv} {e : SymEv} {bytes : List SymAddr}
    (h : Tracks st later) (hbytes : Sorted SymAddr.lt bytes) (hfull : e ≠ .fullmem)
    (hmem : ∀ a, readBefore (withoutAwaits (e :: later)) a =
      if a ∈ bytes then !st.readAll else readBefore (withoutAwaits later) a) :
    Tracks ⟨VecSet.insertSet SymAddr.lt st.lastReads bytes, st.readAll⟩ (e :: later) := by
  refine ⟨VecSet.sorted_insertSet strictTotal_symAddr h.sorted hbytes, ?_, ?_⟩
  · rw [h.readAll]
    simp [hfull.symm]
  · intro a
    rw [VecSet.mem_insertSet strictTotal_symAddr, h.mem, hmem]
    by_cases hin : a ∈ bytes <;> simp [hin]

/-- A step that erases bytes from the set. -/
theorem Tracks.erase {st : LastReads} {later : List SymEv} {e : SymEv} {bytes : List SymAddr}
    (h : Tracks st later) (hbytes : Sorted SymAddr.lt bytes) (hfull : e ≠ .fullmem)
    (hmem : ∀ a, readBefore (withoutAwaits (e :: later)) a =
      if a ∈ bytes then st.readAll else readBefore (withoutAwaits later) a) :
    Tracks ⟨VecSet.eraseSet SymAddr.lt st.lastReads bytes, st.readAll⟩ (e :: later) := by
  refine ⟨VecSet.sorted_eraseSet h.sorted bytes, ?_, ?_⟩
  · rw [h.readAll]
    simp [hfull.symm]
  · intro a
    rw [VecSet.mem_eraseSet strictTotal_symAddr h.sorted hbytes, h.mem, hmem]
    by_cases hin : a ∈ bytes <;> simp [hin]

theorem Tracks.read {st : LastReads} {later : List SymEv} {e : SymEv} {bytes : List SymAddr}
    (h : Tracks st later) (hbytes : Sorted SymAddr.lt bytes) (hfull : e ≠ .fullmem)
    (hmem : ∀ a, readBefore (withoutAwaits (e :: later)) a =
      (decide (a ∈ bytes) || readBefore (withoutAwaits later) a)) :
    Tracks (st.read bytes) (e :: later) := by
  rw [LastReads.read]
  split
  · rename_i hall
    exact h.erase hbytes hfull fun a => by by_cases hin : a ∈ bytes <;> simp [hmem, hall, hin]
  · rename_i hall
    exact h.insert hbytes hfull fun a => by by_cases hin : a ∈ bytes <;> simp [hmem, hall, hin]

theorem Tracks.overwrite {st : LastReads} {later : List SymEv} {e : SymEv} {bytes : List SymAddr}
    (h : Tracks st later) (hbytes : Sorted SymAddr.lt bytes) (hfull : e ≠ .fullmem)
    (hmem : ∀ a, readBefore (withoutAwaits (e :: later)) a =
      (decide (a ∉ bytes) && readBefore (withoutAwaits later) a)) :
    Tracks (st.overwrite bytes) (e :: later) := by
  rw [LastReads.overwrite]
  split
  · rename_i hall
    exact h.insert hbytes hfull fun a => by by_cases hin : a ∈ bytes <;> simp [hmem, hall, hin]
  · rename_i hall
    exact h.erase hbytes hfull fun a => by by_cases hin : a ∈ bytes <;> simp [hmem, hall, hin]

/-- What one step of the scan keeps. -/
theorem Tracks.step {st : LastReads} {later : List SymEv} (h : Tracks st later) (e : SymEv) :
    Tracks (recomputeEvent st e.clearObserved).1 (e :: later) := by
  have hrange := fun addr : SymAddrSize => VecSet.ofRange_spec strictTotal_symAddr addr.bytes
  cases e with
  | load addr | cmpXhgFail addr written expected =>
      apply h.read (hrange addr).1 (by simp)
      intro a
      simp [withoutAwaits, isAwait, readBefore, reads, stores, (hrange addr).2]
  | rmw addr written kind operand used | cmpXhg addr written expected =>
      apply h.read (hrange addr).1 (by simp)
      intro a
      by_cases ha : a ∈ addr.bytes <;>
        simp [withoutAwaits, isAwait, readBefore, reads, stores, (hrange addr).2, ha]
  | store addr written | unobsStore addr written =>
      apply h.overwrite (hrange addr).1 (by simp)
      intro a
      simp [withoutAwaits, isAwait, readBefore, reads, stores, (hrange addr).2]
  | fullmem =>
      refine ⟨List.Pairwise.nil, by simp [recomputeEvent, SymEv.clearObserved], ?_⟩
      intro a
      simp [recomputeEvent, SymEv.clearObserved, withoutAwaits, isAwait, readBefore, reads]
  | none | nondet count | mutex op addr | cond op addr | spawn proc | join proc
  | loadAwait addr op operand | xchgAwait addr written op operand =>
      apply h.same (by simp)
      intro a
      simp [withoutAwaits, isAwait, readBefore, reads, stores]

/-! ### The stores that the scan marks -/

/-- A byte is read if it is read disregarding awaits or first accessed by an await. -/
theorem readBefore_eq (later : List SymEv) (a : SymAddr) : readBefore later a =
    (readBefore (withoutAwaits later) a || awaitFirst later a) := by
  induction later with
  | nil => rfl
  | cons e later ih =>
      have hread : isAwait e = true → stores e a = true → reads e a = true := by
        cases e <;> simp [isAwait, stores, reads]
      rw [readBefore, awaitFirst, ih]
      cases hawait : isAwait e with
      | true =>
          have hskip : withoutAwaits (e :: later) = withoutAwaits later :=
            List.filter_cons_of_neg (by simp [hawait])
          have hreads := hread hawait
          rw [hskip]
          revert hreads
          cases reads e a <;> cases stores e a <;> simp
      | false =>
          have hkeep : withoutAwaits (e :: later) = e :: withoutAwaits later :=
            List.filter_cons_of_pos (by simp [hawait])
          rw [hkeep, readBefore]
          cases reads e a <;> cases stores e a <;> simp

/-- Behind a full memory event the scan marks the stores all of whose bytes are read. -/
theorem Tracks.marks {st : LastReads} {later : List SymEv} (h : Tracks st later)
    (addr : SymAddrSize) :
    (st.readAll ^^ VecSet.intersects SymAddr.lt st.lastReads
        (VecSet.ofRange SymAddr.lt addr.bytes)) =
      if .fullmem ∈ later then addr.bytes.all (readBefore (withoutAwaits later))
      else addr.bytes.any (readBefore (withoutAwaits later)) := by
  obtain ⟨hsorted, hmem⟩ := VecSet.ofRange_spec strictTotal_symAddr addr.bytes
  have hiff := VecSet.intersects_iff strictTotal_symAddr h.sorted hsorted
  have hall := h.readAll
  by_cases hfull : SymEv.fullmem ∈ later
  · rw [decide_eq_true hfull] at hall
    rw [if_pos hfull, hall, Bool.true_xor, Bool.eq_iff_iff, Bool.not_eq_true',
      ← Bool.not_eq_true, hiff, List.all_eq_true]
    simp only [h.mem, hmem, hall]
    constructor
    · intro hnone a ha
      by_contra hread
      exact hnone ⟨a, by simpa using hread, ha⟩
    · intro hread hsome
      obtain ⟨a, ha, hin⟩ := hsome
      rw [hread a hin] at ha
      cases ha
  · rw [decide_eq_false hfull] at hall
    rw [if_neg hfull, hall, Bool.false_xor, Bool.eq_iff_iff, hiff, List.any_eq_true]
    simp only [h.mem, hmem, hall]
    constructor
    · intro hsome
      obtain ⟨a, ha, hin⟩ := hsome
      exact ⟨a, hin, ha⟩
    · intro hsome
      obtain ⟨a, hin, ha⟩ := hsome
      exact ⟨a, ha, hin⟩

/-- The condition is that the mark is right. -/
theorem decided_iff (later : List SymEv) (bytes : List SymAddr) :
    (if .fullmem ∈ later then bytes.all (readBefore (withoutAwaits later))
      else bytes.any (readBefore (withoutAwaits later))) = bytes.any (readBefore later) ↔
      Decided later bytes := by
  have hread : ∀ a, readBefore (withoutAwaits later) a = true → readBefore later a = true := by
    intro a ha
    rw [readBefore_eq, ha, Bool.true_or]
  unfold Decided
  split
  · cases bytes with
    | nil => simp
    | cons a bytes =>
        rw [Bool.eq_iff_iff, List.all_eq_true, List.any_eq_true]
        constructor
        · intro h
          refine ⟨by simp, ?_⟩
          by_cases hall : ∀ x ∈ a :: bytes, readBefore (withoutAwaits later) x = true
          · exact .inl hall
          · right
            intro x hx
            by_contra hxr
            exact hall (h.mpr ⟨x, hx, by simpa using hxr⟩)
        · intro h
          cases h.2 with
          | inl hall =>
              have ha := hread a (hall a List.mem_cons_self)
              exact ⟨fun _ => ⟨a, List.mem_cons_self, ha⟩, fun _ => hall⟩
          | inr hnone =>
              constructor
              · intro hall
                have ha := hread a (hall a List.mem_cons_self)
                rw [hnone a List.mem_cons_self] at ha
                cases ha
              · intro hsome
                obtain ⟨x, hx, hxr⟩ := hsome
                rw [hnone x hx] at hxr
                cases hxr
  · have hany : bytes.any (readBefore later) =
        (bytes.any (readBefore (withoutAwaits later)) || bytes.any (awaitFirst later)) := by
      rw [Bool.eq_iff_iff, Bool.or_eq_true, List.any_eq_true, List.any_eq_true, List.any_eq_true]
      simp only [readBefore_eq later, Bool.or_eq_true, and_or_left, exists_or]
    have hsome : (∃ a ∈ bytes, readBefore (withoutAwaits later) a = true) ↔
        bytes.any (readBefore (withoutAwaits later)) = true := List.any_eq_true.symm
    have hnone : (∀ a ∈ bytes, awaitFirst later a = false) ↔
        bytes.any (awaitFirst later) = false := by simp
    rw [hany, hsome, hnone]
    cases bytes.any (readBefore (withoutAwaits later)) <;> simp

theorem allDecided_cons {e : SymEv} {es : List SymEv} : AllDecided (e :: es) ↔
    (∀ addr ∈ plainStore? e, Decided es addr.bytes) ∧ AllDecided es := by
  constructor
  · intro h
    exact ⟨h e es (List.suffix_refl _), fun f back hsuffix =>
      h f back (hsuffix.trans (List.suffix_cons e es))⟩
  · intro h f back hsuffix
    rcases List.suffix_cons_iff.mp hsuffix with heq | hsuffix
    · cases heq
      exact h.1
    · exact h.2 f back hsuffix

/-- A step of the scan leaves the event as it should be marked. -/
theorem Tracks.recomputeEvent_iff {st : LastReads} {later : List SymEv} (h : Tracks st later)
    (e : SymEv) : (recomputeEvent st e.clearObserved).2 = markEvent later e ↔
      ∀ addr ∈ plainStore? e, Decided later addr.bytes := by
  have hstore : ∀ (addr : SymAddrSize) (written : Block addr.size),
      ((if (st.readAll ^^ VecSet.intersects SymAddr.lt st.lastReads
          (VecSet.ofRange SymAddr.lt addr.bytes)) = true then SymEv.store addr written
        else .unobsStore addr written) =
        if addr.bytes.any (readBefore later) = true then .store addr written
        else .unobsStore addr written) ↔ Decided later addr.bytes := by
    intro addr written
    rw [← decided_iff, h.marks addr]
    generalize (if SymEv.fullmem ∈ later then addr.bytes.all (readBefore (withoutAwaits later))
      else addr.bytes.any (readBefore (withoutAwaits later))) = marked
    cases marked <;> cases addr.bytes.any (readBefore later) <;> simp
  cases e with
  | store addr written | unobsStore addr written =>
      simp only [plainStore?, Option.mem_def, Option.some.injEq, forall_eq']
      exact hstore addr written
  | _ => simp [recomputeEvent, SymEv.clearObserved, markEvent, plainStore?]

theorem recomputeSyms_spec {st : LastReads} {later : List SymEv} (h : Tracks st later)
    (es : List SymEv) :
    Tracks (recomputeSyms st (es.map SymEv.clearObserved)).1 (es ++ later) ∧
      ((recomputeSyms st (es.map SymEv.clearObserved)).2 = markSyms later es ∧
        AllDecided later ↔ AllDecided (es ++ later)) := by
  induction es with
  | nil => exact ⟨h, by simp [recomputeSyms, markSyms]⟩
  | cons e es ih =>
      obtain ⟨htracks, hiff⟩ := ih
      have hevent := htracks.recomputeEvent_iff e
      refine ⟨htracks.step e, ?_⟩
      rw [List.cons_append, allDecided_cons, ← hiff, ← hevent, List.map_cons, recomputeSyms,
        markSyms, List.cons.injEq]
      exact and_assoc

theorem recomputeBranches_spec (v : List Branch) :
    Tracks (recomputeBranches (v.map fun b => { b with sym := b.sym.map SymEv.clearObserved })).1
      (events v) ∧
    (recomputeObserved v = markObserved v ↔ AllDecided (events v)) := by
  induction v with
  | nil =>
      refine ⟨tracks_nil, ?_⟩
      simp [recomputeObserved, recomputeBranches, markObserved, events, AllDecided]
  | cons b v ih =>
      obtain ⟨htracks, hiff⟩ := ih
      obtain ⟨hnext, hsyms⟩ := recomputeSyms_spec htracks b.sym
      refine ⟨hnext, ?_⟩
      rw [events, List.flatMap_cons, ← events, ← hsyms, ← hiff, recomputeObserved, List.map_cons,
        recomputeBranches, markObserved, List.cons.injEq, recomputeObserved]
      simp

/-- The recomputation marks exactly the stores that are read if and only if, for every store, no
byte is first accessed by an await or some byte is read disregarding awaits, and in front of a full
memory event all bytes are read so or none is read. -/
theorem recomputeObserved_iff (v : List Branch) :
    recomputeObserved v = markObserved v ↔ AllDecided (events v) :=
  (recomputeBranches_spec v).2

/-- A store of two bytes, a store to the first of them, and a full memory event. -/
def partlyOverwritten : List Branch :=
  [⟨[.unobsStore ⟨⟨.global 0, 0⟩, 2⟩ none], 0, 0, 1⟩,
    ⟨[.unobsStore ⟨⟨.global 0, 0⟩, 1⟩ none], 1, 0, 1⟩, ⟨[.fullmem], 2, 0, 1⟩]

/-- The second byte of the first store is read, but the store is not marked. -/
theorem not_recomputeObserved_partlyOverwritten :
    recomputeObserved partlyOverwritten ≠ markObserved partlyOverwritten := by
  intro h
  have hsyms := congrArg (fun v => v.map Branch.sym) h
  revert hsyms
  decide +kernel

end Nidhugg.TsoTraceBuilder
