import Nidhugg.Library.LiveSlice
import Nidhugg.Model.TsoData

/-! # The content of memory after a sequence of events

What a sequence of recorded events leaves in memory. Read-modify-writes either compute their
result from the content that they find, or write what they have recorded. -/

namespace Nidhugg

/-- The bytes of a location have consecutive offsets, and so does the address behind them. -/
def SymAddrSize.Placed (ml : SymAddrSize) : Prop := ml.addr.offset + ml.size < 2 ^ 32

/-- The location of an operation is proper and its data is present. -/
def SymEv.Recorded : SymEv → Prop
  | .store addr written | .unobsStore addr written | .xchgAwait addr written _ _ =>
      addr.Placed ∧ written.isSome
  | .rmw addr written _ operand _ => addr.Placed ∧ written.isSome ∧ operand.isSome
  | .cmpXhg addr written expected | .cmpXhgFail addr written expected =>
      addr.Placed ∧ written.isSome ∧ expected.isSome
  | _ => True

namespace TsoTraceBuilder

/-- The effect of an operation that writes what it has recorded. -/
def executeRecorded (p : SymEv) (m : Memory) : Memory :=
  match p.storeAddr? with
  | some addr => m.write addr (p.data?.getD [])
  | none => m

/-- The effect of an operation on the content that it finds. -/
def execute (bigEndian : Bool) (p : SymEv) (m : Memory) : Memory :=
  match p with
  | .rmw addr _ kind (some operand) _ =>
      m.write addr (RmwAction.result bigEndian kind (m.read addr) operand.val)
  | p => executeRecorded p m

/-- The bytes that an operation writes. -/
def written (p : SymEv) : Set SymAddr := { a | ∃ addr, p.storeAddr? = some addr ∧ addr.includes a }

/-- The bytes that the effect of an operation depends on. -/
def observed : SymEv → Set SymAddr
  | .rmw addr _ _ _ _ => { a | a ∈ addr.bytes }
  | _ => ∅

/-! ## Locations -/

theorem mem_bytes_iff {ml : SymAddrSize} (h : ml.Placed) (a : SymAddr) :
    a ∈ ml.bytes ↔ ml.includes a = true := by
  rw [SymAddrSize.Placed] at h
  simp only [SymAddrSize.bytes, SymAddr.add, List.mem_map, List.mem_range, SymAddrSize.includes,
    Bool.and_eq_true, decide_eq_true_eq]
  constructor
  · rintro ⟨k, hk, rfl⟩
    have hmod : (ml.addr.offset + k) % 2 ^ 32 = ml.addr.offset + k := Nat.mod_eq_of_lt (by omega)
    rw [hmod]
    exact ⟨⟨rfl, Nat.le_add_right _ _⟩, Nat.add_lt_add_left hk _⟩
  · rintro ⟨⟨hblock, hlow⟩, hhigh⟩
    refine ⟨a.offset - ml.addr.offset, by omega, ?_⟩
    have hmod : (ml.addr.offset + (a.offset - ml.addr.offset)) % 2 ^ 32 = a.offset := by
      rw [Nat.mod_eq_of_lt] <;> omega
    rw [hmod, hblock]

theorem overlaps_of_includes {ml sas : SymAddrSize} {a : SymAddr} (h : ml.includes a = true)
    (h' : sas.includes a = true) : ml.overlaps sas = true := by
  simp only [SymAddrSize.includes, SymAddrSize.overlaps, Bool.and_eq_true, decide_eq_true_eq]
    at h h' ⊢
  exact ⟨⟨h.1.1.trans h'.1.1.symm, by omega⟩, by omega⟩

theorem includes_of_subsetof {ml sas : SymAddrSize} (h : sas.subsetof ml = true) {a : SymAddr}
    (ha : sas.includes a = true) : ml.includes a = true := by
  simp only [SymAddrSize.includes, SymAddrSize.subsetof, Bool.and_eq_true, decide_eq_true_eq]
    at h ha ⊢
  exact ⟨⟨h.1.1.symm.trans ha.1.1, by omega⟩, by omega⟩

/-- A location with bytes that is not contained in another one has a byte outside of it. -/
theorem exists_not_includes {ml sas : SymAddrSize} (hsize : 0 < sas.size)
    (h : sas.subsetof ml = false) : ∃ a, sas.includes a = true ∧ ml.includes a = false := by
  by_cases hfirst : ml.includes sas.addr = true
  · refine ⟨⟨sas.addr.block, sas.addr.offset + sas.size - 1⟩, ?_, ?_⟩
    · simp only [SymAddrSize.includes, Bool.and_eq_true, decide_eq_true_eq]
      exact ⟨⟨trivial, by omega⟩, by omega⟩
    · simp only [SymAddrSize.includes, SymAddrSize.subsetof, Bool.and_eq_true, decide_eq_true_eq,
        Bool.and_eq_false_iff, decide_eq_false_iff_not] at hfirst h ⊢
      have hblock := hfirst.1.1
      simp only [hblock, not_true_eq_false, false_or] at h
      omega
  · refine ⟨sas.addr, ?_, by simpa using hfirst⟩
    simp [SymAddrSize.includes, hsize]

theorem read_congr {m m' : Memory} {ml : SymAddrSize} (h : ∀ a ∈ ml.bytes, m a = m' a) :
    m.read ml = m'.read ml :=
  List.map_congr_left h

/-! ## Effects as commands -/

theorem executeRecorded_frame {p : SymEv} (m : Memory) {a : SymAddr} (h : a ∉ written p) :
    executeRecorded p m a = m a := by
  cases haddr : p.storeAddr? with
  | none => simp [executeRecorded, haddr]
  | some addr =>
      have hincludes : ¬addr.includes a = true := fun ha => h ⟨addr, haddr, ha⟩
      simp [executeRecorded, haddr, Memory.write, hincludes]

theorem executeRecorded_congr {p : SymEv} (m m' : Memory) {a : SymAddr} (h : a ∈ written p) :
    executeRecorded p m a = executeRecorded p m' a := by
  obtain ⟨addr, haddr, ha⟩ := h
  simp [executeRecorded, haddr, Memory.write, ha]

theorem execute_frame (bigEndian : Bool) {p : SymEv} (m : Memory) {a : SymAddr}
    (h : a ∉ written p) : execute bigEndian p m a = m a := by
  unfold execute
  split
  · rename_i addr w kind operand used
    have hincludes : ¬addr.includes a = true := fun ha => h ⟨addr, rfl, ha⟩
    simp [Memory.write, hincludes]
  · exact executeRecorded_frame m h

theorem execute_congr (bigEndian : Bool) {p : SymEv} {m m' : Memory}
    (hobserved : ∀ b ∈ observed p, m b = m' b) {a : SymAddr} (h : a ∈ written p) :
    execute bigEndian p m a = execute bigEndian p m' a := by
  unfold execute
  split
  · rename_i addr w kind operand used
    have hread : m.read addr = m'.read addr := read_congr hobserved
    obtain ⟨addr', haddr', ha⟩ := h
    cases haddr'
    simp [Memory.write, ha, hread]
  · exact executeRecorded_congr m m' h

/-- Operations that compute their results. -/
def computing (bigEndian : Bool) : Commands SymEv SymAddr Byte where
  exec := execute bigEndian
  writes := written
  reads := observed
  exec_frame := fun _ m _ h => execute_frame bigEndian m h
  exec_congr := fun _ _ _ hobserved _ h => execute_congr bigEndian hobserved h

/-- Operations that repeat their results. -/
def repeating : Commands SymEv SymAddr Byte where
  exec := executeRecorded
  writes := written
  reads := fun _ => ∅
  exec_frame := fun _ m _ h => executeRecorded_frame m h
  exec_congr := fun _ m m' _ _ h => executeRecorded_congr m m' h

/-- The content after a sequence of operations. -/
abbrev content (bigEndian : Bool) (m : Memory) (events : List SymEv) : Memory :=
  (computing bigEndian).run m events

/-- The content after a sequence of operations if each writes what it has recorded. -/
abbrev recordedContent (m : Memory) (events : List SymEv) : Memory := repeating.run m events

/-- The recorded result is the one that is computed from the content of memory. -/
def Computed (bigEndian : Bool) (m : Memory) : SymEv → Prop
  | .rmw addr written kind operand _ =>
      written.map Subtype.val =
        operand.map fun operand => RmwAction.result bigEndian kind (m.read addr) operand.val
  | _ => True

/-- The operations have been executed in this order from some content of memory. -/
def Computes (bigEndian : Bool) : Memory → List SymEv → Prop
  | _, [] => True
  | m, p :: ps => Computed bigEndian m p ∧ Computes bigEndian (execute bigEndian p m) ps

theorem executeRecorded_eq_execute {bigEndian : Bool} {m : Memory} {p : SymEv} (hp : p.Recorded)
    (h : Computed bigEndian m p) : executeRecorded p m = execute bigEndian p m := by
  cases p with
  | rmw addr w kind operand used =>
      obtain ⟨operand, rfl⟩ := Option.isSome_iff_exists.mp hp.2.2
      obtain ⟨w, rfl⟩ := Option.isSome_iff_exists.mp hp.2.1
      simp only [Computed, Option.map_some, Option.some.injEq] at h
      simp [executeRecorded, SymEv.storeAddr?, SymEv.data?, execute, h]
  | _ => rfl

theorem recordedContent_eq_content {bigEndian : Bool} {m : Memory} {events : List SymEv}
    (hevents : ∀ p ∈ events, p.Recorded) (h : Computes bigEndian m events) :
    recordedContent m events = content bigEndian m events := by
  induction events generalizing m with
  | nil => rfl
  | cons p events ih =>
      have hp : p.Recorded := hevents p List.mem_cons_self
      have hrest := ih (fun q hq => hevents q (List.mem_cons_of_mem p hq)) h.2
      rw [← executeRecorded_eq_execute hp h.1] at hrest
      rw [content, Commands.run_cons]
      change recordedContent (executeRecorded p m) events = content bigEndian _ events
      rw [hrest, executeRecorded_eq_execute hp h.1]
      rfl

theorem computes_append_left {bigEndian : Bool} {m : Memory} {events later : List SymEv}
    (h : Computes bigEndian m (events ++ later)) : Computes bigEndian m events := by
  induction events generalizing m with
  | nil => trivial
  | cons p events ih => exact ⟨h.1, ih h.2⟩

/-- What a sequence of operations leaves in the bytes that it has written. -/
def writtenContent (bigEndian : Bool) (m : Memory) (events : List SymEv) : Memory := fun a =>
  if events.any fun p => p.storeAddr?.any (·.includes a) then content bigEndian m events a else 0

theorem any_includes_iff (events : List SymEv) (a : SymAddr) :
    (events.any fun p => p.storeAddr?.any (·.includes a)) = true ↔ ∃ p ∈ events, a ∈ written p := by
  simp only [List.any_eq_true, written, Set.mem_ofPred_eq]
  constructor
  · rintro ⟨p, hp, ha⟩
    exact ⟨p, hp, by simpa [Option.any_eq_true] using ha⟩
  · rintro ⟨p, hp, addr, haddr, ha⟩
    exact ⟨p, hp, by simp [haddr, ha]⟩

/-- Repeating the results of a run in zeroed memory leaves what the run has written. -/
theorem recordedContent_zero {bigEndian : Bool} {m : Memory} {events : List SymEv}
    (hevents : ∀ p ∈ events, p.Recorded) (h : Computes bigEndian m events) :
    recordedContent (fun _ => 0) events = writtenContent bigEndian m events := by
  funext a
  rw [writtenContent]
  split
  · rename_i ha
    rw [← recordedContent_eq_content hevents h]
    exact Commands.run_eq_of_written (fun _ => rfl) ((any_includes_iff events a).mp ha) _ _
  · rename_i ha
    apply Commands.run_frame
    intro p hp hw
    exact ha ((any_includes_iff events a).mpr ⟨p, hp, hw⟩)

/-! ## Bytes of recorded data -/

theorem placed_of_recorded {p : SymEv} (h : p.Recorded) {addr : SymAddrSize}
    (haddr : p.storeAddr? = some addr) : addr.Placed := by
  cases p with
  | store | unobsStore | rmw | xchgAwait | cmpXhg =>
      cases haddr
      exact h.1
  | _ => cases haddr

theorem dataAt_eq_some {p : SymEv} (h : p.Recorded) {addr : SymAddrSize}
    (haddr : p.storeAddr? = some addr) {a : SymAddr} (ha : addr.includes a = true) (m : Memory) :
    p.dataAt addr a = some (executeRecorded p m a) := by
  have hlt : a.offset - addr.addr.offset < addr.size := by
    simp only [SymAddrSize.includes, Bool.and_eq_true, decide_eq_true_eq] at ha
    omega
  obtain ⟨bytes, hbytes, hlen⟩ : ∃ bytes, p.data? = some bytes ∧ bytes.length = addr.size := by
    cases p with
    | store _ w | unobsStore _ w | rmw _ w | xchgAwait _ w | cmpXhg _ w =>
        cases haddr
        simp only [SymEv.Recorded] at h
        cases w with
        | none => simp at h
        | some w => exact ⟨w.val, rfl, w.property⟩
    | _ => cases haddr
  have hget : bytes[a.offset - addr.addr.offset]? =
      some (bytes.getD (a.offset - addr.addr.offset) 0) := by
    rw [List.getD_eq_getElem?_getD, List.getElem?_eq_getElem (by omega)]
    rfl
  simp only [SymEv.dataAt, ha, if_true, hbytes, Option.bind_some, hget, executeRecorded, haddr,
    Memory.write, Option.getD_some]

/-! ## A variable for fixed runs -/

/-- The location of a global variable of one byte. -/
def globalByte : SymAddrSize := ⟨⟨.global 0, 0⟩, 1⟩

def byte (b : Byte) : Block globalByte.size := some ⟨[b], rfl⟩

theorem placed_globalByte : globalByte.Placed := by
  simp [globalByte, SymAddrSize.Placed]

end TsoTraceBuilder

end Nidhugg
