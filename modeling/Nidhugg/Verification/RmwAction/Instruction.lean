import Mathlib.Data.List.GetD
import Nidhugg.Verification.DryRun.Confinement
import Nidhugg.Verification.RmwAction.Commutation

/-! # Actions on buffers

A loop of `apply_to` writes to each byte of the output once and reads the byte of the input at the
same offset just before. Hence an output that is the input itself gets the same bytes as an output
of its own. -/

namespace Nidhugg.RmwAction

variable {memory memory' : Memory} {dst data size : ℕ} {ps : List ℕ} {out : List Byte}

/-- The output is the input or does not meet it. -/
def Aliased (dst data size : ℕ) : Prop :=
  dst = data ∨ dst + size ≤ data ∨ data + size ≤ dst

/-- The offsets `ps` of the buffer at `dst` have got the bytes `out` and all else is unchanged. -/
structure Writes (memory memory' : Memory) (dst : ℕ) (ps : List ℕ) (out : List Byte) : Prop where
  bytes : ps.map (fun p => memory' (dst + p)) = out
  frame : ∀ a, (∀ p ∈ ps, a ≠ dst + p) → memory' a = memory a

theorem Writes.nil : Writes memory memory dst [] [] := ⟨rfl, fun _ _ => rfl⟩

theorem Writes.cons {p : ℕ} {b : Byte}
    (h : Writes (Function.update memory (dst + p) b) memory' dst ps out) (hp : p ∉ ps) :
    Writes memory memory' dst (p :: ps) (b :: out) := by
  have hhead : memory' (dst + p) = b := by
    rw [h.frame, Function.update_self]
    intro q hq heq
    have hpq : p = q := Nat.add_left_cancel heq
    exact hp (hpq ▸ hq)
  constructor
  · rw [List.map_cons, hhead, h.bytes]
  · intro a ha
    have hrest : ∀ q ∈ ps, a ≠ dst + q := fun q hq => ha q (List.mem_cons_of_mem p hq)
    rw [h.frame a hrest, Function.update_of_ne (ha p List.mem_cons_self)]

/-- Writing a byte of the output does not change the bytes of the input at other offsets. -/
theorem input_update {p : ℕ} (h : Aliased dst data size) (hp : p < size) (hnot : p ∉ ps)
    (hps : ∀ q ∈ ps, q < size) (b : Byte) {q : ℕ} (hq : q ∈ ps) :
    Function.update memory (dst + p) b (data + q) = memory (data + q) := by
  apply Function.update_of_ne
  intro heq
  have hlt := hps q hq
  have hne : q ≠ p := fun heq' => hnot (heq' ▸ hq)
  unfold Aliased at h
  omega

/-! ### The loops -/

theorem foldl_byteRound_writes (f : ℕ → Byte → Byte) (h : Aliased dst data size)
    (hnodup : ps.Nodup) (hps : ∀ q ∈ ps, q < size) (memory : Memory) :
    Writes memory (ps.foldl (byteRound f dst data) memory) dst ps
      (ps.map fun p => f p (memory (data + p))) := by
  induction ps generalizing memory with
  | nil => exact Writes.nil
  | cons p ps ih =>
      have hnot := (List.nodup_cons.mp hnodup).1
      have hlt : ∀ q ∈ ps, q < size := fun q hq => hps q (List.mem_cons_of_mem p hq)
      have hrest := ih (List.nodup_cons.mp hnodup).2 hlt (byteRound f dst data memory p)
      have hout : (ps.map fun q => f q (byteRound f dst data memory p (data + q))) =
          ps.map fun q => f q (memory (data + q)) := by
        apply List.map_congr_left
        intro q hq
        rw [byteRound, input_update h (hps p List.mem_cons_self) hnot hlt _ hq]
      rw [hout] at hrest
      exact hrest.cons hnot

/-- The carry loop over the offsets `is` in the order of the significance of their bytes. -/
theorem foldl_carryRound_writes (bigEndian : Bool) (kind : RmwKind) (argp : List Byte)
    (h : Aliased dst data size) {is : List ℕ} (hps : is.map (position bigEndian size) = ps)
    (hnodup : ps.Nodup) (hlt : ∀ q ∈ ps, q < size) (memory : Memory) (carry : Byte) :
    Writes memory (is.foldl (carryRound bigEndian kind size argp dst data) (memory, carry)).1 dst ps
      (carryLoop kind carry (ps.map fun p => memory (data + p)) (ps.map fun p => argp.getD p 0)) := by
  induction is generalizing memory carry ps with
  | nil =>
      cases hps
      exact Writes.nil
  | cons i is ih =>
      cases hps
      have hnot := (List.nodup_cons.mp hnodup).1
      have hlt' : ∀ q ∈ is.map (position bigEndian size), q < size :=
        fun q hq => hlt q (List.mem_cons_of_mem _ hq)
      have hin : ((is.map (position bigEndian size)).map fun p =>
            (carryRound bigEndian kind size argp dst data (memory, carry) i).1 (data + p)) =
          (is.map (position bigEndian size)).map fun p => memory (data + p) := by
        apply List.map_congr_left
        intro q hq
        exact input_update h (hlt _ List.mem_cons_self) hnot hlt' _ hq
      have htail := ih rfl (List.nodup_cons.mp hnodup).2 hlt'
        (carryRound bigEndian kind size argp dst data (memory, carry) i).1
        (carryRound bigEndian kind size argp dst data (memory, carry) i).2
      rw [hin] at htail
      exact htail.cons hnot

/-! ### The whole buffer -/

theorem map_position (bigEndian : Bool) (size : ℕ) :
    (List.range size).map (position bigEndian size) =
      if bigEndian then (List.range size).reverse else List.range size := by
  cases bigEndian with
  | false => exact List.map_id _
  | true =>
      apply List.ext_getElem
      · simp
      · intro i h₁ h₂
        simp [position, List.getElem_reverse]

theorem leastFirst_map_position (bigEndian : Bool) (size : ℕ) (f : ℕ → Byte) :
    leastFirst bigEndian (((List.range size).map (position bigEndian size)).map f) =
      (List.range size).map f := by
  rw [map_position]
  cases bigEndian <;> simp [leastFirst]

theorem leastFirst_map_range (bigEndian : Bool) (size : ℕ) (f : ℕ → Byte) :
    leastFirst bigEndian ((List.range size).map f) =
      ((List.range size).map (position bigEndian size)).map f := by
  rw [map_position]
  cases bigEndian <;> simp [leastFirst]

theorem nodup_positions (bigEndian : Bool) (size : ℕ) :
    ((List.range size).map (position bigEndian size)).Nodup := by
  rw [map_position]
  cases bigEndian with
  | false => exact List.nodup_range
  | true => exact List.nodup_reverse.mpr List.nodup_range

theorem mem_positions {bigEndian : Bool} {p : ℕ} :
    p ∈ (List.range size).map (position bigEndian size) ↔ p < size := by
  rw [map_position]
  cases bigEndian <;> simp

/-- The bytes written by significance, in address order. -/
theorem Writes.inOrder {bigEndian : Bool}
    (h : Writes memory memory' dst ((List.range size).map (position bigEndian size)) out) :
    Writes memory memory' dst (List.range size) (leastFirst bigEndian out) := by
  constructor
  · rw [← h.bytes, leastFirst_map_position]
  · intro a ha
    exact h.frame a fun p hp => ha p (List.mem_range.mpr (mem_positions.mp hp))

theorem map_getD_range (argp : List Byte) :
    (List.range argp.length).map (fun p => argp.getD p 0) = argp := by
  apply List.ext_getElem
  · simp
  · intro i h₁ h₂
    simp [h₂]

theorem zipWith_map_range (f : Byte → Byte → Byte) (g : ℕ → Byte) (argp : List Byte) :
    List.zipWith f ((List.range argp.length).map g) argp =
      (List.range argp.length).map fun i => f (g i) (argp.getD i 0) := by
  apply List.ext_getElem
  · simp
  · intro i h₁ h₂
    have hi : i < argp.length := by simpa using h₂
    simp [hi]

/-- The output gets the bytes that the action computes from the old bytes of the input, also if it
is the input itself. -/
theorem applyToBuffer_writes (bigEndian : Bool) (kind : RmwKind) (argp : List Byte)
    (h : Aliased dst data argp.length) (memory : Memory) :
    Writes memory (applyToBuffer bigEndian kind argp.length argp dst data memory) dst
      (List.range argp.length)
      (result bigEndian kind (bytesAt memory data argp.length) argp) := by
  have hbytes := fun f => foldl_byteRound_writes f h List.nodup_range
    (fun q hq => List.mem_range.mp hq) memory
  have hcopy : ∀ take : Bool, Writes memory ((List.range argp.length).foldl
      (byteRound (copyRound argp take) dst data) memory) dst (List.range argp.length)
      (if take then argp else bytesAt memory data argp.length) := by
    intro take
    have hw := hbytes (copyRound argp take)
    cases take with
    | false => exact hw
    | true =>
        simp only [copyRound, if_true, map_getD_range] at hw
        exact hw
  have hcarry : Writes memory
      ((List.range argp.length).foldl (carryRound bigEndian kind argp.length argp dst data)
        (memory, 0)).1 dst (List.range argp.length)
      (leastFirst bigEndian (carryLoop kind 0
        (leastFirst bigEndian (bytesAt memory data argp.length)) (leastFirst bigEndian argp))) := by
    have hw := foldl_carryRound_writes bigEndian kind argp h rfl (nodup_positions bigEndian _)
      (fun q hq => mem_positions.mp hq) memory 0
    have hargs : leastFirst bigEndian argp =
        ((List.range argp.length).map (position bigEndian argp.length)).map
          fun p => argp.getD p 0 := by
      rw [← leastFirst_map_range, map_getD_range]
    rw [hargs, bytesAt, leastFirst_map_range]
    exact hw.inOrder
  cases kind with
  | add | sub => exact hcarry
  | and | nand | or | xor =>
      rw [result, bytesAt, zipWith_map_range]
      exact hbytes _
  | max | min | umax | umin => exact hcopy _
  | xchg => exact hcopy true

end Nidhugg.RmwAction

/-! # Read-modify-write instructions

An instruction computes on the values of the interpreter, an action on bytes. Both leave the same
bytes in memory. -/

namespace Nidhugg.Interpreter

open Hoare RmwAction

variable {β : Type} {env : Env β} {s t : State β}

/-! ### The bytes of a value -/

theorem valueOf_eq (bytes : List Byte) :
    valueOf env bytes = value (leastFirst env.bigEndian bytes) := by
  unfold valueOf
  induction leastFirst env.bigEndian bytes with
  | nil => rfl
  | cons b bs ih => rw [List.foldr_cons, ih, value_cons]

theorem value_digits (n : ℕ) (v : Value) :
    value ((List.range n).map fun i => BitVec.ofNat 8 (v / 256 ^ i)) = v % 256 ^ n := by
  induction n with
  | zero => simp [Nat.mod_one]
  | succ n ih =>
      rw [List.range_succ, List.map_append, List.map_singleton, value_concat, ih, List.length_map,
        List.length_range, BitVec.toNat_ofNat]
      exact Nat.mod_pow_succ.symm

theorem word_bytesOf (n : ℕ) (v : Value) :
    word env.bigEndian (bytesOf env n v) = BitVec.ofNat (8 * n) v := by
  apply BitVec.eq_of_toNat_eq
  rw [toNat_word, BitVec.toNat_ofNat, bytesOf, leastFirst_leastFirst, value_digits,
    two_pow_eight_mul]

theorem rmwValue_eq (kind : RmwKind) (n : ℕ) (old val : Value) :
    rmwValue kind n old val =
      (onWords kind (BitVec.ofNat (8 * n) old) (BitVec.ofNat (8 * n) val)).toNat := by
  cases kind <;> rfl

/-- The bytes that an action computes are those of the value that the instruction computes. -/
theorem applyTo_eq_bytesOf {n : ℕ} (action : RmwAction n) (data : Bytes n) :
    action.applyTo env.bigEndian data =
      bytesOf env n
        (rmwValue action.kind n (valueOf env data.1) (valueOf env action.operand.1)) := by
  apply @word_inj n env.bigEndian
  rw [word_applyTo, word_bytesOf, rmwValue_eq, valueOf_eq, valueOf_eq, BitVec.ofNat_toNat,
    BitVec.setWidth_eq, word, word]

/-! ### What the instruction leaves alone -/

/-- What stores change. -/
def stored (s : State β) : (Ptr → Byte) × Bool × List SymData := (s.memory, s.dryRun, s.dryRunMem)

theorem keeps_stored_setValue (c : (Ptr → Byte) × Bool × List SymData) (r : Reg) (v : Value) :
    Keeps (fun s : State β => stored s = c) (setValue r v) := by
  constructor
  intro s _ t hs ht
  obtain ⟨_, _, _, _, _, rfl⟩ := modifyTop_eq_ok ht
  exact hs

theorem keeps_stored_notify (c : (Ptr → Byte) × Bool × List SymData) (event : Callback) :
    Keeps (fun s : State β => stored s = c) (notify env event) :=
  .modify fun _ hs => hs

theorem keeps_stored_report (c : (Ptr → Byte) × Bool × List SymData) (event : Callback) :
    Keeps (fun s : State β => stored s = c) (report env event) := by
  apply Keeps.get_bind
  intro s _
  apply (keeps_stored_notify c event).bind
  intro _
  exact .ite (fun _ => .throw) fun _ => Keeps.pure

theorem keeps_stored_checkAwaitWakeup (c : (Ptr → Byte) × Bool × List SymData) (ptr : Ptr)
    (ml : AccessRange) : Keeps (fun s : State β => stored s = c) (checkAwaitWakeup env ptr ml) := by
  apply Keeps.get_bind
  intro s _
  apply Triple.bind (Q := fun _ s => stored s = c)
  · apply Keeps.forM_list
    intro a
    exact keeps_stored_notify c _
  · intro _
    exact .modify fun _ hs => hs

/-- A store goes to memory or, in a dry run, to `DryRunMem`. -/
theorem triple_performStore (m : Ptr → Byte) (dry : Bool) (l : List SymData) (v : Value) (ptr : Ptr)
    (width : Width) (ml : AccessRange) :
    Triple (fun s : State β => stored s = (m, dry, l)) (performStore env v ptr width ml)
      fun _ s => stored s =
        if dry then (m, dry, l ++ [getSymData env ml v])
        else (writeBytes m ptr (bytesOf env width.1 v).1, dry, l) := by
  apply Triple.get_bind
  intro s hs
  have hdry : s.dryRun = dry := congrArg (fun c => c.2.1) hs
  rw [hdry]
  cases dry with
  | true =>
      apply Triple.modify
      intro s hs
      have hl : s.dryRunMem = l := congrArg (fun c => c.2.2) hs.2
      have hm : s.memory = m := congrArg (fun c => c.1) hs.2
      have hd : s.dryRun = true := congrArg (fun c => c.2.1) hs.2
      simp [stored, hl, hm, hd]
  | false =>
      apply Triple.bind (Q := fun _ s =>
        stored s = (writeBytes m ptr (bytesOf env width.1 v).1, false, l))
      · apply Triple.modify
        intro s hs
        have hl : s.dryRunMem = l := congrArg (fun c => c.2.2) hs.2
        have hm : s.memory = m := congrArg (fun c => c.1) hs.2
        have hd : s.dryRun = false := congrArg (fun c => c.2.1) hs.2
        simp [stored, hl, hm, hd]
      · intro _
        exact keeps_stored_checkAwaitWakeup _ ptr ml

theorem length_overlays (ml : SymAddrSize) {n : ℕ} (stores : List SymData) {buf : List Byte}
    (h : buf.length = n) : (stores.foldl (overlay ml) buf).length = n := by
  induction stores generalizing buf with
  | nil => exact h
  | cons sd stores ih =>
      apply ih
      unfold overlay
      split
      · simpa using h
      · exact h

theorem getSymAddrSize_eq_ok {p : Ptr} {width : Width} {ml : AccessRange}
    (h : getSymAddrSize p width s = .ok (ml, t)) : s = t ∧ ml.1.size = width.1 := by
  obtain ⟨addr, u, haddr, hml⟩ := bind_eq_ok.mp h
  obtain ⟨rfl, rfl⟩ := pure_eq_ok.mp hml
  refine ⟨?_, rfl⟩
  obtain ⟨s', s'', hget, haddr⟩ := bind_eq_ok.mp haddr
  obtain ⟨rfl, rfl⟩ : s = s' ∧ s = s'' := by simpa using Except.ok.inj hget
  cases htry : tryGetSymAddr s p with
  | some a =>
      rw [htry] at haddr
      exact (pure_eq_ok.mp haddr).2
  | none =>
      rw [htry] at haddr
      dsimp only at haddr
      split at haddr
      · exact (throw_ne_ok haddr).elim
      · exact (throw_ne_ok haddr).elim

theorem loadValue_eq_ok {p : Ptr} {ml : AccessRange} {old : List Byte}
    (h : loadValue p ml s = .ok (old, t)) :
    s = t ∧ old.length = ml.1.size ∧
      (s.dryRun = false → old = readBytes s.memory p ml.1.size) := by
  obtain ⟨s', s'', hget, h⟩ := bind_eq_ok.mp h
  obtain ⟨rfl, rfl⟩ : s = s' ∧ s = s'' := by simpa using Except.ok.inj hget
  obtain ⟨hold, rfl⟩ := pure_eq_ok.mp h
  refine ⟨rfl, ?_, ?_⟩
  · rw [← hold]
    split
    · exact length_overlays ml.1 _ (by simp [readBytes])
    · simp [readBytes]
  · intro hdry
    simpa [hdry] using hold.symm

/-- The new value goes where a store of it would go. -/
theorem visitAtomicRMWInst_eq_ok {dst : Reg} {kind : RmwKind} {ptr val : Operand} {width : Width}
    {resultUsed : Bool} {a : Unit}
    (h : visitAtomicRMWInst env dst kind ptr val width resultUsed s = .ok (a, t)) :
    ∃ p v u ml, ∃ old : Bytes ml.1.size, (do return (← getOperandValue env ptr, ← getOperandValue env val)) s =
        .ok ((p, v), u) ∧
      getSymAddrSize p width u = .ok (ml, u) ∧ loadValue p ml u = .ok (old.1, u) ∧
      ml.1.size = width.1 ∧ stored t =
        if u.dryRun then (u.memory, true, u.dryRunMem ++
          [getSymData env ml (rmwValue kind ml.1.size (valueOf env old.1) v)])
        else (writeBytes u.memory p (bytesOf env width.1
            (rmwValue kind width.1 (valueOf env (readBytes u.memory p width.1)) v)).1, false,
          u.dryRunMem) := by
  obtain ⟨p, s₁, hp, h⟩ := bind_eq_ok.mp h
  obtain ⟨v, u, hv, h⟩ := bind_eq_ok.mp h
  obtain ⟨ml, u₁, hml, h⟩ := bind_eq_ok.mp h
  obtain ⟨rfl, hsize⟩ := getSymAddrSize_eq_ok hml
  obtain ⟨old, u₂, hold, h⟩ := bind_eq_ok.mp h
  obtain ⟨rfl, hlength, hread⟩ := loadValue_eq_ok hold
  refine ⟨p, v, u, ml, ⟨old, hlength⟩, ?_, hml, hold, hsize, ?_⟩
  · exact bind_eq_ok.mpr ⟨p, s₁, hp, bind_eq_ok.mpr ⟨v, u, hv, rfl⟩⟩
  · obtain ⟨_, u₁, hset, h⟩ := bind_eq_ok.mp h
    obtain ⟨_, u₂, hreport, h⟩ := bind_eq_ok.mp h
    have hu₁ := (keeps_stored_setValue (stored u) dst (valueOf env old)).returns rfl hset
    have hu₂ := (keeps_stored_report (stored u) _).returns hu₁ hreport
    have ht := (triple_performStore u.memory u.dryRun u.dryRunMem _ p width ml).returns hu₂ h
    rw [ht]
    cases hdry : u.dryRun with
    | true => simp
    | false => simp [hread hdry, hsize]

/-! ### Both compute the same bytes -/

theorem writes_eq_writeBytes {memory memory' : RmwAction.Memory} {ptr n : ℕ} {out : List Byte}
    (hlen : out.length = n) (h : Writes memory memory' ptr (List.range n) out) :
    memory' = writeBytes memory ptr out := by
  funext a
  unfold writeBytes
  by_cases ha : ptr ≤ a ∧ a < ptr + n
  · have hi : a - ptr < out.length := by omega
    have hbyte : out[a - ptr] = memory' (ptr + (a - ptr)) := by
      simp [← h.bytes]
    rw [if_pos ha.1, List.getD_eq_getElem _ _ hi, hbyte, Nat.add_sub_cancel' ha.1]
  · have hout : memory' a = memory a := by
      apply h.frame
      intro p hp
      have := List.mem_range.mp hp
      omega
    rw [hout]
    by_cases hle : ptr ≤ a
    · rw [if_pos hle, List.getD_eq_default _ _ (by omega)]
    · rw [if_neg hle]

theorem length_bytesAt (memory : RmwAction.Memory) (ptr n : ℕ) :
    (bytesAt memory ptr n).length = n := by
  simp [bytesAt]

theorem applyToBuffer_eq_writeBytes (env : Env β) (kind : RmwKind) {n : ℕ} (operand : Bytes n)
    (memory : RmwAction.Memory) {dst data : ℕ} (h : Aliased dst data n) :
    applyToBuffer env.bigEndian kind n operand.1 dst data memory =
      writeBytes memory dst
        (result env.bigEndian kind (bytesAt memory data n) operand.1) := by
  obtain ⟨xs, rfl⟩ := operand
  have hlen : (result env.bigEndian kind (bytesAt memory data xs.length) xs).length = xs.length := by
    rw [length_result _ _ (length_bytesAt _ _ _).symm, length_bytesAt]
  exact writes_eq_writeBytes hlen (applyToBuffer_writes env.bigEndian kind xs h memory)

/-- Truncated operands give the same value. -/
theorem rmwValue_bytesOf (kind : RmwKind) (n : ℕ) (old val : Value) :
    rmwValue kind n old (valueOf env (bytesOf env n val).1) = rmwValue kind n old val := by
  have hword : word env.bigEndian (bytesOf env n val) = _ := word_bytesOf n val
  rw [word] at hword
  rw [rmwValue_eq, rmwValue_eq, valueOf_eq, hword]

theorem bytesOf_rmwValue (env : Env β) (kind : RmwKind) (n : ℕ) (data : Bytes n) (val : Value) :
    (bytesOf env n (rmwValue kind n (valueOf env data.1) val)).1 =
      result env.bigEndian kind data.1 (bytesOf env n val).1 := by
  have happly : applyTo env.bigEndian ⟨bytesOf env n val, kind, false⟩ data = _ :=
    applyTo_eq_bytesOf _ data
  rw [rmwValue_bytesOf] at happly
  exact (congrArg Subtype.val happly).symm

/-- `apply_to` computes in two's complement on the words that the input and the operand encode,
writes nothing but the output, and leaves in place what the instruction leaves. -/
theorem applyToBuffer_twosComplement (env : Env β) (kind : RmwKind) {n : ℕ} (operand : Bytes n)
    (memory : RmwAction.Memory) {dst data : ℕ} (h : Aliased dst data n) :
    word env.bigEndian
        ⟨bytesAt (applyToBuffer env.bigEndian kind n operand.1 dst data memory) dst n,
          length_bytesAt _ _ _⟩ =
      onWords kind (word env.bigEndian ⟨bytesAt memory data n, length_bytesAt _ _ _⟩)
        (word env.bigEndian operand) ∧
    (∀ a, ¬(dst ≤ a ∧ a < dst + n) →
      applyToBuffer env.bigEndian kind n operand.1 dst data memory a = memory a) ∧
    ∀ (r : Reg) (ptr val : Operand) (width : Width) (resultUsed : Bool) (s t : State β),
      visitAtomicRMWInst env r kind ptr val width resultUsed s = .ok ((), t) →
      ∃ p v u ml, ∃ old : Bytes ml.1.size,
        (do return (← getOperandValue env ptr, ← getOperandValue env val)) s = .ok ((p, v), u) ∧
        loadValue p ml u = .ok (old.1, u) ∧ stored t =
          if u.dryRun then (u.memory, true, u.dryRunMem ++
            [⟨ml, applyTo env.bigEndian ⟨bytesOf env ml.1.size v, kind, resultUsed⟩ old⟩])
          else (applyToBuffer env.bigEndian kind width.1 (bytesOf env width.1 v).1 p p u.memory,
            false, u.dryRunMem) := by
  have hwrite := applyToBuffer_eq_writeBytes env kind operand memory h
  have hbytes : bytesAt (applyToBuffer env.bigEndian kind n operand.1 dst data memory) dst n =
      result env.bigEndian kind (bytesAt memory data n) operand.1 := by
    obtain ⟨xs, rfl⟩ := operand
    exact (applyToBuffer_writes env.bigEndian kind xs h memory).bytes
  refine ⟨?_, ?_, ?_⟩
  · have happly := word_applyTo env.bigEndian ⟨operand, kind, false⟩
      ⟨bytesAt memory data n, length_bytesAt _ _ _⟩
    rw [← happly]
    congr 1
    exact Subtype.ext hbytes
  · intro a ha
    obtain ⟨xs, rfl⟩ := operand
    apply (applyToBuffer_writes env.bigEndian kind xs h memory).frame
    intro p hp
    have := List.mem_range.mp hp
    omega
  · intro r ptr val width resultUsed s t ht
    obtain ⟨p, v, u, ml, old, hops, _, hold, hsize, hstored⟩ := visitAtomicRMWInst_eq_ok ht
    refine ⟨p, v, u, ml, old, hops, hold, ?_⟩
    rw [hstored]
    have hplace := applyToBuffer_eq_writeBytes env kind (bytesOf env width.1 v) u.memory
      (Or.inl rfl : Aliased p p width.1)
    have hmemory := bytesOf_rmwValue env kind width.1
      ⟨bytesAt u.memory p width.1, length_bytesAt _ _ _⟩ v
    have hdry : bytesOf env ml.1.size (rmwValue kind ml.1.size (valueOf env old.1) v) =
        applyTo env.bigEndian ⟨bytesOf env ml.1.size v, kind, resultUsed⟩ old :=
      Subtype.ext (bytesOf_rmwValue env kind ml.1.size old v)
    rw [hplace, ← hmemory, getSymData, hdry]
    rfl

/-- A subtraction in place that borrows from the second byte. -/
theorem applyToBuffer_sub_inPlace :
    bytesAt (applyToBuffer false .sub 2 [0x02, 0x00] 10 10 fun a => if a = 11 then 1 else 0) 10 2 =
      [0xFE, 0x00] ∧
    word false ⟨bytesAt (applyToBuffer false .sub 2 [0x02, 0x00] 10 10
        fun a => if a = 11 then 1 else 0) 10 2, length_bytesAt _ _ _⟩ =
      onWords .sub
        (word false ⟨bytesAt (fun a => if a = 11 then 1 else 0) 10 2, length_bytesAt _ _ _⟩)
        (word false ⟨[0x02, 0x00], rfl⟩) :=
  ⟨by decide, (applyToBuffer_twosComplement (.accepting fun _ => none) .sub ⟨[0x02, 0x00], rfl⟩
    (fun a => if a = 11 then 1 else 0) (Or.inl rfl)).1⟩

end Nidhugg.Interpreter
