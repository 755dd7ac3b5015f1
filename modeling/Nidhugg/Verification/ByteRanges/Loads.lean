import Nidhugg.Model.ByteRanges
import Nidhugg.Model.TsoData

/-! # Ranges as sets of bytes

The bytes of a range are numbered without a bound. The operations on ranges are compared with those
on their bytes, in particular where a range ends at the largest offset. -/

namespace Nidhugg.ByteRanges

/-- A byte of a block. -/
abbrev Place := SymMBlock × ℕ

def SymAddr.place (a : SymAddr) : Place := (a.block, a.offset.toNat)

namespace SymAddrSize

variable {x y : SymAddrSize} {a : SymAddr}

def low (x : SymAddrSize) : ℕ := x.addr.offset.toNat

/-- The number behind that of the last byte. -/
def high (x : SymAddrSize) : ℕ := x.low + x.size.toNat

/-- The consecutive bytes of a range. -/
def bytes (x : SymAddrSize) : List Place :=
  (List.range x.size.toNat).map fun k => (x.addr.block, x.low + k)

theorem mem_bytes {b : Place} :
    b ∈ x.bytes ↔ x.addr.block = b.1 ∧ x.low ≤ b.2 ∧ b.2 < x.high := by
  cases b with
  | mk block offset =>
      simp only [bytes, List.mem_map, List.mem_range, Prod.mk.injEq, high]
      constructor
      · intro h
        obtain ⟨k, hk, rfl, rfl⟩ := h
        exact ⟨rfl, Nat.le_add_right _ _, Nat.add_lt_add_left hk _⟩
      · intro h
        exact ⟨offset - x.low, by omega, h.1, Nat.add_sub_cancel' h.2.1⟩

theorem low_lt (x : SymAddrSize) : x.low < 2 ^ 32 := x.addr.offset.toNat_lt

theorem high_lt (x : SymAddrSize) : x.high < 2 ^ 32 + 2 ^ 16 := by
  have hlow := x.low_lt
  have hsize := x.size.toNat_lt
  rw [high]
  omega

/-! ### Ends of 64 bits -/

theorem toNat_high : (x.addr.offset.toUInt64 + x.size.toUInt64).toNat = x.high := by
  have hlt := x.high_lt
  rw [UInt64.toNat_add, UInt32.toNat_toUInt64, UInt16.toNat_toUInt64]
  exact Nat.mod_eq_of_lt (Nat.lt_trans hlt (by decide))

theorem overlaps_iff : x.overlaps y = true ↔
    x.addr.block = y.addr.block ∧ y.low < x.high ∧ x.low < y.high := by
  rw [overlaps]
  by_cases hblock : x.addr.block = y.addr.block
  · rw [if_neg (not_not_intro hblock)]
    simp only [Bool.and_eq_true, decide_eq_true_eq, UInt64.lt_iff_toNat_lt, toNat_high,
      UInt32.toNat_toUInt64]
    exact (and_iff_right hblock).symm
  · simp [hblock]

theorem subsetof_iff : x.subsetof y = true ↔
    x.addr.block = y.addr.block ∧ y.low ≤ x.low ∧ x.high ≤ y.high := by
  rw [subsetof]
  by_cases hblock : x.addr.block = y.addr.block
  · rw [if_neg (not_not_intro hblock)]
    simp only [Bool.and_eq_true, decide_eq_true_eq, UInt64.le_iff_toNat_le, ge_iff_le, toNat_high,
      UInt32.toNat_toUInt64]
    exact (and_iff_right hblock).symm
  · simp [hblock]

/-! ### Ends of 32 bits -/

theorem toNat_high_mod : (x.addr.offset + x.size.toUInt32).toNat = x.high % 2 ^ 32 := by
  rw [UInt32.toNat_add, UInt16.toNat_toUInt32]
  rfl

theorem includes_iff : x.includes a = true ↔
    x.addr.block = a.block ∧ x.low ≤ a.offset.toNat ∧ a.offset.toNat < x.high % 2 ^ 32 := by
  rw [includes]
  simp only [Bool.and_eq_true, decide_eq_true_eq, UInt32.le_iff_toNat_le, gt_iff_lt,
    UInt32.lt_iff_toNat_lt, toNat_high_mod, and_assoc]
  exact Iff.rfl

/-! ### Ranges of natural numbers -/

/-- The range as the trace builders have it. -/
def toNat (x : SymAddrSize) : Nidhugg.SymAddrSize := ⟨⟨x.addr.block, x.low⟩, x.size.toNat⟩

theorem overlaps_toNat : x.toNat.overlaps y.toNat = x.overlaps y := by
  rw [Bool.eq_iff_iff, overlaps_iff]
  simp only [Nidhugg.SymAddrSize.overlaps, Bool.and_eq_true, decide_eq_true_eq, and_assoc]
  exact Iff.rfl

theorem subsetof_toNat : x.toNat.subsetof y.toNat = x.subsetof y := by
  rw [Bool.eq_iff_iff, subsetof_iff]
  simp only [Nidhugg.SymAddrSize.subsetof, Bool.and_eq_true, decide_eq_true_eq, and_assoc]
  exact Iff.rfl

/-- The tests of addresses agree unless the end of the range has more than 32 bits. -/
theorem includes_toNat (h : x.high < 2 ^ 32) :
    x.toNat.includes ⟨a.block, a.offset.toNat⟩ = x.includes a := by
  rw [Bool.eq_iff_iff, includes_iff, Nat.mod_eq_of_lt h]
  simp only [Nidhugg.SymAddrSize.includes, Bool.and_eq_true, decide_eq_true_eq, and_assoc]
  exact Iff.rfl

/-! ### Iteration -/

/-- The address that is reached after some increments. -/
def shifted (a : SymAddr) (k : ℕ) : SymAddr := { a with offset := a.offset + UInt32.ofNat k }

theorem shifted_increment (k : ℕ) : shifted a.increment k = shifted a (k + 1) := by
  rw [shifted, shifted, SymAddr.increment, UInt32.ofNat_add, UInt32.add_assoc,
    UInt32.add_comm 1 (UInt32.ofNat k)]
  rfl

theorem shifted_ne {k : ℕ} (hpos : 0 < k) (hlt : k < 2 ^ 32) : a ≠ shifted a k := by
  intro heq
  have hoffset := congrArg (fun b : SymAddr => b.offset.toNat) heq
  simp only [shifted, UInt32.toNat_add, UInt32.toNat_ofNat'] at hoffset
  have hmax := a.offset.toNat_lt
  omega

/-- The iterator stops at the end, as the size is smaller than the number of offsets. -/
theorem visit_shifted {n fuel : ℕ} (hlt : n < 2 ^ 32) (hfuel : n < fuel) :
    visit (shifted a n) fuel a = some ((List.range n).map (shifted a)) := by
  induction n generalizing fuel a with
  | zero =>
      cases fuel with
      | zero => cases hfuel
      | succ fuel =>
          have hself : shifted a 0 = a := by simp [shifted]
          rw [visit, hself, if_neg (not_not_intro rfl)]
          rfl
  | succ n ih =>
      cases fuel with
      | zero => cases hfuel
      | succ fuel =>
          have hrest := ih (a := a.increment) (Nat.lt_of_succ_lt hlt) (Nat.lt_of_succ_lt_succ hfuel)
          have hfirst : shifted a 0 = a := by simp [shifted]
          rw [visit, if_pos (shifted_ne (Nat.succ_pos n) hlt), ← shifted_increment, hrest,
            List.range_succ_eq_map, List.map_cons, List.map_map, hfirst, Option.map_some]
          congr 2
          apply List.map_congr_left
          intro k _
          exact shifted_increment k

theorem finish_eq (x : SymAddrSize) : x.finish = shifted x.addr x.size.toNat := by
  rw [finish, SymAddr.add, shifted]
  congr 1
  apply UInt32.toNat_inj.mp
  rw [UInt64.toNat_toUInt32, toNat_high, UInt32.toNat_add, UInt32.toNat_ofNat', Nat.add_mod_mod]
  rfl

/-- A range that is not empty and does not wrap around. -/
structure Valid (x : SymAddrSize) : Prop where
  nonempty : 1 ≤ x.size.toNat
  last : x.high - 1 ≤ 2 ^ 32 - 1

theorem Valid.high_le (h : x.Valid) : x.high ≤ 2 ^ 32 := by
  have hlast := h.last
  omega

theorem Valid.iterate (h : x.Valid) {fuel : ℕ} (hfuel : x.size.toNat < fuel) :
    (x.iterate fuel).map (List.map SymAddr.place) = some x.bytes := by
  have hsize := x.size.toNat_lt
  have hlt : x.size.toNat < 2 ^ 32 := Nat.lt_trans hsize (by decide)
  rw [SymAddrSize.iterate, finish_eq, begin, visit_shifted hlt hfuel, Option.map_some, List.map_map]
  congr 1
  apply List.map_congr_left
  intro k hk
  have hk' := List.mem_range.mp hk
  have hle := h.high_le
  rw [high, low] at hle
  rw [Function.comp_apply, SymAddr.place, shifted, UInt32.toNat_add, UInt32.toNat_ofNat',
    Nat.add_mod_mod, Nat.mod_eq_of_lt (by omega)]
  rfl

/-! ### Agreement -/

/-- The operations are those on the sets of bytes. -/
structure Agrees (x y : SymAddrSize) (a : SymAddr) : Prop where
  iterate : ∀ fuel > x.size.toNat, (x.iterate fuel).map (List.map SymAddr.place) = some x.bytes
  includes : x.includes a = true ↔ a.place ∈ x.bytes
  overlaps : x.overlaps y = true ↔ ∃ b ∈ x.bytes, b ∈ y.bytes
  subsetof : x.subsetof y = true ↔ ∀ b ∈ x.bytes, b ∈ y.bytes

theorem Valid.overlaps (hx : x.Valid) (hy : y.Valid) :
    x.overlaps y = true ↔ ∃ b ∈ x.bytes, b ∈ y.bytes := by
  have hxpos := hx.nonempty
  have hypos := hy.nonempty
  rw [overlaps_iff]
  simp only [mem_bytes]
  constructor
  · intro h
    refine ⟨(x.addr.block, max x.low y.low), ⟨rfl, Nat.le_max_left _ _, ?_⟩, h.1.symm,
      Nat.le_max_right _ _, ?_⟩
    · rw [high] at h ⊢
      dsimp only
      omega
    · rw [high, high] at h
      rw [high]
      dsimp only
      omega
  · intro h
    obtain ⟨b, hbx, hby⟩ := h
    exact ⟨hbx.1.trans hby.1.symm, by omega, by omega⟩

theorem Valid.subsetof (hx : x.Valid) :
    x.subsetof y = true ↔ ∀ b ∈ x.bytes, b ∈ y.bytes := by
  have hpos := hx.nonempty
  rw [subsetof_iff]
  simp only [mem_bytes]
  constructor
  · intro h b hb
    exact ⟨h.1.symm.trans hb.1, by omega, by omega⟩
  · intro h
    have hfirst := h (x.addr.block, x.low) ⟨rfl, Nat.le_refl _, by rw [high]; dsimp only; omega⟩
    have hlast := h (x.addr.block, x.high - 1) ⟨rfl, by rw [high]; dsimp only; omega, by
      rw [high]
      dsimp only
      omega⟩
    rw [high] at hlast ⊢
    dsimp only at hfirst hlast
    exact ⟨hfirst.1.symm, hfirst.2.1, by omega⟩

/-- The operations agree with the sets of bytes exactly if the end of the range has an offset of its
own, or else the address is not one in or behind the range. -/
theorem agrees_iff (hx : x.Valid) (hy : y.Valid) (a : SymAddr) : x.Agrees y a ↔
    x.high < 2 ^ 32 ∨ a.block ≠ x.addr.block ∨ a.offset < x.addr.offset := by
  have hle := hx.high_le
  have ha := a.offset.toNat_lt
  rw [UInt32.lt_iff_toNat_lt, ← low]
  constructor
  · intro h
    by_contra hnot
    rw [not_or, not_or, not_not] at hnot
    have hmem : a.place ∈ x.bytes := mem_bytes.mpr ⟨hnot.2.1.symm, by
      dsimp only [SymAddr.place]
      omega, by
      dsimp only [SymAddr.place]
      omega⟩
    have hincludes := includes_iff.mp (h.includes.mpr hmem)
    have hwrap : x.high % 2 ^ 32 = 0 := by omega
    omega
  · intro h
    refine ⟨fun fuel => hx.iterate, ?_, hx.overlaps hy, hx.subsetof⟩
    rw [includes_iff, mem_bytes]
    show _ ↔ x.addr.block = a.block ∧ x.low ≤ a.offset.toNat ∧ a.offset.toNat < x.high
    apply and_congr_right
    intro hblock
    apply and_congr_right
    intro hlow
    have hlt : x.high < 2 ^ 32 := h.resolve_right fun hother =>
      hother.elim (fun hne => hne hblock.symm) (Nat.not_lt.mpr hlow)
    rw [Nat.mod_eq_of_lt hlt]

theorem agrees_iff_overlapping :
    Agrees ⟨⟨.global 0, 0⟩, 4⟩ ⟨⟨.global 0, 2⟩, 4⟩ ⟨.global 0, 3⟩ ↔
      high ⟨⟨.global 0, 0⟩, 4⟩ < 2 ^ 32 ∨ SymMBlock.global 0 ≠ .global 0 ∨ (3 : UInt32) < 0 :=
  agrees_iff ⟨by decide, by decide⟩ ⟨by decide, by decide⟩ _

/-- The range ends at the largest offset. -/
theorem not_agrees_largestOffset :
    ¬ ∀ x y : SymAddrSize, x.Valid → y.Valid → ∀ a, x.Agrees y a := by
  intro hall
  have h := hall ⟨⟨.global 0, 4294967292⟩, 4⟩ ⟨⟨.global 0, 4294967292⟩, 4⟩ ⟨by decide, by decide⟩
    ⟨by decide, by decide⟩ ⟨.global 0, 4294967292⟩
  have hincludes := h.includes.mpr (by decide)
  exact absurd hincludes (by decide)

end SymAddrSize

end Nidhugg.ByteRanges

/-! # Loads of a dry run

A pending store is clipped to the loaded range. Nothing is left of it where one of the two ranges
ends at the largest offset, as its end is then less than its start. -/

namespace Nidhugg.ByteRanges

open RmwAction

/-! ### Stores to bytes -/

abbrev Content := Place → Byte

/-- The content after a store. -/
def Content.store (c : Content) (sd : SymData) : Content := fun b =>
  if b ∈ sd.ref.bytes then sd.block.getD (b.2 - sd.ref.low) 0 else c b

/-- The value of a byte is that of the last store to it. -/
theorem Content.foldl_store_apply (c : Content) (stores : List SymData) (b : Place) :
    stores.foldl Content.store c b =
      ((stores.filter fun sd => b ∈ sd.ref.bytes).getLast?.map fun sd =>
        sd.block.getD (b.2 - sd.ref.low) 0).getD (c b) := by
  induction stores using List.reverseRecOn with
  | nil => rfl
  | append_singleton stores sd ih =>
      rw [List.foldl_append, List.foldl_cons, List.foldl_nil, Content.store, List.filter_append]
      by_cases hb : b ∈ sd.ref.bytes
      · simp [hb]
      · rw [if_neg hb, ih]
        simp [hb]

/-- The memory at the bytes of a location. -/
def Content.ofMemory (memory : ℕ → Byte) (src : ℕ) (srcSas : SymAddrSize) : Content := fun b =>
  memory (src + (b.2 - srcSas.low))

/-- The bytes of a location after the pending stores. -/
def expected (memory : ℕ → Byte) (src : ℕ) (srcSas : SymAddrSize) (dryRunMem : List SymData) :
    List Byte :=
  srcSas.bytes.map (dryRunMem.foldl Content.store (Content.ofMemory memory src srcSas))

/-! ### A turn of the loop -/

variable {sd : SymData} {srcSas : SymAddrSize} {c : Content}

theorem length_overwrite {last o : UInt32} {buf : List Byte} :
    (overwrite sd srcSas last o buf).length = buf.length := by
  induction o, buf using overwrite.induct sd srcSas last with
  | case1 o buf hlt ih =>
      rw [overwrite, if_pos hlt, ih, List.length_set]
  | case2 o buf hge => rw [overwrite, if_neg hge]

theorem getElem?_overwrite {last o : UInt32} {buf : List Byte}
    (hlow : srcSas.low ≤ o.toNat) (hlow' : sd.ref.low ≤ o.toNat) (k : ℕ) (hk : k < buf.length) :
    (overwrite sd srcSas last o buf)[k]? =
      if o.toNat ≤ srcSas.low + k ∧ srcSas.low + k < last.toNat then
        some (sd.block.getD (srcSas.low + k - sd.ref.low) 0)
      else buf[k]? := by
  induction o, buf using overwrite.induct sd srcSas last with
  | case1 o buf hlt ih =>
      have hlt' := UInt32.lt_iff_toNat_lt.mp hlt
      have hmax := last.toNat_lt
      have hnext : (o + 1).toNat = o.toNat + 1 := by
        rw [UInt32.toNat_add, UInt32.toNat_one, Nat.mod_eq_of_lt (by omega)]
      have hplace : ∀ a : UInt32, a.toNat ≤ o.toNat → (o - a).toNat = o.toNat - a.toNat :=
        fun a ha => UInt32.toNat_sub_of_le _ _ (UInt32.le_iff_toNat_le.mpr ha)
      rw [overwrite, if_pos hlt, ih (by omega) (by omega) (by simpa using hk), hnext,
        hplace _ hlow, hplace _ hlow', List.getElem?_set, ← SymAddrSize.low, ← SymAddrSize.low]
      by_cases hself : o.toNat - srcSas.low = k
      · obtain rfl := hself
        rw [Nat.add_sub_cancel' hlow, if_neg (by omega), if_pos rfl, if_pos hk,
          if_pos ⟨Nat.le_refl _, hlt'⟩]
      · rw [if_neg hself]
        congr 1
        apply propext
        omega
  | case2 o buf hge =>
      have hge' : last.toNat ≤ o.toNat := by
        apply Nat.le_of_not_lt
        intro hlt
        exact hge (UInt32.lt_iff_toNat_lt.mpr hlt)
      rw [overwrite, if_neg hge, if_neg (by omega)]

theorem toNat_max (a b : UInt32) : (max a b).toNat = max a.toNat b.toNat := by
  show (if a ≤ b then b else a).toNat = max a.toNat b.toNat
  by_cases h : a ≤ b
  · rw [if_pos h, Nat.max_eq_right (UInt32.le_iff_toNat_le.mp h)]
  · rw [if_neg h, Nat.max_eq_left]
    exact Nat.le_of_not_le fun hle => h (UInt32.le_iff_toNat_le.mpr hle)

theorem toNat_min (a b : UInt32) : (min a b).toNat = min a.toNat b.toNat := by
  show (if a ≤ b then a else b).toNat = min a.toNat b.toNat
  by_cases h : a ≤ b
  · rw [if_pos h, Nat.min_eq_left (UInt32.le_iff_toNat_le.mp h)]
  · rw [if_neg h, Nat.min_eq_right]
    exact Nat.le_of_not_le fun hle => h (UInt32.le_iff_toNat_le.mpr hle)

/-- The ends of the ranges are offsets. -/
def Effective (srcSas ref : SymAddrSize) : Prop := srcSas.high < 2 ^ 32 ∧ ref.high < 2 ^ 32

instance (srcSas ref : SymAddrSize) : Decidable (Effective srcSas ref) := inferInstanceAs
  (Decidable (_ ∧ _))

theorem mod_lt_low (x : SymAddrSize) (h : 2 ^ 32 ≤ x.high) : x.high % 2 ^ 32 < x.low := by
  have hlt := x.high_lt
  have hlow := x.low_lt
  have hsize := x.size.toNat_lt
  have hhigh : x.high = x.low + x.size.toNat := rfl
  omega

/-- A turn of the loop stores what is in the loaded range, or nothing. -/
theorem overwriteWith_map (c : Content) : overwriteWith srcSas (srcSas.bytes.map c) sd =
    srcSas.bytes.map (if Effective srcSas sd.ref then c.store sd else c) := by
  rw [overwriteWith]
  by_cases hoverlaps : sd.ref.overlaps srcSas = true
  · obtain ⟨hblock, -, -⟩ := SymAddrSize.overlaps_iff.mp hoverlaps
    have hhigh : srcSas.high = srcSas.low + srcSas.size.toNat := rfl
    have hmod : ∀ x : SymAddrSize, (x.addr.offset + x.size.toUInt32).toNat = x.high % 2 ^ 32 :=
      fun x => SymAddrSize.toNat_high_mod
    rw [hoverlaps, if_neg (by simp)]
    apply List.ext_getElem?
    intro k
    by_cases hk : k < srcSas.size.toNat
    · have hlen : k < (srcSas.bytes.map c).length := by simpa [SymAddrSize.bytes] using hk
      have hget : ∀ f : Content, (srcSas.bytes.map f)[k]? =
          some (f (srcSas.addr.block, srcSas.low + k)) := by
        intro f
        simp [SymAddrSize.bytes, hk]
      have hstart : (max sd.ref.addr.offset srcSas.addr.offset).toNat =
          max sd.ref.low srcSas.low := toNat_max _ _
      rw [getElem?_overwrite (by rw [hstart]; exact Nat.le_max_right _ _)
        (by rw [hstart]; exact Nat.le_max_left _ _) k hlen, hstart, toNat_min, hmod, hmod, hget,
        hget]
      by_cases heffective : Effective srcSas sd.ref
      · rw [if_pos heffective, Content.store, Nat.mod_eq_of_lt heffective.1,
          Nat.mod_eq_of_lt heffective.2]
        have hmem : (srcSas.addr.block, srcSas.low + k) ∈ sd.ref.bytes ↔
            max sd.ref.low srcSas.low ≤ srcSas.low + k ∧
              srcSas.low + k < min sd.ref.high srcSas.high := by
          rw [SymAddrSize.mem_bytes, and_iff_right hblock]
          dsimp only
          omega
        simp only [hmem]
        split
        · rfl
        · rfl
      · rw [if_neg heffective, if_neg]
        intro hmem
        rw [Effective, not_and_or, Nat.not_lt, Nat.not_lt] at heffective
        cases heffective with
        | inl hwraps =>
            have hlt := mod_lt_low srcSas hwraps
            omega
        | inr hwraps =>
            have hlt := mod_lt_low sd.ref hwraps
            omega
    · have hlen : ∀ f : Content, (srcSas.bytes.map f).length ≤ k := by
        intro f
        simpa [SymAddrSize.bytes] using hk
      rw [List.getElem?_eq_none (Nat.le_trans (Nat.le_of_eq length_overwrite) (hlen c)),
        List.getElem?_eq_none (hlen _)]
  · rw [Bool.eq_false_iff.mpr hoverlaps, if_pos (by simp)]
    split
    · apply List.map_congr_left
      intro b hb
      rw [Content.store, if_neg]
      intro hmem
      apply hoverlaps
      rw [SymAddrSize.overlaps_iff]
      rw [SymAddrSize.mem_bytes] at hb hmem
      exact ⟨hmem.1.trans hb.1.symm, by omega, by omega⟩
    · rfl

/-! ### Loads -/

/-- What a load sees of the pending stores. -/
theorem dryRunLoadValueFromMemory_eq {α : Type} (loadValueFromMemory : List Byte → α)
    (memory : ℕ → Byte) (src : ℕ) (dryRunMem : List SymData) :
    dryRunLoadValueFromMemory loadValueFromMemory memory src srcSas dryRunMem =
      loadValueFromMemory (srcSas.bytes.map
        ((dryRunMem.filter fun sd => Effective srcSas sd.ref).foldl Content.store
          (Content.ofMemory memory src srcSas))) := by
  have hinit : (List.range srcSas.size.toNat).map (fun i => memory (src + i)) =
      srcSas.bytes.map (Content.ofMemory memory src srcSas) := by
    simp [SymAddrSize.bytes, Content.ofMemory, Function.comp_def]
  rw [dryRunLoadValueFromMemory, hinit]
  congr 1
  generalize Content.ofMemory memory src srcSas = c
  induction dryRunMem generalizing c with
  | nil => rfl
  | cons sd dryRunMem ih =>
      rw [List.foldl_cons, overwriteWith_map, ih]
      by_cases heffective : Effective srcSas sd.ref
      · simp [heffective]
      · simp [heffective]

/-- The byte string that is decoded has the pending stores, whatever they store. -/
def SeesStores (refs : List SymAddrSize) (srcSas : SymAddrSize) : Prop :=
  ∀ (α : Type) (loadValueFromMemory : List Byte → α) (memory : ℕ → Byte) (src : ℕ)
    (dryRunMem : List SymData), dryRunMem.map SymData.ref = refs →
    dryRunLoadValueFromMemory loadValueFromMemory memory src srcSas dryRunMem =
      loadValueFromMemory (expected memory src srcSas dryRunMem)

theorem getLast?_filter {α : Type} {p : α → Bool} {l : List α} {a : α} (h : l.getLast? = some a)
    (hp : p a = true) : (l.filter p).getLast? = some a := by
  obtain ⟨front, rfl⟩ := List.getLast?_eq_some_iff.mp h
  simp [hp]

theorem filter_filter_comm {α : Type} (p q : α → Bool) (l : List α) :
    (l.filter p).filter q = (l.filter q).filter p := by
  simp only [List.filter_filter, Bool.and_comm]

theorem getLast?_covering (dryRunMem : List SymData) (b : Place) :
    ((dryRunMem.map SymData.ref).filter fun ref => b ∈ ref.bytes).getLast? =
      (dryRunMem.filter fun sd => b ∈ sd.ref.bytes).getLast?.map SymData.ref := by
  rw [List.filter_map, List.getLast?_map]
  rfl

/-- A load sees the pending stores exactly if, for each of its bytes, the last store to the byte and
the load end at offsets. -/
theorem seesStores_iff (refs : List SymAddrSize) (srcSas : SymAddrSize) :
    SeesStores refs srcSas ↔ ∀ b ∈ srcSas.bytes, ∀ ref,
      (refs.filter fun ref => b ∈ ref.bytes).getLast? = some ref →
        srcSas.high < 2 ^ 32 ∧ ref.high < 2 ^ 32 := by
  constructor
  · intro h b hb ref hlast
    by_contra hwraps
    -- the memory and the stores that are seen hold zeros, and the other stores hold ones
    let data : SymAddrSize → SymData := fun ref =>
      ⟨ref, List.replicate ref.size.toNat (if Effective srcSas ref then 0 else 1), by simp⟩
    have hrefs : (refs.map data).map SymData.ref = refs := by
      rw [List.map_map]
      exact List.map_id refs
    have heq := h _ id (fun _ => 0) 0 (refs.map data) hrefs
    rw [dryRunLoadValueFromMemory_eq, expected] at heq
    have hb' := List.map_inj_left.mp heq b hb
    rw [Content.foldl_store_apply, Content.foldl_store_apply] at hb'
    have hzero : ∀ sd ∈ (refs.map data).filter (fun sd => Effective srcSas sd.ref),
        ∀ i, sd.block.getD i 0 = 0 := by
      intro sd hsd i
      obtain ⟨hmem, heffective⟩ := List.mem_filter.mp hsd
      obtain ⟨ref', _, rfl⟩ := List.mem_map.mp hmem
      have heffective' : Effective srcSas ref' := of_decide_eq_true heffective
      dsimp only [data]
      rw [if_pos heffective', List.getD_eq_getElem?_getD, List.getElem?_replicate]
      split
      · rfl
      · rfl
    have hone : ((refs.map data).filter fun sd => b ∈ sd.ref.bytes).getLast?.map
        (fun sd => sd.block.getD (b.2 - sd.ref.low) 0) = some 1 := by
      rw [← hrefs, getLast?_covering] at hlast
      obtain ⟨sd, hsd, rfl⟩ := Option.map_eq_some_iff.mp hlast
      obtain ⟨hmem, hcovers⟩ := List.mem_filter.mp (List.mem_of_getLast? hsd)
      obtain ⟨ref', _, rfl⟩ := List.mem_map.mp hmem
      have hbytes := SymAddrSize.mem_bytes.mp (of_decide_eq_true hcovers)
      have hwraps' : ¬Effective srcSas ref' := hwraps
      have hlt : b.2 - ref'.low < ref'.size.toNat := by
        have hlow : ref'.low ≤ b.2 := hbytes.2.1
        have hhigh : b.2 < ref'.low + ref'.size.toNat := hbytes.2.2
        omega
      rw [hsd]
      simp [data, hwraps', List.getD_eq_getElem?_getD, hlt]
    rw [hone] at hb'
    have hne : (0 : Byte) ≠ 1 := by decide
    cases hseen : (((refs.map data).filter fun sd => Effective srcSas sd.ref).filter
        fun sd => b ∈ sd.ref.bytes).getLast? with
    | none =>
        rw [hseen] at hb'
        exact hne hb'
    | some sd =>
        have hmem := (List.mem_filter.mp (List.mem_of_getLast? hseen)).1
        rw [hseen, Option.map_some, hzero sd hmem] at hb'
        exact hne hb'
  · intro h α loadValueFromMemory memory src dryRunMem hrefs
    rw [dryRunLoadValueFromMemory_eq, expected]
    congr 1
    apply List.map_congr_left
    intro b hb
    have hb' := h b hb
    rw [← hrefs, getLast?_covering] at hb'
    rw [Content.foldl_store_apply, Content.foldl_store_apply, filter_filter_comm]
    cases hlast : (dryRunMem.filter fun sd => b ∈ sd.ref.bytes).getLast? with
    | none =>
        rw [List.getLast?_eq_none_iff] at hlast
        rw [hlast]
        rfl
    | some sd =>
        have heffective : Effective srcSas sd.ref := hb' _ (by rw [hlast]; rfl)
        rw [getLast?_filter hlast (decide_eq_true heffective)]

/-- A store to the last bytes of the largest block is not seen. -/
theorem not_seesStores_largestOffset :
    ¬ ∀ refs srcSas, SeesStores refs srcSas := by
  intro hall
  have heq := hall [⟨⟨.global 0, 4294967292⟩, 4⟩] ⟨⟨.global 0, 4294967292⟩, 4⟩ _ id (fun _ => 0) 0
    [⟨⟨⟨.global 0, 4294967292⟩, 4⟩, [1, 1, 1, 1], by decide⟩] rfl
  rw [dryRunLoadValueFromMemory_eq] at heq
  exact absurd heq (by decide)

end Nidhugg.ByteRanges
