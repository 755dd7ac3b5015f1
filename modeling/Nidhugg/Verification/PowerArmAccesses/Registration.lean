import Mathlib.Data.List.Nodup
import Mathlib.Data.List.Perm.Basic
import Nidhugg.Verification.PowerArmAccesses.Bytes

/-! # Registration in any order

After each call the byte accesses are as the addresses and data that are known ask for. When
everything is known they do not depend on the order of the calls. -/

namespace Nidhugg.PowerArmAccesses

open Event

variable {evt : Event} {a p : ℕ} {addr : MRef} {access : Access}

/-- The accesses to all bytes are right. -/
structure Consistent (evt : Event) : Prop where
  load : ∀ j x, evt.accesses[j]? = some x → j < evt.loadCount → x.type = .load
  store : ∀ j x, evt.accesses[j]? = some x → evt.loadCount ≤ j → x.type = .store
  right : ∀ p, Right evt p (bytesAt evt.baccesses p)

theorem MRef.includes_iff : addr.includes p = true ↔ ∃ i, i < addr.size ∧ p = addr.ref + i := by
  rw [includes, Bool.and_eq_true, decide_eq_true_eq, decide_eq_true_eq]
  constructor
  · intro h
    exact ⟨p - addr.ref, by omega, by omega⟩
  · intro h
    obtain ⟨i, hi, rfl⟩ := h
    omega

theorem type_set {accesses : List Access} {x y : Access} {j : ℕ} (ha : accesses[a]? = some access)
    (hx : (accesses.set a x)[j]? = some y) (htype : x.type = access.type) :
    ∃ y', accesses[j]? = some y' ∧ y.type = y'.type := by
  by_cases heq : a = j
  · subst heq
    rw [List.getElem?_set_self (List.getElem?_eq_some_iff.mp ha).1, Option.some.injEq] at hx
    exact ⟨access, ha, hx ▸ htype⟩
  · rw [List.getElem?_set_ne heq] at hx
    exact ⟨y, hx, rfl⟩

/-- The types of the accesses stay as they are. -/
theorem Consistent.of_set {evt' : Event} {x : Access} (h : Consistent evt)
    (ha : evt.accesses[a]? = some access) (htype : x.type = access.type)
    (haccesses : evt'.accesses = evt.accesses.set a x) (hloadCount : evt'.loadCount = evt.loadCount)
    (hright : ∀ p, Right evt' p (bytesAt evt'.baccesses p)) : Consistent evt' where
  load := by
    intro j y hy hj
    rw [haccesses] at hy
    obtain ⟨y', hy', heq⟩ := type_set ha hy htype
    rw [heq]
    exact h.load j y' hy' (hloadCount ▸ hj)
  store := by
    intro j y hy hj
    rw [haccesses] at hy
    obtain ⟨y', hy', heq⟩ := type_set ha hy htype
    rw [heq]
    exact h.store j y' hy' (hloadCount ▸ hj)
  right := hright

/-- An access has been replaced, the accesses to bytes are as before. -/
structure Replaces (evt start : Event) (a : ℕ) (x : Access) : Prop where
  accesses : start.accesses = evt.accesses.set a x
  loadCount : start.loadCount = evt.loadCount
  baccesses : start.baccesses = evt.baccesses

theorem Replaces.self {start : Event} {x : Access} (h : Replaces evt start a x)
    (ha : evt.accesses[a]? = some access) : start.accesses[a]? = some x := by
  rw [h.accesses, List.getElem?_set_self (List.getElem?_eq_some_iff.mp ha).1]

theorem Replaces.other {start : Event} {x : Access} {j : ℕ} (h : Replaces evt start a x)
    (hj : j ≠ a) : start.accesses[j]? = evt.accesses[j]? := by
  rw [h.accesses, List.getElem?_set_ne hj.symm]

/-! ### Addresses -/

theorem registerAddrByte_spec {evt₁ : Event} {i : ℕ} (h : Consistent evt)
    (ha : evt.accesses[a]? = some access) {x : Access} (htype : x.type = access.type)
    (hgrows : Grows evt evt₁ a p x) (hp : x.addr.ref + i = p)
    (hbytes : bytesAt evt₁.baccesses p = bytesAt evt.baccesses p) :
    ∃ evt', registerAddrByte a evt₁ i = some evt' ∧ evt'.accesses = evt₁.accesses ∧
      evt'.loadCount = evt₁.loadCount ∧
      (∀ q, q ≠ p → bytesAt evt'.baccesses q = bytesAt evt₁.baccesses q) ∧
      Right evt₁ p (bytesAt evt'.baccesses p) := by
  have hright : Right evt p (bytesAt evt₁.baccesses p) := hbytes ▸ h.right p
  have hbyte : ∃ baccesses, evt₁.addByte a x i = some baccesses ∧
      (∀ q, q ≠ p → bytesAt baccesses q = bytesAt evt₁.baccesses q) ∧
        Right evt₁ p (bytesAt baccesses p) := by
    cases Nat.lt_or_ge a evt.loadCount with
    | inl hlt => exact addByte_load hgrows hp (htype.trans (h.load a access ha hlt)) hlt hright
    | inr hle => exact addByte_store hgrows hp (htype.trans (h.store a access ha hle)) hle hright
  obtain ⟨baccesses, hadd, hothers, hnew⟩ := hbyte
  rw [registerAddrByte, hgrows.access]
  dsimp only [bind, Option.bind]
  rw [hadd]
  exact ⟨_, rfl, rfl, rfl, hothers, hnew⟩

theorem registerAddr_spec (h : Consistent evt) (ha : evt.accesses[a]? = some access)
    (hunknown : access.addrKnown = false) (addr : MRef) :
    ∃ evt', evt.registerAddr a addr = some evt' ∧ Consistent evt' ∧
      evt'.accesses = evt.accesses.set a { access with addr := addr, addrKnown := true } ∧
      evt'.loadCount = evt.loadCount := by
  have hnot : ∀ p, evt.covers a p = false := by
    intro p
    rw [covers_of_getElem? ha, hunknown, Bool.false_and]
  rw [registerAddr, ha]
  dsimp only [bind, Option.bind]
  rw [if_neg (by simp [hunknown])]
  generalize hx : ({ access with addr := addr, addrKnown := true } : Access) = x
  have haddr : x.addr = addr := by rw [← hx]
  have htype : x.type = access.type := by rw [← hx]
  generalize hstart : ({ evt with
    accesses := evt.accesses.set a x
    unknownAddrCount := evt.unknownAddrCount - 1 } : Event) = start
  have hreplaces : Replaces evt start a x := hstart ▸ ⟨rfl, rfl, rfl⟩
  obtain ⟨haccesses, hloadCount, hbaccesses⟩ := id hreplaces
  have hself := hreplaces.self ha
  have hothers : ∀ j, j ≠ a → start.accesses[j]? = evt.accesses[j]? := fun j => hreplaces.other
  have hcovers : ∀ p, start.covers a p = addr.includes p := by
    intro p
    rw [covers_of_getElem? hself, haddr, ← hx, Bool.true_and]
  obtain ⟨evt', hrun, haccesses', hloadCount', hnew, hold⟩ :=
    foldlM_bytes (registerAddrByte a) start addr.ref addr.size (Right start) (by
      intro evt₁ i hi haccesses₁ hloadCount₁ hbytes
      have hgrows : Grows evt evt₁ a (addr.ref + i) x := by
        constructor
        · exact hloadCount₁.trans hloadCount
        · intro j hj
          rw [haccesses₁, hothers j hj]
        · rw [haccesses₁, hself]
        · rw [covers_congr haccesses₁, hcovers]
          exact MRef.includes_iff.mpr ⟨i, hi, rfl⟩
        · exact hnot _
      obtain ⟨evt₂, hstep, haccesses₂, hloadCount₂, hrest, hright⟩ :=
        registerAddrByte_spec h ha htype hgrows (by rw [haddr]) (hbytes.trans (by rw [hbaccesses]))
      exact ⟨evt₂, hstep, haccesses₂.trans haccesses₁, hloadCount₂.trans hloadCount₁, hrest,
        hright.congr haccesses₁.symm hloadCount₁.symm⟩)
  refine ⟨evt', hrun, h.of_set ha htype (haccesses'.trans haccesses)
    (hloadCount'.trans hloadCount) ?_, haccesses'.trans haccesses, hloadCount'.trans hloadCount⟩
  intro p
  apply Right.congr ?_ haccesses' hloadCount'
  cases hp : addr.includes p with
  | true =>
      obtain ⟨i, hi, rfl⟩ := MRef.includes_iff.mp hp
      exact hnew i hi
  | false =>
      rw [hold p fun i hi heq => by
        rw [← Bool.not_eq_true] at hp
        exact hp (MRef.includes_iff.mpr ⟨i, hi, heq⟩), hbaccesses]
      have hsame : ∀ j, start.covers j p = evt.covers j p := by
        intro j
        by_cases heq : j = a
        · rw [heq, hcovers, hp, hnot]
        · rw [covers, covers, hothers j heq]
      apply (h.right p).of_not_last hloadCount hothers hsame
      intro hlast
      have hlast' := hlast.covers
      rw [hcovers, hp] at hlast'
      cases hlast'

/-! ### Data -/

theorem registerDataByte_spec {evt₁ : Event} {i : ℕ} {x : Access} (h : Consistent evt)
    (hx : evt₁.accesses[a]? = some x) (hp : x.addr.ref + i = p)
    (hloadCount : evt₁.loadCount = evt.loadCount)
    (hothers : ∀ j, j ≠ a → evt₁.accesses[j]? = evt.accesses[j]?)
    (hcovers : ∀ j, evt₁.covers j p = evt.covers j p) (hstore : evt.loadCount ≤ a)
    (hself : evt.covers a p = true)
    (hbytes : bytesAt evt₁.baccesses p = bytesAt evt.baccesses p) :
    ∃ evt', registerDataByte a evt₁ i = some evt' ∧ evt'.accesses = evt₁.accesses ∧
      evt'.loadCount = evt₁.loadCount ∧
      (∀ q, q ≠ p → bytesAt evt'.baccesses q = bytesAt evt₁.baccesses q) ∧
      Right evt₁ p (bytesAt evt'.baccesses p) := by
  have hright : Right evt p (bytesAt evt₁.baccesses p) := hbytes ▸ h.right p
  rw [registerDataByte, hx]
  dsimp only [bind, Option.bind]
  rw [hp]
  split
  · -- a later store overwrites this one
    rename_i hlater
    refine ⟨evt₁, rfl, rfl, rfl, fun _ _ => rfl, ?_⟩
    apply hright.of_not_last hloadCount hothers hcovers
    intro hlast
    obtain ⟨j, -, hj⟩ := List.any_eq_true.mp hlater
    rw [Bool.and_eq_true, decide_eq_true_eq] at hj
    have hnone := hlast.last j hj.1
    rw [hj.2] at hnone
    cases hnone
  · rename_i hlater
    have hlast : Last evt₁ a p := by
      constructor
      · rwa [hloadCount]
      · rw [hcovers, hself]
      · intro j hj
        rw [← Bool.not_eq_true]
        intro hj'
        apply hlater
        rw [List.any_eq_true]
        exact ⟨j, List.mem_range.mpr (lt_length_of_covers hj'), by simp [hj, hj']⟩
    obtain ⟨baccesses, hupdate, hrest, hbyte⟩ := updateData_spec (d := x.data.getD i 0)
      (hright.store ⟨a, hstore, hself⟩)
    rw [hupdate]
    refine ⟨_, rfl, rfl, rfl, hrest, ?_⟩
    have hnew := hright.of_last hloadCount hcovers hlast hx
    rw [← hp, Nat.add_sub_cancel_left, hp, ← hbyte] at hnew
    exact hnew

theorem registerData_spec (h : Consistent evt) (ha : evt.accesses[a]? = some access)
    (hstore : evt.loadCount ≤ a) (hunknown : access.dataKnown = false) (data : MBlock) :
    ∃ evt', evt.registerData a data = some evt' ∧ Consistent evt' ∧
      evt'.accesses = evt.accesses.set a { access with data := data, dataKnown := true } ∧
      evt'.loadCount = evt.loadCount := by
  have hstoreType := h.store a access ha hstore
  rw [registerData, ha]
  dsimp only [bind, Option.bind]
  rw [if_neg (by simp [hunknown, hstoreType, hstore])]
  generalize hx : ({ access with data := data, dataKnown := true } : Access) = x
  have haddr : x.addr = access.addr := by rw [← hx]
  have hknown : x.addrKnown = access.addrKnown := by rw [← hx]
  have htype : x.type = access.type := by rw [← hx]
  generalize hstart : ({ evt with
    accesses := evt.accesses.set a x
    unknownDataCount := evt.unknownDataCount - 1 } : Event) = start
  have hreplaces : Replaces evt start a x := hstart ▸ ⟨rfl, rfl, rfl⟩
  obtain ⟨haccesses, hloadCount, hbaccesses⟩ := id hreplaces
  have hself := hreplaces.self ha
  have hothers : ∀ j, j ≠ a → start.accesses[j]? = evt.accesses[j]? := fun j => hreplaces.other
  have hcovers : ∀ j p, start.covers j p = evt.covers j p := by
    intro j p
    by_cases heq : j = a
    · rw [heq, covers_of_getElem? hself, covers_of_getElem? ha, haddr, hknown]
    · rw [covers, covers, hothers j heq]
  have houtside : ∀ p, evt.covers a p = false → Right start p (bytesAt start.baccesses p) := by
    intro p hp
    rw [hbaccesses]
    apply (h.right p).of_not_last hloadCount hothers fun j => hcovers j p
    intro hlast
    have hlast' := hlast.covers
    rw [hcovers, hp] at hlast'
    cases hlast'
  cases haddrKnown : access.addrKnown with
  | false =>
      rw [if_neg Bool.false_ne_true]
      refine ⟨start, rfl, h.of_set ha htype haccesses hloadCount ?_, haccesses, hloadCount⟩
      intro p
      apply houtside
      rw [covers_of_getElem? ha, haddrKnown, Bool.false_and]
  | true =>
      rw [if_pos rfl]
      have hincludes : ∀ p, evt.covers a p = access.addr.includes p := by
        intro p
        rw [covers_of_getElem? ha, haddrKnown, Bool.true_and]
      obtain ⟨evt', hrun, haccesses', hloadCount', hnew, hold⟩ :=
        foldlM_bytes (registerDataByte a) start access.addr.ref access.addr.size (Right start) (by
          intro evt₁ i hi haccesses₁ hloadCount₁ hbytes
          obtain ⟨evt₂, hstep, haccesses₂, hloadCount₂, hrest, hright⟩ :=
            registerDataByte_spec (p := access.addr.ref + i) (i := i) h
              (by rw [haccesses₁, hself]) (by rw [haddr]) (hloadCount₁.trans hloadCount)
              (fun j hj => by rw [haccesses₁, hothers j hj])
              (fun j => by rw [covers_congr haccesses₁, hcovers]) hstore
              (by rw [hincludes]; exact MRef.includes_iff.mpr ⟨i, hi, rfl⟩)
              (hbytes.trans (by rw [hbaccesses]))
          exact ⟨evt₂, hstep, haccesses₂.trans haccesses₁, hloadCount₂.trans hloadCount₁, hrest,
            hright.congr haccesses₁.symm hloadCount₁.symm⟩)
      refine ⟨evt', hrun, h.of_set ha htype (haccesses'.trans haccesses)
        (hloadCount'.trans hloadCount) ?_, haccesses'.trans haccesses,
        hloadCount'.trans hloadCount⟩
      intro p
      apply Right.congr ?_ haccesses' hloadCount'
      cases hp : access.addr.includes p with
      | true =>
          obtain ⟨i, hi, rfl⟩ := MRef.includes_iff.mp hp
          exact hnew i hi
      | false =>
          rw [hold p fun i hi heq => by
            rw [← Bool.not_eq_true] at hp
            exact hp (MRef.includes_iff.mpr ⟨i, hi, heq⟩)]
          exact houtside p (by rw [hincludes, hp])

/-! ### One store for each byte -/

theorem Consistent.countP_store_le (h : Consistent evt) (p : ℕ) :
    (bytesAt evt.baccesses p).countP (·.type = .store) ≤ 1 := by
  by_cases hstore : ∃ j, evt.loadCount ≤ j ∧ evt.covers j p = true
  · exact Nat.le_of_eq ((h.right p).store hstore)
  · have hzero := (h.right p).noStore fun j hj =>
      Bool.eq_false_iff.mpr fun hcovers => hstore ⟨j, hj, hcovers⟩
    rw [hzero]
    exact Nat.zero_le 1

theorem Consistent.distinct_stores (h : Consistent evt) :
    evt.baccesses.Pairwise fun b c => b.type = .store → c.type = .store → b.addr ≠ c.addr := by
  rw [List.pairwise_iff_forall_sublist]
  intro b c hsub hb hc heq
  have hpair := hsub.filter fun x => decide (x.addr = c.addr)
  rw [List.filter_cons_of_pos (by simp [heq]), List.filter_cons_of_pos (by simp)] at hpair
  have htwo := Nat.le_trans (hpair.countP_le (p := fun x => decide (x.type = .store)))
    (h.countP_store_le c.addr)
  simp [hb, hc] at htwo

theorem Consistent.loadCount_lt (h : Consistent evt) {b : ByteAccess} (hb : b ∈ evt.baccesses)
    (hstore : b.type = .store) : evt.loadCount < evt.accesses.length := by
  by_contra hnone
  have hzero := (h.right b.addr).noStore fun j hj => Bool.eq_false_iff.mpr fun hcovers =>
    hnone (Nat.lt_of_le_of_lt hj (lt_length_of_covers hcovers))
  have hmem : b ∈ bytesAt evt.baccesses b.addr := List.mem_filter.mpr ⟨hb, decide_eq_true rfl⟩
  exact List.countP_eq_zero.mp hzero b hmem (decide_eq_true hstore)

/-! ### Sequences of calls -/

variable {loads stores : ℕ} {addrOf : ℕ → MRef} {dataOf : ℕ → MBlock} {calls done : List Call}

/-- A call for an access of the event; only stores have data. -/
def Call.Valid (loads stores : ℕ) : Call → Prop
  | .addr a => a < loads + stores
  | .data a => loads ≤ a ∧ a < loads + stores

/-- The calls that register every access once. -/
def allCalls (loads stores : ℕ) : List Call :=
  (List.range (loads + stores)).map .addr ++
    (List.range stores).map fun j => .data (loads + j)

/-- What is known about the accesses after some calls. -/
structure Known (loads stores : ℕ) (addrOf : ℕ → MRef) (dataOf : ℕ → MBlock) (done : List Call)
    (evt : Event) : Prop where
  length : evt.accesses.length = loads + stores
  loadCount : evt.loadCount = loads
  addrKnown : ∀ j x, evt.accesses[j]? = some x → (x.addrKnown = true ↔ Call.addr j ∈ done)
  addr : ∀ j x, evt.accesses[j]? = some x → x.addrKnown = true → x.addr = addrOf j
  dataKnown : ∀ j x, evt.accesses[j]? = some x → (x.dataKnown = true ↔ Call.data j ∈ done)
  data : ∀ j x, evt.accesses[j]? = some x → x.dataKnown = true → x.data = dataOf j

theorem getElem?_new {j : ℕ} {x : Access} (h : (Event.new loads stores).accesses[j]? = some x) :
    j < loads ∧ x = .new .load ∨ loads ≤ j ∧ x = .new .store := by
  rw [Event.new, List.getElem?_append, List.length_replicate] at h
  split at h
  · rename_i hlt
    exact .inl ⟨hlt, (List.eq_of_mem_replicate (List.mem_of_getElem? h))⟩
  · rename_i hge
    exact .inr ⟨Nat.le_of_not_lt hge, List.eq_of_mem_replicate (List.mem_of_getElem? h)⟩

theorem unknown_of_new {j : ℕ} {x : Access} (h : (Event.new loads stores).accesses[j]? = some x) :
    x.addrKnown = false ∧ x.dataKnown = false := by
  cases getElem?_new h with
  | inl h => exact h.2 ▸ ⟨rfl, rfl⟩
  | inr h => exact h.2 ▸ ⟨rfl, rfl⟩

theorem known_new : Known loads stores addrOf dataOf [] (Event.new loads stores) where
  length := by simp [Event.new]
  loadCount := rfl
  addrKnown := by
    intro j x hx
    simp [(unknown_of_new hx).1]
  addr := by
    intro j x hx hknown
    rw [(unknown_of_new hx).1] at hknown
    cases hknown
  dataKnown := by
    intro j x hx
    simp [(unknown_of_new hx).2]
  data := by
    intro j x hx hknown
    rw [(unknown_of_new hx).2] at hknown
    cases hknown

theorem not_covers_new {j : ℕ} : (Event.new loads stores).covers j p = false := by
  cases hx : (Event.new loads stores).accesses[j]? with
  | none => rw [covers, hx]
  | some x => rw [covers_of_getElem? hx, (unknown_of_new hx).1, Bool.false_and]

theorem consistent_new : Consistent (Event.new loads stores) where
  load := by
    intro j x hx hj
    cases getElem?_new hx with
    | inl h => exact h.2 ▸ rfl
    | inr h => exact absurd h.1 (Nat.not_le_of_lt hj)
  store := by
    intro j x hx hj
    cases getElem?_new hx with
    | inl h => exact absurd h.1 (Nat.not_lt_of_le hj)
    | inr h => exact h.2 ▸ rfl
  right := by
    intro p
    constructor
    · intro h
      obtain ⟨j, -, hj⟩ := h
      rw [not_covers_new] at hj
      cases hj
    · exact fun _ => rfl
    · intro h
      obtain ⟨j, -, hj⟩ := h
      rw [not_covers_new] at hj
      cases hj
    · exact fun _ => rfl
    · intro m x hm
      have hcovers := hm.covers
      rw [not_covers_new] at hcovers
      cases hcovers

theorem getElem?_set_cases {accesses : List Access} {x y : Access} {j : ℕ}
    (ha : a < accesses.length) (h : (accesses.set a x)[j]? = some y) :
    (j = a ∧ y = x) ∨ (j ≠ a ∧ accesses[j]? = some y) := by
  by_cases heq : j = a
  · subst heq
    rw [List.getElem?_set_self ha, Option.some.injEq] at h
    exact .inl ⟨rfl, h.symm⟩
  · rw [List.getElem?_set_ne (Ne.symm heq)] at h
    exact .inr ⟨heq, h⟩

/-- A call that was not made before succeeds. -/
theorem register_spec {call : Call} (h : Consistent evt)
    (hknown : Known loads stores addrOf dataOf done evt) (hvalid : call.Valid loads stores)
    (hnew : call ∉ done) : ∃ evt', register addrOf dataOf evt call = some evt' ∧
      Consistent evt' ∧ Known loads stores addrOf dataOf (done ++ [call]) evt' := by
  cases call with
  | addr a =>
      have hlt : a < evt.accesses.length := by
        rw [hknown.length]
        exact hvalid
      have ha : evt.accesses[a]? = some evt.accesses[a] := List.getElem?_eq_getElem hlt
      have hunknown : evt.accesses[a].addrKnown = false := by
        rw [← Bool.not_eq_true]
        exact fun h => hnew ((hknown.addrKnown a _ ha).mp h)
      obtain ⟨evt', hrun, hconsistent, haccesses, hloadCount⟩ :=
        registerAddr_spec h ha hunknown (addrOf a)
      refine ⟨evt', hrun, hconsistent, ?_⟩
      have hcases : ∀ j x, evt'.accesses[j]? = some x →
          (j = a ∧ x = { evt.accesses[a] with addr := addrOf a, addrKnown := true }) ∨
            (j ≠ a ∧ evt.accesses[j]? = some x) :=
        fun j x hx => getElem?_set_cases hlt (haccesses ▸ hx)
      constructor
      · rw [haccesses, List.length_set, hknown.length]
      · rw [hloadCount, hknown.loadCount]
      · intro j x hx
        rcases hcases j x hx with ⟨rfl, rfl⟩ | ⟨hj, hx⟩
        · simp
        · simp [hknown.addrKnown j x hx, hj]
      · intro j x hx
        rcases hcases j x hx with ⟨rfl, rfl⟩ | ⟨hj, hx⟩
        · exact fun _ => rfl
        · exact hknown.addr j x hx
      · intro j x hx
        rcases hcases j x hx with ⟨rfl, rfl⟩ | ⟨hj, hx⟩
        · simp [hknown.dataKnown j _ ha]
        · simp [hknown.dataKnown j x hx]
      · intro j x hx
        rcases hcases j x hx with ⟨rfl, rfl⟩ | ⟨hj, hx⟩
        · exact hknown.data j evt.accesses[j] ha
        · exact hknown.data j x hx
  | data a =>
      have hlt : a < evt.accesses.length := by
        rw [hknown.length]
        exact hvalid.2
      have ha : evt.accesses[a]? = some evt.accesses[a] := List.getElem?_eq_getElem hlt
      have hunknown : evt.accesses[a].dataKnown = false := by
        rw [← Bool.not_eq_true]
        exact fun h => hnew ((hknown.dataKnown a _ ha).mp h)
      obtain ⟨evt', hrun, hconsistent, haccesses, hloadCount⟩ :=
        registerData_spec h ha (by rw [hknown.loadCount]; exact hvalid.1) hunknown (dataOf a)
      refine ⟨evt', hrun, hconsistent, ?_⟩
      have hcases : ∀ j x, evt'.accesses[j]? = some x →
          (j = a ∧ x = { evt.accesses[a] with data := dataOf a, dataKnown := true }) ∨
            (j ≠ a ∧ evt.accesses[j]? = some x) :=
        fun j x hx => getElem?_set_cases hlt (haccesses ▸ hx)
      constructor
      · rw [haccesses, List.length_set, hknown.length]
      · rw [hloadCount, hknown.loadCount]
      · intro j x hx
        rcases hcases j x hx with ⟨rfl, rfl⟩ | ⟨hj, hx⟩
        · simp [hknown.addrKnown j _ ha]
        · simp [hknown.addrKnown j x hx]
      · intro j x hx
        rcases hcases j x hx with ⟨rfl, rfl⟩ | ⟨hj, hx⟩
        · exact hknown.addr j evt.accesses[j] ha
        · exact hknown.addr j x hx
      · intro j x hx
        rcases hcases j x hx with ⟨rfl, rfl⟩ | ⟨hj, hx⟩
        · simp
        · simp [hknown.dataKnown j x hx, hj]
      · intro j x hx
        rcases hcases j x hx with ⟨rfl, rfl⟩ | ⟨hj, hx⟩
        · exact fun _ => rfl
        · exact hknown.data j x hx

/-- Calls in any order keep the byte accesses right. -/
theorem foldlM_register (h : Consistent evt) (hknown : Known loads stores addrOf dataOf done evt)
    (hvalid : ∀ call ∈ calls, call.Valid loads stores) (hnodup : (done ++ calls).Nodup) :
    ∃ evt', calls.foldlM (register addrOf dataOf) evt = some evt' ∧ Consistent evt' ∧
      Known loads stores addrOf dataOf (done ++ calls) evt' := by
  induction calls generalizing done evt with
  | nil =>
      rw [List.append_nil]
      exact ⟨evt, rfl, h, hknown⟩
  | cons call calls ih =>
      obtain ⟨hcall, hcalls⟩ := List.forall_mem_cons.mp hvalid
      rw [List.append_cons] at hnodup
      have hnew : call ∉ done := by
        intro hmem
        have hnodup' := (List.nodup_append.mp hnodup).1
        rw [List.nodup_append] at hnodup'
        exact hnodup'.2.2 call hmem call (List.mem_singleton_self call) rfl
      obtain ⟨evt₁, hstep, hconsistent, hknown₁⟩ := register_spec h hknown hcall hnew
      obtain ⟨evt', hrun, hconsistent', hknown'⟩ := ih hconsistent hknown₁ hcalls hnodup
      refine ⟨evt', ?_, hconsistent', by rwa [List.append_cons]⟩
      rw [List.foldlM_cons, hstep]
      exact hrun

/-! ### All calls -/

theorem mem_allCalls_addr {a : ℕ} : Call.addr a ∈ allCalls loads stores ↔ a < loads + stores := by
  simp [allCalls]

theorem mem_allCalls_data {a : ℕ} :
    Call.data a ∈ allCalls loads stores ↔ loads ≤ a ∧ a < loads + stores := by
  simp only [allCalls, List.mem_append, List.mem_map, List.mem_range, reduceCtorEq, and_false,
    exists_false, false_or, Call.data.injEq]
  constructor
  · intro h
    obtain ⟨j, hj, rfl⟩ := h
    omega
  · intro h
    exact ⟨a - loads, by omega, by omega⟩

theorem valid_of_mem_allCalls {call : Call} (h : call ∈ allCalls loads stores) :
    call.Valid loads stores := by
  cases call with
  | addr a => exact mem_allCalls_addr.mp h
  | data a => exact mem_allCalls_data.mp h

theorem nodup_allCalls : (allCalls loads stores).Nodup := by
  rw [allCalls, List.nodup_append]
  refine ⟨?_, ?_, ?_⟩
  · exact List.Nodup.map (fun _ _ h => Call.addr.inj h) List.nodup_range
  · refine List.Nodup.map ?_ List.nodup_range
    exact fun _ _ h => Nat.add_left_cancel (Call.data.inj h)
  · intro call hcall call' hcall' heq
    obtain ⟨j, -, rfl⟩ := List.mem_map.mp hcall
    obtain ⟨j', -, hj⟩ := List.mem_map.mp hcall'
    rw [← heq] at hj
    cases hj

theorem exists_last {j : ℕ} (hstore : evt.loadCount ≤ j) (hcovers : evt.covers j p = true) :
    ∃ m, Last evt m p := by
  induction hn : evt.accesses.length - j using Nat.strongRecOn generalizing j with
  | _ n ih =>
      by_cases hlater : ∃ l, j < l ∧ evt.covers l p = true
      · obtain ⟨l, hl, hl'⟩ := hlater
        have hlt := lt_length_of_covers hl'
        exact ih (evt.accesses.length - l) (by omega) (by omega) hl' rfl
      · refine ⟨j, hstore, hcovers, ?_⟩
        intro l hl
        rw [← Bool.not_eq_true]
        exact fun hl' => hlater ⟨l, hl, hl'⟩

/-- When everything is known, an access covers what its address includes. -/
theorem covers_of_known (hknown : Known loads stores addrOf dataOf done evt)
    (hall : ∀ a, a < loads + stores → Call.addr a ∈ done) {j : ℕ} :
    evt.covers j p = true ↔ j < loads + stores ∧ (addrOf j).includes p = true := by
  constructor
  · intro h
    have hlt := lt_length_of_covers h
    have hj : evt.accesses[j]? = some evt.accesses[j] := List.getElem?_eq_getElem hlt
    rw [covers_of_getElem? hj, Bool.and_eq_true] at h
    exact ⟨hknown.length ▸ hlt, hknown.addr j _ hj h.1 ▸ h.2⟩
  · intro h
    have hlt : j < evt.accesses.length := by
      rw [hknown.length]
      exact h.1
    have hj : evt.accesses[j]? = some evt.accesses[j] := List.getElem?_eq_getElem hlt
    have hj' := (hknown.addrKnown j _ hj).mpr (hall j h.1)
    rw [covers_of_getElem? hj, hj', Bool.true_and, hknown.addr j _ hj hj']
    exact h.2

/-- The store whose data is written last to a byte. -/
structure Overwrites (loads stores : ℕ) (addrOf : ℕ → MRef) (m p : ℕ) : Prop where
  store : loads ≤ m ∧ m < loads + stores
  includes : (addrOf m).includes p = true
  last : ∀ j, m < j → j < loads + stores → (addrOf j).includes p = false

theorem countP_bytesAt {baccesses : List ByteAccess} {type : AccessType} :
    (bytesAt baccesses p).countP (·.type = type) =
      baccesses.countP fun b => b.type = type && b.addr = p := by
  rw [bytesAt, List.countP_filter]

/-- After the registration of all addresses and data, in any order, there is one load for each byte
that a load covers, and one store, with the data of the last one, for each byte that a store
covers. -/
theorem register_allCalls (addrOf : ℕ → MRef) (dataOf : ℕ → MBlock)
    (hcalls : calls.Perm (allCalls loads stores)) :
    ∃ evt, calls.foldlM (register addrOf dataOf) (Event.new loads stores) = some evt ∧
      (∀ p, (evt.baccesses.countP fun b => b.type = .load && b.addr = p) =
        if ∃ j, j < loads ∧ (addrOf j).includes p = true then 1 else 0) ∧
      (∀ p, (evt.baccesses.countP fun b => b.type = .store && b.addr = p) =
        if ∃ j, j < stores ∧ (addrOf (loads + j)).includes p = true then 1 else 0) ∧
      ∀ b ∈ evt.baccesses, b.type = .store → b.dataKnown = true ∧
        ∃ m, Overwrites loads stores addrOf m b.addr ∧
          b.data = (dataOf m).getD (b.addr - (addrOf m).ref) 0 := by
  have hnew : Consistent (Event.new loads stores) := consistent_new
  have hstart : Known loads stores addrOf dataOf [] (Event.new loads stores) := known_new
  obtain ⟨evt, hrun, hconsistent, hknown⟩ := foldlM_register hnew hstart
    (fun call hcall => valid_of_mem_allCalls (hcalls.mem_iff.mp hcall))
    (hcalls.nodup_iff.mpr nodup_allCalls)
  rw [List.nil_append] at hknown
  have hcovers : ∀ j p, evt.covers j p = true ↔ j < loads + stores ∧ (addrOf j).includes p = true :=
    fun j p => covers_of_known hknown fun a ha => hcalls.mem_iff.mpr (mem_allCalls_addr.mpr ha)
  refine ⟨evt, hrun, ?_, ?_, ?_⟩
  · intro p
    rw [← countP_bytesAt]
    split
    · rename_i h
      obtain ⟨j, hj, hincludes⟩ := h
      exact (hconsistent.right p).load ⟨j, by rwa [hknown.loadCount],
        (hcovers j p).mpr ⟨by omega, hincludes⟩⟩
    · rename_i h
      apply (hconsistent.right p).noLoad
      intro j hj
      rw [hknown.loadCount] at hj
      rw [← Bool.not_eq_true, hcovers]
      exact fun hj' => h ⟨j, hj, hj'.2⟩
  · intro p
    rw [← countP_bytesAt]
    split
    · rename_i h
      obtain ⟨j, hj, hincludes⟩ := h
      exact (hconsistent.right p).store ⟨loads + j, by rw [hknown.loadCount]; omega,
        (hcovers _ p).mpr ⟨by omega, hincludes⟩⟩
    · rename_i h
      apply (hconsistent.right p).noStore
      intro j hj
      rw [hknown.loadCount] at hj
      rw [← Bool.not_eq_true, hcovers]
      intro hj'
      apply h
      refine ⟨j - loads, by omega, ?_⟩
      rw [Nat.add_sub_cancel' hj]
      exact hj'.2
  · intro b hb hstore
    have hbyte : b ∈ bytesAt evt.baccesses b.addr :=
      List.mem_filter.mpr ⟨hb, decide_eq_true rfl⟩
    have hright := hconsistent.right b.addr
    have hsome : ∃ j, evt.loadCount ≤ j ∧ evt.covers j b.addr = true := by
      by_contra hnone
      have hcount := hright.noStore fun j hj => Bool.eq_false_iff.mpr fun h => hnone ⟨j, hj, h⟩
      exact List.countP_eq_zero.mp hcount b hbyte (decide_eq_true hstore)
    obtain ⟨j, hj, hj'⟩ := hsome
    obtain ⟨m, hm⟩ := exists_last hj hj'
    have hlt := lt_length_of_covers hm.covers
    have hx : evt.accesses[m]? = some evt.accesses[m] := List.getElem?_eq_getElem hlt
    obtain ⟨hmlt, hincludes⟩ := (hcovers m b.addr).mp hm.covers
    have hmstore : loads ≤ m := hknown.loadCount ▸ hm.store
    have hdata := (hknown.dataKnown m _ hx).mpr
      (hcalls.mem_iff.mpr (mem_allCalls_data.mpr ⟨hmstore, hmlt⟩))
    have haddr := (hknown.addrKnown m _ hx).mpr (hcalls.mem_iff.mpr (mem_allCalls_addr.mpr hmlt))
    obtain ⟨hb', hvalue⟩ := hright.data m _ hm hx hdata b hbyte hstore
    rw [hknown.data m _ hx hdata, hknown.addr m _ hx haddr] at hvalue
    refine ⟨hb', m, ⟨⟨hmstore, hmlt⟩, hincludes, ?_⟩, hvalue⟩
    intro l hl hllt
    rw [← Bool.not_eq_true]
    intro hl'
    have hnot := hm.last l hl
    rw [(hcovers l b.addr).mpr ⟨hllt, hl'⟩] at hnot
    cases hnot

/-- A load and two overlapping stores, of which the second one has its data first. -/
theorem register_allCalls_overlapping :
    ∃ evt, [Call.data 2, .addr 1, .addr 0, .data 1, .addr 2].foldlM
        (register (fun a => if a = 2 then ⟨102, 2⟩ else ⟨100, 4⟩)
          fun a => if a = 2 then [5, 6] else [1, 2, 3, 4]) (Event.new 1 2) = some evt ∧
      (∀ p, (evt.baccesses.countP fun b => b.type = .load && b.addr = p) =
        if ∃ j, j < 1 ∧ (if j = 2 then (⟨102, 2⟩ : MRef) else ⟨100, 4⟩).includes p = true
          then 1 else 0) ∧
      (∀ p, (evt.baccesses.countP fun b => b.type = .store && b.addr = p) =
        if ∃ j, j < 2 ∧ (if 1 + j = 2 then (⟨102, 2⟩ : MRef) else ⟨100, 4⟩).includes p = true
          then 1 else 0) ∧
      ∀ b ∈ evt.baccesses, b.type = .store → b.dataKnown = true ∧
        ∃ m, Overwrites 1 2 (fun a => if a = 2 then ⟨102, 2⟩ else ⟨100, 4⟩) m b.addr ∧
          b.data = (if m = 2 then [5, 6] else [1, 2, 3, 4] : MBlock).getD
            (b.addr - (if m = 2 then (⟨102, 2⟩ : MRef) else ⟨100, 4⟩).ref) 0 :=
  register_allCalls _ _ (by decide)

end Nidhugg.PowerArmAccesses
