import Mathlib.Data.List.Count
import Nidhugg.Model.PowerArmAccesses

/-! # The accesses to a byte

What `register_addr` and `register_data` do to the byte accesses of one byte. They leave those of
all other bytes as they are. -/

namespace Nidhugg.PowerArmAccesses

open Event

variable {evt evt' : Event} {a j m p q i : ℕ} {d : UInt8} {access : Access}
  {baccesses : List ByteAccess}

/-- The accesses to a byte. -/
def bytesAt (baccesses : List ByteAccess) (p : ℕ) : List ByteAccess :=
  baccesses.filter fun b => b.addr = p

theorem bytesAt_append (b : ByteAccess) :
    bytesAt (baccesses ++ [b]) p =
      if b.addr = p then bytesAt baccesses p ++ [b] else bytesAt baccesses p := by
  rw [bytesAt, List.filter_append, List.filter_cons]
  split
  · rename_i h
    rw [if_pos (of_decide_eq_true h)]
    rfl
  · rename_i h
    rw [if_neg fun heq => h (decide_eq_true heq)]
    exact List.append_nil _

/-! ### Data -/

def ByteAccess.write (d : UInt8) (b : ByteAccess) : ByteAccess :=
  if b.type = .store then { b with data := d, dataKnown := true } else b

theorem ByteAccess.type_write (b : ByteAccess) : (b.write d).type = b.type := by
  rw [write]
  split
  · rfl
  · rfl

theorem map_write_of_loads (h : ∀ b ∈ baccesses, b.type ≠ .store) :
    baccesses.map (ByteAccess.write d) = baccesses := by
  induction baccesses with
  | nil => rfl
  | cons b baccesses ih =>
      obtain ⟨hb, hrest⟩ := List.forall_mem_cons.mp h
      rw [List.map_cons, ih hrest, ByteAccess.write, if_neg hb]

theorem countP_write (type : AccessType) :
    (baccesses.map (ByteAccess.write d)).countP (·.type = type) =
      baccesses.countP (·.type = type) := by
  rw [List.countP_map]
  apply List.countP_congr
  intro b _
  rw [Function.comp_apply, ByteAccess.type_write]

/-- The only store to a byte gets the data. -/
theorem updateData_spec (h : (bytesAt baccesses p).countP (·.type = .store) = 1) :
    ∃ baccesses', updateData p d baccesses = some baccesses' ∧
      (∀ q, q ≠ p → bytesAt baccesses' q = bytesAt baccesses q) ∧
        bytesAt baccesses' p = (bytesAt baccesses p).map (ByteAccess.write d) := by
  induction baccesses with
  | nil => cases h
  | cons b baccesses ih =>
      rw [updateData]
      split
      · rename_i hfirst
        rw [Bool.and_eq_true, decide_eq_true_eq, decide_eq_true_eq] at hfirst
        obtain ⟨htype, haddr⟩ := hfirst
        refine ⟨_, rfl, ?_, ?_⟩
        · intro q hq
          have hne : b.addr ≠ q := fun heq => hq (heq.symm.trans haddr)
          simp [bytesAt, hne]
        · -- the other accesses to the byte are loads
          have hcount : (bytesAt baccesses p).countP (·.type = .store) = 0 := by
            rw [bytesAt, List.filter_cons, if_pos (decide_eq_true haddr), List.countP_cons,
              if_pos (decide_eq_true htype)] at h
            exact Nat.succ.inj h
          have hloads : ∀ c ∈ bytesAt baccesses p, c.type ≠ .store := by
            intro c hc hstore
            exact List.countP_eq_zero.mp hcount c hc (decide_eq_true hstore)
          rw [bytesAt, bytesAt, List.filter_cons, List.filter_cons, if_pos (decide_eq_true haddr),
            if_pos (decide_eq_true haddr), List.map_cons, ByteAccess.write, if_pos htype]
          exact congrArg (_ :: ·) (map_write_of_loads hloads).symm
      · rename_i hother
        have hcount : (bytesAt baccesses p).countP (·.type = .store) = 1 := by
          rw [bytesAt, List.filter_cons] at h
          split at h
          · rename_i haddr
            rw [List.countP_cons, if_neg] at h
            · exact h
            · intro htype
              exact hother (by simp [of_decide_eq_true htype, of_decide_eq_true haddr])
          · exact h
        obtain ⟨baccesses', hupdate, hothers, hbyte⟩ := ih hcount
        refine ⟨b :: baccesses', by rw [hupdate, Option.map_some], ?_, ?_⟩
        · intro q hq
          simp only [bytesAt, List.filter_cons]
          rw [show baccesses'.filter _ = _ from hothers q hq]
          rfl
        · simp only [bytesAt, List.filter_cons]
          rw [show baccesses'.filter _ = _ from hbyte]
          split
          · rename_i haddr
            have htype : b.type ≠ .store := by
              intro htype
              exact hother (by simp [htype, of_decide_eq_true haddr])
            rw [List.map_cons, ByteAccess.write, if_neg htype]
            rfl
          · rfl

/-! ### The last store -/

theorem covers_of_getElem? (h : evt.accesses[a]? = some access) :
    evt.covers a p = (access.addrKnown && access.addr.includes p) := by
  rw [covers, h]

theorem lt_length_of_covers (h : evt.covers j p = true) : j < evt.accesses.length := by
  by_contra hle
  rw [covers, List.getElem?_eq_none (Nat.le_of_not_lt hle)] at h
  cases h

theorem lastOther_none {k : ℕ} (h : evt.lastOther a p k = none) (hj : j < k)
    (hstore : evt.loadCount ≤ j) (hne : j ≠ a) : evt.covers j p = false := by
  induction k with
  | zero => omega
  | succ k ih =>
      rw [lastOther] at h
      split at h
      · omega
      split at h
      · cases h
      · rename_i hk
        by_cases heq : j = k
        · subst heq
          simpa [hne] using hk
        · exact ih h (by omega)

theorem lastOther_some {k : ℕ} (h : evt.lastOther a p k = some j) :
    evt.loadCount ≤ j ∧ j ≠ a ∧ evt.covers j p = true ∧
      ∀ l, j < l → l < k → l ≠ a → evt.covers l p = false := by
  induction k with
  | zero => cases h
  | succ k ih =>
      rw [lastOther] at h
      split at h
      · cases h
      rename_i hstore
      split at h
      · rename_i hk
        cases h
        rw [Bool.and_eq_true, decide_eq_true_eq] at hk
        exact ⟨Nat.le_of_not_lt hstore, hk.1, hk.2, fun l hl hlk => by omega⟩
      · rename_i hk
        obtain ⟨hj, hne, hcovers, hlast⟩ := ih h
        refine ⟨hj, hne, hcovers, ?_⟩
        intro l hl hlk hla
        by_cases heq : l = k
        · subst heq
          simpa [hla] using hk
        · exact hlast l hl (by omega) hla

/-- A store to a byte whose address is known, and no store behind it. -/
structure Last (evt : Event) (m p : ℕ) : Prop where
  store : evt.loadCount ≤ m
  covers : evt.covers m p = true
  last : ∀ j, m < j → evt.covers j p = false

theorem Last.eq (h : Last evt m p) (h' : Last evt j p) : m = j := by
  rcases Nat.lt_trichotomy m j with hlt | heq | hlt
  · exact absurd (h.last j hlt) (by simp [h'.covers])
  · exact heq
  · exact absurd (h'.last m hlt) (by simp [h.covers])

/-- The accesses to a byte are as the known addresses and data ask for. -/
structure Right (evt : Event) (p : ℕ) (bytes : List ByteAccess) : Prop where
  load : (∃ j, j < evt.loadCount ∧ evt.covers j p = true) → bytes.countP (·.type = .load) = 1
  noLoad : (∀ j, j < evt.loadCount → evt.covers j p = false) → bytes.countP (·.type = .load) = 0
  store : (∃ j, evt.loadCount ≤ j ∧ evt.covers j p = true) → bytes.countP (·.type = .store) = 1
  noStore : (∀ j, evt.loadCount ≤ j → evt.covers j p = false) → bytes.countP (·.type = .store) = 0
  data : ∀ m access, Last evt m p → evt.accesses[m]? = some access → access.dataKnown = true →
    ∀ b ∈ bytes, b.type = .store →
      b.dataKnown = true ∧ b.data = access.data.getD (p - access.addr.ref) 0

theorem covers_congr (haccesses : evt'.accesses = evt.accesses) :
    evt'.covers j p = evt.covers j p := by
  rw [covers, covers, haccesses]

/-- As many accesses of each kind to a byte that the same accesses include. -/
theorem Right.of_counts {bytes bytes' : List ByteAccess} (hright : Right evt p bytes)
    (hloadCount : evt'.loadCount = evt.loadCount)
    (hcovers : ∀ j, evt'.covers j p = evt.covers j p)
    (hcount : ∀ type, bytes'.countP (·.type = type) = bytes.countP (·.type = type))
    (hdata : ∀ m access, Last evt' m p → evt'.accesses[m]? = some access →
      access.dataKnown = true → ∀ b ∈ bytes', b.type = .store →
        b.dataKnown = true ∧ b.data = access.data.getD (p - access.addr.ref) 0) :
    Right evt' p bytes' where
  load := by
    simp only [hloadCount, hcovers, hcount]
    exact hright.load
  noLoad := by
    simp only [hloadCount, hcovers, hcount]
    exact hright.noLoad
  store := by
    simp only [hloadCount, hcovers, hcount]
    exact hright.store
  noStore := by
    simp only [hloadCount, hcovers, hcount]
    exact hright.noStore
  data := hdata

theorem Last.congr (hlast : Last evt' m p) (hloadCount : evt'.loadCount = evt.loadCount)
    (hcovers : ∀ j, evt'.covers j p = evt.covers j p) : Last evt m p where
  store := hloadCount ▸ hlast.store
  covers := hcovers m ▸ hlast.covers
  last j hj := hcovers j ▸ hlast.last j hj

/-- Only the accesses and the number of loads matter. -/
theorem Right.congr {bytes : List ByteAccess} (h : Right evt p bytes)
    (haccesses : evt'.accesses = evt.accesses) (hloadCount : evt'.loadCount = evt.loadCount) :
    Right evt' p bytes := by
  have hcovers : ∀ j, evt'.covers j p = evt.covers j p := fun _ => covers_congr haccesses
  apply h.of_counts hloadCount hcovers fun _ => rfl
  intro m access hlast haccess
  exact h.data m access (hlast.congr hloadCount hcovers) (haccesses ▸ haccess)

/-! ### Addresses -/

/-- The address of an access has become known, and it includes the byte. -/
structure Grows (evt evt' : Event) (a p : ℕ) (access : Access) : Prop where
  loadCount : evt'.loadCount = evt.loadCount
  others : ∀ j, j ≠ a → evt'.accesses[j]? = evt.accesses[j]?
  access : evt'.accesses[a]? = some access
  covers : evt'.covers a p = true
  unknown : evt.covers a p = false

theorem Grows.covers_other (h : Grows evt evt' a p access) (hj : j ≠ a) :
    evt'.covers j p = evt.covers j p := by
  rw [Event.covers, Event.covers, h.others j hj]

/-- Among other accesses the same ones include the byte. -/
theorem Grows.exists_iff (h : Grows evt evt' a p access) {K : ℕ → Prop} (ha : ¬ K a) :
    (∃ j, K j ∧ evt'.covers j p = true) ↔ ∃ j, K j ∧ evt.covers j p = true := by
  refine exists_congr fun j => and_congr_right fun hj => ?_
  rw [h.covers_other fun heq => ha (heq ▸ hj)]

theorem Grows.forall_iff (h : Grows evt evt' a p access) {K : ℕ → Prop} (ha : ¬ K a) :
    (∀ j, K j → evt'.covers j p = false) ↔ ∀ j, K j → evt.covers j p = false := by
  refine forall_congr' fun j => forall_congr' fun hj => ?_
  rw [h.covers_other fun heq => ha (heq ▸ hj)]

/-- The last store is still the last one, if another store follows the new one or it is a load. -/
theorem Grows.last_iff (h : Grows evt evt' a p access)
    (hnot : a < evt.loadCount ∨ ∃ j, a < j ∧ evt.covers j p = true) :
    Last evt' m p → Last evt m p ∧ m ≠ a := by
  intro hlast
  have hne : m ≠ a := by
    intro heq
    subst heq
    cases hnot with
    | inl hlt =>
        have hle := hlast.store
        rw [h.loadCount] at hle
        omega
    | inr hlater =>
        obtain ⟨j, hj, hcovers⟩ := hlater
        have hnone := hlast.last j hj
        rw [h.covers_other (Nat.ne_of_gt hj), hcovers] at hnone
        cases hnone
  refine ⟨⟨h.loadCount ▸ hlast.store, (h.covers_other hne) ▸ hlast.covers, ?_⟩, hne⟩
  intro j hj
  by_cases heq : j = a
  · rw [heq, h.unknown]
  · rw [← h.covers_other heq]
    exact hlast.last j hj

theorem Grows.right_of_load {bytes bytes' : List ByteAccess} (h : Grows evt evt' a p access)
    (ha : a < evt.loadCount) (hright : Right evt p bytes)
    (hload : bytes'.countP (·.type = .load) = 1)
    (hcount : bytes'.countP (·.type = .store) = bytes.countP (·.type = .store))
    (hmem : ∀ b ∈ bytes', b.type = .store → b ∈ bytes) : Right evt' p bytes' where
  load := fun _ => hload
  noLoad := by
    intro hnone
    have hcovers := hnone a (by rwa [h.loadCount])
    rw [h.covers] at hcovers
    cases hcovers
  store := by
    rw [h.loadCount, h.exists_iff (Nat.not_le_of_lt ha), hcount]
    exact hright.store
  noStore := by
    rw [h.loadCount, h.forall_iff (Nat.not_le_of_lt ha), hcount]
    exact hright.noStore
  data := by
    intro m x hlast hx hknown b hb hstore
    obtain ⟨hlast', hne⟩ := h.last_iff (.inl ha) hlast
    rw [h.others m hne] at hx
    exact hright.data m x hlast' hx hknown b (hmem b hb hstore) hstore

theorem Grows.right_of_store {bytes bytes' : List ByteAccess} (h : Grows evt evt' a p access)
    (ha : evt.loadCount ≤ a) (hright : Right evt p bytes)
    (hcount : bytes'.countP (·.type = .load) = bytes.countP (·.type = .load))
    (hstore : bytes'.countP (·.type = .store) = 1)
    (hdata : ∀ m x, Last evt' m p → evt'.accesses[m]? = some x → x.dataKnown = true →
      ∀ b ∈ bytes', b.type = .store →
        b.dataKnown = true ∧ b.data = x.data.getD (p - x.addr.ref) 0) : Right evt' p bytes' where
  load := by
    have hnot : ¬ a < evt.loadCount := Nat.not_lt_of_le ha
    rw [h.loadCount, h.exists_iff hnot, hcount]
    exact hright.load
  noLoad := by
    have hnot : ¬ a < evt.loadCount := Nat.not_lt_of_le ha
    rw [h.loadCount, h.forall_iff hnot, hcount]
    exact hright.noLoad
  store := fun _ => hstore
  noStore := by
    intro hnone
    have hcovers := hnone a (by rwa [h.loadCount])
    rw [h.covers] at hcovers
    cases hcovers
  data := hdata

theorem addByte_load (h : Grows evt evt' a p access) (hp : access.addr.ref + i = p)
    (htype : access.type = .load) (ha : a < evt.loadCount)
    (hright : Right evt p (bytesAt evt'.baccesses p)) :
    ∃ baccesses, evt'.addByte a access i = some baccesses ∧
      (∀ q, q ≠ p → bytesAt baccesses q = bytesAt evt'.baccesses q) ∧
        Right evt' p (bytesAt baccesses p) := by
  rw [addByte, htype]
  dsimp only
  rw [hp]
  split
  · -- another load includes the byte
    rename_i hother
    obtain ⟨j, hj, hcovers⟩ := List.any_eq_true.mp hother
    rw [List.mem_range, h.loadCount] at hj
    rw [Bool.and_eq_true, decide_eq_true_eq] at hcovers
    have hload := hright.load ⟨j, hj, by rw [← h.covers_other hcovers.1, hcovers.2]⟩
    exact ⟨_, rfl, fun _ _ => rfl, h.right_of_load ha hright hload rfl fun _ hb _ => hb⟩
  · rename_i hother
    have hnone : ∀ j, j < evt.loadCount → evt.covers j p = false := by
      intro j hj
      by_cases heq : j = a
      · rw [heq, h.unknown]
      · rw [← h.covers_other heq, ← Bool.not_eq_true]
        intro hcovers
        apply hother
        rw [List.any_eq_true]
        exact ⟨j, List.mem_range.mpr (by rwa [h.loadCount]), by simp [heq, hcovers]⟩
    have hcount := hright.noLoad hnone
    refine ⟨_, rfl, ?_, ?_⟩
    · intro q hq
      rw [bytesAt_append, if_neg (Ne.symm hq)]
    · rw [bytesAt_append, if_pos rfl]
      apply h.right_of_load ha hright
      · simpa [List.countP_append] using hcount
      · simp [List.countP_append]
      · intro b hb hstore
        cases List.mem_append.mp hb with
        | inl hb => exact hb
        | inr hb =>
            rw [List.mem_singleton.mp hb] at hstore
            cases hstore

/-- The data of the only store to a byte. -/
theorem data_of_mem_write {baccesses : List ByteAccess} {b : ByteAccess}
    (hb : b ∈ baccesses.map (ByteAccess.write d)) (hstore : b.type = .store) :
    b.dataKnown = true ∧ b.data = d := by
  obtain ⟨c, -, rfl⟩ := List.mem_map.mp hb
  rw [ByteAccess.type_write] at hstore
  rw [ByteAccess.write, if_pos hstore]
  exact ⟨rfl, rfl⟩

theorem addByte_store (h : Grows evt evt' a p access) (hp : access.addr.ref + i = p)
    (htype : access.type = .store) (ha : evt.loadCount ≤ a)
    (hright : Right evt p (bytesAt evt'.baccesses p)) :
    ∃ baccesses, evt'.addByte a access i = some baccesses ∧
      (∀ q, q ≠ p → bytesAt baccesses q = bytesAt evt'.baccesses q) ∧
        Right evt' p (bytesAt baccesses p) := by
  have hbyte : access.data.getD i 0 = access.data.getD (p - access.addr.ref) 0 := by
    rw [← hp, Nat.add_sub_cancel_left]
  -- the last store is the new one, unless another one follows it
  have hself : (∀ j, a < j → evt'.covers j p = false) →
      ∀ m x, Last evt' m p → evt'.accesses[m]? = some x → x = access := by
    intro hlast m x hm hx
    have hlast' : Last evt' a p := ⟨by rwa [h.loadCount], h.covers, hlast⟩
    rw [hm.eq hlast', h.access, Option.some.injEq] at hx
    exact hx.symm
  rw [addByte, htype]
  dsimp only
  rw [hp]
  split
  · -- no other store to this byte yet
    rename_i hnone
    have hothers : ∀ j, evt.loadCount ≤ j → evt.covers j p = false := by
      intro j hj
      by_cases heq : j = a
      · rw [heq, h.unknown]
      · rw [← h.covers_other heq, ← Bool.not_eq_true]
        intro hcovers
        have hnot := lastOther_none hnone (lt_length_of_covers hcovers) (by rwa [h.loadCount]) heq
        rw [hcovers] at hnot
        cases hnot
    have hcount := hright.noStore hothers
    refine ⟨_, rfl, ?_, ?_⟩
    · intro q hq
      rw [bytesAt_append, if_neg]
      split
      · exact Ne.symm hq
      · exact Ne.symm hq
    · rw [bytesAt_append, if_pos (by split <;> rfl)]
      apply h.right_of_store ha hright
      · rw [List.countP_append]
        split
        · rfl
        · rfl
      · rw [List.countP_append, hcount]
        split
        · rfl
        · rfl
      · intro m x hm hx hknown b hb hstore
        have hafter : ∀ j, a < j → evt'.covers j p = false := by
          intro j hj
          rw [h.covers_other (Nat.ne_of_gt hj)]
          exact hothers j (by omega)
        obtain rfl := hself hafter m x hm hx
        cases List.mem_append.mp hb with
        | inl hb =>
            exact absurd (decide_eq_true hstore) (List.countP_eq_zero.mp hcount b hb)
        | inr hb =>
            rw [if_pos hknown] at hb
            rw [List.mem_singleton.mp hb]
            exact ⟨rfl, hbyte⟩
  · rename_i j hj
    obtain ⟨hstore, hne, hcovers, hlast⟩ := lastOther_some hj
    rw [h.loadCount] at hstore
    have hone := hright.store ⟨j, hstore, by rwa [← h.covers_other hne]⟩
    split
    · rename_i hlt
      have hafter : ∀ l, a < l → evt'.covers l p = false := by
        intro l hl
        rw [← Bool.not_eq_true]
        intro hl'
        have hnot := hlast l (by omega) (lt_length_of_covers hl') (by omega)
        rw [hl'] at hnot
        cases hnot
      split
      · obtain ⟨baccesses', hupdate, hothers, hbytes⟩ := updateData_spec
          (d := access.data.getD i 0) hone
        refine ⟨baccesses', hupdate, hothers, ?_⟩
        rw [hbytes]
        apply h.right_of_store ha hright (countP_write _) (by rw [countP_write, hone])
        intro m x hm hx hknown b hb hstore'
        obtain rfl := hself hafter m x hm hx
        obtain ⟨hb, hb'⟩ := data_of_mem_write hb hstore'
        exact ⟨hb, hb'.trans hbyte⟩
      · -- the data will be stored when it is registered
        rename_i hunknown
        refine ⟨_, rfl, fun _ _ => rfl, h.right_of_store ha hright rfl hone ?_⟩
        intro m x hm hx hknown
        obtain rfl := hself hafter m x hm hx
        exact absurd hknown hunknown
    · rename_i hnlt
      refine ⟨_, rfl, fun _ _ => rfl, h.right_of_store ha hright rfl hone ?_⟩
      intro m x hm hx hknown b hb hstore'
      obtain ⟨hm', hma⟩ := h.last_iff (.inr ⟨j, by omega, by rwa [← h.covers_other hne]⟩) hm
      rw [h.others m hma] at hx
      exact hright.data m x hm' hx hknown b hb hstore'

/-! ### Data of a store -/

/-- An access changes, but not whether it includes the byte, and it is not the last store. -/
theorem Right.of_not_last {bytes : List ByteAccess} (hright : Right evt p bytes)
    (hloadCount : evt'.loadCount = evt.loadCount)
    (hothers : ∀ j, j ≠ a → evt'.accesses[j]? = evt.accesses[j]?)
    (hcovers : ∀ j, evt'.covers j p = evt.covers j p) (hlast : ¬ Last evt' a p) :
    Right evt' p bytes := by
  apply hright.of_counts hloadCount hcovers fun _ => rfl
  intro m x hm hx
  have hne : m ≠ a := fun heq => hlast (heq ▸ hm)
  rw [hothers m hne] at hx
  exact hright.data m x (hm.congr hloadCount hcovers) hx

/-- The data of the last store is written. -/
theorem Right.of_last {bytes : List ByteAccess} (hright : Right evt p bytes)
    (hloadCount : evt'.loadCount = evt.loadCount)
    (hcovers : ∀ j, evt'.covers j p = evt.covers j p) (hlast : Last evt' a p)
    (haccess : evt'.accesses[a]? = some access) :
    Right evt' p (bytes.map (ByteAccess.write (access.data.getD (p - access.addr.ref) 0))) := by
  apply hright.of_counts hloadCount hcovers countP_write
  intro m x hm hx _ b hb hstore
  rw [hm.eq hlast, haccess, Option.some.injEq] at hx
  rw [← hx]
  exact data_of_mem_write hb hstore

/-! ### All bytes of an access -/

/-- A loop over the bytes of an access, of which each turn changes one byte. -/
theorem foldlM_bytes (step : Event → ℕ → Option Event) (start : Event) (ref size : ℕ)
    (New : ℕ → List ByteAccess → Prop)
    (hstep : ∀ evt i, i < size → evt.accesses = start.accesses → evt.loadCount = start.loadCount →
      bytesAt evt.baccesses (ref + i) = bytesAt start.baccesses (ref + i) →
      ∃ evt', step evt i = some evt' ∧ evt'.accesses = start.accesses ∧
        evt'.loadCount = start.loadCount ∧
        (∀ q, q ≠ ref + i → bytesAt evt'.baccesses q = bytesAt evt.baccesses q) ∧
        New (ref + i) (bytesAt evt'.baccesses (ref + i))) :
    ∃ evt', (List.range size).foldlM step start = some evt' ∧ evt'.accesses = start.accesses ∧
      evt'.loadCount = start.loadCount ∧
      (∀ i, i < size → New (ref + i) (bytesAt evt'.baccesses (ref + i))) ∧
      ∀ q, (∀ i, i < size → q ≠ ref + i) →
        bytesAt evt'.baccesses q = bytesAt start.baccesses q := by
  induction size with
  | zero => exact ⟨start, rfl, rfl, rfl, fun i hi => absurd hi (Nat.not_lt_zero i), fun _ _ => rfl⟩
  | succ size ih =>
      obtain ⟨evt, hrun, haccesses, hloadCount, hnew, hold⟩ :=
        ih fun evt i hi => hstep evt i (Nat.lt_succ_of_lt hi)
      obtain ⟨evt', hlast, haccesses', hloadCount', hothers, hbyte⟩ :=
        hstep evt size (Nat.lt_succ_self size) haccesses hloadCount (hold _ fun i hi => by omega)
      refine ⟨evt', ?_, haccesses', hloadCount', ?_, ?_⟩
      · rw [List.range_succ, List.foldlM_append, hrun]
        simpa using hlast
      · intro i hi
        by_cases heq : i = size
        · rw [heq]
          exact hbyte
        · rw [hothers _ (by omega)]
          exact hnew i (by omega)
      · intro q hq
        rw [hothers q (hq size (Nat.lt_succ_self size)), hold q fun i hi => hq i (by omega)]

end Nidhugg.PowerArmAccesses
