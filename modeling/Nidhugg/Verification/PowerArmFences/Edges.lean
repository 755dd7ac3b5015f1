import Mathlib.Data.List.Induction
import Nidhugg.Model.PowerArmFences

/-! # The edges of fences in any order of commits

An event that is committed after an event behind it looks forward for the fences between them. It
takes the absence of a fence for one between all events, and so adds edges to later loads that no
fence orders. -/

namespace Nidhugg.PowerArmFences

/-! ### Program order -/

/-- The events that a thread has fetched. -/
def fetched : List Turn → List (Bool × Bool)
  | [] => []
  | .fetch hasLoad hasStore :: turns => (hasLoad, hasStore) :: fetched turns
  | .fence _ :: turns => fetched turns
  | .commit _ :: turns => fetched turns

def hasLoad (turns : List Turn) (i : ℕ) : Bool := (fetched turns)[i]?.any Prod.fst

def hasStore (turns : List Turn) (i : ℕ) : Bool := (fetched turns)[i]?.any Prod.snd

/-- A fence is fetched after the first event and before the second one. -/
def Between (turns : List Turn) (type : FenceType) (i j : ℕ) : Prop :=
  ∃ front back, turns = front ++ .fence type :: back ∧ i < (fetched front).length ∧
    (fetched front).length ≤ j

/-- The fences order the two events. -/
def FenceOrdered (turns : List Turn) (i j : ℕ) : Prop :=
  Between turns .sync i j ∨
    (Between turns .lwsync i j ∧ (hasLoad turns i = true ∨ hasStore turns j = true)) ∨
    (Between turns .eieio i j ∧ hasStore turns i = true ∧ hasStore turns j = true)

/-- The edges are exactly the committed pairs that fences order. -/
def Exact (turns : List Turn) (T : Thread) : Prop :=
  ∀ i j, (i, j) ∈ T.hb ↔
    .commit i ∈ turns ∧ .commit j ∈ turns ∧ FenceOrdered turns i j

/-! ### The pairs that are misjudged -/

/-- A fence has been fetched after an event. -/
def After (turns : List Turn) (type : FenceType) (i : ℕ) : Prop :=
  ∃ front back, turns = front ++ .fence type :: back ∧ i < (fetched front).length

/-- A later event without stores behind a fence that does not order the two. -/
def Misjudged (turns : List Turn) (a b : ℕ) : Prop :=
  hasStore turns b = false ∧ ¬Between turns .sync a b ∧
    (Between turns .lwsync a b ∧ hasLoad turns a = false ∨
      Between turns .eieio a b ∧ hasStore turns a = true ∧ ¬Between turns .lwsync a b) ∧
    (¬After turns .sync a ∨ hasLoad turns a = true ∧ ¬After turns .lwsync a)

/-- No event is committed after a later one that it misjudges. -/
def Faultless (turns : List Turn) : Prop :=
  ∀ front a back, turns = front ++ .commit a :: back →
    ∀ b, .commit b ∈ front → ¬Misjudged front a b

/-! ### Appending a turn -/

theorem fetched_append (turns turns' : List Turn) :
    fetched (turns ++ turns') = fetched turns ++ fetched turns' := by
  induction turns with
  | nil => rfl
  | cons turn turns ih =>
      cases turn with
      | fetch hasLoad hasStore => simp [fetched, ih]
      | fence type => simp [fetched, ih]
      | commit i => simp [fetched, ih]

/-- The positions of a turn in a longer sequence. -/
theorem append_singleton_eq_iff {turns front back : List Turn} {turn turn' : Turn} :
    turns ++ [turn] = front ++ turn' :: back ↔
      (front = turns ∧ turn' = turn ∧ back = []) ∨
        ∃ rest, turns = front ++ turn' :: rest ∧ back = rest ++ [turn] := by
  constructor
  · intro h
    rcases List.eq_nil_or_concat back with rfl | ⟨rest, last, rfl⟩
    · have heq := List.append_inj' h rfl
      exact .inl ⟨heq.1.symm, by simpa using heq.2.symm, rfl⟩
    · rw [List.concat_eq_append] at h ⊢
      have h' : turns ++ [turn] = (front ++ turn' :: rest) ++ [last] := by simpa using h
      have heq := List.append_inj' h' rfl
      have hlast : turn = last := by simpa using heq.2
      exact .inr ⟨rest, heq.1, by rw [hlast]⟩
  · rintro (⟨rfl, rfl, rfl⟩ | ⟨rest, rfl, rfl⟩)
    · rfl
    · simp

theorem between_append {turns : List Turn} {turn : Turn} {type : FenceType} {i j : ℕ} :
    Between (turns ++ [turn]) type i j ↔ Between turns type i j ∨
      (turn = .fence type ∧ i < (fetched turns).length ∧ (fetched turns).length ≤ j) := by
  unfold Between
  simp only [append_singleton_eq_iff]
  constructor
  · rintro ⟨front, back, ⟨rfl, rfl, rfl⟩ | ⟨rest, rfl, rfl⟩, hi, hj⟩
    · exact .inr ⟨rfl, hi, hj⟩
    · exact .inl ⟨front, rest, rfl, hi, hj⟩
  · rintro (⟨front, rest, rfl, hi, hj⟩ | ⟨rfl, hi, hj⟩)
    · exact ⟨front, rest ++ [turn], .inr ⟨rest, rfl, rfl⟩, hi, hj⟩
    · exact ⟨turns, [], .inl ⟨rfl, rfl, rfl⟩, hi, hj⟩

theorem after_append {turns : List Turn} {turn : Turn} {type : FenceType} {i : ℕ} :
    After (turns ++ [turn]) type i ↔ After turns type i ∨
      (turn = .fence type ∧ i < (fetched turns).length) := by
  unfold After
  simp only [append_singleton_eq_iff]
  constructor
  · rintro ⟨front, back, ⟨rfl, rfl, rfl⟩ | ⟨rest, rfl, rfl⟩, hi⟩
    · exact .inr ⟨rfl, hi⟩
    · exact .inl ⟨front, rest, rfl, hi⟩
  · rintro (⟨front, rest, rfl, hi⟩ | ⟨rfl, hi⟩)
    · exact ⟨front, rest ++ [turn], .inr ⟨rest, rfl, rfl⟩, hi⟩
    · exact ⟨turns, [], .inl ⟨rfl, rfl, rfl⟩, hi⟩

theorem faultless_append {turns : List Turn} {turn : Turn} : Faultless (turns ++ [turn]) ↔
    Faultless turns ∧
      ∀ a, turn = .commit a → ∀ b, .commit b ∈ turns → ¬Misjudged turns a b := by
  unfold Faultless
  simp only [append_singleton_eq_iff]
  constructor
  · intro h
    constructor
    · rintro front a back rfl
      exact h front a (back ++ [turn]) (.inr ⟨back, rfl, rfl⟩)
    · rintro a rfl
      exact h turns a [] (.inl ⟨rfl, rfl, rfl⟩)
  · rintro ⟨hturns, hturn⟩ front a back (⟨rfl, rfl, rfl⟩ | ⟨rest, rfl, rfl⟩)
    · exact hturn a rfl
    · exact hturns front a rest rfl

/-! ### The loops of an event -/

/-- An index is the number of events in front of a fence, or there is no fence. -/
def Valid (idx : ℤ) : Prop := idx = -1 ∨ 0 ≤ idx

/-- A fence has at most `i` events in front of it. -/
def Reached (idx : ℤ) (i : ℕ) : Prop := 0 ≤ idx ∧ idx ≤ i

theorem lt_lastFenceBefore {evt : PAEvent} {i : ℕ} : (i : ℤ) < lastFenceBefore evt ↔
    (i : ℤ) < evt.idxBefore.sync ∨ (i : ℤ) < evt.idxBefore.lwsync ∨
      (evt.hasStore = true ∧ (i : ℤ) < evt.idxBefore.eieio) := by
  unfold lastFenceBefore
  cases evt.hasStore with
  | true =>
      simp
      omega
  | false =>
      simp
      omega

/-- The smaller one of two indices, of which either may be missing. -/
theorem earlier_spec {x y : ℤ} (hx : Valid x) (hy : Valid y) (i : ℕ) :
    Valid (if x = -1 || (y ≠ -1 && y < x) then y else x) ∧
      (Reached (if x = -1 || (y ≠ -1 && y < x) then y else x) i ↔ Reached x i ∨ Reached y i) := by
  unfold Valid Reached at *
  split
  · rename_i h
    simp at h
    omega
  · rename_i h
    simp at h
    omega

/-- The loop over later events starts behind the first fence. -/
theorem firstFenceAfter_spec {evt : PAEvent} (hvalid : ∀ type, Valid (evt.idxAfter.get type))
    (i : ℕ) : Valid (firstFenceAfter evt) ∧
      (Reached (firstFenceAfter evt) i ↔ Reached evt.idxAfter.lwsync i ∨
        Reached evt.idxAfter.sync i ∨ (evt.hasStore = true ∧ Reached evt.idxAfter.eieio i)) := by
  obtain ⟨hfirst, hreached⟩ := earlier_spec (hvalid .lwsync) (hvalid .sync) i
  have hboth := earlier_spec hfirst (hvalid .eieio) i
  unfold firstFenceAfter
  dsimp only [FenceIndices.get] at hfirst hreached hboth ⊢
  cases evt.hasStore with
  | true =>
      rw [hreached, or_assoc] at hboth
      simp only [true_and]
      exact hboth
  | false =>
      simp only [Bool.false_and, Bool.false_eq_true, if_false, false_and, or_false]
      exact ⟨hfirst, hreached⟩

/-! ### The indices along a run -/

theorem after_lt {turns : List Turn} {type : FenceType} {i : ℕ} (h : After turns type i) :
    i < (fetched turns).length := by
  obtain ⟨front, back, rfl, hi⟩ := h
  rw [fetched_append, List.length_append]
  omega

theorem between_iff_after {turns : List Turn} {type : FenceType} {i j : ℕ}
    (hj : (fetched turns).length ≤ j) : Between turns type i j ↔ After turns type i := by
  constructor
  · rintro ⟨front, back, h, hi, _⟩
    exact ⟨front, back, h, hi⟩
  · rintro ⟨front, back, rfl, hi⟩
    rw [fetched_append, List.length_append] at hj
    exact ⟨front, back, rfl, hi, by omega⟩

theorem Between.after {turns : List Turn} {type : FenceType} {i j : ℕ}
    (h : Between turns type i j) : After turns type i := by
  obtain ⟨front, back, h, hi, _⟩ := h
  exact ⟨front, back, h, hi⟩

theorem Between.mem {turns : List Turn} {type : FenceType} {i j : ℕ}
    (h : Between turns type i j) : .fence type ∈ turns := by
  obtain ⟨front, back, rfl, _⟩ := h
  simp

/-- What an event records. -/
structure Records (turns : List Turn) (k : ℕ) (evt : PAEvent) : Prop where
  load : evt.hasLoad = hasLoad turns k
  store : evt.hasStore = hasStore turns k
  committed : evt.committed = true ↔ .commit k ∈ turns
  before : ∀ type (i : ℕ), (i : ℤ) < evt.idxBefore.get type ↔ Between turns type i k
  valid : ∀ type, Valid (evt.idxAfter.get type)
  after : ∀ type, 0 ≤ evt.idxAfter.get type ↔ After turns type k
  reached : ∀ type i, Reached (evt.idxAfter.get type) i ↔ Between turns type k i

structure Inv (turns : List Turn) (T : Thread) : Prop where
  length : T.fch.length = (fetched turns).length
  records : ∀ k evt, T.fch[k]? = some evt → Records turns k evt
  last : ∀ type (i : ℕ), (i : ℤ) < T.lastFetchedIdx.get type ↔ After turns type i
  commits : ∀ i, .commit i ∈ turns → i < T.fch.length
  hb : ∀ i j, (i, j) ∈ T.hb → .commit i ∈ turns ∧ .commit j ∈ turns

theorem Inv.initial : Inv [] .initial := by
  constructor
  · rfl
  · intro k evt h
    simp [Thread.initial] at h
  · intro type i
    have hnot : ¬After [] type i := by
      rintro ⟨front, back, h, _⟩
      simp at h
    cases type <;> simp [Thread.initial, FenceIndices.none, FenceIndices.get, hnot]
  · intro i h
    simp at h
  · intro i j h
    simp [Thread.initial] at h

/-- A turn that is no fence changes at most whether an event is committed. -/
theorem Records.append {turns : List Turn} {turn : Turn} {k : ℕ} {evt : PAEvent}
    (h : Records turns k evt) (hk : k < (fetched turns).length)
    (hfence : ∀ type, turn ≠ .fence type) {committed : Bool}
    (hcommitted : committed = true ↔ .commit k ∈ turns ++ [turn]) :
    Records (turns ++ [turn]) k { evt with committed := committed } := by
  have hkind : (fetched (turns ++ [turn]))[k]? = (fetched turns)[k]? := by
    rw [fetched_append, List.getElem?_append_left hk]
  constructor
  · rw [h.load, hasLoad, hasLoad, hkind]
  · rw [h.store, hasStore, hasStore, hkind]
  · exact hcommitted
  · intro type i
    rw [h.before, between_append]
    simp [hfence type]
  · exact h.valid
  · intro type
    rw [h.after, after_append]
    simp [hfence type]
  · intro type i
    rw [h.reached, between_append]
    simp [hfence type]

/-- A turn that neither is a fence nor commits the event changes nothing. -/
theorem Records.keep {turns : List Turn} {turn : Turn} {k : ℕ} {evt : PAEvent}
    (h : Records turns k evt) (hk : k < (fetched turns).length)
    (hfence : ∀ type, turn ≠ .fence type) (hcommit : turn ≠ .commit k) :
    Records (turns ++ [turn]) k evt := by
  apply h.append hk hfence
  rw [h.committed]
  simp [hcommit.symm]

/-- The last fences before a new event are the last ones. -/
theorem Inv.records_new {turns : List Turn} {T : Thread} (h : Inv turns T) (ld st : Bool) :
    Records (turns ++ [.fetch ld st]) (fetched turns).length
      ⟨ld, st, false, T.lastFetchedIdx, .none⟩ := by
  have hkind : (fetched (turns ++ [.fetch ld st]))[(fetched turns).length]? = some (ld, st) := by
    rw [fetched_append, List.getElem?_append_right (Nat.le_refl _)]
    simp [fetched]
  have hnone : ∀ type, FenceIndices.none.get type = -1 := by
    intro type
    cases type <;> rfl
  have hafter : ∀ type, ¬After turns type (fetched turns).length :=
    fun type hafter => Nat.lt_irrefl _ (after_lt hafter)
  have hbetween : ∀ type i, ¬Between turns type (fetched turns).length i :=
    fun type i hbetween => hafter type hbetween.after
  constructor
  · rw [hasLoad, hkind]
    rfl
  · rw [hasStore, hkind]
    rfl
  · have hnot : .commit (fetched turns).length ∉ turns := by
      intro hcommit
      have hlt := h.commits _ hcommit
      rw [h.length] at hlt
      exact Nat.lt_irrefl _ hlt
    simp [hnot]
  · intro type i
    rw [h.last, between_append, between_iff_after (Nat.le_refl _)]
    simp
  · intro type
    exact .inl (hnone type)
  · intro type
    rw [hnone, after_append]
    simp [hafter type]
  · intro type i
    rw [hnone, between_append]
    simp [hbetween type i, Reached]

theorem Inv.fetch {turns : List Turn} {T : Thread} (h : Inv turns T) (ld st : Bool) :
    Inv (turns ++ [.fetch ld st]) (PowerArmFences.fetch T ld st) := by
  have hlength : (fetched (turns ++ [.fetch ld st])).length = (fetched turns).length + 1 := by
    simp [fetched_append, fetched]
  constructor
  · rw [hlength, ← h.length]
    simp [PowerArmFences.fetch]
  · intro k evt hevt
    rw [PowerArmFences.fetch] at hevt
    dsimp only at hevt
    rcases Nat.lt_or_ge k T.fch.length with hk | hk
    · rw [List.getElem?_append_left hk] at hevt
      exact (h.records k evt hevt).keep (h.length ▸ hk) (by simp) (by simp)
    · rw [List.getElem?_append_right hk, List.getElem?_singleton] at hevt
      split at hevt
      · rename_i hzero
        cases hevt
        have hk' : k = (fetched turns).length := by
          rw [← h.length]
          omega
        rw [hk']
        exact h.records_new ld st
      · cases hevt
  · intro type i
    rw [after_append]
    simp [PowerArmFences.fetch, h.last]
  · intro i hi
    have hi' := h.commits i (by simpa using hi)
    simp [PowerArmFences.fetch]
    omega
  · intro i j hij
    have hcommit := h.hb i j hij
    exact ⟨List.mem_append_left _ hcommit.1, List.mem_append_left _ hcommit.2⟩

@[simp]
theorem get_set (f : FenceIndices) (type type' : FenceType) (idx : ℤ) :
    (f.set type idx).get type' = if type' = type then idx else f.get type' := by
  cases type <;> cases type' <;> rfl

/-- A new fence is the first one after the events behind the last fence of its type. -/
theorem Records.fence {turns : List Turn} {k : ℕ} {evt : PAEvent} (h : Records turns k evt)
    (hk : k < (fetched turns).length) (type : FenceType) {last : ℤ}
    (hlast : ∀ i : ℕ, (i : ℤ) < last ↔ After turns type i) :
    Records (turns ++ [.fence type]) k
      (if max 0 last ≤ k then
        { evt with idxAfter := evt.idxAfter.set type (fetched turns).length }
      else evt) := by
  have hkind : fetched (turns ++ [.fence type]) = fetched turns := by
    simp [fetched_append, fetched]
  have hnew : max 0 last ≤ (k : ℤ) ↔ ¬After turns type k := by
    rw [← hlast]
    omega
  have hload : hasLoad (turns ++ [.fence type]) k = hasLoad turns k := by
    rw [hasLoad, hasLoad, hkind]
  have hstore : hasStore (turns ++ [.fence type]) k = hasStore turns k := by
    rw [hasStore, hasStore, hkind]
  have hcommitted : evt.committed = true ↔ .commit k ∈ turns ++ [.fence type] := by
    rw [h.committed]
    simp
  have hbefore : ∀ type' (i : ℕ), (i : ℤ) < evt.idxBefore.get type' ↔
      Between (turns ++ [.fence type]) type' i k := by
    intro type' i
    rw [h.before, between_append]
    have hle : ¬(fetched turns).length ≤ k := by omega
    simp [hle]
  by_cases hafter : After turns type k
  · rw [if_neg (fun hle => hnew.mp hle hafter)]
    refine ⟨h.load.trans hload.symm, h.store.trans hstore.symm, hcommitted, hbefore, h.valid, ?_, ?_⟩
    · intro type'
      rw [h.after, after_append]
      constructor
      · exact .inl
      · rintro (h' | ⟨heq, _⟩)
        · exact h'
        · cases heq
          exact hafter
    · intro type' i
      rw [h.reached, between_append]
      constructor
      · exact .inl
      · rintro (h' | ⟨heq, _, hi⟩)
        · exact h'
        · cases heq
          exact (between_iff_after hi).mpr hafter
  · rw [if_pos (hnew.mpr hafter)]
    refine ⟨h.load.trans hload.symm, h.store.trans hstore.symm, hcommitted, hbefore, ?_, ?_, ?_⟩
    · intro type'
      rw [get_set]
      split
      · exact .inr (by omega)
      · exact h.valid type'
    · intro type'
      rw [get_set, after_append]
      split
      · rename_i heq
        rw [heq]
        simp [hk]
      · rename_i hne
        rw [h.after]
        simp [Ne.symm hne]
    · intro type' i
      rw [get_set, between_append]
      split
      · rename_i heq
        have hbetween : ¬Between turns type k i := fun hbetween => hafter hbetween.after
        rw [heq]
        simp [Reached, hk, hbetween]
      · rename_i hne
        rw [h.reached]
        simp [Ne.symm hne]

theorem Inv.fence {turns : List Turn} {T : Thread} (h : Inv turns T) (type : FenceType) :
    Inv (turns ++ [.fence type]) (fetchFence T type) := by
  have hkind : fetched (turns ++ [.fence type]) = fetched turns := by
    simp [fetched_append, fetched]
  constructor
  · rw [hkind, ← h.length]
    simp [fetchFence]
  · intro k evt hevt
    simp only [fetchFence, List.getElem?_mapIdx, Option.map_eq_some_iff] at hevt
    obtain ⟨evt, hk, rfl⟩ := hevt
    have hlt : k < (fetched turns).length := by
      rw [← h.length]
      exact (List.getElem?_eq_some_iff.mp hk).1
    rw [h.length]
    exact (h.records k evt hk).fence hlt type (h.last type)
  · intro type' i
    rw [after_append, fetchFence]
    dsimp only
    rw [get_set]
    split
    · rename_i heq
      have hold : After turns type i → i < (fetched turns).length := after_lt
      rw [heq, h.length]
      simp only [Int.ofNat_lt, true_and]
      tauto
    · rename_i hne
      rw [h.last]
      simp [Ne.symm hne]
  · intro i hi
    have hi' := h.commits i (by simpa using hi)
    simpa [fetchFence] using hi'
  · intro i j hij
    have hcommit := h.hb i j hij
    exact ⟨List.mem_append_left _ hcommit.1, List.mem_append_left _ hcommit.2⟩

/-! ### The edges of a commit -/

theorem Records.addsBwd_iff {turns : List Turn} {a i : ℕ} {evt evt2 : PAEvent}
    (h : Records turns a evt) (h2 : Records turns i evt2) :
    ((i : ℤ) < lastFenceBefore evt ∧ addsBwd evt evt2 i = true) ↔
      .commit i ∈ turns ∧ FenceOrdered turns i a := by
  have hsync : (i : ℤ) < evt.idxBefore.sync ↔ Between turns .sync i a := h.before .sync i
  have hlwsync : (i : ℤ) < evt.idxBefore.lwsync ↔ Between turns .lwsync i a := h.before .lwsync i
  have heieio : (i : ℤ) < evt.idxBefore.eieio ↔ Between turns .eieio i a := h.before .eieio i
  rw [lt_lastFenceBefore]
  simp only [addsBwd, Bool.and_eq_true, Bool.or_eq_true, decide_eq_true_eq, hsync, hlwsync, heieio,
    h.store, h2.load, h2.store, h2.committed, FenceOrdered]
  tauto

theorem Records.addsFwd_iff {turns : List Turn} {a i : ℕ} {evt evt2 : PAEvent}
    (h : Records turns a evt) (h2 : Records turns i evt2) :
    (Reached (firstFenceAfter evt) i ∧ addsFwd evt evt2 i = true) ↔
      .commit i ∈ turns ∧ (FenceOrdered turns a i ∨ Misjudged turns a i) := by
  have hle : ∀ type, evt.idxAfter.get type ≤ i ↔ ¬After turns type a ∨ Between turns type a i := by
    intro type
    rw [← h.after, ← h.reached, Reached]
    cases h.valid type with
    | inl hvalid => omega
    | inr hvalid => omega
  have hsync : evt.idxAfter.sync ≤ i ↔ ¬After turns .sync a ∨ Between turns .sync a i := hle .sync
  have hlwsync : evt.idxAfter.lwsync ≤ i ↔ ¬After turns .lwsync a ∨ Between turns .lwsync a i :=
    hle .lwsync
  have heieio : evt.idxAfter.eieio ≤ i ↔ ¬After turns .eieio a ∨ Between turns .eieio a i :=
    hle .eieio
  have hreach : Reached (firstFenceAfter evt) i ↔ Between turns .lwsync a i ∨
      Between turns .sync a i ∨ (evt.hasStore = true ∧ Between turns .eieio a i) := by
    rw [← h.reached, ← h.reached, ← h.reached]
    exact (firstFenceAfter_spec h.valid i).2
  have hlater : Between turns .lwsync a i → After turns .lwsync a := Between.after
  have hlater' : Between turns .eieio a i → After turns .eieio a := Between.after
  rw [hreach]
  simp only [addsFwd, Bool.and_eq_true, Bool.or_eq_true, decide_eq_true_eq, hsync, hlwsync, heieio,
    h.load, h.store, h2.store, h2.committed, FenceOrdered, Misjudged]
  by_cases hs : Between turns .sync a i
  · simp [hs]
  · by_cases hl : Between turns .lwsync a i
    · have hla := hlater hl
      cases hasLoad turns a <;> cases hasStore turns i <;> simp [hs, hl, hla]
    · by_cases he : Between turns .eieio a i
      · have hea := hlater' he
        cases hasLoad turns a <;> cases hasStore turns a <;> cases hasStore turns i <;>
          simp [hs, hl, he, hea]
      · simp [hs, hl, he]

theorem Inv.mem_bwd {turns : List Turn} {T : Thread} {a i : ℕ} {evt : PAEvent} (h : Inv turns T)
    (hevt : T.fch[a]? = some evt) :
    i ∈ (fencesToHb T evt).1 ↔ .commit i ∈ turns ∧ FenceOrdered turns i a := by
  rw [fencesToHb, List.mem_filter, List.mem_range, Option.any_eq_true]
  constructor
  · rintro ⟨hi, evt2, hevt2, hadds⟩
    exact ((h.records a evt hevt).addsBwd_iff (h.records i evt2 hevt2)).mp ⟨by omega, hadds⟩
  · intro hi
    have hlt := h.commits i hi.1
    have hevt2 := List.getElem?_eq_getElem hlt
    have hadds := ((h.records a evt hevt).addsBwd_iff (h.records i _ hevt2)).mpr hi
    exact ⟨by omega, _, hevt2, hadds.2⟩

theorem Inv.mem_fwd {turns : List Turn} {T : Thread} {a i : ℕ} {evt : PAEvent} (h : Inv turns T)
    (hevt : T.fch[a]? = some evt) : i ∈ (fencesToHb T evt).2 ↔
      .commit i ∈ turns ∧ (FenceOrdered turns a i ∨ Misjudged turns a i) := by
  have hvalid : ∀ i : ℕ, Reached (firstFenceAfter evt) i →
      firstFenceAfter evt ≠ -1 ∧ (firstFenceAfter evt).toNat ≤ i := by
    intro i hi
    unfold Reached at hi
    omega
  rw [fencesToHb]
  dsimp only
  constructor
  · intro hi
    split at hi
    · rename_i hb
      rw [List.mem_filter, List.mem_range'_1, Option.any_eq_true] at hi
      obtain ⟨hrange, evt2, hevt2, hadds⟩ := hi
      have hnonneg : 0 ≤ firstFenceAfter evt := by
        cases (firstFenceAfter_spec (h.records a evt hevt).valid i).1 with
        | inl hnone => exact absurd hnone hb
        | inr hnonneg => exact hnonneg
      exact ((h.records a evt hevt).addsFwd_iff (h.records i evt2 hevt2)).mp
        ⟨⟨hnonneg, by omega⟩, hadds⟩
    · cases hi
  · intro hi
    have hlt := h.commits i hi.1
    have hevt2 := List.getElem?_eq_getElem hlt
    have hadds := ((h.records a evt hevt).addsFwd_iff (h.records i _ hevt2)).mpr hi
    have hb := hvalid i hadds.1
    rw [if_pos hb.1, List.mem_filter, List.mem_range'_1, Option.any_eq_true]
    exact ⟨by omega, _, hevt2, hadds.2⟩

theorem commit_eq_some {T T' : Thread} {a : ℕ} (h : commit T a = some T') :
    ∃ evt, T.fch[a]? = some evt ∧ evt.committed = false ∧
      T' = { T with
        fch := T.fch.set a { evt with committed := true }
        hb := T.hb ++ (fencesToHb T evt).1.map (·, a) ++ (fencesToHb T evt).2.map (a, ·) } := by
  unfold commit at h
  cases hevt : T.fch[a]? with
  | none =>
      rw [hevt] at h
      cases h
  | some evt =>
      rw [hevt] at h
      dsimp only at h
      split at h
      · cases h
      · rename_i hnot
        exact ⟨evt, rfl, by simpa using hnot, (Option.some.inj h).symm⟩

theorem Inv.commit {turns : List Turn} {T T' : Thread} {a : ℕ} (h : Inv turns T)
    (hstep : PowerArmFences.commit T a = some T') : Inv (turns ++ [.commit a]) T' := by
  obtain ⟨evt, hevt, hnot, rfl⟩ := commit_eq_some hstep
  have hkind : fetched (turns ++ [.commit a]) = fetched turns := by
    simp [fetched_append, fetched]
  have ha := (List.getElem?_eq_some_iff.mp hevt).1
  constructor
  · rw [hkind, ← h.length]
    simp
  · intro k evt' hevt'
    dsimp only at hevt'
    rw [List.getElem?_set] at hevt'
    split at hevt'
    · rename_i heq
      subst heq
      cases hevt'
      exact (h.records a evt hevt).append (h.length ▸ ha) (by simp) (by simp)
    · rename_i hne
      have hlt := (List.getElem?_eq_some_iff.mp hevt').1
      exact (h.records k evt' hevt').keep (h.length ▸ hlt) (by simp) (by simpa using hne)
  · intro type i
    rw [after_append]
    simp [h.last]
  · intro i hi
    dsimp only
    rw [List.length_set]
    rcases List.mem_append.mp hi with hi | hi
    · exact h.commits i hi
    · simp at hi
      omega
  · intro i j hij
    simp only [List.mem_append, List.mem_map, Prod.mk.injEq] at hij
    rcases hij with (hij | ⟨k, hk, rfl, rfl⟩) | ⟨k, hk, rfl, rfl⟩
    · have hcommit := h.hb i j hij
      exact ⟨List.mem_append_left _ hcommit.1, List.mem_append_left _ hcommit.2⟩
    · exact ⟨List.mem_append_left _ ((h.mem_bwd hevt).mp hk).1, by simp⟩
    · exact ⟨by simp, List.mem_append_left _ ((h.mem_fwd hevt).mp hk).1⟩

/-! ### Runs -/

theorem fenceOrdered_append {turns : List Turn} {turn : Turn} {i j : ℕ}
    (hi : i < (fetched turns).length) (hj : j < (fetched turns).length) :
    FenceOrdered (turns ++ [turn]) i j ↔ FenceOrdered turns i j := by
  have hbetween : ∀ type, Between (turns ++ [turn]) type i j ↔ Between turns type i j := by
    intro type
    rw [between_append]
    have hle : ¬(fetched turns).length ≤ j := by omega
    simp [hle]
  unfold FenceOrdered hasLoad hasStore
  rw [hbetween, hbetween, hbetween, fetched_append, List.getElem?_append_left hi,
    List.getElem?_append_left hj]

theorem not_between_self {turns : List Turn} {type : FenceType} {i : ℕ} :
    ¬Between turns type i i := by
  rintro ⟨front, back, rfl, hi, hle⟩
  omega

theorem not_fenceOrdered_self {turns : List Turn} {i : ℕ} : ¬FenceOrdered turns i i := by
  simp [FenceOrdered, not_between_self]

theorem Misjudged.not_fenceOrdered {turns : List Turn} {a b : ℕ} (h : Misjudged turns a b) :
    ¬FenceOrdered turns a b := by
  obtain ⟨hstore, hsync, hfence, _⟩ := h
  unfold FenceOrdered
  rw [hstore]
  intro hordered
  rcases hordered with hordered | ⟨hlwsync, hload⟩ | ⟨_, _, hfalse⟩
  · exact hsync hordered
  · rcases hfence with ⟨_, hnot⟩ | ⟨_, _, hnot⟩
    · simp [hnot] at hload
    · exact hnot hlwsync
  · cases hfalse

/-- A turn that commits nothing adds no edge. -/
theorem exact_append {turns : List Turn} {turn : Turn} {T T' : Thread} (h : Inv turns T)
    (hhb : T'.hb = T.hb) (hcommit : ∀ i, turn ≠ .commit i) :
    Exact (turns ++ [turn]) T' ↔ Exact turns T := by
  unfold Exact
  rw [hhb]
  apply forall_congr'
  intro i
  apply forall_congr'
  intro j
  have hmem : ∀ k, .commit k ∈ turns ++ [turn] ↔ .commit k ∈ turns := by
    intro k
    simp [(hcommit k).symm]
  rw [hmem, hmem]
  have hordered : .commit i ∈ turns → .commit j ∈ turns →
      (FenceOrdered (turns ++ [turn]) i j ↔ FenceOrdered turns i j) := by
    intro hi hj
    exact fenceOrdered_append (h.length ▸ h.commits i hi) (h.length ▸ h.commits j hj)
  have hand : (.commit i ∈ turns ∧ .commit j ∈ turns ∧ FenceOrdered (turns ++ [turn]) i j) ↔
      .commit i ∈ turns ∧ .commit j ∈ turns ∧ FenceOrdered turns i j :=
    and_congr_right fun hi => and_congr_right fun hj => hordered hi hj
  rw [hand]

/-- A commit keeps the edges exact unless it misjudges an event that is committed. -/
theorem exact_commit {turns : List Turn} {T T' : Thread} {a : ℕ} (h : Inv turns T)
    (hstep : commit T a = some T') : Exact (turns ++ [.commit a]) T' ↔
      Exact turns T ∧ ∀ b, .commit b ∈ turns → ¬Misjudged turns a b := by
  obtain ⟨evt, hevt, hnot, rfl⟩ := commit_eq_some hstep
  have ha := h.length ▸ (List.getElem?_eq_some_iff.mp hevt).1
  have hnew : .commit a ∉ turns := by
    rw [← (h.records a evt hevt).committed, hnot]
    simp
  have hmem : ∀ k, .commit k ∈ turns ++ [.commit a] ↔ .commit k ∈ turns ∨ k = a := by
    intro k
    simp
  have hordered : ∀ i j, .commit i ∈ turns ∨ i = a → .commit j ∈ turns ∨ j = a →
      (FenceOrdered (turns ++ [.commit a]) i j ↔ FenceOrdered turns i j) := by
    have hlt : ∀ k, .commit k ∈ turns ∨ k = a → k < (fetched turns).length := by
      rintro k (hk | rfl)
      · exact h.length ▸ h.commits k hk
      · exact ha
    exact fun i j hi hj => fenceOrdered_append (hlt i hi) (hlt j hj)
  have hedges : ∀ i j, (i, j) ∈ T.hb ++ (fencesToHb T evt).1.map (·, a) ++
        (fencesToHb T evt).2.map (a, ·) ↔ (i, j) ∈ T.hb ∨
      (.commit i ∈ turns ∧ j = a ∧ FenceOrdered turns i j) ∨
      (i = a ∧ .commit j ∈ turns ∧ (FenceOrdered turns i j ∨ Misjudged turns i j)) := by
    intro i j
    simp only [List.mem_append, List.mem_map, Prod.mk.injEq, or_assoc, h.mem_bwd hevt,
      h.mem_fwd hevt]
    constructor
    · rintro (hij | ⟨k, ⟨hk, hord⟩, rfl, rfl⟩ | ⟨k, ⟨hk, hord⟩, rfl, rfl⟩)
      · exact .inl hij
      · exact .inr (.inl ⟨hk, rfl, hord⟩)
      · exact .inr (.inr ⟨rfl, hk, hord⟩)
    · rintro (hij | ⟨hi, rfl, hord⟩ | ⟨rfl, hj, hord⟩)
      · exact .inl hij
      · exact .inr (.inl ⟨i, ⟨hi, hord⟩, rfl, rfl⟩)
      · exact .inr (.inr ⟨j, ⟨hj, hord⟩, rfl, rfl⟩)
  unfold Exact
  simp only [hedges, hmem]
  constructor
  · intro hexact
    constructor
    · intro i j
      constructor
      · intro hij
        obtain ⟨hi, hj⟩ := h.hb i j hij
        have hord := ((hexact i j).mp (.inl hij)).2.2
        exact ⟨hi, hj, (hordered i j (.inl hi) (.inl hj)).mp hord⟩
      · rintro ⟨hi, hj, hord⟩
        have hord' := (hordered i j (.inl hi) (.inl hj)).mpr hord
        rcases (hexact i j).mpr ⟨.inl hi, .inl hj, hord'⟩ with hij | ⟨_, rfl, _⟩ | ⟨rfl, _, _⟩
        · exact hij
        · exact absurd hj hnew
        · exact absurd hi hnew
    · intro b hb hmis
      have hord := ((hexact a b).mp (.inr (.inr ⟨rfl, hb, .inr hmis⟩))).2.2
      exact hmis.not_fenceOrdered ((hordered a b (.inr rfl) (.inl hb)).mp hord)
  · rintro ⟨hexact, hfaultless⟩ i j
    constructor
    · rintro (hij | ⟨hi, rfl, hord⟩ | ⟨rfl, hj, hord | hmis⟩)
      · obtain ⟨hi, hj, hord⟩ := (hexact i j).mp hij
        exact ⟨.inl hi, .inl hj, (hordered i j (.inl hi) (.inl hj)).mpr hord⟩
      · exact ⟨.inl hi, .inr rfl, (hordered i j (.inl hi) (.inr rfl)).mpr hord⟩
      · exact ⟨.inr rfl, .inl hj, (hordered i j (.inr rfl) (.inl hj)).mpr hord⟩
      · exact absurd hmis (hfaultless j hj)
    · rintro ⟨hi, hj, hord⟩
      have hord' := (hordered i j hi hj).mp hord
      rcases hi with hi | rfl
      · rcases hj with hj | rfl
        · exact .inl ((hexact i j).mpr ⟨hi, hj, hord'⟩)
        · exact .inr (.inl ⟨hi, rfl, hord'⟩)
      · rcases hj with hj | rfl
        · exact .inr (.inr ⟨rfl, hj, .inl hord'⟩)
        · exact absurd hord' not_fenceOrdered_self

theorem run_append {turns : List Turn} {turn : Turn} {T' : Thread}
    (h : run (turns ++ [turn]) = some T') : ∃ T, run turns = some T ∧ step T turn = some T' := by
  rw [run, List.foldlM_append] at h
  obtain ⟨T, hT, hstep⟩ := Option.bind_eq_some_iff.mp h
  exact ⟨T, hT, by simpa using hstep⟩

theorem run_spec {turns : List Turn} {T : Thread} (h : run turns = some T) :
    Inv turns T ∧ (Exact turns T ↔ Faultless turns) := by
  induction turns using List.reverseRecOn generalizing T with
  | nil =>
      cases h
      exact ⟨Inv.initial, by simp [Exact, Faultless, Thread.initial]⟩
  | append_singleton turns turn ih =>
      obtain ⟨T', hT', hstep⟩ := run_append h
      obtain ⟨hinv, hiff⟩ := ih hT'
      rw [faultless_append, ← hiff]
      cases turn with
      | fetch ld st =>
          cases hstep
          have hkeep : Exact (turns ++ [.fetch ld st]) (fetch T' ld st) ↔ Exact turns T' :=
            exact_append hinv rfl (by simp)
          refine ⟨hinv.fetch ld st, ?_⟩
          rw [hkeep]
          simp
      | fence type =>
          cases hstep
          have hkeep : Exact (turns ++ [.fence type]) (fetchFence T' type) ↔ Exact turns T' :=
            exact_append hinv rfl (by simp)
          refine ⟨hinv.fence type, ?_⟩
          rw [hkeep]
          simp
      | commit a =>
          refine ⟨hinv.commit hstep, ?_⟩
          rw [exact_commit hinv hstep]
          simp

/-- The edges of fences are exactly those of program order if and only if no event is committed
after a later event without stores that no fence orders behind it, although there is a fence
between the two that `fences_to_hb` looks for, while the sync that it compares with is missing. -/
theorem exact_iff_faultless {turns : List Turn} {T : Thread} (h : run turns = some T) :
    Exact turns T ↔ Faultless turns :=
  (run_spec h).2

/-- A store, an eieio and a load, of which the load is committed first. -/
def loadFirst : List Turn :=
  [.fetch false true, .fence .eieio, .fetch true false, .commit 1, .commit 0]

/-- The fence orders only stores, and an edge from the store to the load is added. -/
theorem not_exact_loadFirst : ∃ T, run loadFirst = some T ∧ ¬Exact loadFirst T := by
  refine ⟨_, rfl, ?_⟩
  intro hexact
  rcases ((hexact 0 1).mp (by decide)).2.2 with hsync | ⟨hlwsync, _⟩ | ⟨_, _, hstore⟩
  · exact absurd hsync.mem (by decide)
  · exact absurd hlwsync.mem (by decide)
  · exact absurd hstore (by decide)

/-- A store, a sync and a load, of which the load is committed first. -/
def loadBehindSync : List Turn :=
  [.fetch false true, .fence .sync, .fetch true false, .commit 1, .commit 0]

theorem exact_loadBehindSync : ∃ T, run loadBehindSync = some T ∧ (0, 1) ∈ T.hb ∧
    (Exact loadBehindSync T ↔ Faultless loadBehindSync) := by
  refine ⟨_, rfl, by decide, ?_⟩
  exact exact_iff_faultless rfl

end Nidhugg.PowerArmFences
