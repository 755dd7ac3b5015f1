import Nidhugg.Verification.PowerArmBranches.Commits

/-! # Normalised branches keep their meaning -/

namespace Nidhugg.PowerArmBranches

open List
open InsertionSort (exchange)

variable {getEvt : IID → Event} {events : List PEvent} {B : Branch}

/-- The events that are sorted. -/
def Branch.front (B : Branch) : List PEvent := B.branch.take B.lastEvent

/-- The store and the load, or the lock. -/
def Branch.suffix (B : Branch) : List PEvent := B.branch.drop B.lastEvent

/-- No event is `cb`-before an earlier one. -/
def RespectsCb (getEvt : IID → Event) (events : List PEvent) : Prop :=
  events.Pairwise fun a b => cb getEvt b.iid a.iid = false

/-- The event without its coherence positions. -/
def PEvent.erase (pe : PEvent) : PEvent := { pe with choices := pe.choices.map Choice.erase }

/-! ### The events -/

theorem lt_of_cb {a b : IID} (h : cb getEvt a b = true) : lt getEvt a b = true := by
  rw [lt, if_pos h]

theorem lt_of_not_cb {a b : IID} (h : cb getEvt a b = false) : lt getEvt a b = a.lt b := by
  rw [lt, h]
  rfl

theorem cb_eq_false_of_lt {a b : IID} (h : lt getEvt a b = false) : cb getEvt a b = false := by
  cases hcb : cb getEvt a b with
  | false => rfl
  | true =>
      rw [lt_of_cb hcb] at h
      cases h

theorem erase_switch (p x : PEvent) : (switch getEvt p x).1.erase = x.erase ∧
    (switch getEvt p x).2.erase = p.erase := by
  have hnudge := @erase_nudge (getEvt p.iid) (getEvt x.iid) (p.choices, x.choices)
  unfold switch PEvent.erase
  constructor
  · rw [hnudge.2]
  · rw [hnudge.1]

/-- The sort of a branch with any comparison of the identifiers. -/
def sortBy (getEvt : IID → Event) (before : IID → IID → Bool) (events : List PEvent) :
    List PEvent :=
  InsertionSort.sort (fun p x => before p.iid x.iid) (switch getEvt) events

theorem sortEvents_eq_sortBy : sortEvents getEvt events = sortBy getEvt (lt getEvt) events :=
  rfl

theorem map_iid_sortBy (before : IID → IID → Bool) (events : List PEvent) :
    (sortBy getEvt before events).map PEvent.iid =
      InsertionSort.sort before exchange (events.map PEvent.iid) := by
  unfold sortBy
  apply InsertionSort.map_key_sort
  · intro p x
    rfl
  · exact fun p x => ⟨rfl, rfl⟩

theorem map_erase_sortBy_perm (before : IID → IID → Bool) (events : List PEvent) :
    (sortBy getEvt before events).map PEvent.erase ~ events.map PEvent.erase := by
  have hsort : (sortBy getEvt before events).map PEvent.erase = InsertionSort.sort
      (fun p x => before p.iid x.iid) exchange (events.map PEvent.erase) := by
    unfold sortBy
    apply InsertionSort.map_key_sort
    · intro p x
      rfl
    · exact erase_switch
  rw [hsort]
  exact InsertionSort.sort_perm _

theorem map_iid_sortBy_perm (before : IID → IID → Bool) (events : List PEvent) :
    (sortBy getEvt before events).map PEvent.iid ~ events.map PEvent.iid := by
  rw [map_iid_sortBy]
  exact InsertionSort.sort_perm _

theorem length_sortBy (before : IID → IID → Bool) (events : List PEvent) :
    (sortBy getEvt before events).length = events.length := by
  have heq := (@map_iid_sortBy_perm getEvt before events).length_eq
  rwa [List.length_map, List.length_map] at heq

theorem respectsCb_iff : RespectsCb getEvt events ↔
    (events.map PEvent.iid).Pairwise fun a b => cb getEvt b a = false := by
  rw [List.pairwise_map]
  rfl

theorem RespectsCb.sortEvents (h : RespectsCb getEvt events) :
    RespectsCb getEvt (sortEvents getEvt events) := by
  rw [respectsCb_iff, sortEvents_eq_sortBy, map_iid_sortBy]
  apply InsertionSort.pairwise_sort
  · intro p x _ hlt
    exact cb_eq_false_of_lt hlt
  · exact respectsCb_iff.mp h

theorem commitAll_sortBy {m t : Coherence} (before : IID → IID → Bool)
    (hwf : ∀ pe ∈ events, WellFormed getEvt pe) (ht : commitAll getEvt m events = some t) :
    commitAll getEvt m (sortBy getEvt before events) = some t :=
  ((keepsEffect_switch getEvt fun p x => before p.iid x.iid).sort hwf ht).1

/-! ### The branch -/

theorem Branch.front_append_suffix (B : Branch) : B.front ++ B.suffix = B.branch :=
  List.take_append_drop _ _

/-- The branch with other events in front of its suffix. -/
def Branch.withFront (B : Branch) (events : List PEvent) : Branch :=
  { B with branch := events ++ B.suffix }

theorem normaliseBranch_eq_withFront (B : Branch) :
    normaliseBranch getEvt B = B.withFront (sortEvents getEvt B.front) :=
  rfl

theorem lastEvent_le (B : Branch) : B.lastEvent ≤ B.branch.length := by
  unfold Branch.lastEvent
  cases B.paramType with
  | wr => exact Nat.sub_le _ _
  | star => exact Nat.sub_le _ _

theorem lastEvent_withFront (hlen : events.length = B.front.length) :
    (B.withFront events).lastEvent = events.length := by
  have hbranch : (B.withFront events).branch.length = B.branch.length := by
    rw [Branch.withFront, List.length_append, hlen, ← List.length_append, B.front_append_suffix]
  have hlast : (B.withFront events).lastEvent = B.lastEvent := by
    unfold Branch.lastEvent
    rw [hbranch]
    rfl
  rw [hlast, hlen, Branch.front, List.length_take, Nat.min_eq_left (lastEvent_le B)]

theorem front_withFront (hlen : events.length = B.front.length) :
    (B.withFront events).front = events := by
  rw [Branch.front, lastEvent_withFront hlen, Branch.withFront, List.take_left]

theorem suffix_withFront (hlen : events.length = B.front.length) :
    (B.withFront events).suffix = B.suffix := by
  rw [Branch.suffix, lastEvent_withFront hlen, Branch.withFront, List.drop_left]

theorem front_normaliseBranch (B : Branch) :
    (normaliseBranch getEvt B).front = sortEvents getEvt B.front :=
  front_withFront (length_sortBy _ _)

theorem RespectsCb.withFront (h : RespectsCb getEvt B.branch) (hevents : RespectsCb getEvt events)
    (hperm : events.map PEvent.iid ~ B.front.map PEvent.iid) :
    RespectsCb getEvt (B.withFront events).branch := by
  rw [← B.front_append_suffix] at h
  obtain ⟨_, hsuffix, hcross⟩ := List.pairwise_append.mp h
  apply List.pairwise_append.mpr
  refine ⟨hevents, hsuffix, ?_⟩
  intro a ha b hb
  obtain ⟨a', ha', hiid⟩ := List.mem_map.mp (hperm.mem_iff.mp (List.mem_map_of_mem ha))
  rw [← hiid]
  exact hcross a' ha' b hb

/-- A branch and its normalised form have the same suffix, the same events in an order that respects
`cb`, and the same effect on the coherence orders. -/
structure SameMeaning (getEvt : IID → Event) (B B' : Branch) : Prop where
  paramType : B'.paramType = B.paramType
  suffix : B'.suffix = B.suffix
  events : B'.front.map PEvent.erase ~ B.front.map PEvent.erase
  respectsCb : RespectsCb getEvt B'.branch
  coherence : ∀ m t, commitAll getEvt m B.front = some t → commitAll getEvt m B'.front = some t

/-- Sorting the front with a comparison that keeps it in an order that respects `cb`. -/
theorem sameMeaning_sortBy (before : IID → IID → Bool) (hwf : ∀ pe ∈ B.front, WellFormed getEvt pe)
    (hcb : RespectsCb getEvt B.branch)
    (hsorted : RespectsCb getEvt (sortBy getEvt before B.front)) :
    SameMeaning getEvt B (B.withFront (sortBy getEvt before B.front)) := by
  have hperm := @map_iid_sortBy_perm getEvt before B.front
  have hlen := @length_sortBy getEvt before B.front
  constructor
  · rfl
  · exact suffix_withFront hlen
  · rw [front_withFront hlen]
    exact map_erase_sortBy_perm before B.front
  · exact hcb.withFront hsorted hperm
  · intro m t ht
    rw [front_withFront hlen]
    exact commitAll_sortBy before hwf ht

theorem RespectsCb.front (h : RespectsCb getEvt B.branch) : RespectsCb getEvt B.front := by
  rw [← B.front_append_suffix] at h
  exact (List.pairwise_append.mp h).1

theorem sameMeaning_normaliseBranch (hwf : ∀ pe ∈ B.front, WellFormed getEvt pe)
    (hcb : RespectsCb getEvt B.branch) : SameMeaning getEvt B (normaliseBranch getEvt B) :=
  sameMeaning_sortBy (lt getEvt) hwf hcb hcb.front.sortEvents

/-- Events that store to the byte 0, without `cb` between them. -/
def sameByteEvt (iid : IID) : Event := ⟨[⟨true, 0⟩], iid.pid, fun i => i = iid.pid⟩

/-- The store of the process 1 is first, and that of the process 0 is placed behind it. -/
def swappedBranch : Branch :=
  ⟨[⟨⟨1, 1⟩, [.coherence 0]⟩, ⟨⟨0, 1⟩, [.coherence 1]⟩, ⟨⟨2, 1⟩, []⟩], .star⟩

theorem sameMeaning_swappedBranch : SameMeaning sameByteEvt swappedBranch
    ⟨[⟨⟨0, 1⟩, [.coherence 0]⟩, ⟨⟨1, 1⟩, [.coherence 0]⟩, ⟨⟨2, 1⟩, []⟩], .star⟩ := by
  have hsorted : normaliseBranch sameByteEvt swappedBranch =
    ⟨[⟨⟨0, 1⟩, [.coherence 0]⟩, ⟨⟨1, 1⟩, [.coherence 0]⟩, ⟨⟨2, 1⟩, []⟩], .star⟩ := by decide
  rw [← hsorted]
  apply sameMeaning_normaliseBranch
  · intro pe hpe
    have hmem : pe = ⟨⟨1, 1⟩, [.coherence 0]⟩ ∨ pe = ⟨⟨0, 1⟩, [.coherence 1]⟩ := by
      simpa [Branch.front, swappedBranch, Branch.lastEvent] using hpe
    refine ⟨distinctStores_of_nodup (List.nodup_singleton _), ?_⟩
    cases hmem with
    | inl h => exact h ▸ List.Forall₂.cons rfl List.Forall₂.nil
    | inr h => exact h ▸ List.Forall₂.cons rfl List.Forall₂.nil
  · unfold RespectsCb
    decide

end Nidhugg.PowerArmBranches
