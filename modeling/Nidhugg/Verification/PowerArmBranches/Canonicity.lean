import Mathlib.Data.List.Pairwise
import Nidhugg.Verification.PowerArmBranches.Normalisation

/-! # When normalised branches are canonical

Ties between events that `cb` does not order are broken by the identifiers. The combined relation is
transitive unless a later event is `cb`-before an earlier one, with an event between them that
neither of them is related to. -/

namespace Nidhugg

theorem IID.lt_iff {a b : IID} :
    a.lt b = true ↔ a.pid < b.pid ∨ (a.pid = b.pid ∧ a.index < b.index) := by
  simp [IID.lt]

theorem IID.lt_trans {a b c : IID} (hab : a.lt b = true) (hbc : b.lt c = true) :
    a.lt c = true := by
  rw [IID.lt_iff] at hab hbc ⊢
  omega

theorem IID.lt_asymm {a b : IID} (hab : a.lt b = true) : b.lt a = false := by
  cases hba : b.lt a with
  | false => rfl
  | true =>
      rw [IID.lt_iff] at hab hba
      omega

theorem IID.ne_of_lt {a b : IID} (h : a.lt b = true) : a ≠ b := by
  rintro rfl
  rw [IID.lt_asymm h] at h
  cases h

theorem IID.lt_of_not_lt {a b : IID} (hne : a ≠ b) (h : a.lt b = false) : b.lt a = true := by
  rw [IID.lt_iff]
  have hnot : ¬(a.pid < b.pid ∨ (a.pid = b.pid ∧ a.index < b.index)) := by
    rw [← IID.lt_iff, h]
    exact Bool.false_ne_true
  by_cases hpid : a.pid = b.pid
  · have hindex : a.index ≠ b.index := by
      intro hindex
      apply hne
      cases a
      cases b
      cases hpid
      cases hindex
      rfl
    omega
  · omega

namespace PowerArmBranches

open List
open InsertionSort (Decides)

variable {getEvt : IID → Event} {events : List PEvent} {iids : List IID} {m t : Coherence} {B B' : Branch}

/-! ### The relation by which events are sorted -/

/-- Neither event is `cb`-before the other. -/
structure Unrelated (getEvt : IID → Event) (a b : IID) : Prop where
  left : cb getEvt a b = false
  right : cb getEvt b a = false

inductive Ahead (getEvt : IID → Event) (a b : IID) : Prop where
  | related (h : cb getEvt a b = true)
  | smaller (h : Unrelated getEvt a b) (hlt : a.lt b = true)

/-- Three events for which the comparison is not transitive. -/
structure Tangled (getEvt : IID → Event) (x y z : IID) : Prop where
  xy : x.lt y = true
  yz : y.lt z = true
  related : cb getEvt z x = true
  unrelated : Unrelated getEvt x y
  unrelated' : Unrelated getEvt y z

def HasTangle (getEvt : IID → Event) (iids : List IID) : Prop :=
  ∃ x ∈ iids, ∃ y ∈ iids, ∃ z ∈ iids, Tangled getEvt x y z

/-- `cb` is transitive on the events. -/
def CbTransitive (getEvt : IID → Event) (iids : List IID) : Prop :=
  ∀ a ∈ iids, ∀ b ∈ iids, ∀ c ∈ iids, cb getEvt a b = true → cb getEvt b c = true →
    cb getEvt a c = true

theorem Ahead.trans {a b c : IID} (hcb : CbTransitive getEvt iids)
    (htangle : ¬HasTangle getEvt iids) (ha : a ∈ iids) (hb : b ∈ iids) (hc : c ∈ iids)
    (hab : Ahead getEvt a b) (hbc : Ahead getEvt b c) : Ahead getEvt a c := by
  by_cases hac : cb getEvt a c = true
  · exact .related hac
  have hac' := Bool.eq_false_iff.mpr hac
  cases hab with
  | related hab =>
      cases hbc with
      | related hbc => exact .related (hcb a ha b hb c hc hab hbc)
      | smaller hbc hlt =>
          have hca : cb getEvt c a = false := by
            apply Bool.eq_false_iff.mpr
            intro hca
            exact Bool.eq_false_iff.mp hbc.right (hcb c hc a ha b hb hca hab)
          cases hlt' : a.lt c with
          | true => exact .smaller ⟨hac', hca⟩ hlt'
          | false =>
              have hne : a ≠ c := by
                intro heq
                rw [heq, hbc.right] at hab
                cases hab
              have hca' := IID.lt_of_not_lt hne hlt'
              exact (htangle ⟨b, hb, c, hc, a, ha, hlt, hca', hab, hbc, hca, hac'⟩).elim
  | smaller hab hlt =>
      cases hbc with
      | related hbc =>
          have hca : cb getEvt c a = false := by
            apply Bool.eq_false_iff.mpr
            intro hca
            exact Bool.eq_false_iff.mp hab.right (hcb b hb c hc a ha hbc hca)
          cases hlt' : a.lt c with
          | true => exact .smaller ⟨hac', hca⟩ hlt'
          | false =>
              have hne : a ≠ c := by
                intro heq
                rw [← heq, hab.right] at hbc
                cases hbc
              have hca' := IID.lt_of_not_lt hne hlt'
              exact (htangle ⟨c, hc, a, ha, b, hb, hca', hlt, hbc, ⟨hca, hac'⟩, hab⟩).elim
      | smaller hbc hlt' =>
          cases hca : cb getEvt c a with
          | false => exact .smaller ⟨hac', hca⟩ (IID.lt_trans hlt hlt')
          | true => exact (htangle ⟨a, ha, b, hb, c, hc, hlt, hlt', hca, hab, hbc⟩).elim

/-- The comparison decides the order of different events that are in an order respecting `cb`. -/
theorem decides_lt (getEvt : IID → Event) :
    Decides (lt getEvt) (fun p x => cb getEvt x p = false ∧ p ≠ x) (Ahead getEvt) := by
  constructor
  · rintro p x ⟨hcb, _⟩ hlt
    cases hpx : cb getEvt p x with
    | true => exact .related hpx
    | false =>
        rw [lt_of_not_cb hpx] at hlt
        exact .smaller ⟨hpx, hcb⟩ hlt
  · rintro p x ⟨hcb, hne⟩ hlt
    have hpx := cb_eq_false_of_lt hlt
    rw [lt_of_not_cb hpx] at hlt
    exact .smaller ⟨hcb, hpx⟩ (IID.lt_of_not_lt hne hlt)

/-! ### The choices -/

/-- The events of a branch that starts with the coherence orders `m`. -/
structure Proper (getEvt : IID → Event) (m : Coherence) (B : Branch) : Prop where
  wellFormed : ∀ pe ∈ B.front, WellFormed getEvt pe
  nodup : (B.front.map PEvent.iid).Nodup
  fresh : ∀ pe ∈ B.front, ∀ x, pe.iid ∉ m x
  transitive : CbTransitive getEvt (B.front.map PEvent.iid)
  respectsCb : RespectsCb getEvt B.branch
  commits : ∃ t, commitAll getEvt m B.front = some t

/-- Branches with the same events and suffix and the same coherence orders, both in an order that
respects `cb`. -/
structure Equivalent (getEvt : IID → Event) (m : Coherence) (B B' : Branch) : Prop where
  paramType : B'.paramType = B.paramType
  suffix : B'.suffix = B.suffix
  events : B'.front.map PEvent.erase ~ B.front.map PEvent.erase
  respectsCb : RespectsCb getEvt B'.branch
  coherence : ∃ t, commitAll getEvt m B.front = some t ∧ commitAll getEvt m B'.front = some t

/-- The elements after the commits are the old ones and those of the events. -/
theorem mem_of_commitAll (hwf : ∀ pe ∈ events, WellFormed getEvt pe)
    (ht : commitAll getEvt m events = some t) (x : Addr) {iid : IID} (h : iid ∈ t x) :
    iid ∈ m x ∨ iid ∈ events.map PEvent.iid := by
  induction events generalizing m with
  | nil =>
      cases ht
      exact .inl h
  | cons pe events ih =>
      obtain ⟨u, hu, hrest⟩ := Option.bind_eq_some_iff.mp ht
      have hcommits := (hwf pe List.mem_cons_self).commits hu
      rw [List.map_cons, List.mem_cons]
      cases ih (fun pe' hpe' => hwf pe' (List.mem_cons_of_mem pe hpe')) hrest with
      | inr hmem => exact .inr (.inr hmem)
      | inl hmem =>
          by_cases hx : ∃ p, StoresAt (getEvt pe.iid) pe.choices x p
          · obtain ⟨p, hp⟩ := hx
            obtain ⟨hle, heq⟩ := hcommits.placed x p hp
            rw [heq, List.mem_insertIdx hle] at hmem
            cases hmem with
            | inl heq => exact .inr (.inl heq)
            | inr hmem => exact .inl hmem
          · rw [hcommits.kept x fun p hp => hx ⟨p, hp⟩] at hmem
            exact .inl hmem

/-- The place of a new element is determined by the result of the insertion. -/
theorem insertIdx_inj {iid : IID} {l l' : List IID} {p p' : ℕ} (hl : iid ∉ l) (hl' : iid ∉ l')
    (hp : p ≤ l.length) (hp' : p' ≤ l'.length) (heq : l.insertIdx p iid = l'.insertIdx p' iid) :
    p = p' ∧ l = l' := by
  induction p generalizing l l' p' with
  | zero =>
      cases p' with
      | zero => exact ⟨rfl, (List.cons.inj heq).2⟩
      | succ p' =>
          cases l' with
          | nil => cases hp'
          | cons b l' =>
              have hb : iid = b := (List.cons.inj heq).1
              exact (hl' (hb ▸ List.mem_cons_self)).elim
  | succ p ih =>
      cases l with
      | nil => cases hp
      | cons b l =>
          cases p' with
          | zero =>
              have hb : b = iid := (List.cons.inj heq).1
              exact (hl (hb ▸ List.mem_cons_self)).elim
          | succ p' =>
              cases l' with
              | nil => cases hp'
              | cons b' l' =>
                  rw [List.insertIdx_succ_cons, List.insertIdx_succ_cons] at heq
                  obtain ⟨hb, hrest⟩ := List.cons.inj heq
                  obtain ⟨hpp, hll⟩ := ih (fun h => hl (List.mem_cons_of_mem b h))
                    (fun h => hl' (List.mem_cons_of_mem b' h)) (Nat.le_of_succ_le_succ hp)
                    (Nat.le_of_succ_le_succ hp') hrest
                  exact ⟨congrArg Nat.succ hpp, by rw [hb, hll]⟩

theorem choices_eq {e : Event} {choices choices' : List Choice} (hfits : e.Fits choices)
    (herase : choices.map Choice.erase = choices'.map Choice.erase)
    (hplaces : ∀ x p q, StoresAt e choices x p → StoresAt e choices' x q → p = q) :
    choices = choices' := by
  apply List.ext_getElem?
  intro a
  have ha := congrArg (fun l : List Choice => l[a]?) herase
  rw [List.getElem?_map, List.getElem?_map] at ha
  cases hc : choices[a]? with
  | none =>
      rw [hc] at ha
      exact (Option.map_eq_none_iff.mp ha.symm).symm
  | some c =>
      rw [hc] at ha
      obtain ⟨c', hc', heq⟩ := Option.map_eq_some_iff.mp ha.symm
      rw [hc']
      cases c with
      | source src =>
          cases c' with
          | source src' =>
              cases heq
              rfl
          | coherence q => cases heq
      | coherence p =>
          cases c' with
          | source src' => cases heq
          | coherence q =>
              have hlt := (List.getElem?_eq_some_iff.mp hc).1
              have hlt' : a < e.baccesses.length := by rwa [hfits.length_eq]
              have hstore := hfits.get hlt' hlt
              rw [List.get_eq_getElem, List.get_eq_getElem,
                (List.getElem?_eq_some_iff.mp hc).2] at hstore
              have hA := List.getElem?_eq_getElem hlt'
              rw [hplaces _ p q ⟨a, _, hA, hstore, rfl, hc⟩ ⟨a, _, hA, hstore, rfl, hc'⟩]

/-- The last event is determined by the coherence orders after it, up to its positions. -/
theorem WellFormed.last_unique {pe pe' : PEvent} {u u' : Coherence} (h : WellFormed getEvt pe)
    (h' : WellFormed getEvt pe') (herase : pe.erase = pe'.erase) (hfresh : ∀ x, pe.iid ∉ u x)
    (hfresh' : ∀ x, pe'.iid ∉ u' x) (hu : commitEvent getEvt u pe = some t)
    (hu' : commitEvent getEvt u' pe' = some t) : pe = pe' ∧ u = u' := by
  have hcommits := h.commits hu
  have hcommits' := h'.commits hu'
  obtain ⟨iid, choices⟩ := pe
  obtain ⟨iid', choices'⟩ := pe'
  obtain ⟨rfl, herase⟩ := PEvent.mk.inj herase
  have hplaces : ∀ x p q, StoresAt (getEvt iid) choices x p → StoresAt (getEvt iid) choices' x q →
      p = q ∧ u x = u' x := by
    intro x p q hp hq
    obtain ⟨hle, heq⟩ := hcommits.placed x p hp
    obtain ⟨hle', heq'⟩ := hcommits'.placed x q hq
    exact insertIdx_inj (hfresh x) (hfresh' x) hle hle' (heq.symm.trans heq')
  constructor
  · have heq : choices = choices' :=
      choices_eq h.fits herase fun x p q hp hq => (hplaces x p q hp hq).1
    rw [heq]
  · funext x
    by_cases hx : StoresTo (getEvt iid) x
    · obtain ⟨p, hp⟩ := h.storesTo_iff.mp hx
      obtain ⟨q, hq⟩ := h'.storesTo_iff.mp hx
      exact (hplaces x p q hp hq).2
    · rw [← hcommits.kept x (not_storesAt hx), hcommits'.kept x (not_storesAt hx)]

theorem not_mem_of_commitAll {pe : PEvent} (hwf : ∀ pe ∈ events, WellFormed getEvt pe)
    (hnodup : ((events ++ [pe]).map PEvent.iid).Nodup) (hfresh : ∀ x, pe.iid ∉ m x)
    (ht : commitAll getEvt m events = some t) (x : Addr) : pe.iid ∉ t x := by
  intro hmem
  cases mem_of_commitAll hwf ht x hmem with
  | inl hmem => exact hfresh x hmem
  | inr hmem =>
      rw [List.map_append, List.nodup_append] at hnodup
      exact hnodup.2.2 _ hmem _ List.mem_cons_self rfl

theorem map_iid_perm_of_map_erase {events' : List PEvent}
    (h : events'.map PEvent.erase ~ events.map PEvent.erase) :
    events'.map PEvent.iid ~ events.map PEvent.iid := by
  have hiids := h.map PEvent.iid
  rwa [List.map_map, List.map_map] at hiids

theorem map_iid_of_map_erase {events' : List PEvent}
    (h : events'.map PEvent.erase = events.map PEvent.erase) :
    events'.map PEvent.iid = events.map PEvent.iid := by
  have hmap : ∀ l : List PEvent, l.map PEvent.iid = (l.map PEvent.erase).map PEvent.iid := by
    intro l
    rw [List.map_map]
    rfl
  rw [hmap, h, ← hmap]

/-- The positions are determined by the order of the events and the coherence orders. -/
theorem events_unique {events' : List PEvent} (hwf : ∀ pe ∈ events, WellFormed getEvt pe)
    (hwf' : ∀ pe ∈ events', WellFormed getEvt pe) (hnodup : (events.map PEvent.iid).Nodup)
    (hfresh : ∀ pe ∈ events, ∀ x, pe.iid ∉ m x)
    (herase : events.map PEvent.erase = events'.map PEvent.erase)
    (ht : commitAll getEvt m events = some t) (ht' : commitAll getEvt m events' = some t) :
    events = events' := by
  induction events using List.reverseRecOn generalizing events' t with
  | nil => exact (List.map_eq_nil_iff.mp herase.symm).symm
  | append_singleton events pe ih =>
      have hiids := map_iid_of_map_erase herase.symm
      rw [List.map_append] at herase
      obtain ⟨init, last, rfl, hinit, hlast⟩ := List.map_eq_append_iff.mp herase.symm
      obtain ⟨pe', rfl, hpe⟩ := List.map_eq_singleton_iff.mp hlast
      unfold commitAll at ht ht'
      rw [InsertionSort.foldlM_concat] at ht ht'
      obtain ⟨u, hu, hut⟩ := Option.bind_eq_some_iff.mp ht
      obtain ⟨u', hu', hut'⟩ := Option.bind_eq_some_iff.mp ht'
      have hfront : ∀ q ∈ events, q ∈ events ++ [pe] := fun q => List.mem_append_left _
      have hfront' : ∀ q ∈ init, q ∈ init ++ [pe'] := fun q => List.mem_append_left _
      have hpeiid : pe'.iid = pe.iid := by
        have herased : pe'.erase.iid = pe.erase.iid := by rw [hpe]
        exact herased
      obtain ⟨rfl, rfl⟩ := WellFormed.last_unique (hwf pe (by simp)) (hwf' pe' (by simp)) hpe.symm
        (not_mem_of_commitAll (fun q hq => hwf q (hfront q hq)) hnodup (hfresh pe (by simp)) hu)
        (not_mem_of_commitAll (fun q hq => hwf' q (hfront' q hq)) (hiids ▸ hnodup)
          (hpeiid ▸ hfresh pe (by simp)) hu') hut hut'
      have hnodup' : (events.map PEvent.iid).Nodup := by
        rw [List.map_append] at hnodup
        exact (List.nodup_append.mp hnodup).1
      rw [ih (fun q hq => hwf q (hfront q hq)) (fun q hq => hwf' q (hfront' q hq)) hnodup'
        (fun q hq => hfresh q (hfront q hq)) hinit.symm hu hu']

/-! ### Events that are not tangled -/

/-- Without a tangle the events are sorted by `Ahead`. -/
theorem pairwise_ahead (hcb : CbTransitive getEvt (events.map PEvent.iid))
    (htangle : ¬HasTangle getEvt (events.map PEvent.iid)) (hnodup : (events.map PEvent.iid).Nodup)
    (h : RespectsCb getEvt events) :
    ((sortEvents getEvt events).map PEvent.iid).Pairwise (Ahead getEvt) := by
  rw [sortEvents_eq_sortBy, map_iid_sortBy]
  apply (decides_lt getEvt).pairwise_sort
  · exact (respectsCb_iff.mp h).and hnodup
  · intro a ha b hb c hc
    exact Ahead.trans hcb htangle ha hb hc

theorem Ahead.antisymm {a b : IID} (hiids : iids.Pairwise fun a b => cb getEvt b a = false)
    (ha : a ∈ iids) (hb : b ∈ iids) (hab : Ahead getEvt a b) (hba : Ahead getEvt b a) : a = b := by
  by_contra hne
  cases hab with
  | related hab =>
      cases hba with
      | related hba =>
          have hnot : iids.Pairwise fun a b => ¬(cb getEvt a b = true ∧ cb getEvt b a = true) := by
            apply hiids.imp
            intro a b hcb hboth
            exact Bool.eq_false_iff.mp hcb hboth.2
          have hsymm : Std.Symm fun a b => ¬(cb getEvt a b = true ∧ cb getEvt b a = true) :=
            ⟨fun a b h hboth => h hboth.symm⟩
          exact hnot.forall ha hb hne ⟨hab, hba⟩
      | smaller hba _ => exact Bool.eq_false_iff.mp hba.right hab
  | smaller hab hlt =>
      cases hba with
      | related hba => exact Bool.eq_false_iff.mp hab.right hba
      | smaller _ hlt' =>
          rw [IID.lt_asymm hlt] at hlt'
          cases hlt'

/-- Without a tangle the order of the sorted events does not depend on the given order. -/
theorem map_erase_sortEvents_unique {events' : List PEvent}
    (hcb : CbTransitive getEvt (events.map PEvent.iid))
    (htangle : ¬HasTangle getEvt (events.map PEvent.iid)) (hnodup : (events.map PEvent.iid).Nodup)
    (h : RespectsCb getEvt events) (h' : RespectsCb getEvt events')
    (hperm : events'.map PEvent.erase ~ events.map PEvent.erase) :
    (sortEvents getEvt events').map PEvent.erase =
      (sortEvents getEvt events).map PEvent.erase := by
  have hiids : events'.map PEvent.iid ~ events.map PEvent.iid := map_iid_perm_of_map_erase hperm
  have hsorted := pairwise_ahead hcb htangle hnodup h
  have hsorted' : ((sortEvents getEvt events').map PEvent.iid).Pairwise (Ahead getEvt) := by
    apply pairwise_ahead _ _ (hiids.nodup_iff.mpr hnodup) h'
    · intro a ha b hb c hc
      exact hcb a (hiids.mem_iff.mp ha) b (hiids.mem_iff.mp hb) c (hiids.mem_iff.mp hc)
    · rintro ⟨x, hx, y, hy, z, hz, hxyz⟩
      exact htangle ⟨x, hiids.mem_iff.mp hx, y, hiids.mem_iff.mp hy, z, hiids.mem_iff.mp hz, hxyz⟩
  have hcontent := @map_erase_sortBy_perm getEvt (lt getEvt) events
  have hcontent' := (@map_erase_sortBy_perm getEvt (lt getEvt) events').trans hperm
  have hmap : (events.map PEvent.erase).map PEvent.iid = events.map PEvent.iid := by
    rw [List.map_map]
    rfl
  have hanti : ∀ a b : PEvent, a ∈ (sortEvents getEvt events').map PEvent.erase →
      b ∈ (sortEvents getEvt events).map PEvent.erase → Ahead getEvt a.iid b.iid →
      Ahead getEvt b.iid a.iid → a = b := by
    intro a b ha hb hab hba
    have ha' := hcontent'.mem_iff.mp ha
    have hb' := hcontent.mem_iff.mp hb
    apply List.inj_on_of_nodup_map (hmap ▸ hnodup) ha' hb'
    have hmem := fun c (hc : c ∈ events.map PEvent.erase) => hmap ▸ List.mem_map_of_mem hc
    exact Ahead.antisymm (respectsCb_iff.mp h) (hmem a ha') (hmem b hb') hab hba
  exact List.Perm.eq_of_pairwise hanti (List.pairwise_map.mpr (List.pairwise_map.mp hsorted'))
    (List.pairwise_map.mpr (List.pairwise_map.mp hsorted)) (hcontent'.trans hcontent.symm)

theorem Equivalent.wellFormed (h : Equivalent getEvt m B B')
    (hwf : ∀ pe ∈ B.front, WellFormed getEvt pe) : ∀ pe ∈ B'.front, WellFormed getEvt pe := by
  intro pe hpe
  obtain ⟨pe', hpe', heq⟩ := List.mem_map.mp (h.events.mem_iff.mp (List.mem_map_of_mem hpe))
  obtain ⟨hiid, hchoices⟩ := PEvent.mk.inj heq
  have hwf' := hwf pe' hpe'
  exact ⟨hiid ▸ hwf'.distinct, (fits_iff_of_erase hchoices.symm).mpr (hiid ▸ hwf'.fits)⟩

theorem normaliseBranch_eq_of_not_hasTangle (h : Proper getEvt m B)
    (htangle : ¬HasTangle getEvt (B.front.map PEvent.iid)) (hB : Equivalent getEvt m B B') :
    normaliseBranch getEvt B' = normaliseBranch getEvt B := by
  have hiids := map_iid_perm_of_map_erase hB.events
  have hwf' := hB.wellFormed h.wellFormed
  have herase := map_erase_sortEvents_unique h.transitive htangle h.nodup h.respectsCb.front
    hB.respectsCb.front hB.events
  obtain ⟨t, ht, ht'⟩ := hB.coherence
  obtain ⟨hsort, hsortWf⟩ := (keepsEffect_switch getEvt _).sort h.wellFormed ht
  obtain ⟨hsort', hsortWf'⟩ := (keepsEffect_switch getEvt _).sort hwf' ht'
  have hperm := @map_iid_sortBy_perm getEvt (lt getEvt) B'.front
  have heq : sortEvents getEvt B'.front = sortEvents getEvt B.front := by
    apply events_unique hsortWf' hsortWf ((hperm.trans hiids).nodup_iff.mpr h.nodup) _ herase
      hsort' hsort
    intro pe hpe
    obtain ⟨pe', hpe', heq⟩ :=
      List.mem_map.mp ((hperm.trans hiids).mem_iff.mp (List.mem_map_of_mem hpe))
    rw [← heq]
    exact h.fresh pe' hpe'
  rw [normaliseBranch_eq_withFront, normaliseBranch_eq_withFront, heq, Branch.withFront,
    Branch.withFront, hB.suffix, hB.paramType]

/-! ### Events that are tangled -/

/-- Three elements cannot follow each other in a circle. -/
theorem not_circular {x y z : IID} (hx : x ∈ iids) (hy : y ∈ iids) (hz : z ∈ iids) (hxy : x ≠ y)
    (hyz : y ≠ z) (hzx : z ≠ x) (hyx : iids.Pairwise fun a b => ¬(a = y ∧ b = x))
    (hzy : iids.Pairwise fun a b => ¬(a = z ∧ b = y)) :
    ¬iids.Pairwise fun a b => ¬(a = x ∧ b = z) := by
  intro hxz
  obtain ⟨i, hi, rfl⟩ := List.getElem_of_mem hx
  obtain ⟨j, hj, rfl⟩ := List.getElem_of_mem hy
  obtain ⟨k, hk, rfl⟩ := List.getElem_of_mem hz
  have hij : i ≠ j := fun h => hxy (by simp only [h])
  have hjk : j ≠ k := fun h => hyz (by simp only [h])
  have hki : k ≠ i := fun h => hzx (by simp only [h])
  have hji : ¬j < i := fun h => List.pairwise_iff_getElem.mp hyx j i hj hi h ⟨rfl, rfl⟩
  have hkj : ¬k < j := fun h => List.pairwise_iff_getElem.mp hzy k j hk hj h ⟨rfl, rfl⟩
  have hik : ¬i < k := fun h => List.pairwise_iff_getElem.mp hxz i k hi hk h ⟨rfl, rfl⟩
  omega

/-- Whether an event is `y` or `cb`-before it. -/
def below (getEvt : IID → Event) (y a : IID) : Bool := a = y || cb getEvt a y

theorem below_iff {y a : IID} : below getEvt y a = true ↔ a = y ∨ cb getEvt a y = true := by
  rw [below, Bool.or_eq_true, decide_eq_true_iff]

/-- The comparison that moves the events below `y` to the front. -/
def belowFirst (getEvt : IID → Event) (y p x : IID) : Bool :=
  below getEvt y p || !below getEvt y x

theorem decides_belowFirst (getEvt : IID → Event) (y : IID) :
    Decides (belowFirst getEvt y) (fun _ _ => True) fun p x => belowFirst getEvt y p x = true := by
  constructor
  · exact fun _ h => h
  · intro p x _ h
    unfold belowFirst at h ⊢
    cases hx : below getEvt y x with
    | true => rfl
    | false =>
        rw [hx, Bool.not_false, Bool.or_true] at h
        cases h

theorem pairwise_belowFirst (y : IID) (events : List PEvent) :
    ((sortBy getEvt (belowFirst getEvt y) events).map PEvent.iid).Pairwise
      fun p x => belowFirst getEvt y p x = true := by
  rw [map_iid_sortBy]
  apply (decides_belowFirst getEvt y).pairwise_sort
  · exact List.pairwise_of_forall (fun _ _ => trivial)
  · intro p _ q _ r _ hpq hqr
    unfold belowFirst at hpq hqr ⊢
    cases hq : below getEvt y q with
    | true =>
        rw [hq, Bool.not_true, Bool.or_false] at hpq
        rw [hpq, Bool.true_or]
    | false =>
        rw [hq, Bool.false_or] at hqr
        rw [hqr, Bool.or_true]

/-- Moving the events below an event to the front keeps the order respecting `cb`. -/
theorem respectsCb_belowFirst {y : IID} (hcb : CbTransitive getEvt (events.map PEvent.iid))
    (hy : y ∈ events.map PEvent.iid) (h : RespectsCb getEvt events) :
    RespectsCb getEvt (sortBy getEvt (belowFirst getEvt y) events) := by
  have hmem : (events.map PEvent.iid).Pairwise fun a b => a ∈ events.map PEvent.iid ∧
      b ∈ events.map PEvent.iid ∧ cb getEvt b a = false :=
    List.Pairwise.and_mem.mp (respectsCb_iff.mp h)
  rw [respectsCb_iff, map_iid_sortBy]
  refine List.Pairwise.imp (fun hab => hab.2.2) (InsertionSort.pairwise_sort ?_ hmem)
  rintro p x ⟨hp, hx, _⟩ hlt
  refine ⟨hx, hp, ?_⟩
  unfold belowFirst at hlt
  obtain ⟨hpy, hxy⟩ := Bool.or_eq_false_iff.mp hlt
  have hxy' : below getEvt y x = true := by simpa using hxy
  apply Bool.eq_false_iff.mpr
  intro hpx
  apply Bool.eq_false_iff.mp hpy
  apply below_iff.mpr
  cases below_iff.mp hxy' with
  | inl heq => exact .inr (heq ▸ hpx)
  | inr hcbxy => exact .inr (hcb p hp x hx y hy hpx hcbxy)

/-- A branch with the events below one of its events moved to the front. -/
theorem equivalent_belowFirst {y : IID} (h : Proper getEvt m B) (hy : y ∈ B.front.map PEvent.iid) :
    ∃ B', Equivalent getEvt m B B' ∧
      B'.front = sortBy getEvt (belowFirst getEvt y) B.front := by
  have hsorted := respectsCb_belowFirst h.transitive hy h.respectsCb.front
  have hmeaning := sameMeaning_sortBy (belowFirst getEvt y) h.wellFormed h.respectsCb hsorted
  obtain ⟨t, ht⟩ := h.commits
  exact ⟨_, ⟨hmeaning.paramType, hmeaning.suffix, hmeaning.events, hmeaning.respectsCb, t, ht,
    hmeaning.coherence m t ht⟩, front_withFront (length_sortBy _ _)⟩

/-- An event that is not below `y` comes after `y`. -/
theorem pairwise_not_before {y z : IID} (hne : z ≠ y) (hcb : cb getEvt z y = false)
    (events : List PEvent) :
    ((sortBy getEvt (belowFirst getEvt y) events).map PEvent.iid).Pairwise
      fun a b => ¬(a = z ∧ b = y) := by
  apply (pairwise_belowFirst y events).imp
  rintro a b hab ⟨rfl, rfl⟩
  unfold belowFirst at hab
  have hy : below getEvt b b = true := below_iff.mpr (.inl rfl)
  rw [hy, Bool.not_true, Bool.or_false, below_iff, hcb] at hab
  cases hab with
  | inl heq => exact hne heq
  | inr hcb => cases hcb

/-- Unrelated events that are in the order of their identifiers stay in this order. -/
theorem pairwise_sortEvents_not {x y : IID} (hlt : x.lt y = true) (hxy : Unrelated getEvt x y)
    (h : (events.map PEvent.iid).Pairwise fun a b => ¬(a = y ∧ b = x)) :
    ((sortEvents getEvt events).map PEvent.iid).Pairwise fun a b => ¬(a = y ∧ b = x) := by
  rw [sortEvents_eq_sortBy, map_iid_sortBy]
  apply InsertionSort.pairwise_sort _ h
  rintro p q _ hpq ⟨rfl, rfl⟩
  rw [lt_of_not_cb hxy.left, hlt] at hpq
  cases hpq

theorem Tangled.not_canonical {x y z : IID} (h : Proper getEvt m B)
    (hx : x ∈ B.front.map PEvent.iid) (hy : y ∈ B.front.map PEvent.iid)
    (hz : z ∈ B.front.map PEvent.iid) (ht : Tangled getEvt x y z) :
    ¬∀ B', Equivalent getEvt m B B' → normaliseBranch getEvt B' = normaliseBranch getEvt B := by
  intro hcanonical
  obtain ⟨B₁, hB₁, hfront₁⟩ := equivalent_belowFirst h hy
  obtain ⟨B₂, hB₂, hfront₂⟩ := equivalent_belowFirst h hx
  have hzy := pairwise_not_before (IID.ne_of_lt ht.yz).symm ht.unrelated'.right B.front
  have hyx := pairwise_not_before (IID.ne_of_lt ht.xy).symm ht.unrelated.right B.front
  rw [← hfront₁] at hzy
  rw [← hfront₂] at hyx
  have hzy' := pairwise_sortEvents_not ht.yz ht.unrelated' hzy
  have hyx' := pairwise_sortEvents_not ht.xy ht.unrelated hyx
  have heq : sortEvents getEvt B₂.front = sortEvents getEvt B₁.front := by
    rw [← front_normaliseBranch, ← front_normaliseBranch, hcanonical B₁ hB₁, hcanonical B₂ hB₂]
  have hxz : ((sortEvents getEvt B₁.front).map PEvent.iid).Pairwise
      fun a b => ¬(a = x ∧ b = z) := by
    apply (respectsCb_iff.mp hB₁.respectsCb.front.sortEvents).imp
    rintro a b hab ⟨rfl, rfl⟩
    rw [ht.related] at hab
    cases hab
  rw [heq] at hyx'
  have hperm := (@map_iid_sortBy_perm getEvt (lt getEvt) B₁.front).trans
    (map_iid_perm_of_map_erase hB₁.events)
  have hmem : ∀ a ∈ B.front.map PEvent.iid, a ∈ (sortEvents getEvt B₁.front).map PEvent.iid :=
    fun a ha => hperm.mem_iff.mpr ha
  have hne : z ≠ x := (IID.ne_of_lt (IID.lt_trans ht.xy ht.yz)).symm
  exact not_circular (hmem x hx) (hmem y hy) (hmem z hz) (IID.ne_of_lt ht.xy)
    (IID.ne_of_lt ht.yz) hne hyx' hzy' hxz

/-- Exactly the branches without a tangle have one normalised form for all orders of their events
that respect `cb` and have the same coherence orders. -/
theorem canonical_iff_not_hasTangle (h : Proper getEvt m B) :
    (∀ B', Equivalent getEvt m B B' → normaliseBranch getEvt B' = normaliseBranch getEvt B) ↔
      ¬HasTangle getEvt (B.front.map PEvent.iid) := by
  constructor
  · rintro hcanonical ⟨x, hx, y, hy, z, hz, ht⟩
    exact ht.not_canonical h hx hy hz hcanonical
  · intro htangle B' hB
    exact normaliseBranch_eq_of_not_hasTangle h htangle hB

/-- The process 0 reads the byte 0 from the store of the process 2, and the process 1 reads the
initial value of the byte 1. -/
def tangledEvt (iid : IID) : Event :=
  match iid.pid with
  | 0 => ⟨[⟨false, 0⟩], 0, fun i => i = 0 || i = 2⟩
  | 1 => ⟨[⟨false, 1⟩], 1, fun i => i = 1⟩
  | 2 => ⟨[⟨true, 0⟩], 2, fun i => i = 2⟩
  | pid => ⟨[], pid, fun i => i = pid⟩

def tangledBranch : Branch :=
  ⟨[⟨⟨2, 1⟩, [.coherence 0]⟩, ⟨⟨0, 1⟩, [.source (some ⟨2, 1⟩)]⟩, ⟨⟨1, 1⟩, [.source none]⟩,
    ⟨⟨3, 1⟩, []⟩], .star⟩

/-- The same branch with the event of the process 1 at the front. -/
def tangledBranch' : Branch :=
  ⟨[⟨⟨1, 1⟩, [.source none]⟩, ⟨⟨2, 1⟩, [.coherence 0]⟩, ⟨⟨0, 1⟩, [.source (some ⟨2, 1⟩)]⟩,
    ⟨⟨3, 1⟩, []⟩], .star⟩

theorem proper_tangledBranch : Proper tangledEvt (fun _ => []) tangledBranch where
  wellFormed := by
    intro pe hpe
    have hmem : pe = ⟨⟨2, 1⟩, [.coherence 0]⟩ ∨ pe = ⟨⟨0, 1⟩, [.source (some ⟨2, 1⟩)]⟩ ∨
        pe = ⟨⟨1, 1⟩, [.source none]⟩ := by
      simpa [Branch.front, tangledBranch, Branch.lastEvent] using hpe
    rcases hmem with rfl | rfl | rfl <;>
      exact ⟨distinctStores_of_nodup (List.nodup_singleton _),
        List.Forall₂.cons rfl List.Forall₂.nil⟩
  nodup := by decide
  fresh := fun _ _ _ => List.not_mem_nil
  transitive := by
    unfold CbTransitive
    decide
  respectsCb := by
    unfold RespectsCb
    decide
  commits := ⟨_, rfl⟩

theorem equivalent_tangledBranch :
    Equivalent tangledEvt (fun _ => []) tangledBranch tangledBranch' where
  paramType := rfl
  suffix := rfl
  events := by decide
  respectsCb := by
    unfold RespectsCb
    decide
  coherence := ⟨_, rfl, rfl⟩

/-- Two equivalent branches with different normalised forms. -/
theorem not_canonical_tangledBranch : ¬∀ (getEvt : IID → Event) (m : Coherence) (B B' : Branch),
    Proper getEvt m B → Equivalent getEvt m B B' →
      normaliseBranch getEvt B' = normaliseBranch getEvt B := by
  intro hcanonical
  have heq := hcanonical _ _ _ _ proper_tangledBranch equivalent_tangledBranch
  revert heq
  decide

/-- An event of the process 4, which may stand anywhere, takes the place of that of process 1. -/
def untangledBranch : Branch :=
  ⟨[⟨⟨2, 1⟩, [.coherence 0]⟩, ⟨⟨0, 1⟩, [.source (some ⟨2, 1⟩)]⟩, ⟨⟨4, 1⟩, []⟩, ⟨⟨3, 1⟩, []⟩],
    .star⟩

theorem proper_untangledBranch : Proper tangledEvt (fun _ => []) untangledBranch where
  wellFormed := by
    intro pe hpe
    have hfront : ∀ pe ∈ untangledBranch.front,
        pe ∈ tangledBranch.front ∨ pe = ⟨⟨4, 1⟩, []⟩ := by decide
    rcases hfront pe hpe with hpe | rfl
    · exact proper_tangledBranch.wellFormed pe hpe
    · exact ⟨distinctStores_of_nodup List.nodup_nil, .nil⟩
  nodup := by decide
  fresh := fun _ _ _ => List.not_mem_nil
  transitive := by
    unfold CbTransitive
    decide
  respectsCb := by
    unfold RespectsCb
    decide
  commits := ⟨_, rfl⟩

theorem canonical_untangledBranch :
    ¬HasTangle tangledEvt (untangledBranch.front.map PEvent.iid) ∧
      ∀ B', Equivalent tangledEvt (fun _ => []) untangledBranch B' →
        normaliseBranch tangledEvt B' = normaliseBranch tangledEvt untangledBranch := by
  have htangle : ¬HasTangle tangledEvt (untangledBranch.front.map PEvent.iid) := by
    rintro ⟨x, hx, y, hy, z, hz, ht⟩
    have hbetween : ∀ x ∈ untangledBranch.front.map PEvent.iid,
        ∀ y ∈ untangledBranch.front.map PEvent.iid, ∀ z ∈ untangledBranch.front.map PEvent.iid,
          x.lt y = true → y.lt z = true → cb tangledEvt z x = false := by decide
    have hrelated := ht.related
    rw [hbetween x hx y hy z hz ht.xy ht.yz] at hrelated
    cases hrelated
  exact ⟨htangle, (canonical_iff_not_hasTangle proper_untangledBranch).mpr htangle⟩

end PowerArmBranches

end Nidhugg
