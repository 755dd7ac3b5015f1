import Nidhugg.Verification.PowerArmBranches.Nudging

/-! # The coherence orders after a branch

The commits of two neighbours in either order, with the positions nudged, lead to the same
coherence orders. -/

namespace Nidhugg.PowerArmBranches

open InsertionSort (KeepsEffect)

variable {getEvt : IID → Event} {m m' t : Coherence} {pe : PEvent} {x : Addr} {p q : ℕ}

/-! ### One event -/

/-- The accesses of an event store to different bytes. -/
def Separate (accesses : List (ByteAccess × Choice)) : Prop :=
  accesses.Pairwise fun u v => u.1.isStore = true → v.1.isStore = true → u.1.addr ≠ v.1.addr

/-- An access is committed at a position of the byte `x`. -/
def PlacesAt (accesses : List (ByteAccess × Choice)) (x : Addr) (p : ℕ) : Prop :=
  ∃ A, (A, Choice.coherence p) ∈ accesses ∧ A.isStore = true ∧ A.addr = x

theorem placesAt_cons {u : ByteAccess × Choice} {accesses : List (ByteAccess × Choice)} :
    PlacesAt (u :: accesses) x p ↔
      (u.2 = .coherence p ∧ u.1.isStore = true ∧ u.1.addr = x) ∨ PlacesAt accesses x p := by
  obtain ⟨A, c⟩ := u
  unfold PlacesAt
  constructor
  · rintro ⟨B, hB, hstore, haddr⟩
    rcases List.mem_cons.mp hB with heq | hB
    · cases heq
      exact .inl ⟨rfl, hstore, haddr⟩
    · exact .inr ⟨B, hB, hstore, haddr⟩
  · rintro (⟨hc, hstore, haddr⟩ | ⟨B, hB, hstore, haddr⟩)
    · obtain rfl : c = .coherence p := hc
      exact ⟨A, List.mem_cons_self, hstore, haddr⟩
    · exact ⟨B, List.mem_cons_of_mem _ hB, hstore, haddr⟩

/-- What a commit does to each byte. -/
structure Commits (iid : IID) (places : Addr → ℕ → Prop) (m m' : Coherence) : Prop where
  placed : ∀ x p, places x p → p ≤ (m x).length ∧ m' x = (m x).insertIdx p iid
  kept : ∀ x, (∀ p, ¬places x p) → m' x = m x

theorem Separate.not_placesAt {A : ByteAccess} {c : Choice}
    {accesses : List (ByteAccess × Choice)} (h : Separate ((A, c) :: accesses))
    (hstore : A.isStore = true) (p : ℕ) : ¬PlacesAt accesses A.addr p := by
  rintro ⟨B, hB, hBs, haddr⟩
  exact (List.pairwise_cons.mp h).1 _ hB hstore hBs haddr.symm

theorem commitAccess_of_not_store {iid : IID} {A : ByteAccess} {c : Choice}
    (h : ¬∃ p, c = .coherence p ∧ A.isStore = true) : commitAccess iid m (A, c) = some m := by
  cases c with
  | coherence p =>
      rw [commitAccess, if_neg]
      intro hstore
      exact h ⟨p, rfl, hstore⟩
  | source src => rfl

theorem commits_of_foldlM {iid : IID} {accesses : List (ByteAccess × Choice)}
    (h : Separate accesses) (hm : accesses.foldlM (commitAccess iid) m = some m') :
    Commits iid (PlacesAt accesses) m m' := by
  induction accesses generalizing m with
  | nil =>
      cases hm
      refine ⟨?_, fun x _ => rfl⟩
      rintro x p ⟨A, hA, _⟩
      cases hA
  | cons u accesses ih =>
      obtain ⟨A, c⟩ := u
      obtain ⟨m₁, hm₁, hrest⟩ := Option.bind_eq_some_iff.mp hm
      have hcommits := ih (List.pairwise_cons.mp h).2 hrest
      by_cases hplace : ∃ p, c = .coherence p ∧ A.isStore = true
      · obtain ⟨p, rfl, hstore⟩ := hplace
        rw [commitAccess, if_pos hstore] at hm₁
        by_cases hle : p ≤ (m A.addr).length
        · rw [if_pos hle] at hm₁
          cases hm₁
          constructor
          · intro x q hq
            rcases placesAt_cons.mp hq with ⟨hpq, _, rfl⟩ | hq'
            · cases hpq
              rw [hcommits.kept A.addr (h.not_placesAt hstore), Function.update_self]
              exact ⟨hle, rfl⟩
            · have hne : x ≠ A.addr := by
                rintro rfl
                exact h.not_placesAt hstore q hq'
              have hplaced := hcommits.placed x q hq'
              rwa [Function.update_of_ne hne] at hplaced
          · intro x hx
            have hne : x ≠ A.addr := by
              rintro rfl
              exact hx p (placesAt_cons.mpr (.inl ⟨rfl, hstore, rfl⟩))
            rw [hcommits.kept x fun q hq => hx q (placesAt_cons.mpr (.inr hq)),
              Function.update_of_ne hne]
        · rw [if_neg hle] at hm₁
          cases hm₁
      · rw [commitAccess_of_not_store hplace] at hm₁
        cases hm₁
        have hiff : ∀ x p, PlacesAt ((A, c) :: accesses) x p ↔ PlacesAt accesses x p := by
          intro x p
          rw [placesAt_cons]
          constructor
          · rintro (⟨hc, hstore, _⟩ | hq)
            · exact (hplace ⟨p, hc, hstore⟩).elim
            · exact hq
          · exact .inr
        constructor
        · intro x p hp
          exact hcommits.placed x p ((hiff x p).mp hp)
        · intro x hx
          exact hcommits.kept x fun p hp => hx p ((hiff x p).mpr hp)

/-- Positions that exist can be committed. -/
theorem exists_foldlM {iid : IID} {accesses : List (ByteAccess × Choice)}
    (h : Separate accesses) (hle : ∀ x p, PlacesAt accesses x p → p ≤ (m x).length) :
    ∃ m', accesses.foldlM (commitAccess iid) m = some m' := by
  induction accesses generalizing m with
  | nil => exact ⟨m, rfl⟩
  | cons u accesses ih =>
      obtain ⟨A, c⟩ := u
      obtain ⟨_, hseparate⟩ := List.pairwise_cons.mp h
      have hrest : ∀ x p, PlacesAt accesses x p → p ≤ (m x).length :=
        fun x p hp => hle x p (placesAt_cons.mpr (.inr hp))
      rw [List.foldlM_cons]
      by_cases hplace : ∃ p, c = .coherence p ∧ A.isStore = true
      · obtain ⟨p, rfl, hstore⟩ := hplace
        have hp := hle A.addr p (placesAt_cons.mpr (.inl ⟨rfl, hstore, rfl⟩))
        rw [commitAccess, if_pos hstore, if_pos hp]
        apply ih hseparate
        intro x q hq
        have hne : x ≠ A.addr := by
          rintro rfl
          exact h.not_placesAt hstore q hq
        rw [Function.update_of_ne hne]
        exact hrest x q hq
      · rw [commitAccess_of_not_store hplace]
        exact ih hseparate hrest

/-- The choices of an event are those for its accesses, and it stores to each byte once. -/
structure WellFormed (getEvt : IID → Event) (pe : PEvent) : Prop where
  distinct : DistinctStores (getEvt pe.iid)
  fits : (getEvt pe.iid).Fits pe.choices

theorem placesAt_zip {e : Event} {choices : List Choice} :
    PlacesAt (e.baccesses.zip choices) x p ↔ StoresAt e choices x p := by
  unfold PlacesAt StoresAt
  constructor
  · rintro ⟨A, hA, hstore, haddr⟩
    obtain ⟨a, ha⟩ := List.mem_iff_getElem?.mp hA
    obtain ⟨hA', hc⟩ := List.getElem?_zip_eq_some.mp ha
    exact ⟨a, A, hA', hstore, haddr, hc⟩
  · rintro ⟨a, A, hA, hstore, haddr, hc⟩
    exact ⟨A, List.mem_of_getElem? (List.getElem?_zip_eq_some.mpr ⟨hA, hc⟩), hstore, haddr⟩

theorem DistinctStores.separate {e : Event} (h : DistinctStores e) (choices : List Choice) :
    Separate (e.baccesses.zip choices) := by
  apply List.pairwise_iff_getElem.mpr
  intro a b ha hb hab hAs hBs haddr
  have hlen : (e.baccesses.zip choices).length = _ := List.length_zip
  have ha' : a < e.baccesses.length := by omega
  have hb' : b < e.baccesses.length := by omega
  rw [List.getElem_zip] at hAs hBs haddr
  rw [List.getElem_zip] at haddr
  have heq := h a b _ _ (List.getElem?_eq_getElem ha') (List.getElem?_eq_getElem hb') hAs hBs haddr
  omega

theorem WellFormed.storesTo_iff (h : WellFormed getEvt pe) :
    StoresTo (getEvt pe.iid) x ↔ ∃ p, StoresAt (getEvt pe.iid) pe.choices x p := by
  constructor
  · rintro ⟨A, hA, hstore, haddr⟩
    obtain ⟨a, ha⟩ := List.mem_iff_getElem?.mp hA
    have hlt := (List.getElem?_eq_some_iff.mp ha).1
    have hlt' : a < pe.choices.length := h.fits.length_eq ▸ hlt
    have hfits := h.fits.get hlt hlt'
    have heq : (getEvt pe.iid).baccesses.get ⟨a, hlt⟩ = A := (List.getElem?_eq_some_iff.mp ha).2
    have hc := List.getElem?_eq_getElem hlt'
    rw [heq] at hfits
    cases hchoice : pe.choices.get ⟨a, hlt'⟩ with
    | coherence p =>
        have hget : pe.choices[a] = .coherence p := hchoice
        rw [hget] at hc
        exact ⟨p, a, A, ha, hstore, haddr, hc⟩
    | source src =>
        rw [hchoice, ByteAccess.Fits, hstore] at hfits
        cases hfits
  · rintro ⟨p, hp⟩
    exact hp.storesTo

theorem not_storesAt {choices : List Choice} {e : Event} (hx : ¬StoresTo e x) (p : ℕ) :
    ¬StoresAt e choices x p :=
  fun hp => hx hp.storesTo

theorem WellFormed.commits (h : WellFormed getEvt pe) (hm : commitEvent getEvt m pe = some m') :
    Commits pe.iid (StoresAt (getEvt pe.iid) pe.choices) m m' := by
  have hcommits := commits_of_foldlM (h.distinct.separate pe.choices) hm
  have hplaces : PlacesAt ((getEvt pe.iid).baccesses.zip pe.choices) =
      StoresAt (getEvt pe.iid) pe.choices := by
    funext x p
    exact propext placesAt_zip
  rwa [hplaces] at hcommits

theorem WellFormed.exists_commitEvent (h : WellFormed getEvt pe)
    (hle : ∀ x p, StoresAt (getEvt pe.iid) pe.choices x p → p ≤ (m x).length) :
    ∃ m', commitEvent getEvt m pe = some m' :=
  exists_foldlM (h.distinct.separate pe.choices) fun x p hp => hle x p (placesAt_zip.mp hp)

/-! ### Two events -/

/-- The two insertions with nudged positions. -/
theorem insertIdx_nudged {a b : IID} {l : List IID} (hp : p ≤ l.length) (hq : q ≤ l.length + 1) :
    (l.insertIdx p a).insertIdx q b =
      (l.insertIdx (if p < q then q - 1 else q) b).insertIdx (if p < q then p else p + 1) a := by
  by_cases hlt : p < q
  · obtain ⟨q, rfl⟩ : ∃ k, q = k + 1 := ⟨q - 1, by omega⟩
    rw [if_pos hlt, if_pos hlt, Nat.add_sub_cancel]
    exact List.insertIdx_comm a b (by omega) (by omega)
  · rw [if_neg hlt, if_neg hlt]
    exact (List.insertIdx_comm b a (by omega) (by omega)).symm

theorem WellFormed.switch {p x : PEvent} (hp : WellFormed getEvt p) (hx : WellFormed getEvt x) :
    WellFormed getEvt (PowerArmBranches.switch getEvt p x).1 ∧
      WellFormed getEvt (PowerArmBranches.switch getEvt p x).2 := by
  have herase := @erase_nudge (getEvt p.iid) (getEvt x.iid) (p.choices, x.choices)
  exact ⟨⟨hx.distinct, (fits_iff_of_erase herase.2).mpr hx.fits⟩,
    ⟨hp.distinct, (fits_iff_of_erase herase.1).mpr hp.fits⟩⟩

/-- The positions of two events at a byte before and after an exchange. -/
theorem storesAt_switch {u v : PEvent} (hu : WellFormed getEvt u) (hv : WellFormed getEvt v)
    (x : Addr) :
    (∃ p q, StoresAt (getEvt u.iid) u.choices x p ∧ StoresAt (getEvt v.iid) v.choices x q ∧
      StoresAt (getEvt u.iid) (switch getEvt u v).2.choices x (if p < q then p else p + 1) ∧
      StoresAt (getEvt v.iid) (switch getEvt u v).1.choices x (if p < q then q - 1 else q)) ∨
    (∃ p, StoresAt (getEvt u.iid) u.choices x p ∧
      StoresAt (getEvt u.iid) (switch getEvt u v).2.choices x p ∧ ¬StoresTo (getEvt v.iid) x) ∨
    (∃ q, StoresAt (getEvt v.iid) v.choices x q ∧
      StoresAt (getEvt v.iid) (switch getEvt u v).1.choices x q ∧ ¬StoresTo (getEvt u.iid) x) ∨
    (¬StoresTo (getEvt u.iid) x ∧ ¬StoresTo (getEvt v.iid) x) := by
  by_cases hux : StoresTo (getEvt u.iid) x
  · obtain ⟨p, hp⟩ := hu.storesTo_iff.mp hux
    by_cases hvx : StoresTo (getEvt v.iid) x
    · obtain ⟨q, hq⟩ := hv.storesTo_iff.mp hvx
      have hboth := storesAt_nudge_both hu.distinct hv.distinct hp hq
      exact .inl ⟨p, q, hp, hq, hboth⟩
    · have hleft : StoresAt (getEvt u.iid) (switch getEvt u v).2.choices x p :=
        storesAt_nudge_left hu.distinct hv.distinct hp hvx
      exact .inr (.inl ⟨p, hp, hleft, hvx⟩)
  · by_cases hvx : StoresTo (getEvt v.iid) x
    · obtain ⟨q, hq⟩ := hv.storesTo_iff.mp hvx
      have hright : StoresAt (getEvt v.iid) (switch getEvt u v).1.choices x q :=
        storesAt_nudge_right hu.distinct hv.distinct hq hux
      exact .inr (.inr (.inl ⟨q, hq, hright, hux⟩))
    · exact .inr (.inr (.inr ⟨hux, hvx⟩))

/-- The commit of two events in the other order. -/
theorem commitEvent_switch {u v : PEvent} {m₁ : Coherence} (hu : WellFormed getEvt u)
    (hv : WellFormed getEvt v) (hm₁ : commitEvent getEvt m u = some m₁)
    (ht : commitEvent getEvt m₁ v = some t) :
    ∃ m₂, commitEvent getEvt m (switch getEvt u v).1 = some m₂ ∧
      commitEvent getEvt m₂ (switch getEvt u v).2 = some t := by
  obtain ⟨hv', hu'⟩ := hu.switch hv
  have hfirst := hu.commits hm₁
  have hsecond := hv.commits ht
  have hrange : ∀ x q, StoresAt (getEvt v.iid) (switch getEvt u v).1.choices x q →
      q ≤ (m x).length := by
    intro x q' hq'
    rcases storesAt_switch hu hv x with ⟨p, q, hp, hq, _, hqx⟩ | ⟨_, _, _, hvx⟩ |
      ⟨q, hq, hqx, hux⟩ | ⟨_, hvx⟩
    · obtain ⟨hple, hpx⟩ := hfirst.placed x p hp
      have hqle := (hsecond.placed x q hq).1
      rw [hpx, List.length_insertIdx_of_le_length hple] at hqle
      rw [hq'.unique hv.distinct hqx]
      split <;> omega
    · exact absurd hq'.storesTo hvx
    · have hqle := (hsecond.placed x q hq).1
      rw [hfirst.kept x (not_storesAt hux)] at hqle
      rwa [hq'.unique hv.distinct hqx]
    · exact absurd hq'.storesTo hvx
  obtain ⟨m₂, hm₂⟩ := hv'.exists_commitEvent hrange
  have hfirst' := hv'.commits hm₂
  have hrange' : ∀ x p, StoresAt (getEvt u.iid) (switch getEvt u v).2.choices x p →
      p ≤ (m₂ x).length := by
    intro x p' hp'
    rcases storesAt_switch hu hv x with ⟨p, q, hp, hq, hpx, hqx⟩ | ⟨p, hp, hpx, hvx⟩ |
      ⟨_, _, _, hux⟩ | ⟨hux, _⟩
    · have hple := (hfirst.placed x p hp).1
      obtain ⟨hqle, hqm⟩ := hfirst'.placed x _ hqx
      rw [hp'.unique hu.distinct hpx, hqm, List.length_insertIdx_of_le_length hqle]
      split <;> omega
    · have hple := (hfirst.placed x p hp).1
      rw [hp'.unique hu.distinct hpx, hfirst'.kept x (not_storesAt hvx)]
      exact hple
    · exact absurd hp'.storesTo hux
    · exact absurd hp'.storesTo hux
  obtain ⟨t', ht'⟩ := hu'.exists_commitEvent hrange'
  have hsecond' := hu'.commits ht'
  have heq : t' = t := by
    funext x
    rcases storesAt_switch hu hv x with ⟨p, q, hp, hq, hpx, hqx⟩ | ⟨p, hp, hpx, hvx⟩ |
      ⟨q, hq, hqx, hux⟩ | ⟨hux, hvx⟩
    · obtain ⟨hple, hpm⟩ := hfirst.placed x p hp
      obtain ⟨hqle, hqt⟩ := hsecond.placed x q hq
      rw [hpm, List.length_insertIdx_of_le_length hple] at hqle
      rw [(hsecond'.placed x _ hpx).2, (hfirst'.placed x _ hqx).2, hqt, hpm]
      exact (insertIdx_nudged hple hqle).symm
    · rw [(hsecond'.placed x p hpx).2, hfirst'.kept x (not_storesAt hvx),
        hsecond.kept x (not_storesAt hvx), (hfirst.placed x p hp).2]
      rfl
    · rw [hsecond'.kept x (not_storesAt hux), (hfirst'.placed x q hqx).2,
        (hsecond.placed x q hq).2, hfirst.kept x (not_storesAt hux)]
      rfl
    · rw [hsecond'.kept x (not_storesAt hux), hfirst'.kept x (not_storesAt hvx),
        hsecond.kept x (not_storesAt hvx), hfirst.kept x (not_storesAt hux)]
  exact ⟨m₂, hm₂, heq ▸ ht'⟩

/-- An exchange keeps the coherence orders after the two events. -/
theorem keepsEffect_switch (getEvt : IID → Event) (before : PEvent → PEvent → Bool) :
    KeepsEffect before (switch getEvt) (commitEvent getEvt) (WellFormed getEvt) := by
  constructor
  · exact fun hp hx => hp.switch hx
  · intro p x m t hp hx _ ht
    obtain ⟨m₁, hm₁, ht⟩ := Option.bind_eq_some_iff.mp ht
    obtain ⟨t', ht, hpure⟩ := Option.bind_eq_some_iff.mp ht
    cases hpure
    obtain ⟨m₂, hm₂, ht'⟩ := commitEvent_switch hp hx hm₁ ht
    rw [List.foldlM_cons, hm₂]
    change (commitEvent getEvt m₂ _).bind some = _
    rw [ht']
    rfl

end Nidhugg.PowerArmBranches
