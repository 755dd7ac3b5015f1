import Nidhugg.Verification.PowerArmRaces.Memory

/-! # The events of a branch

A store that stays behind has as many stores less in front of it as have been removed. When the
events of a branch are committed, the coherence orders are those of the run without the removed
stores. -/

namespace Nidhugg.PowerArmRaces

open PowerArmBranches InsertionOrder

/-! ### Decreased positions -/

namespace TB

theorem decreaseFor_eq {removed l : List IID} {iid : IID} {p : ℕ} (hiid : iid ∈ l)
    (hle : (l.takeWhile (· ≠ iid)).countP (· ∈ removed) ≤ p) :
    decreaseFor removed iid l (.coherence p) =
      some (.coherence (p - (l.takeWhile (· ≠ iid)).countP (· ∈ removed))) := by
  induction l generalizing p with
  | nil => cases hiid
  | cons s l ih =>
      rw [decreaseFor]
      by_cases hs : s = iid
      · rw [if_pos hs, hs]
        simp
      · have hmem : iid ∈ l := (List.mem_cons.mp hiid).resolve_left (Ne.symm hs)
        rw [List.takeWhile_cons_of_pos (by simpa using hs)] at hle ⊢
        rw [if_neg hs]
        by_cases hremoved : s ∈ removed
        · rw [List.countP_cons_of_pos (by simpa using hremoved)] at hle ⊢
          obtain ⟨q, rfl⟩ : ∃ q, p = q + 1 := ⟨p - 1, by omega⟩
          rw [if_pos hremoved, decrement, Option.bind_some, ih hmem (by omega)]
          congr 2
          omega
        · rw [List.countP_cons_of_neg (by simpa using hremoved)] at hle ⊢
          rw [if_neg hremoved, ih hmem hle]

end TB

/-- The position that is left when earlier stores have been removed. -/
def decreased (mem : Memory) (removed : List IID) (u : ByteAccess × Choice) : Choice :=
  match u.2 with
  | .coherence p =>
      .coherence (p - (((mem u.1.addr).coherence.take p).countP fun s => s ∈ removed))
  | .source src => .source src

theorem mapM_eq_some_map {α β : Type} {f : α → Option β} {g : α → β} {l : List α}
    (h : ∀ u ∈ l, f u = some (g u)) : l.mapM f = some (l.map g) := by
  induction l with
  | nil => rfl
  | cons u l ih =>
      rw [List.mapM_cons, h u List.mem_cons_self,
        ih fun v hv => h v (List.mem_cons_of_mem _ hv)]
      rfl

theorem zip_map_zip {α β : Type} {l : List α} {l' : List β} {g : α × β → β}
    (hlen : l.length = l'.length) :
    l.zip ((l.zip l').map g) = (l.zip l').map fun u => (u.1, g u) := by
  induction l generalizing l' with
  | nil => rfl
  | cons x l ih =>
      cases l' with
      | nil => cases hlen
      | cons y l' =>
          rw [List.zip_cons_cons, List.map_cons, List.map_cons, List.zip_cons_cons,
            ih (Nat.succ.inj hlen)]

namespace TB

variable {tb : TB} {es done rest removed : List IID} {e s : IID} {mem mem' M : Memory}

/-! ### The events that have been committed -/

/-- The accesses of the events, which do not change once they have been committed. -/
def acc (tb : TB) (iid : IID) : Accesses := (tb.evt iid).accesses

/-- The history of events that have been committed with their current parameters. -/
def hist (tb : TB) (es : List IID) : History := (es.map tb.pevent).reverse

/-- Events have been committed in this order, and perhaps others after them. -/
def Settled (tb : TB) (es : List IID) : Prop :=
  ∃ later, Results (fun _ => tb.acc) (later ++ tb.hist es) tb.mem ∧
    ((later ++ tb.hist es).map PEvent.iid).Nodup

theorem map_iid_hist (tb : TB) (es : List IID) : (tb.hist es).map PEvent.iid = es.reverse := by
  simp [hist, List.map_reverse, Function.comp_def, pevent]

theorem hist_append (tb : TB) (done rest : List IID) :
    tb.hist (done ++ rest) = tb.hist rest ++ tb.hist done := by
  simp [hist]

theorem Settled.left (h : tb.Settled (done ++ rest)) : tb.Settled done := by
  obtain ⟨later, hresults, hnodup⟩ := h
  rw [hist_append, ← List.append_assoc] at hresults hnodup
  exact ⟨later ++ tb.hist rest, hresults, hnodup⟩

theorem Settled.nodup (h : tb.Settled done) : done.Nodup := by
  obtain ⟨later, _, hnodup⟩ := h
  rw [List.map_append, map_iid_hist] at hnodup
  exact List.nodup_reverse.mp hnodup.of_append_right

theorem Settled.filter (h : tb.Settled done) (hmem : Results (fun _ => tb.acc) (tb.hist done) mem)
    (x : Addr) : (tb.mem x).coherence.filter (fun s => s ∈ done) = (mem x).coherence := by
  obtain ⟨later, hresults, hnodup⟩ := h
  rw [← hresults.restrict hmem hnodup x, map_iid_hist]
  simp

/-- The last of the events is committed to the memory after the others. -/
theorem Settled.last (h : tb.Settled (done ++ [e])) :
    ∃ mem mem', Results (fun _ => tb.acc) (tb.hist done) mem ∧
      Results (fun _ => tb.acc) (tb.hist (done ++ [e])) mem' ∧
      Fitting mem (tb.acc e).baccesses (tb.evt e).curParam ∧
      commitAccesses (tb.acc e).baccesses mem (tb.pevent e) = some mem' := by
  obtain ⟨later, hresults, _⟩ := h
  obtain ⟨mem', hmem'⟩ := hresults.of_append
  have hcons : tb.hist (done ++ [e]) = tb.pevent e :: tb.hist done := by
    rw [hist_append]
    rfl
  rw [hcons] at hmem'
  obtain ⟨mem, hmem, hfits, hcommit⟩ := hmem'.of_cons
  exact ⟨mem, mem', hmem, hcons ▸ hmem', hfits, hcommit⟩

/-! ### One event of the branch -/

/-- The next event and what is known of the memory before it. -/
structure Next (tb : TB) (done : List IID) (e : IID) (mem mem' : Memory) : Prop where
  settled : tb.Settled (done ++ [e])
  results : Results (fun _ => tb.acc) (tb.hist done) mem
  results' : Results (fun _ => tb.acc) (tb.hist (done ++ [e])) mem'
  fits : Fitting mem (tb.acc e).baccesses (tb.evt e).curParam
  commit : commitAccesses (tb.acc e).baccesses mem (tb.pevent e) = some mem'

theorem Settled.next (h : tb.Settled (done ++ [e])) : ∃ mem mem', tb.Next done e mem mem' := by
  obtain ⟨mem, mem', hmem, hmem', hfits, hcommit⟩ := h.last
  exact ⟨mem, mem', h, hmem, hmem', hfits, hcommit⟩

theorem Next.not_mem (h : tb.Next done e mem mem') : e ∉ done := by
  intro he
  exact List.disjoint_of_nodup_append h.settled.nodup he List.mem_cons_self

theorem Next.mem_done (h : tb.Next done e mem mem') {x : Addr} (hs : s ∈ (mem x).coherence) :
    s ∈ done ∧ 0 < (tb.acc s).storeCount := by
  obtain ⟨hmem, hstore⟩ := h.results.exists_store hs
  rw [map_iid_hist] at hmem
  exact ⟨List.mem_reverse.mp hmem, hstore⟩

theorem Next.not_mem_coherence (h : tb.Next done e mem mem') (x : Addr) :
    e ∉ (mem x).coherence := fun he => h.not_mem (h.mem_done he).1

/-- The orders of stores that are kept, before the event and with it. -/
theorem Next.filter (h : tb.Next done e mem mem') {K : IID → Bool}
    (hK : ∀ s, K s = true → s ∈ done ++ [e]) (x : Addr) :
    (tb.mem x).coherence.filter K = (mem' x).coherence.filter K := by
  rw [← h.settled.filter h.results' x, List.filter_filter]
  apply List.filter_congr
  intro s _
  by_cases hs : K s = true
  · simp [hs, hK s hs]
  · simp [hs]

theorem Next.stores (h : tb.Next done e mem mem') :
    Commits e (PlacesAt ((tb.acc e).baccesses.zip (tb.evt e).curParam)) (coherenceOf mem)
      (coherenceOf mem') := commits_of_commitAccesses h.commit

theorem Next.decreaseFor (h : tb.Next done e mem mem') (hremoved : ∀ s ∈ removed, s ∈ done)
    {x : Addr} {p : ℕ}
    (hplaces : PlacesAt ((tb.acc e).baccesses.zip (tb.evt e).curParam) x p) :
    TB.decreaseFor removed e (tb.mem x).coherence (.coherence p) =
      some (.coherence (p - (((mem x).coherence.take p).countP fun s => s ∈ removed))) := by
  obtain ⟨hle, heq⟩ := h.stores.placed x p hplaces
  have hfilter := h.settled.filter h.results' x
  have hcoherence : (tb.mem x).coherence.filter (fun s => s ∈ done ++ [e]) =
      (mem x).coherence.insertIdx p e := hfilter.trans heq
  have hcount : ((tb.mem x).coherence.takeWhile (· ≠ e)).countP (· ∈ removed) =
      ((mem x).coherence.take p).countP (· ∈ removed) := by
    rw [← countP_takeWhile_filter (K := fun s => decide (s ∈ done ++ [e])) (by simp),
      hcoherence, takeWhile_insertIdx (l := (mem x).coherence) hle (h.not_mem_coherence x)]
    intro s hs
    have hdone := hremoved s (of_decide_eq_true hs)
    simp [hdone]
  have he : e ∈ (tb.mem x).coherence := by
    have hmem : e ∈ (mem x).coherence.insertIdx p e := (List.mem_insertIdx hle).mpr (.inl rfl)
    rw [← hcoherence] at hmem
    exact (List.mem_filter.mp hmem).1
  have hbound : ((tb.mem x).coherence.takeWhile (· ≠ e)).countP (· ∈ removed) ≤ p := by
    rw [hcount]
    exact List.countP_le_length.trans (List.length_take_le p _)
  rw [decreaseFor_eq he hbound, hcount]

theorem Next.decreaseCoPos (h : tb.Next done e mem mem') (hremoved : ∀ s ∈ removed, s ∈ done) :
    tb.decreaseCoPos removed e =
      some (((tb.acc e).baccesses.zip (tb.evt e).curParam).map (decreased mem removed)) := by
  apply mapM_eq_some_map
  intro u hu
  have hfits := h.fits.fits u hu
  obtain ⟨A, C⟩ := u
  cases C with
  | coherence p => exact (if_pos hfits.1).trans (h.decreaseFor hremoved ⟨A, hu, hfits.1, rfl⟩)
  | source src =>
      have hload : A.isStore = false := hfits.1
      exact if_neg (by simp [hload])

/-- The stores that have been kept, and those that have been removed. -/
structure Parts (tb : TB) (done kept removed : List IID) : Prop where
  sub : ∀ s ∈ kept, s ∈ done
  apart : ∀ s ∈ removed, s ∈ done ∧ s ∉ kept
  complete : ∀ s ∈ done, 0 < (tb.acc s).storeCount → s ∈ kept ∨ s ∈ removed

theorem Next.countP (h : tb.Next done e mem mem') {kept : List IID}
    (hparts : tb.Parts done kept removed) {x : Addr} {p : ℕ} (hp : p ≤ (mem x).coherence.length) :
    p - ((mem x).coherence.take p).countP (fun s => s ∈ removed) =
      ((mem x).coherence.take p).countP fun s => s ∈ kept ++ [e] := by
  have hlen := List.length_eq_countP_add_countP (fun s : IID => s ∈ removed)
    (l := (mem x).coherence.take p)
  rw [List.length_take_of_le hp] at hlen
  have hcongr : ((mem x).coherence.take p).countP (fun s => s ∈ kept ++ [e]) =
      ((mem x).coherence.take p).countP fun s => ¬decide (s ∈ removed) = true := by
    apply List.countP_congr
    intro s hs
    have hmem := List.mem_of_mem_take hs
    obtain ⟨hdone, hstore⟩ := h.mem_done hmem
    have hne : s ≠ e := fun heq => h.not_mem_coherence x (heq ▸ hmem)
    have hor := hparts.complete s hdone hstore
    have hnot : s ∈ removed → s ∉ kept := fun hr => (hparts.apart s hr).2
    simp only [List.mem_append, List.mem_singleton, hne, or_false, decide_eq_true_eq]
    tauto
  omega

/-- The coherence orders are those of the run without the stores that have not been kept. -/
def Branched (tb : TB) (kept : List IID) (M : Memory) : Prop :=
  ∀ x, (M x).coherence = (tb.mem x).coherence.filter fun s => s ∈ kept

theorem Next.branched (h : tb.Next done e mem mem') {kept : List IID}
    (hparts : tb.Parts done kept removed) (hbranched : tb.Branched kept M) (x : Addr) :
    (M x).coherence = (mem x).coherence.filter fun s => s ∈ kept ++ [e] := by
  rw [hbranched x, ← h.settled.left.filter h.results x, List.filter_filter]
  apply List.filter_congr
  intro s _
  rw [← Bool.decide_and, decide_eq_decide, List.mem_append, List.mem_singleton]
  constructor
  · intro hs
    exact ⟨.inl hs, hparts.sub s hs⟩
  · intro hs
    exact hs.1.resolve_right fun heq => h.not_mem (heq ▸ hs.2)

/-- The choices of an event of the branch fit to the memory where stores have been removed. -/
theorem Next.fitting (h : tb.Next done e mem mem') {kept : List IID}
    (hparts : tb.Parts done kept removed) (hbranched : tb.Branched kept M)
    (hsrc : ∀ s ∈ sources (tb.evt e).curParam, s ∈ kept) :
    Fitting M (tb.acc e).baccesses
      (((tb.acc e).baccesses.zip (tb.evt e).curParam).map (decreased mem removed)) where
  length := by
    rw [List.length_map, List.length_zip, h.fits.length, Nat.min_self]
  fits := by
    intro u hu
    rw [zip_map_zip h.fits.length] at hu
    obtain ⟨v, hv, rfl⟩ := List.mem_map.mp hu
    have hfits := h.fits.fits v hv
    obtain ⟨A, C⟩ := v
    cases C with
    | coherence p =>
        have hle : p ≤ (mem A.addr).coherence.length := hfits.2
        refine ⟨hfits.1, ?_⟩
        show p - ((mem A.addr).coherence.take p).countP _ ≤ (M A.addr).coherence.length
        rw [h.countP hparts hle, h.branched hparts hbranched, ← List.countP_eq_length_filter]
        exact (List.take_sublist p _).countP_le
    | source src =>
        refine ⟨hfits.1, ?_⟩
        cases src with
        | none => exact List.mem_cons_self
        | some s =>
            have hmem : s ∈ sources (tb.evt e).curParam :=
              List.mem_filterMap.mpr ⟨_, (List.of_mem_zip hv).2, rfl⟩
            rw [Mem.some_mem_sources, h.branched hparts hbranched]
            apply List.mem_filter.mpr
            exact ⟨Mem.some_mem_sources.mp hfits.2, by simp [hsrc s hmem]⟩

theorem placesAt_map_decreased {accesses : List (ByteAccess × Choice)} {x : Addr} {q : ℕ} :
    PlacesAt (accesses.map fun u => (u.1, decreased mem removed u)) x q ↔
      ∃ p, PlacesAt accesses x p ∧
        q = p - ((mem x).coherence.take p).countP fun s => s ∈ removed := by
  constructor
  · rintro ⟨A, hA, hstore, rfl⟩
    obtain ⟨u, hu, heq⟩ := List.mem_map.mp hA
    obtain ⟨B, C⟩ := u
    obtain ⟨rfl, hC⟩ := Prod.mk.inj heq
    cases C with
    | coherence p => exact ⟨p, ⟨B, hu, hstore, rfl⟩, (Choice.coherence.inj hC).symm⟩
    | source src => cases hC
  · rintro ⟨p, ⟨A, hA, hstore, rfl⟩, rfl⟩
    exact ⟨A, List.mem_map.mpr ⟨_, hA, rfl⟩, hstore, rfl⟩

/-- The event is committed where the run without the removed stores has it. -/
theorem Next.exists_commit (h : tb.Next done e mem mem') {kept : List IID}
    (hparts : tb.Parts done kept removed) (hbranched : tb.Branched kept M)
    (hsrc : ∀ s ∈ sources (tb.evt e).curParam, s ∈ kept) :
    ∃ M', commitAccesses (tb.acc e).baccesses M
        ⟨e, ((tb.acc e).baccesses.zip (tb.evt e).curParam).map (decreased mem removed)⟩ = some M' ∧
      tb.Branched (kept ++ [e]) M' := by
  obtain ⟨M', hM'⟩ := (h.fitting hparts hbranched hsrc).exists_commitAccesses e
  refine ⟨M', hM', ?_⟩
  have hcommits := commits_of_commitAccesses hM'
  rw [zip_map_zip h.fits.length] at hcommits
  have hsub : ∀ s, decide (s ∈ kept ++ [e]) = true → s ∈ done ++ [e] := by
    intro s hs
    rw [decide_eq_true_eq, List.mem_append] at hs
    exact List.mem_append.mpr (hs.imp_left (hparts.sub s))
  intro x
  rw [h.filter hsub x]
  by_cases hplace : ∃ p, PlacesAt ((tb.acc e).baccesses.zip (tb.evt e).curParam) x p
  · obtain ⟨p, hp⟩ := hplace
    obtain ⟨hle, heq⟩ := h.stores.placed x p hp
    have hinsert : (mem' x).coherence = (mem x).coherence.insertIdx p e := heq
    have hinsert' : (M' x).coherence = (M x).coherence.insertIdx _ e :=
      (hcommits.placed x _ (placesAt_map_decreased.mpr ⟨p, hp, rfl⟩)).2
    rw [hinsert, hinsert', filter_insertIdx (l := (mem x).coherence) hle (by simp),
      h.branched hparts hbranched, h.countP hparts hle]
  · have hkept : (mem' x).coherence = (mem x).coherence :=
      h.stores.kept x fun p hp => hplace ⟨p, hp⟩
    have hkept' : (M' x).coherence = (M x).coherence := by
      apply hcommits.kept x
      intro q hq
      obtain ⟨p, hp, _⟩ := placesAt_map_decreased.mp hq
      exact hplace ⟨p, hp⟩
    rw [hkept, hkept', h.branched hparts hbranched]

/-! ### The whole branch -/

/-- Commits events one by one. -/
def commitEvents (tb : TB) (mem : Memory) (events : List PEvent) : Option Memory :=
  events.foldlM (fun mem pe => commitAccesses (tb.evt pe.iid).accesses.baccesses mem pe) mem

variable {cb : ℕ → Bool} {start : List IID} {st : List IID × List PEvent}

/-- The branch when some of the events have been visited. -/
structure Collecting (tb : TB) (cb : ℕ → Bool) (start done : List IID)
    (st : List IID × List PEvent) (M : Memory) : Prop where
  commits : tb.commitEvents .new (start.map tb.pevent ++ st.2) = some M
  branched : tb.Branched (start ++ st.2.map PEvent.iid) M
  parts : tb.Parts done (start ++ st.2.map PEvent.iid) st.1
  chosen : ∀ s ∈ done, cb (tb.evt s).clockIndex = true → s ∈ start ++ st.2.map PEvent.iid
  nodup : (start ++ st.2.map PEvent.iid).Nodup
  before : ∀ s ∈ st.2.map PEvent.iid, cb (tb.evt s).clockIndex = true

theorem Collecting.take (h : tb.Collecting cb start done st M) (hnext : tb.Next done e mem mem')
    (hcb : cb (tb.evt e).clockIndex = true)
    (hsrc : ∀ s ∈ sources (tb.evt e).curParam, s ∈ done ∧ cb (tb.evt s).clockIndex = true) :
    ∃ st' M', tb.collectEvent cb st e = some st' ∧
      tb.Collecting cb start (done ++ [e]) st' M' := by
  have hdecrease := hnext.decreaseCoPos fun s hs => (h.parts.apart s hs).1
  obtain ⟨M', hM', hbranched⟩ := hnext.exists_commit h.parts h.branched fun s hs =>
    h.chosen s (hsrc s hs).1 (hsrc s hs).2
  refine ⟨_, M', by rw [collectEvent, if_pos hcb, hdecrease]; rfl, ?_⟩
  have hkept : start ++ (st.2 ++ [(⟨e, ((tb.acc e).baccesses.zip (tb.evt e).curParam).map
      (decreased mem st.1)⟩ : PEvent)]).map PEvent.iid =
      start ++ st.2.map PEvent.iid ++ [e] := by
    simp
  constructor
  · rw [← List.append_assoc, commitEvents, List.foldlM_append]
    exact Option.bind_eq_some_iff.mpr ⟨M, h.commits, by simpa [acc] using hM'⟩
  · rw [hkept]
    exact hbranched
  · rw [hkept]
    constructor
    · intro s hs
      rw [List.mem_append] at hs ⊢
      exact hs.imp_left (h.parts.sub s)
    · intro s hs
      obtain ⟨hdone, hnot⟩ := h.parts.apart s hs
      refine ⟨List.mem_append_left _ hdone, ?_⟩
      intro hmem
      cases List.mem_append.mp hmem with
      | inl hmem => exact hnot hmem
      | inr hmem => exact hnext.not_mem (List.mem_singleton.mp hmem ▸ hdone)
    · intro s hs hstore
      cases List.mem_append.mp hs with
      | inl hs => exact (h.parts.complete s hs hstore).imp_left (List.mem_append_left _)
      | inr hs => exact .inl (List.mem_append_right _ hs)
  · intro s hs hcbs
    rw [hkept]
    cases List.mem_append.mp hs with
    | inl hs => exact List.mem_append_left _ (h.chosen s hs hcbs)
    | inr hs => exact List.mem_append_right _ hs
  · rw [hkept, ← List.concat_eq_append]
    exact h.nodup.concat fun he => hnext.not_mem (h.parts.sub e he)
  · intro s hs
    rw [List.map_append, List.mem_append] at hs
    cases hs with
    | inl hs => exact h.before s hs
    | inr hs => exact List.mem_singleton.mp hs ▸ hcb

theorem Collecting.leave (h : tb.Collecting cb start done st M)
    (hnext : tb.Next done e mem mem') (hcb : cb (tb.evt e).clockIndex = false) :
    ∃ st', tb.collectEvent cb st e = some st' ∧
      tb.Collecting cb start (done ++ [e]) st' M := by
  have hnot : e ∉ start ++ st.2.map PEvent.iid := fun he => hnext.not_mem (h.parts.sub e he)
  have hchosen : ∀ s ∈ done ++ [e], cb (tb.evt s).clockIndex = true →
      s ∈ start ++ st.2.map PEvent.iid := by
    intro s hs hcbs
    cases List.mem_append.mp hs with
    | inl hs => exact h.chosen s hs hcbs
    | inr hs =>
        rw [List.mem_singleton.mp hs, hcb] at hcbs
        cases hcbs
  have hsub : ∀ s ∈ start ++ st.2.map PEvent.iid, s ∈ done ++ [e] :=
    fun s hs => List.mem_append_left _ (h.parts.sub s hs)
  have hcollect : tb.collectEvent cb st e = some (if 0 < (tb.evt e).accesses.storeCount then
      (e :: st.1, st.2) else st) := by
    rw [collectEvent, if_neg (by simp [hcb])]
    split <;> rfl
  refine ⟨_, hcollect, ?_⟩
  by_cases hstore : 0 < (tb.evt e).accesses.storeCount
  · rw [if_pos hstore]
    refine ⟨h.commits, h.branched, ⟨hsub, ?_, ?_⟩, hchosen, h.nodup, h.before⟩
    · intro s hs
      cases List.mem_cons.mp hs with
      | inl heq =>
          subst heq
          exact ⟨by simp, hnot⟩
      | inr hs =>
          obtain ⟨hdone, hnot⟩ := h.parts.apart s hs
          exact ⟨List.mem_append_left _ hdone, hnot⟩
    · intro s hs hpos
      cases List.mem_append.mp hs with
      | inl hs => exact (h.parts.complete s hs hpos).imp_right (List.mem_cons_of_mem _)
      | inr hs => exact .inr (List.mem_cons.mpr (.inl (List.mem_singleton.mp hs)))
  · rw [if_neg hstore]
    refine ⟨h.commits, h.branched, ⟨hsub, ?_, ?_⟩, hchosen, h.nodup, h.before⟩
    · intro s hs
      obtain ⟨hdone, hnot⟩ := h.parts.apart s hs
      exact ⟨List.mem_append_left _ hdone, hnot⟩
    · intro s hs hpos
      cases List.mem_append.mp hs with
      | inl hs => exact h.parts.complete s hs hpos
      | inr hs => exact (hstore (List.mem_singleton.mp hs ▸ hpos)).elim

/-- The sources of an event are committed before it, and they belong to the branch if it does. -/
def SourcesIn (tb : TB) (cb : ℕ → Bool) (es : List IID) : Prop :=
  ∀ e ∈ es, cb (tb.evt e).clockIndex = true →
    ∀ s ∈ sources (tb.evt e).curParam, cb (tb.evt s).clockIndex = true

theorem Next.mem_of_source (h : tb.Next done e mem mem')
    (hs : s ∈ sources (tb.evt e).curParam) : s ∈ done := by
  obtain ⟨x, hx⟩ := h.fits.exists_coherence hs
  exact (h.mem_done hx).1

theorem Collecting.loop (hsettled : tb.Settled (done ++ rest))
    (hsources : tb.SourcesIn cb (done ++ rest)) (h : tb.Collecting cb start done st M) :
    ∃ st' M', rest.foldlM (tb.collectEvent cb) st = some st' ∧
      tb.Collecting cb start (done ++ rest) st' M' := by
  induction rest generalizing done st M with
  | nil => exact ⟨st, M, rfl, by rwa [List.append_nil]⟩
  | cons e rest ih =>
      have hsplit : done ++ e :: rest = done ++ [e] ++ rest := by simp
      rw [hsplit] at hsettled hsources
      obtain ⟨mem, mem', hnext⟩ := hsettled.left.next
      have hturn : ∃ st' M', tb.collectEvent cb st e = some st' ∧
          tb.Collecting cb start (done ++ [e]) st' M' := by
        cases hcb : cb (tb.evt e).clockIndex with
        | true =>
            exact h.take hnext hcb fun s hs =>
              ⟨hnext.mem_of_source hs, hsources e (by simp) hcb s hs⟩
        | false =>
            obtain ⟨st', hst', hcollecting⟩ := h.leave hnext hcb
            exact ⟨st', M, hst', hcollecting⟩
      obtain ⟨st₁, M₁, hst₁, hcollecting⟩ := hturn
      obtain ⟨st', M', hst', hdone⟩ := ih hsettled hsources hcollecting
      refine ⟨st', M', ?_, by rwa [hsplit]⟩
      rw [List.foldlM_cons, hst₁]
      exact hst'

theorem Settled.collecting (h : tb.Settled start) :
    ∃ M, tb.Collecting cb start start ([], []) M := by
  obtain ⟨later, hresults, hnodup⟩ := id h
  obtain ⟨M, hM⟩ := hresults.of_append
  refine ⟨M, ?_, ?_, ⟨by simp, by simp, fun s hs _ => .inl (by simpa using hs)⟩,
    fun s hs _ => by simpa using hs, by simpa using h.nodup, by simp⟩
  · have hrun := hM.foldlM_reverse
    rw [hist, List.reverse_reverse] at hrun
    rw [List.append_nil]
    exact hrun
  · intro x
    rw [List.map_nil, List.append_nil]
    exact (h.filter hM x).symm

/-- The branch of a conflict, when all events have been visited. -/
theorem Settled.exists_collecting {n k : ℕ} (hle : k ≤ n)
    (hsettled : tb.Settled (tb.pfx.take n)) (hsources : tb.SourcesIn cb (tb.pfx.take n)) :
    ∃ st M, ((tb.pfx.take n).drop k).foldlM (tb.collectEvent cb) ([], []) = some st ∧
      tb.Collecting cb (tb.pfx.take k) (tb.pfx.take n) st M := by
  have hsplit : tb.pfx.take n = tb.pfx.take k ++ (tb.pfx.take n).drop k := by
    conv_lhs => rw [← List.take_append_drop k (tb.pfx.take n)]
    rw [List.take_take, Nat.min_eq_left hle]
  rw [hsplit] at hsettled hsources
  obtain ⟨M₀, hstart⟩ := hsettled.left.collecting
  obtain ⟨st, M, hst, hcollecting⟩ := hstart.loop hsettled hsources
  exact ⟨st, M, hst, hsplit ▸ hcollecting⟩

end TB

end Nidhugg.PowerArmRaces
