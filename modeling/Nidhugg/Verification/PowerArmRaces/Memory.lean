import Nidhugg.Library.InsertionOrder
import Nidhugg.Model.PowerArmRaces
import Nidhugg.Verification.PowerArmAccesses.Registration
import Nidhugg.Verification.PowerArmBranches.Canonicity
import Nidhugg.Verification.VecSet.Sets

/-! # The committed accesses to a byte

A store is inserted into the coherence order, without readers, and a load becomes a reader of its
source. Later events do not change the order of the earlier stores. -/

namespace Nidhugg.PowerArmRaces

open PowerArmBranches InsertionOrder

variable {m m' : Mem} {iid s : IID} {coPos : ℕ}

theorem strictTotal_iid : VecSet.StrictTotal IID.lt where
  irrefl := by
    intro a
    simp [IID.lt]
  trans := by
    intro a b c
    exact IID.lt_trans
  eq := by
    intro a b h
    by_contra hne
    have hba := IID.lt_of_not_lt hne h.1
    rw [h.2] at hba
    cases hba

/-! ### The loop of a store -/

namespace Mem

theorem coherence_shiftDown (turns : ℕ) :
    (shiftDown coPos turns m).coherence =
      InsertionOrder.shiftDown ⟨0, 0⟩ coPos turns m.coherence := by
  induction turns generalizing m with
  | zero => rfl
  | succ turns ih =>
      rw [shiftDown, ih]
      rfl

theorem loads_shiftDown (turns : ℕ) :
    (shiftDown coPos turns m).loads =
      InsertionOrder.shiftDown [] (coPos + 1) turns m.loads := by
  induction turns generalizing m with
  | zero => rfl
  | succ turns ih =>
      rw [shiftDown, ih, InsertionOrder.shiftDown]
      have hplace : coPos + turns + 1 = coPos + 1 + turns := by omega
      rw [shift, hplace]

theorem commitStore_eq (hlen : m.loads.length = m.coherence.length + 1)
    (hle : coPos ≤ m.coherence.length) :
    m.commitStore iid coPos =
      some ⟨m.coherence.insertIdx coPos iid, m.loads.insertIdx (coPos + 1) []⟩ := by
  have hturns : m.coherence.length - coPos = m.loads.length - (coPos + 1) := by omega
  rw [commitStore, if_pos hle]
  simp only [coherence_shiftDown, loads_shiftDown]
  rw [set_shiftDown_concat _ hle, hturns, set_shiftDown_concat _ (by omega)]

/-! ### Sources and readers -/

/-- What the loads at each position read from. -/
def sources (m : Mem) : List (Option IID) := none :: m.coherence.map some

/-- What is read with a choice. -/
def sourceOf : Choice → Option IID
  | .coherence _ => none
  | .source src => src

/-- The readers of each store are known, for the events that have been committed. -/
structure Tracks (m : Mem) (reads : IID → Option IID → Prop) : Prop where
  length : m.loads.length = m.coherence.length + 1
  loads : ∀ (l : ℕ) src readers, m.sources[l]? = some src → m.loads[l]? = some readers →
    ∀ iid, iid ∈ readers ↔ reads iid src
  source : ∀ iid src, reads iid src → src ∈ m.sources
  nodup : m.coherence.Nodup

variable {reads reads' : IID → Option IID → Prop} {src : Option IID} {A : ByteAccess} {C : Choice}

theorem length_sources (m : Mem) : m.sources.length = m.coherence.length + 1 := by
  simp [sources]

theorem some_mem_sources : some s ∈ m.sources ↔ s ∈ m.coherence := by
  simp [sources]

theorem Tracks.nodup_sources (h : m.Tracks reads) : m.sources.Nodup := by
  apply List.nodup_cons.mpr
  exact ⟨by simp, h.nodup.map fun _ _ => Option.some.inj⟩

theorem Tracks.congr (h : m.Tracks reads) (hreads : ∀ iid src, reads' iid src ↔ reads iid src) :
    m.Tracks reads' where
  length := h.length
  loads := by
    intro l src readers hsrc hreaders iid
    rw [h.loads l src readers hsrc hreaders iid, hreads]
  source := by
    intro iid src hr
    exact h.source iid src ((hreads iid src).mp hr)
  nodup := h.nodup

theorem tracks_new : Mem.new.Tracks fun _ _ => False where
  length := rfl
  loads := by
    intro l src readers hsrc hreaders iid
    cases l with
    | zero =>
        cases hreaders
        simp
    | succ l => cases hreaders
  source := by
    intro iid src h
    cases h
  nodup := .nil

/-! ### A store -/

theorem coherence_commitStore (h : m.commitStore iid coPos = some m') :
    coPos ≤ m.coherence.length ∧ m'.coherence = m.coherence.insertIdx coPos iid := by
  rw [commitStore] at h
  by_cases hle : coPos ≤ m.coherence.length
  · rw [if_pos hle] at h
    cases h
    refine ⟨hle, ?_⟩
    simp only [coherence_shiftDown]
    exact set_shiftDown_concat _ hle
  · rw [if_neg hle] at h
    cases h

theorem sources_insertIdx {loads : List (List IID)} :
    sources ⟨m.coherence.insertIdx coPos iid, loads⟩ =
      m.sources.insertIdx (coPos + 1) (some iid) := by
  rw [sources, sources, List.insertIdx_succ_cons, List.map_insertIdx]

theorem Tracks.commitStore (h : m.Tracks reads) (hiid : iid ∉ m.coherence)
    (hcommit : m.commitStore iid coPos = some m') : m'.Tracks reads := by
  have hle := (coherence_commitStore hcommit).1
  rw [commitStore_eq h.length hle] at hcommit
  cases hcommit
  constructor
  · show (m.loads.insertIdx (coPos + 1) []).length = (m.coherence.insertIdx coPos iid).length + 1
    rw [List.length_insertIdx_of_le_length (by rw [h.length]; omega),
      List.length_insertIdx_of_le_length hle, h.length]
  · intro l src readers hsrc hreaders other
    rw [sources_insertIdx] at hsrc
    change (m.loads.insertIdx (coPos + 1) [])[l]? = some readers at hreaders
    rcases Nat.lt_trichotomy l (coPos + 1) with hlt | rfl | hlt
    · rw [List.getElem?_insertIdx_of_lt hlt] at hsrc hreaders
      exact h.loads l src readers hsrc hreaders other
    · -- nothing reads from the new store
      rw [List.getElem?_insertIdx_self] at hsrc hreaders
      rw [if_pos (by rw [length_sources]; omega)] at hsrc
      rw [if_pos (by rw [h.length]; omega)] at hreaders
      cases hsrc
      cases hreaders
      simp only [List.not_mem_nil, false_iff]
      intro hr
      exact hiid (some_mem_sources.mp (h.source other _ hr))
    · rw [List.getElem?_insertIdx_of_gt hlt] at hsrc hreaders
      exact h.loads (l - 1) src readers hsrc hreaders other
  · intro other src hr
    rw [sources_insertIdx]
    exact (List.mem_insertIdx (by rw [length_sources]; omega)).mpr (.inr (h.source other src hr))
  · exact (List.perm_insertIdx iid m.coherence hle).nodup_iff.mpr
      (List.nodup_cons.mpr ⟨hiid, h.nodup⟩)

/-! ### A load -/

theorem commitLoad_eq_some (h : m.commitLoad iid src = some m') :
    ∃ l, m.sources[l]? = some src ∧ m' = m.insertLoad iid l := by
  cases src with
  | none =>
      cases h
      exact ⟨0, rfl, rfl⟩
  | some s =>
      obtain ⟨i, hi, rfl⟩ := Option.map_eq_some_iff.mp h
      refine ⟨i + 1, ?_, rfl⟩
      obtain ⟨hlt, hget, _⟩ := List.findIdx?_eq_some_iff_getElem.mp hi
      have heq : m.coherence[i] = s := by simpa using hget
      simp [sources, hlt, heq]

theorem Tracks.insertLoad (h : m.Tracks reads) {l : ℕ} (hl : m.sources[l]? = some src) :
    (m.insertLoad iid l).Tracks fun other src' => reads other src' ∨ (other = iid ∧ src' = src) where
  length := by
    rw [Mem.insertLoad, List.length_modify]
    exact h.length
  loads := by
    intro l' src' readers hsrc hreaders other
    change (m.loads.modify l fun iids => VecSet.insert IID.lt iids iid)[l']? = _ at hreaders
    change m.sources[l']? = some src' at hsrc
    by_cases heq : l = l'
    · subst heq
      rw [List.getElem?_modify_eq] at hreaders
      obtain ⟨before, hbefore, rfl⟩ := Option.map_eq_some_iff.mp hreaders
      rw [hl] at hsrc
      cases hsrc
      rw [VecSet.mem_insert strictTotal_iid, h.loads l src before hl hbefore other, or_comm]
      simp
    · rw [List.getElem?_modify_ne _ _ heq] at hreaders
      have hne : src' ≠ src := by
        rintro rfl
        exact heq ((List.getElem?_inj (List.getElem?_eq_some_iff.mp hl).1 h.nodup_sources).mp
          (hl.trans hsrc.symm))
      rw [h.loads l' src' readers hsrc hreaders other]
      simp [hne]
  source := by
    intro other src' hr
    cases hr with
    | inl hr => exact h.source other src' hr
    | inr hr =>
        rw [hr.2]
        exact List.mem_of_getElem? hl
  nodup := h.nodup

/-! ### One access -/

/-- The position or the source of a choice exists. -/
def Fits (m : Mem) (A : ByteAccess) : Choice → Prop
  | .coherence coPos => A.isStore = true ∧ coPos ≤ m.coherence.length
  | .source src => A.isStore = false ∧ src ∈ m.sources

theorem Fits.exists_commit (h : m.Fits A C) (iid : IID) : ∃ m', m.commit iid A C = some m' := by
  cases C with
  | coherence coPos =>
      rw [commit, if_pos h.1, commitStore, if_pos h.2]
      exact ⟨_, rfl⟩
  | source src =>
      rw [commit, if_neg (by simp [h.1])]
      cases src with
      | none => exact ⟨_, rfl⟩
      | some s =>
          have hs := some_mem_sources.mp h.2
          cases hfind : m.coherence.idxOf? s with
          | none =>
              rw [List.idxOf?, List.findIdx?_eq_none_iff] at hfind
              simpa using hfind s hs
          | some i =>
              rw [commitLoad, hfind]
              exact ⟨_, rfl⟩

theorem commit_cases (h : m.commit iid A C = some m') :
    (A.isStore = true ∧ ∃ coPos, C = .coherence coPos ∧ m.commitStore iid coPos = some m') ∨
      (A.isStore = false ∧ m.commitLoad iid (sourceOf C) = some m') := by
  cases C with
  | coherence coPos =>
      rw [commit] at h
      cases hstore : A.isStore with
      | true =>
          rw [if_pos hstore] at h
          exact .inl ⟨rfl, coPos, rfl, h⟩
      | false =>
          rw [if_neg (by simp [hstore])] at h
          exact .inr ⟨rfl, h⟩
  | source src =>
      rw [commit] at h
      cases hstore : A.isStore with
      | true =>
          rw [if_pos hstore] at h
          cases h
      | false =>
          rw [if_neg (by simp [hstore])] at h
          exact .inr ⟨rfl, h⟩

end Mem

/-! ### The accesses of an event -/

variable {mem mem' : Memory} {accesses : List (ByteAccess × Choice)} {x : Addr}

/-- The coherence orders of all bytes. -/
def coherenceOf (mem : Memory) : Coherence := fun x => (mem x).coherence

theorem coherenceOf_update (m : Mem) :
    coherenceOf (Function.update mem x m) = Function.update (coherenceOf mem) x m.coherence := by
  funext y
  by_cases hy : y = x
  · subst hy
    simp [coherenceOf]
  · simp [coherenceOf, hy]

theorem coherenceOf_commitAccess {u : ByteAccess × Choice}
    (h : commitAccess iid mem u = some mem') :
    PowerArmBranches.commitAccess iid (coherenceOf mem) u = some (coherenceOf mem') := by
  obtain ⟨m', hm', rfl⟩ := Option.map_eq_some_iff.mp h
  obtain ⟨A, C⟩ := u
  dsimp only at hm' ⊢
  rw [coherenceOf_update]
  cases Mem.commit_cases hm' with
  | inl hstore =>
      obtain ⟨hA, coPos, rfl, hcommit⟩ := hstore
      obtain ⟨hle, heq⟩ := Mem.coherence_commitStore hcommit
      rw [PowerArmBranches.commitAccess, if_pos hA, heq]
      exact if_pos hle
  | inr hload =>
      obtain ⟨hA, hload⟩ := hload
      obtain ⟨l, _, rfl⟩ := Mem.commitLoad_eq_some hload
      rw [commitAccess_of_not_store (by simp [hA])]
      exact congrArg some (Function.update_eq_self A.addr (coherenceOf mem)).symm

theorem coherenceOf_foldlM (h : accesses.foldlM (commitAccess iid) mem = some mem') :
    accesses.foldlM (PowerArmBranches.commitAccess iid) (coherenceOf mem) =
      some (coherenceOf mem') := by
  induction accesses generalizing mem with
  | nil =>
      cases h
      rfl
  | cons u accesses ih =>
      rw [List.foldlM_cons] at h ⊢
      obtain ⟨mem₁, hmem₁, hrest⟩ := Option.bind_eq_some_iff.mp h
      rw [coherenceOf_commitAccess hmem₁]
      exact ih hrest

/-- A load among the accesses reads from a source. -/
def Reads (accesses : List (ByteAccess × Choice)) (x : Addr) (src : Option IID) : Prop :=
  ∃ A C, (A, C) ∈ accesses ∧ A.isStore = false ∧ A.addr = x ∧ Mem.sourceOf C = src

theorem reads_cons {u : ByteAccess × Choice} {src : Option IID} :
    Reads (u :: accesses) x src ↔
      (u.1.isStore = false ∧ u.1.addr = x ∧ Mem.sourceOf u.2 = src) ∨ Reads accesses x src := by
  obtain ⟨A, C⟩ := u
  constructor
  · rintro ⟨B, D, hmem, hload⟩
    cases List.mem_cons.mp hmem with
    | inl heq =>
        cases heq
        exact .inl hload
    | inr hmem => exact .inr ⟨B, D, hmem, hload⟩
  · intro h
    cases h with
    | inl hload => exact ⟨A, C, List.mem_cons_self, hload⟩
    | inr hreads =>
        obtain ⟨B, D, hmem, hload⟩ := hreads
        exact ⟨B, D, List.mem_cons_of_mem _ hmem, hload⟩

/-- The readers known at each byte. -/
def Tracked (mem : Memory) (reads : Addr → IID → Option IID → Prop) : Prop :=
  ∀ x, (mem x).Tracks (reads x)

variable {reads : Addr → IID → Option IID → Prop}

theorem Tracked.commitAccess {A : ByteAccess} {C : Choice} (h : Tracked mem reads)
    (hiid : A.isStore = true → iid ∉ (mem A.addr).coherence)
    (hcommit : commitAccess iid mem (A, C) = some mem') :
    Tracked mem' fun x other src => reads x other src ∨
      (other = iid ∧ A.isStore = false ∧ A.addr = x ∧ Mem.sourceOf C = src) := by
  obtain ⟨m', hm', rfl⟩ := Option.map_eq_some_iff.mp hcommit
  dsimp only at hm' ⊢
  intro x
  by_cases hx : x = A.addr
  · subst hx
    rw [Function.update_self]
    cases Mem.commit_cases hm' with
    | inl hstore =>
        obtain ⟨hA, coPos, rfl, hstore⟩ := hstore
        exact ((h A.addr).commitStore (hiid hA) hstore).congr (by simp [hA])
    | inr hload =>
        obtain ⟨hA, hload⟩ := hload
        obtain ⟨l, hl, rfl⟩ := Mem.commitLoad_eq_some hload
        apply ((h A.addr).insertLoad hl).congr
        intro other src
        simp only [hA, true_and, eq_comm]
  · rw [Function.update_of_ne hx]
    exact (h x).congr (by simp [Ne.symm hx])

/-- An event that has not stored yet is committed. -/
theorem Tracked.foldlM (h : Tracked mem reads) (hseparate : Separate accesses)
    (hiid : ∀ u ∈ accesses, u.1.isStore = true → iid ∉ (mem u.1.addr).coherence)
    (hcommit : accesses.foldlM (PowerArmRaces.commitAccess iid) mem = some mem') :
    Tracked mem' fun x other src => reads x other src ∨ (other = iid ∧ Reads accesses x src) := by
  induction accesses generalizing mem reads with
  | nil =>
      cases hcommit
      intro x
      exact (h x).congr (by simp [Reads])
  | cons u accesses ih =>
      obtain ⟨A, C⟩ := u
      rw [List.foldlM_cons] at hcommit
      obtain ⟨mem₁, hmem₁, hrest⟩ := Option.bind_eq_some_iff.mp hcommit
      obtain ⟨hne, hseparate⟩ := List.pairwise_cons.mp hseparate
      have hiid₁ : ∀ u ∈ accesses, u.1.isStore = true → iid ∉ (mem₁ u.1.addr).coherence := by
        intro v hv hstore
        obtain ⟨m', hm', rfl⟩ := Option.map_eq_some_iff.mp hmem₁
        by_cases haddr : v.1.addr = A.addr
        · rw [haddr, Function.update_self]
          cases Mem.commit_cases hm' with
          | inl hA => exact (hne v hv hA.1 hstore haddr.symm).elim
          | inr hload =>
              obtain ⟨l, _, rfl⟩ := Mem.commitLoad_eq_some hload.2
              exact haddr ▸ hiid v (List.mem_cons_of_mem _ hv) hstore
        · rw [Function.update_of_ne haddr]
          exact hiid v (List.mem_cons_of_mem _ hv) hstore
      have htracked := ih (h.commitAccess (hiid (A, C) List.mem_cons_self) hmem₁) hseparate hiid₁
        hrest
      intro x
      apply (htracked x).congr
      intro other src
      simp only [reads_cons, and_or_left, or_assoc]

/-- Choices that fit can be committed. -/
theorem exists_foldlM_commitAccess (hseparate : Separate accesses)
    (hfits : ∀ u ∈ accesses, (mem u.1.addr).Fits u.1 u.2) :
    ∃ mem', accesses.foldlM (commitAccess iid) mem = some mem' := by
  induction accesses generalizing mem with
  | nil => exact ⟨mem, rfl⟩
  | cons u accesses ih =>
      obtain ⟨A, C⟩ := u
      obtain ⟨hne, hseparate⟩ := List.pairwise_cons.mp hseparate
      obtain ⟨m', hm'⟩ := (hfits (A, C) List.mem_cons_self).exists_commit iid
      have hrest : ∀ v ∈ accesses, (Function.update mem A.addr m' v.1.addr).Fits v.1 v.2 := by
        intro v hv
        have hv' := hfits v (List.mem_cons_of_mem _ hv)
        by_cases haddr : v.1.addr = A.addr
        · rw [haddr, Function.update_self]
          rw [haddr] at hv'
          obtain ⟨B, D⟩ := v
          cases Mem.commit_cases hm' with
          | inl hstore =>
              obtain ⟨hA, coPos, _, hcommit⟩ := hstore
              obtain ⟨hle, heq⟩ := Mem.coherence_commitStore hcommit
              cases D with
              | coherence coPos => exact (hne _ hv hA hv'.1 haddr.symm).elim
              | source src =>
                  refine ⟨hv'.1, ?_⟩
                  cases src with
                  | none => exact List.mem_cons_self
                  | some s =>
                      rw [Mem.some_mem_sources, heq, List.mem_insertIdx hle]
                      exact .inr (Mem.some_mem_sources.mp hv'.2)
          | inr hload =>
              obtain ⟨l, _, rfl⟩ := Mem.commitLoad_eq_some hload.2
              cases D with
              | coherence coPos => exact hv'
              | source src => exact hv'
        · rw [Function.update_of_ne haddr]
          exact hv'
      obtain ⟨mem', hmem'⟩ := ih hseparate hrest
      refine ⟨mem', ?_⟩
      rw [List.foldlM_cons, commitAccess, hm']
      exact hmem'

/-! ### The choices of an event -/

/-- What an event registers are accesses of a program. -/
theorem exists_accesses {evt : PowerArmAccesses.Event} (h : PowerArmAccesses.Consistent evt)
    (loadReq : Bool) : ∃ a : Accesses, a.loadCount = evt.loadCount ∧
      a.storeCount = evt.accesses.length - evt.loadCount ∧ a.loadReq = loadReq ∧
      a.baccesses = evt.baccesses.map fun b => ⟨b.type = .store, b.addr⟩ := by
  refine ⟨⟨evt.loadCount, evt.accesses.length - evt.loadCount, loadReq, _, ?_, ?_⟩, rfl, rfl, rfl,
    rfl⟩
  · rw [List.pairwise_map]
    exact h.distinct_stores.imp fun hne hb hc =>
      hne (of_decide_eq_true hb) (of_decide_eq_true hc)
  · intro A hA hstore
    obtain ⟨b, hb, rfl⟩ := List.mem_map.mp hA
    exact Nat.sub_pos_of_lt (h.loadCount_lt hb (of_decide_eq_true hstore))

variable {prog : Program} {pe : PEvent} {h later : History} {acc : IID → Accesses}

/-! ### One event -/

/-- The choices for all accesses fit. -/
structure Fitting (mem : Memory) (baccesses : List ByteAccess) (choices : List Choice) : Prop where
  length : baccesses.length = choices.length
  fits : ∀ u ∈ baccesses.zip choices, (mem u.1.addr).Fits u.1 u.2

/-- The sources of the loads have stored. -/
theorem Fitting.exists_coherence {baccesses : List ByteAccess} {choices : List Choice}
    (h : Fitting mem baccesses choices) (hs : s ∈ sources choices) :
    ∃ x, s ∈ (mem x).coherence := by
  obtain ⟨C, hC, hsrc⟩ := List.mem_filterMap.mp hs
  obtain ⟨i, hi⟩ := List.mem_iff_getElem?.mp hC
  have hlt : i < baccesses.length := h.length ▸ (List.getElem?_eq_some_iff.mp hi).1
  have hzip : (baccesses[i], C) ∈ baccesses.zip choices :=
    List.mem_of_getElem? (List.getElem?_zip_eq_some.mpr ⟨List.getElem?_eq_getElem hlt, hi⟩)
  have hfits := h.fits _ hzip
  cases C with
  | coherence p => cases hsrc
  | source src =>
      obtain rfl : src = some s := hsrc
      exact ⟨_, Mem.some_mem_sources.mp hfits.2⟩

theorem Accesses.separate (a : Accesses) {choices : List Choice}
    (hlen : a.baccesses.length = choices.length) : Separate (a.baccesses.zip choices) := by
  have hdistinct := a.distinct
  rw [← List.map_fst_zip hlen.le, List.pairwise_map] at hdistinct
  exact hdistinct

theorem Fitting.exists_commitAccesses {a : Accesses} {choices : List Choice}
    (hfits : Fitting mem a.baccesses choices) (iid : IID) :
    ∃ mem', commitAccesses a.baccesses mem ⟨iid, choices⟩ = some mem' := by
  rw [commitAccesses, if_pos hfits.length]
  exact exists_foldlM_commitAccess (a.separate hfits.length) hfits.fits

theorem foldlM_of_commitAccesses {baccesses : List ByteAccess}
    (hcommit : commitAccesses baccesses mem pe = some mem') :
    baccesses.length = pe.choices.length ∧
      (baccesses.zip pe.choices).foldlM (commitAccess pe.iid) mem = some mem' := by
  rw [commitAccesses] at hcommit
  by_cases hlen : baccesses.length = pe.choices.length
  · rw [if_pos hlen] at hcommit
    exact ⟨hlen, hcommit⟩
  · rw [if_neg hlen] at hcommit
    cases hcommit

/-- The stores of an event are inserted at their positions. -/
theorem commits_of_commitAccesses {a : Accesses}
    (hcommit : commitAccesses a.baccesses mem pe = some mem') :
    Commits pe.iid (PlacesAt (a.baccesses.zip pe.choices)) (coherenceOf mem) (coherenceOf mem') := by
  obtain ⟨hlen, hcommit⟩ := foldlM_of_commitAccesses hcommit
  exact commits_of_foldlM (a.separate hlen) (coherenceOf_foldlM hcommit)

theorem mem_of_commitAccesses {a : Accesses}
    (hcommit : commitAccesses a.baccesses mem pe = some mem') (hs : s ∈ (mem' x).coherence) :
    s ∈ (mem x).coherence ∨ (s = pe.iid ∧ 0 < a.storeCount) := by
  have hcommits := commits_of_commitAccesses hcommit
  by_cases hplace : ∃ p, PlacesAt (a.baccesses.zip pe.choices) x p
  · obtain ⟨p, hp⟩ := hplace
    obtain ⟨hle, heq⟩ := hcommits.placed x p hp
    obtain ⟨A, hA, hstore, _⟩ := hp
    have hmem : s ∈ (coherenceOf mem x).insertIdx p pe.iid := heq ▸ hs
    cases (List.mem_insertIdx hle).mp hmem with
    | inl hself => exact .inr ⟨hself, a.stores A (List.of_mem_zip hA).1 hstore⟩
    | inr hold => exact .inl hold
  · have hkept := hcommits.kept x fun p hp => hplace ⟨p, hp⟩
    have hmem : s ∈ coherenceOf mem x := hkept ▸ hs
    exact .inl hmem

/-! ### Histories -/

/-- The memory after the events of a history. -/
inductive Results (prog : Program) : History → Memory → Prop
  | nil : Results prog [] .new
  | cons {h : History} {mem mem' : Memory} {pe : PEvent} (hmem : Results prog h mem)
      (hfits : Fitting mem (prog h pe.iid).baccesses pe.choices)
      (hcommit : commitAccesses (prog h pe.iid).baccesses mem pe = some mem') :
      Results prog (pe :: h) mem'

theorem Results.of_cons (hresults : Results prog (pe :: h) mem') :
    ∃ mem, Results prog h mem ∧ Fitting mem (prog h pe.iid).baccesses pe.choices ∧
      commitAccesses (prog h pe.iid).baccesses mem pe = some mem' := by
  cases hresults with
  | cons hmem hfits hcommit => exact ⟨_, hmem, hfits, hcommit⟩

theorem Results.of_append (hresults : Results prog (later ++ h) mem') :
    ∃ mem, Results prog h mem := by
  induction later generalizing mem' with
  | nil => exact ⟨mem', hresults⟩
  | cons pe later ih =>
      obtain ⟨mem, hmem, _⟩ := hresults.of_cons
      exact ih hmem

theorem Results.unique (hresults : Results prog h mem) (hresults' : Results prog h mem') :
    mem = mem' := by
  induction hresults generalizing mem' with
  | nil =>
      cases hresults'
      rfl
  | cons hmem hfits hcommit ih =>
      obtain ⟨mem₁, hmem₁, _, hcommit'⟩ := hresults'.of_cons
      obtain rfl := ih hmem₁
      exact Option.some.inj (hcommit.symm.trans hcommit')

/-- Only events of the history have stored. -/
theorem Results.exists_store (hresults : Results (fun _ => acc) h mem)
    (hs : s ∈ (mem x).coherence) : s ∈ h.map PEvent.iid ∧ 0 < (acc s).storeCount := by
  induction hresults with
  | nil => cases hs
  | cons hmem hfits hcommit ih =>
      cases mem_of_commitAccesses hcommit hs with
      | inl hold => exact ⟨List.mem_cons_of_mem _ (ih hold).1, (ih hold).2⟩
      | inr hself => exact ⟨List.mem_cons.mpr (.inl hself.1), hself.1 ▸ hself.2⟩

/-- An event that follows leaves the order of the stores of the history as it is. -/
theorem filter_of_commitAccesses {a : Accesses} {K : IID → Bool} (hiid : K pe.iid = false)
    (hcommit : commitAccesses a.baccesses mem pe = some mem') (x : Addr) :
    (mem' x).coherence.filter K = (mem x).coherence.filter K := by
  have hcommits := commits_of_commitAccesses hcommit
  by_cases hplace : ∃ p, PlacesAt (a.baccesses.zip pe.choices) x p
  · obtain ⟨p, hp⟩ := hplace
    obtain ⟨hle, heq⟩ := hcommits.placed x p hp
    calc (mem' x).coherence.filter K
        = ((coherenceOf mem x).insertIdx p pe.iid).filter K := congrArg (List.filter K) heq
      _ = (mem x).coherence.filter K := filter_insertIdx_of_not hle hiid
  · exact congrArg (List.filter K) (hcommits.kept x fun p hp => hplace ⟨p, hp⟩)

/-- The stores of a history keep their order in every longer history. -/
theorem Results.restrict (hresults : Results (fun _ => acc) (later ++ h) mem')
    (hmem : Results (fun _ => acc) h mem) (hnodup : ((later ++ h).map PEvent.iid).Nodup)
    (x : Addr) :
    (mem' x).coherence.filter (fun s => s ∈ h.map PEvent.iid) = (mem x).coherence := by
  induction later generalizing mem' with
  | nil =>
      obtain rfl := hresults.unique hmem
      apply List.filter_eq_self.mpr
      intro s hs
      exact decide_eq_true (hresults.exists_store hs).1
  | cons pe later ih =>
      rw [List.cons_append] at hresults hnodup
      obtain ⟨mem₁, hmem₁, _, hcommit⟩ := hresults.of_cons
      obtain ⟨hnotMem, hnodup⟩ := List.nodup_cons.mp hnodup
      rw [← ih hmem₁ hnodup]
      apply filter_of_commitAccesses _ hcommit x
      apply decide_eq_false
      intro hiid
      apply hnotMem
      rw [List.map_append]
      exact List.mem_append_right _ hiid

/-- The loads of the events of a history. -/
def ReadsIn (acc : IID → Accesses) (h : History) (x : Addr) (iid : IID) (src : Option IID) : Prop :=
  ∃ pe ∈ h, pe.iid = iid ∧ Reads ((acc iid).baccesses.zip pe.choices) x src

/-- The readers of each store are those of the history. -/
theorem Results.tracked (hresults : Results (fun _ => acc) h mem)
    (hnodup : (h.map PEvent.iid).Nodup) : Tracked mem (ReadsIn acc h) := by
  induction hresults with
  | nil =>
      intro x
      exact Mem.tracks_new.congr (by simp [ReadsIn])
  | @cons h mem mem' pe hmem hfits hcommit ih =>
      obtain ⟨hnotMem, hnodup⟩ := List.nodup_cons.mp hnodup
      obtain ⟨hlen, hfold⟩ := foldlM_of_commitAccesses hcommit
      have htracked := (ih hnodup).foldlM ((acc pe.iid).separate hlen)
        (fun u hu hstore hiid => hnotMem (hmem.exists_store hiid).1) hfold
      intro x
      apply (htracked x).congr
      intro iid src
      rw [ReadsIn, List.exists_mem_cons_iff, or_comm]
      apply or_congr Iff.rfl
      constructor
      · rintro ⟨rfl, hreads⟩
        exact ⟨rfl, hreads⟩
      · rintro ⟨rfl, hreads⟩
        exact ⟨rfl, hreads⟩

/-- The events of a history one by one, in their order. -/
theorem Results.foldlM_reverse (hresults : Results (fun _ => acc) h mem) :
    h.reverse.foldlM (fun mem pe => commitAccesses (acc pe.iid).baccesses mem pe) Memory.new =
      some mem := by
  induction hresults with
  | nil => rfl
  | cons hmem hfits hcommit ih =>
      rw [List.reverse_cons, List.foldlM_append, ih]
      simpa using hcommit

end Nidhugg.PowerArmRaces
