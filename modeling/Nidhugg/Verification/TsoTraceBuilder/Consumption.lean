import Mathlib.Algebra.BigOperators.Group.List.Basic
import Mathlib.Algebra.GroupWithZero.Nat
import Nidhugg.Model.TsoWakeupTree

/-! # What a child consumes of a wakeup sequence

Descending into a child of the wakeup tree should take exactly the events of the child off the
sequence. When the child ends inside a branch after the matching one, the code keeps the part
that it should take off. -/

namespace Nidhugg.TsoTraceBuilder

/-- The sizes of the branches of a process, in order. -/
def sizes (pid : ℕ) (v : List Branch) : List ℕ := (v.filter (·.pid = pid)).map (·.size)

/-- The number of events of a process. -/
def total (pid : ℕ) (v : List Branch) : ℕ := (sizes pid v).sum

/-- A branch that stays, or what is left of a branch of the process. -/
def Remains (pid : ℕ) (b b' : Branch) : Prop :=
  b' = b ∨ b.pid = pid ∧ b'.pid = pid ∧ b'.size ≤ b.size

/-- What stays of a sequence keeps its order. -/
def Thins (pid : ℕ) (v v' : List Branch) : Prop :=
  ∃ l, l.Sublist v ∧ List.Forall₂ (Remains pid) l v'

/-- The child takes its events off the sequence and leaves the rest alone. -/
structure Consumes (child : Branch) (v v' : List Branch) : Prop where
  total : total child.pid v' + min child.size (total child.pid v) = total child.pid v
  others : v'.filter (·.pid ≠ child.pid) = v.filter (·.pid ≠ child.pid)
  order : Thins child.pid v v'

/-- A branch in which `missing` events end is cut in half by them. -/
def Halves (missing : ℕ) (sizes : List ℕ) : Prop :=
  ∀ front b back, sizes = front ++ b :: back → front.sum < missing → missing < front.sum + b →
    b = 2 * (missing - front.sum)

/-- If the child ends inside a branch after the first one, it ends in the middle of it. -/
def HalvesLater (size : ℕ) (sizes : List ℕ) : Prop :=
  ∀ front b back, sizes = front ++ b :: back → front ≠ [] → front.sum < size →
    size < front.sum + b → b = 2 * (size - front.sum)

/-! ## Counting -/

theorem sizes_cons_same {pid : ℕ} {b : Branch} (v : List Branch) (h : b.pid = pid) :
    sizes pid (b :: v) = b.size :: sizes pid v := by
  simp [sizes, h]

theorem sizes_cons_other {pid : ℕ} {b : Branch} (v : List Branch) (h : b.pid ≠ pid) :
    sizes pid (b :: v) = sizes pid v := by
  simp [sizes, h]

theorem sizes_append (pid : ℕ) (v w : List Branch) :
    sizes pid (v ++ w) = sizes pid v ++ sizes pid w := by
  simp [sizes]

theorem sizes_eq_nil {pid : ℕ} {v : List Branch} (h : ∀ b ∈ v, b.pid ≠ pid) :
    sizes pid v = [] := by
  simpa [sizes] using h

theorem halves_zero (sizes : List ℕ) : Halves 0 sizes := by
  intro front b back _ h
  omega

theorem halves_nil (missing : ℕ) : Halves missing [] := by
  intro front b back h
  simp at h

theorem halves_cons_iff {missing b : ℕ} {sizes : List ℕ} (h : 0 < missing) :
    Halves missing (b :: sizes) ↔
      (missing < b → b = 2 * missing) ∧ (b ≤ missing → Halves (missing - b) sizes) := by
  constructor
  · intro hcut
    constructor
    · intro hb
      simpa using hcut [] b sizes rfl (by simpa using h) (by simpa using hb)
    · intro hb front c back heq hlow hhigh
      have hlater := hcut (b :: front) c back (by simp [heq])
        (by simp only [List.sum_cons]; omega) (by simp only [List.sum_cons]; omega)
      simp only [List.sum_cons] at hlater
      omega
  · rintro ⟨hfirst, hlater⟩ front c back heq hlow hhigh
    cases front with
    | nil =>
        simp only [List.nil_append, List.cons.injEq] at heq
        obtain ⟨rfl, -⟩ := heq
        simpa using hfirst (by simpa using hhigh)
    | cons d front =>
        simp only [List.cons_append, List.cons.injEq] at heq
        obtain ⟨rfl, heq⟩ := heq
        simp only [List.sum_cons] at hlow hhigh ⊢
        have hcut := hlater (by omega) front c back heq (by omega) (by omega)
        omega

theorem halvesLater_cons_iff {size b : ℕ} {sizes : List ℕ} :
    HalvesLater size (b :: sizes) ↔ (b < size → Halves (size - b) sizes) := by
  constructor
  · intro hcut hb front c back heq hlow hhigh
    have hlater := hcut (b :: front) c back (by simp [heq]) (by simp)
      (by simp only [List.sum_cons]; omega) (by simp only [List.sum_cons]; omega)
    simp only [List.sum_cons] at hlater
    omega
  · intro hcut front c back heq hne hlow hhigh
    cases front with
    | nil => exact absurd rfl hne
    | cons d front =>
        simp only [List.cons_append, List.cons.injEq] at heq
        obtain ⟨rfl, heq⟩ := heq
        simp only [List.sum_cons] at hlow hhigh ⊢
        have hlater := hcut (by omega) front c back heq (by omega) (by omega)
        omega

/-! ## Order -/

theorem Remains.refl (pid : ℕ) (b : Branch) : Remains pid b b := Or.inl rfl

theorem Thins.refl (pid : ℕ) (v : List Branch) : Thins pid v v :=
  ⟨v, List.Sublist.refl v, List.forall₂_same.mpr fun b _ => Remains.refl pid b⟩

theorem Thins.drop {pid : ℕ} {v v' : List Branch} (b : Branch) (h : Thins pid v v') :
    Thins pid (b :: v) v' := by
  obtain ⟨l, hsub, hrem⟩ := h
  exact ⟨l, hsub.cons b, hrem⟩

theorem Thins.cons {pid : ℕ} {v v' : List Branch} {b b' : Branch} (hb : Remains pid b b')
    (h : Thins pid v v') : Thins pid (b :: v) (b' :: v') := by
  obtain ⟨l, hsub, hrem⟩ := h
  exact ⟨b :: l, hsub.cons_cons b, List.Forall₂.cons hb hrem⟩

theorem Thins.append {pid : ℕ} {v v' : List Branch} (front : List Branch)
    (h : Thins pid v v') : Thins pid (front ++ v) (front ++ v') := by
  induction front with
  | nil => exact h
  | cons b front ih => exact ih.cons (Remains.refl pid b)

/-! ## The branches after the match -/

theorem dropMissing_others {pid missing : ℕ} {v v' : List Branch}
    (h : dropMissing pid missing v = some v') :
    v'.filter (·.pid ≠ pid) = v.filter (·.pid ≠ pid) := by
  fun_induction dropMissing pid missing v generalizing v' with
  | case1 v =>
      cases h
      rfl
  | case2 missing =>
      cases h
      rfl
  | case3 missing vr v hpid hsym hsize =>
      cases h
      simp [hpid]
  | case4 missing vr v hpid hsym hsize ih =>
      rw [ih h]
      simp [hpid]
  | case5 => simp at h
  | case6 missing vr v hpid ih =>
      obtain ⟨w, hw, rfl⟩ := Option.map_eq_some_iff.mp h
      simp only [List.filter_cons, ih hw]

theorem dropMissing_thins {pid missing : ℕ} {v v' : List Branch}
    (h : dropMissing pid missing v = some v') : Thins pid v v' := by
  fun_induction dropMissing pid missing v generalizing v' with
  | case1 v =>
      cases h
      exact Thins.refl pid v
  | case2 missing =>
      cases h
      exact Thins.refl pid []
  | case3 missing vr v hpid hsym hsize =>
      cases h
      exact Thins.cons (Or.inr ⟨hpid, hpid, Nat.le_of_lt hsize⟩) (Thins.refl pid v)
  | case4 missing vr v hpid hsym hsize ih => exact (ih h).drop vr
  | case5 => simp at h
  | case6 missing vr v hpid ih =>
      obtain ⟨w, hw, rfl⟩ := Option.map_eq_some_iff.mp h
      exact (ih hw).cons (Remains.refl pid vr)

/-- The events are taken off as they should be unless a branch is cut. -/
theorem dropMissing_total_iff {pid missing : ℕ} {v v' : List Branch}
    (h : dropMissing pid missing v = some v') :
    total pid v' + min missing (total pid v) = total pid v ↔ Halves missing (sizes pid v) := by
  fun_induction dropMissing pid missing v generalizing v' with
  | case1 v =>
      cases h
      simp [halves_zero]
  | case2 missing =>
      cases h
      simp [total, sizes, halves_nil]
  | case3 missing vr v hpid hsym hsize =>
      cases h
      rw [sizes_cons_same v hpid, halves_cons_iff (by omega)]
      simp only [total, sizes_cons_same v hpid, List.sum_cons,
        sizes_cons_same (b := { vr with size := missing + 1 }) v hpid]
      constructor
      · intro htotal
        exact ⟨fun _ => by omega, fun hle => by omega⟩
      · rintro ⟨hhalf, -⟩
        have := hhalf hsize
        omega
  | case4 missing vr v hpid hsym hsize ih =>
      rw [sizes_cons_same v hpid, halves_cons_iff (by omega)]
      have hrest := ih h
      simp only [total, sizes_cons_same v hpid, List.sum_cons] at hrest ⊢
      constructor
      · intro htotal
        exact ⟨fun hlt => absurd hlt hsize, fun _ => hrest.mp (by omega)⟩
      · rintro ⟨-, hcut⟩
        have := hrest.mpr (hcut (by omega))
        omega
  | case5 => simp at h
  | case6 missing vr v hpid ih =>
      obtain ⟨w, hw, rfl⟩ := Option.map_eq_some_iff.mp h
      rw [sizes_cons_other v hpid, ← ih hw]
      simp only [total, sizes_cons_other _ hpid]

/-! ## The matching branch -/

theorem doEventsConflict_same (conf : Configuration) (pid : ℕ) (fst snd : List SymEv) :
    doEventsConflict conf pid fst pid snd = true := by
  simp [doEventsConflict]

/-- A match is the first branch of its process: an earlier one would conflict with the child. -/
theorem exists_of_matchChild {conf : Configuration} {child : Branch} {front v v' : List Branch}
    (h : matchChild conf child front v = some (.recurse v')) :
    ∃ mid ve back back', v = mid ++ ve :: back ∧ (∀ b ∈ mid, b.pid ≠ child.pid) ∧
      ve.pid = child.pid ∧ dropCommon child ve back = some back' ∧
      v' = front ++ mid ++ back' := by
  induction v generalizing front with
  | nil => simp [matchChild] at h
  | cons ve back ih =>
      rw [matchChild] at h
      by_cases hsame : child.same ve = true
      · simp only [hsame, if_true] at h
        split at h
        · cases h
        · split at h
          · cases h
          · obtain ⟨back', hback', hv'⟩ := Option.map_eq_some_iff.mp h
            simp only [Match.recurse.injEq] at hv'
            have hpid : child.pid = ve.pid := by
              simp only [Branch.same, Bool.and_eq_true, decide_eq_true_eq] at hsame
              exact hsame.1
            exact ⟨[], ve, back, back', rfl, by simp, hpid.symm, hback', by simp [hv']⟩
      · rw [if_neg hsame] at h
        by_cases hconf : doEventsConflict conf ve.pid ve.sym child.pid child.sym = true
        · simp [hconf] at h
        · rw [if_neg hconf] at h
          obtain ⟨mid, ve', back₁, back', rfl, hmid, hpid, hback', rfl⟩ := ih h
          have hother : ve.pid ≠ child.pid := by
            intro heq
            exact hconf (heq ▸ doEventsConflict_same conf _ _ _)
          refine ⟨ve :: mid, ve', back₁, back', rfl, ?_, hpid, hback', by simp⟩
          intro b hb
          cases hb with
          | head => exact hother
          | tail _ hb => exact hmid b hb

theorem dropCommon_others {child ve : Branch} {back back' : List Branch}
    (hpid : ve.pid = child.pid) (h : dropCommon child ve back = some back') :
    back'.filter (·.pid ≠ child.pid) = (ve :: back).filter (·.pid ≠ child.pid) := by
  rw [dropCommon] at h
  split at h
  · rw [hpid] at h
    rw [dropMissing_others h]
    simp [hpid]
  · split at h
    · cases h
      simp [hpid]
    · cases h
      simp [hpid]

theorem dropCommon_thins {child ve : Branch} {back back' : List Branch}
    (hpid : ve.pid = child.pid) (h : dropCommon child ve back = some back') :
    Thins child.pid (ve :: back) back' := by
  rw [dropCommon] at h
  split at h
  · rw [hpid] at h
    exact (dropMissing_thins h).drop ve
  · split at h
    · cases h
      exact Thins.cons (Or.inr ⟨hpid, hpid, Nat.sub_le _ _⟩) (Thins.refl _ back)
    · cases h
      exact (Thins.refl _ back).drop ve

theorem dropCommon_total_iff {child ve : Branch} {back back' : List Branch}
    (hpid : ve.pid = child.pid) (h : dropCommon child ve back = some back') :
    total child.pid back' + min child.size (total child.pid (ve :: back)) =
        total child.pid (ve :: back) ↔ HalvesLater child.size (sizes child.pid (ve :: back)) := by
  rw [sizes_cons_same back hpid, halvesLater_cons_iff]
  have htotal : total child.pid (ve :: back) = ve.size + total child.pid back := by
    simp [total, sizes_cons_same back hpid]
  rw [dropCommon] at h
  split at h
  · rename_i hlt
    rw [hpid] at h
    have hrest := dropMissing_total_iff h
    constructor
    · intro heq _
      exact hrest.mp (by omega)
    · intro hcut
      have := hrest.mpr (hcut hlt)
      omega
  · rename_i hle
    have hcut : ve.size < child.size → Halves (child.size - ve.size) (sizes child.pid back) :=
      fun hlt => absurd hlt hle
    refine iff_of_true ?_ hcut
    split at h
    · cases h
      simp only [total, sizes_cons_same back hpid, List.sum_cons,
        sizes_cons_same (b := { ve with size := ve.size - child.size, sym := [], alt := 0 })
          back hpid]
      omega
    · cases h
      omega

/-- Descending into a child takes exactly the child's events off the sequence if and only if the
child does not end inside a branch after the matching one, other than in its middle. -/
theorem consumes_iff_of_recurse {conf : Configuration} {child : Branch} {v v' : List Branch}
    (h : matchChild conf child [] v = some (.recurse v')) :
    Consumes child v v' ↔ HalvesLater child.size (sizes child.pid v) := by
  obtain ⟨mid, ve, back, back', rfl, hmid, hpid, hback', rfl⟩ := exists_of_matchChild h
  have hnil : sizes child.pid mid = [] := sizes_eq_nil hmid
  have htotal (w : List Branch) : total child.pid (mid ++ w) = total child.pid w := by
    simp [total, sizes_append, hnil]
  simp only [sizes_append, hnil, List.nil_append]
  rw [← dropCommon_total_iff hpid hback']
  constructor
  · intro hconsumes
    simpa only [htotal] using hconsumes.total
  · intro hcount
    refine ⟨by simpa only [htotal] using hcount, ?_, ?_⟩
    · rw [List.filter_append, List.filter_append, dropCommon_others hpid hback']
    · exact (dropCommon_thins hpid hback').append mid

/-- A load that the child extends by one event, and that is later continued by `rest` events
without an effect. -/
def continuedLoad (rest : ℕ) : List Branch :=
  [⟨[.load ⟨⟨.global 0, 0⟩, 1⟩], 0, 0, 1⟩, ⟨[.load ⟨⟨.global 1, 0⟩, 1⟩], 2, 0, 1⟩,
    ⟨[], 0, 0, rest⟩]

theorem consumes_continuedLoad_one :
    Consumes ⟨[.load ⟨⟨.global 0, 0⟩, 1⟩], 0, 0, 2⟩ (continuedLoad 1)
      [⟨[.load ⟨⟨.global 1, 0⟩, 1⟩], 2, 0, 1⟩] := by
  have hmatch : matchChild ⟨false⟩ ⟨[.load ⟨⟨.global 0, 0⟩, 1⟩], 0, 0, 2⟩ [] (continuedLoad 1) =
      some (.recurse [⟨[.load ⟨⟨.global 1, 0⟩, 1⟩], 2, 0, 1⟩]) := rfl
  apply (consumes_iff_of_recurse hmatch).mpr
  change HalvesLater 2 [1, 1]
  rw [halvesLater_cons_iff]
  intro _
  rw [halves_cons_iff (by decide)]
  exact ⟨fun h => absurd h (by decide), fun _ => halves_nil _⟩

/-- Of four events the child takes three off instead of one. -/
theorem not_consumes_continuedLoad_four :
    matchChild ⟨false⟩ ⟨[.load ⟨⟨.global 0, 0⟩, 1⟩], 0, 0, 2⟩ [] (continuedLoad 4) =
        some (.recurse [⟨[.load ⟨⟨.global 1, 0⟩, 1⟩], 2, 0, 1⟩, ⟨[], 0, 0, 1⟩]) ∧
      ¬Consumes ⟨[.load ⟨⟨.global 0, 0⟩, 1⟩], 0, 0, 2⟩ (continuedLoad 4)
        [⟨[.load ⟨⟨.global 1, 0⟩, 1⟩], 2, 0, 1⟩, ⟨[], 0, 0, 1⟩] := by
  refine ⟨rfl, ?_⟩
  intro h
  have htotal := h.total
  simp [total, sizes, continuedLoad] at htotal

end Nidhugg.TsoTraceBuilder
