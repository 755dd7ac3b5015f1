import Mathlib.Data.Set.Insert
import Nidhugg.Library.FoldInvariant
import Nidhugg.Library.LazyClosure
import Nidhugg.Model.FBVClock

/-! # Refreshing a clock

`update` follows the clocks that have changed since the last update of a clock, in the order of
their indices. It returns exactly if this walk does not come back to a clock whose own update is
under way, and then the clock contains everything that it reaches. -/

namespace Nidhugg.ClockSystem

open Relation LazyClosure

variable {cs cs' cs'' : ClockSystem} {x y v i j : ℕ}

/-! ### Bits -/

theorem bit_addClock (cs : ClockSystem) (dst src x i : ℕ) :
    (cs.addClock dst src).bit x i = (cs.bit x i || (decide (x = dst) && cs.bit src i)) := by
  by_cases hx : x = dst
  · subst hx
    simp only [bit, addClock, Function.update_self, List.getD_eq_getElem?_getD,
      List.getElem?_mapIdx, resize, List.getElem?_append, decide_true, Bool.true_and]
    by_cases hi : i < (cs.clocks x).length
    · simp [hi]
    · by_cases hsrc : i < (cs.clocks src).length
      · have hlt : i - (cs.clocks x).length < (cs.clocks src).length - (cs.clocks x).length := by
          omega
        simp [hi, hlt]
      · have hge : ¬i - (cs.clocks x).length < (cs.clocks src).length - (cs.clocks x).length := by
          omega
        simp [hi, hge, hsrc]
  · simp [bit, addClock, hx]

/-- A clock has the bit of another one. -/
def Contains (cs : ClockSystem) (x y : ℕ) : Prop := ∃ i, cs.bit x i = true ∧ cs.idOf i = y

theorem contains_addClock (cs : ClockSystem) (dst src x y : ℕ) :
    (cs.addClock dst src).Contains x y ↔ cs.Contains x y ∨ x = dst ∧ cs.Contains src y := by
  simp only [Contains, bit_addClock, Bool.or_eq_true, Bool.and_eq_true, decide_eq_true_eq]
  constructor
  · intro ⟨i, hi, hy⟩
    cases hi with
    | inl hi => exact .inl ⟨i, hi, hy⟩
    | inr hi => exact .inr ⟨hi.1, i, hi.2, hy⟩
  · intro h
    cases h with
    | inl h =>
        obtain ⟨i, hi, hy⟩ := h
        exact ⟨i, .inl hi, hy⟩
    | inr h =>
        obtain ⟨hx, i, hi, hy⟩ := h
        exact ⟨i, .inr ⟨hx, hi⟩, hy⟩

/-! ### Valid clock systems -/

/-- Every clock has an index of its own, and the bits keep track of the edges. -/
structure Valid (idxs : List ℕ) (direct : ℕ → ℕ → Prop) (cs : ClockSystem) : Prop where
  size_eq : cs.size = idxs.length
  nodup : idxs.Nodup
  lookup : ∀ {k i : ℕ}, idxs[k]? = some i → i < cs.idxToId.length ∧ cs.idOf i = k
  indexed : ∀ {x i : ℕ}, cs.bit x i = true → ∃ k : ℕ, idxs[k]? = some i
  created : ∀ {x i : ℕ}, cs.bit x i = true → x < cs.size
  self : ∀ {k i : ℕ}, idxs[k]? = some i → cs.bit k i = true
  tracks : Tracks direct cs.Contains cs.changeTs cs.updateTs cs.time

namespace Valid

variable {idxs : List ℕ} {direct : ℕ → ℕ → Prop}

theorem lt_length (h : Valid idxs direct cs) (hi : cs.bit x i = true) : i < cs.idxToId.length := by
  obtain ⟨k, hk⟩ := h.indexed hi
  exact (h.lookup hk).1

theorem idOf_lt (h : Valid idxs direct cs) (hi : cs.bit x i = true) : cs.idOf i < cs.size := by
  obtain ⟨k, hk⟩ := h.indexed hi
  rw [(h.lookup hk).2, h.size_eq]
  exact (List.getElem?_eq_some_iff.mp hk).1

theorem contains_self (h : Valid idxs direct cs) (hx : x < cs.size) : cs.Contains x x := by
  rw [h.size_eq] at hx
  have hget := List.getElem?_eq_getElem hx
  exact ⟨idxs[x], h.self hget, (h.lookup hget).2⟩

/-- Different positions belong to different clocks. -/
theorem bit_of_contains (h : Valid idxs direct cs) (hi : ∃ k : ℕ, idxs[k]? = some i)
    (hx : cs.Contains x (cs.idOf i)) : cs.bit x i = true := by
  obtain ⟨k, hk⟩ := hi
  obtain ⟨j, hj, heq⟩ := hx
  obtain ⟨l, hl⟩ := h.indexed hj
  rw [(h.lookup hl).2, (h.lookup hk).2] at heq
  rw [heq, hk] at hl
  rwa [Option.some.inj hl]

theorem contains_iff (h : Valid idxs direct cs) (hx : cs.updateTs x = cs.time)
    (hsize : x < cs.size) : cs.Contains x y ↔ ReflTransGen direct x y :=
  h.tracks.contains_iff hx (h.contains_self hsize)

theorem reaches_iff (h : Valid idxs direct cs) :
    ReflTransGen cs.Contains x y ↔ ReflTransGen direct x y := by
  constructor
  · intro hreach
    induction hreach with
    | refl => exact .refl
    | tail _ hyz ih => exact ih.trans (h.tracks.sound hyz)
  · exact ReflTransGen.mono (fun _ _ => h.tracks.complete) _ _

end Valid

/-! ### The clocks that an update follows -/

/-- The positions at which the update of a clock calls the update of another one. The bit is stored,
or a call at an earlier position brings it. -/
inductive Followed (cs : ClockSystem) (x : ℕ) : ℕ → Prop where
  | stored {i : ℕ} : cs.bit x i = true → cs.idOf i ≠ x →
      cs.updateTs x < cs.changeTs (cs.idOf i) → Followed cs x i
  | found {i j w : ℕ} : Followed cs x j → j < i → ReflTransGen cs.Contains (cs.idOf j) w →
      cs.bit w i = true → cs.idOf i ≠ x → cs.updateTs x < cs.changeTs (cs.idOf i) →
      Followed cs x i

/-- The update of `x` calls the update of `y`. -/
def Follows (cs : ClockSystem) (x y : ℕ) : Prop :=
  cs.updateTs x ≠ cs.time ∧ ∃ i, cs.Followed x i ∧ cs.idOf i = y

/-- Following clocks comes to an end. -/
def Accessible (cs : ClockSystem) (x : ℕ) : Prop := Acc (fun y x => cs.Follows x y) x

theorem Accessible.of_follows (h : cs.Accessible x) (hxy : cs.Follows x y) : cs.Accessible y :=
  h.inv hxy

theorem Accessible.of_transGen (h : cs.Accessible x) (hxy : TransGen cs.Follows x y) :
    cs.Accessible y := by
  induction hxy with
  | single hxy => exact h.of_follows hxy
  | tail _ hyz ih => exact ih.of_follows hyz

/-- There is no way back. -/
theorem Accessible.not_transGen_self (h : cs.Accessible x) : ¬TransGen cs.Follows x x := by
  induction h with
  | intro x _ ih =>
      intro hxx
      obtain ⟨y, hxy, hyx⟩ := TransGen.head'_iff.mp hxx
      exact ih y hxy (TransGen.tail' hyx hxy)

/-! ### The depth of the stack -/

theorem foldlM_mono {f g : ClockSystem → ℕ → Option ClockSystem}
    (hfg : ∀ cs i cs', f cs i = some cs' → g cs i = some cs') (is : List ℕ)
    (h : is.foldlM f cs = some cs') : is.foldlM g cs = some cs' := by
  induction is generalizing cs with
  | nil => exact h
  | cons i is ih =>
      rw [List.foldlM_cons] at h ⊢
      obtain ⟨cs₁, hturn, hrest⟩ := Option.bind_eq_some_iff.mp h
      rw [hfg cs i cs₁ hturn]
      exact ih hrest

theorem updateBit_of_follow {f : ClockSystem → ℕ → Option ClockSystem} {id updTs : ℕ}
    (h : cs.idOf i ≠ id ∧ cs.bit id i = true ∧ updTs < cs.changeTs (cs.idOf i)) :
    updateBit f id updTs cs i =
      (f cs (cs.idOf i)).map fun cs' => cs'.addClock id (cs.idOf i) :=
  if_pos h

theorem updateBit_of_not_follow {f : ClockSystem → ℕ → Option ClockSystem} {id updTs : ℕ}
    (h : ¬(cs.idOf i ≠ id ∧ cs.bit id i = true ∧ updTs < cs.changeTs (cs.idOf i))) :
    updateBit f id updTs cs i = some cs :=
  if_neg h

theorem updateBit_mono {f g : ClockSystem → ℕ → Option ClockSystem}
    (hfg : ∀ cs x cs', f cs x = some cs' → g cs x = some cs') (id updTs : ℕ)
    (h : updateBit f id updTs cs i = some cs') : updateBit g id updTs cs i = some cs' := by
  by_cases hcond : cs.idOf i ≠ id ∧ cs.bit id i = true ∧ updTs < cs.changeTs (cs.idOf i)
  · rw [updateBit_of_follow hcond] at h ⊢
    obtain ⟨cs₁, hcall, rfl⟩ := Option.map_eq_some_iff.mp h
    rw [hfg _ _ _ hcall]
    rfl
  · rw [updateBit_of_not_follow hcond] at h ⊢
    exact h

theorem update_succ {depth : ℕ} (h : update depth cs x = some cs') :
    update (depth + 1) cs x = some cs' := by
  induction depth generalizing cs x cs' with
  | zero => cases h
  | succ depth ih =>
      rw [update] at h ⊢
      split at h
      · rename_i hfresh
        rw [if_pos hfresh]
        exact h
      · rename_i hfresh
        rw [if_neg hfresh]
        obtain ⟨cs₁, hloop, rfl⟩ := Option.map_eq_some_iff.mp h
        rw [foldlM_mono (fun cs i cs' => updateBit_mono (fun cs x cs' => ih) x _) _ hloop]
        rfl

/-- A deeper stack does not change the result. -/
theorem update_mono {depth depth' : ℕ} (hle : depth ≤ depth') (h : update depth cs x = some cs') :
    update depth' cs x = some cs' := by
  induction hle with
  | refl => exact h
  | step _ ih => exact update_succ ih

theorem update_unique {depth depth' : ℕ} (h : update depth cs x = some cs')
    (h' : update depth' cs x = some cs'') : cs' = cs'' :=
  Option.some.inj ((update_mono (Nat.le_max_left depth depth') h).symm.trans
    (update_mono (Nat.le_max_right depth depth') h'))

end Nidhugg.ClockSystem

/-! # Updates that come to an end

While some clocks are under way, every other clock is either as it was or up to date. A clock that
is under way has only gained bits. -/

namespace Nidhugg.ClockSystem

open Relation LazyClosure

variable {idxs : List ℕ} {direct : ℕ → ℕ → Prop} {under : Set ℕ}
variable {cs cs' cs'' : ClockSystem} {x y v i j t : ℕ}

/-- Nothing but the bits of one clock grows. -/
theorem Valid.of_taken {direct' : ℕ → ℕ → Prop} (h : cs.Valid idxs direct) (hv : v < cs.size)
    (hsize : cs'.size = cs.size) (hidx : cs'.idxToId = cs.idxToId)
    (hclocks : cs'.clocks = (cs.addClock v y).clocks)
    (htracks : Tracks direct' cs'.Contains cs'.changeTs cs'.updateTs cs'.time) :
    cs'.Valid idxs direct' := by
  have hbit : ∀ x i, cs'.bit x i = true ↔ cs.bit x i = true ∨ x = v ∧ cs.bit y i = true := by
    intro x i
    rw [bit, hclocks, ← bit, bit_addClock, Bool.or_eq_true, Bool.and_eq_true, decide_eq_true_iff]
  refine
    { size_eq := hsize.trans h.size_eq
      nodup := h.nodup
      lookup := fun hk => ?_
      indexed := fun hi => ?_
      created := fun hi => ?_
      self := fun hk => (hbit _ _).mpr (.inl (h.self hk))
      tracks := htracks }
  · rw [idOf, hidx]
    exact h.lookup hk
  · exact ((hbit _ _).mp hi).elim h.indexed fun hi => h.indexed hi.2
  · rw [hsize]
    exact ((hbit _ _).mp hi).elim h.created fun hi => hi.1 ▸ hv

/-- A clock takes over the bits of one that is up to date and that it reaches. -/
theorem Valid.addClock (h : cs.Valid idxs direct) (hv : v < cs.size) (hy : y < cs.size)
    (hfresh : cs.updateTs y = cs.time) (hreach : ReflTransGen direct v y) :
    (cs.addClock v y).Valid idxs direct :=
  h.of_taken hv rfl rfl rfl
    (h.tracks.absorb hfresh (h.contains_self hy) hreach (contains_addClock cs v y))

/-- What the update of other clocks has done while the clocks `under` are under way. -/
structure Progress (idxs : List ℕ) (direct : ℕ → ℕ → Prop) (under : Set ℕ)
    (cs cs' : ClockSystem) : Prop where
  valid : cs'.Valid idxs direct
  time_eq : cs'.time = cs.time
  changeTs_eq : cs'.changeTs = cs.changeTs
  idxToId_eq : cs'.idxToId = cs.idxToId
  mono : ∀ {x i : ℕ}, cs.bit x i = true → cs'.bit x i = true
  running : ∀ {x : ℕ}, x ∈ under → cs'.updateTs x = cs.updateTs x
  status : ∀ {x : ℕ}, x ∉ under →
    (cs'.updateTs x = cs.updateTs x ∧ ∀ i, cs'.bit x i = cs.bit x i) ∨
      (cs'.updateTs x = cs.time ∧ cs.Accessible x)

namespace Progress

theorem refl (h : cs.Valid idxs direct) : Progress idxs direct under cs cs where
  valid := h
  time_eq := rfl
  changeTs_eq := rfl
  idxToId_eq := rfl
  mono := fun h => h
  running := fun _ => rfl
  status := fun _ => .inl ⟨rfl, fun _ => rfl⟩

theorem idOf_eq (h : Progress idxs direct under cs cs') (i : ℕ) : cs'.idOf i = cs.idOf i := by
  rw [idOf, idOf, h.idxToId_eq]

theorem contains (h : Progress idxs direct under cs cs') (hxy : cs.Contains x y) :
    cs'.Contains x y := by
  obtain ⟨i, hi, hy⟩ := hxy
  exact ⟨i, h.mono hi, (h.idOf_eq i).trans hy⟩

/-- One more clock that is not up to date is under way. -/
theorem insert (h : Progress idxs direct under cs cs') (hv : cs'.updateTs v ≠ cs.time) :
    Progress idxs direct (Insert.insert v under) cs cs' where
  valid := h.valid
  time_eq := h.time_eq
  changeTs_eq := h.changeTs_eq
  idxToId_eq := h.idxToId_eq
  mono := h.mono
  running := by
    intro x hx
    by_cases hunder : x ∈ under
    · exact h.running hunder
    · cases hx with
      | inr hx => exact absurd hx hunder
      | inl hx =>
          cases h.status hunder with
          | inl hsame => exact hsame.1
          | inr hfresh => exact absurd (hx ▸ hfresh.1) hv
  status := fun hx => h.status fun hunder => hx (.inr hunder)

/-- A clock that is under way takes over the bits of a clock that is up to date. -/
theorem addClock (h : Progress idxs direct under cs cs') (hunder : v ∈ under) (hv : v < cs'.size)
    (hy : y < cs'.size) (hfresh : cs'.updateTs y = cs.time) (hreach : ReflTransGen direct v y) :
    Progress idxs direct under cs (cs'.addClock v y) where
  valid := h.valid.addClock hv hy (hfresh.trans h.time_eq.symm) hreach
  time_eq := h.time_eq
  changeTs_eq := h.changeTs_eq
  idxToId_eq := h.idxToId_eq
  mono := by
    intro x i hbit
    rw [bit_addClock, h.mono hbit, Bool.true_or]
  running := h.running
  status := by
    intro x hx
    have hne : x ≠ v := fun heq => hx (heq ▸ hunder)
    simp only [bit_addClock, hne, decide_false, Bool.false_and, Bool.or_false]
    exact h.status hx

/-- A clock is up to date once all successors of what it contains are contained. -/
theorem finish (h : Progress idxs direct (Insert.insert v under) cs cs') (hunder : v ∉ under)
    (hacc : cs.Accessible v) (hclosed : ∀ y z, cs'.Contains v y → direct y z → cs'.Contains v z) :
    Progress idxs direct under cs
      { cs' with updateTs := Function.update cs'.updateTs v cs'.time } where
  valid :=
    { size_eq := h.valid.size_eq
      nodup := h.valid.nodup
      lookup := h.valid.lookup
      indexed := h.valid.indexed
      created := h.valid.created
      self := h.valid.self
      tracks := h.valid.tracks.finish hclosed }
  time_eq := h.time_eq
  changeTs_eq := h.changeTs_eq
  idxToId_eq := h.idxToId_eq
  mono := h.mono
  running := by
    intro x hx
    have hne : x ≠ v := fun heq => hunder (heq ▸ hx)
    exact (Function.update_of_ne hne _ _).trans (h.running (.inr hx))
  status := by
    intro x hx
    by_cases hxv : x = v
    · subst hxv
      exact .inr ⟨(Function.update_self _ _ _).trans h.time_eq, hacc⟩
    · have hnot : x ∉ Insert.insert v under := fun hin => hin.elim hxv hx
      cases h.status hnot with
      | inl hsame => exact .inl ⟨(Function.update_of_ne hxv _ _).trans hsame.1, hsame.2⟩
      | inr hfresh => exact .inr ⟨(Function.update_of_ne hxv _ _).trans hfresh.1, hfresh.2⟩

end Progress

/-! ### The loop of an update -/

theorem foldlM_range_succ {f : ClockSystem → ℕ → Option ClockSystem} (n : ℕ) :
    (List.range (n + 1)).foldlM f cs = ((List.range n).foldlM f cs).bind fun cs => f cs n := by
  rw [List.range_succ, List.foldlM_append]
  refine congrArg (Option.bind _) (funext fun cs => ?_)
  rw [List.foldlM_cons]
  cases f cs n <;> rfl

/-- A loop whose turns all return, each with a stack of its own depth. -/
theorem exists_loop {P : ℕ → ClockSystem → Prop} (v t n : ℕ) (hstart : P 0 cs)
    (hturn : ∀ i, i < n → ∀ cs', P i cs' →
      ∃ depth cs'', updateBit (update depth) v t cs' i = some cs'' ∧ P (i + 1) cs'') :
    ∃ depth cs', (List.range n).foldlM (updateBit (update depth) v t) cs = some cs' ∧ P n cs' := by
  induction n with
  | zero => exact ⟨0, cs, rfl, hstart⟩
  | succ n ih =>
      obtain ⟨depth, cs₁, hloop, hcs₁⟩ := ih fun i hi => hturn i (Nat.lt_succ_of_lt hi)
      obtain ⟨depth', cs₂, hlast, hcs₂⟩ := hturn n (Nat.lt_succ_self n) cs₁ hcs₁
      refine ⟨max depth depth', cs₂, ?_, hcs₂⟩
      have hleft : (List.range n).foldlM (updateBit (update (max depth depth')) v t) cs = some cs₁ :=
        foldlM_mono (fun _ _ _ => updateBit_mono
          (fun _ _ _ => update_mono (Nat.le_max_left depth depth')) v t) _ hloop
      have hright : updateBit (update (max depth depth')) v t cs₁ n = some cs₂ :=
        updateBit_mono (fun _ _ _ => update_mono (Nat.le_max_right depth depth')) v t hlast
      rw [foldlM_range_succ, hleft, Option.bind_some, hright]

/-- The state of the loop of `v` before position `i`. Every bit was there from the start or comes
with an earlier call, and only bits that are still to be visited can lack successors. -/
structure Turns (idxs : List ℕ) (direct : ℕ → ℕ → Prop) (under : Set ℕ) (cs cs' : ClockSystem)
    (v i : ℕ) (cs₁ : ClockSystem) : Prop where
  progress : Progress idxs direct (insert v under) cs cs₁
  frame : ∀ {w : ℕ}, w ∈ under → ∀ j, cs₁.bit w j = cs'.bit w j
  origin : ∀ {j : ℕ}, cs₁.bit v j = true → cs.bit v j = true ∨
    ∃ k, k < i ∧ cs.Followed v k ∧ ReflTransGen cs.Contains (cs.idOf k) (cs.idOf j)
  closed : ∀ {j : ℕ}, cs₁.bit v j = true →
    i ≤ j ∧ cs.bit v j = true ∨ ∀ z, direct (cs.idOf j) z → cs₁.Contains v z

namespace Turns

/-- A position that the loop follows is one that the base state already determines. -/
theorem followed (h : Turns idxs direct under cs cs' v i cs'') (hvalid : cs.Valid idxs direct)
    (hbit : cs''.bit v i = true) (hne : cs.idOf i ≠ v)
    (hlt : cs.updateTs v < cs.changeTs (cs.idOf i)) : cs.Followed v i := by
  cases h.origin hbit with
  | inl hbit => exact .stored hbit hne hlt
  | inr hfound =>
      obtain ⟨k, hk, hfollowed, hreach⟩ := hfound
      obtain ⟨l, hl⟩ := h.progress.valid.indexed hbit
      have hself := hvalid.self hl
      rw [← (hvalid.lookup hl).2] at hself
      exact .found hfollowed hk hreach hself hne hlt

/-- Nothing is to be done at a position whose clock has not changed. -/
theorem skip (h : Turns idxs direct under cs cs' v i cs'') (hvalid : cs.Valid idxs direct)
    (hskip : ¬(cs.idOf i ≠ v ∧ cs''.bit v i = true ∧
      cs.updateTs v < cs.changeTs (cs.idOf i))) :
    Turns idxs direct under cs cs' v (i + 1) cs'' where
  progress := h.progress
  frame := h.frame
  origin := by
    intro j hbit
    cases h.origin hbit with
    | inl hbit => exact .inl hbit
    | inr hfound =>
        obtain ⟨k, hk, hrest⟩ := hfound
        exact .inr ⟨k, Nat.lt_succ_of_lt hk, hrest⟩
  closed := by
    intro j hbit
    cases h.closed hbit with
    | inr hclosed => exact .inr hclosed
    | inl hopen =>
        by_cases hji : j = i
        · subst hji
          refine .inr fun z hz => h.progress.contains ?_
          by_cases hself : cs.idOf j = v
          · exact hvalid.tracks.complete (hself ▸ hz)
          · have hle : ¬cs.updateTs v < cs.changeTs (cs.idOf j) :=
              fun hlt => hskip ⟨hself, hbit, hlt⟩
            exact (hvalid.tracks.stale ⟨j, hopen.2, rfl⟩ hz).resolve_right hle
        · exact .inl ⟨Nat.lt_of_le_of_ne hopen.1 (Ne.symm hji), hopen.2⟩

/-- The clock takes over what the clock at position `i` contains after its update. -/
theorem absorb {cs₂ : ClockSystem} (h : Turns idxs direct under cs cs' v i cs'')
    (hvalid : cs.Valid idxs direct) (hunder : v ∉ under) (hv : v < cs.size)
    (hbit : cs''.bit v i = true)
    (hfollowed : cs.Followed v i) (hprogress : Progress idxs direct (insert v under) cs cs₂)
    (hfresh : cs₂.updateTs (cs.idOf i) = cs.time)
    (hframe : ∀ w ∈ insert v under, ∀ j, cs₂.bit w j = cs''.bit w j) :
    Turns idxs direct under cs cs' v (i + 1) (cs₂.addClock v (cs.idOf i)) := by
  have hsize : cs₂.size = cs.size := hprogress.valid.size_eq.trans hvalid.size_eq.symm
  have hbit₂ : ∀ j, cs₂.bit v j = cs''.bit v j := hframe v (Set.mem_insert v under)
  have hy : cs.idOf i < cs₂.size := by
    rw [← hprogress.idOf_eq i]
    exact hprogress.valid.idOf_lt ((hbit₂ i).trans hbit)
  have hreach : ReflTransGen direct v (cs.idOf i) :=
    hprogress.valid.tracks.sound ⟨i, (hbit₂ i).trans hbit, hprogress.idOf_eq i⟩
  have hknows : ∀ {z}, cs₂.Contains (cs.idOf i) z ↔ ReflTransGen direct (cs.idOf i) z :=
    hprogress.valid.contains_iff (hfresh.trans hprogress.time_eq.symm) hy
  have htaken : ∀ {z}, ReflTransGen direct (cs.idOf i) z →
      (cs₂.addClock v (cs.idOf i)).Contains v z :=
    fun hz => (contains_addClock cs₂ v _ v _).mpr (.inr ⟨rfl, hknows.mpr hz⟩)
  have hcases : ∀ {j}, (cs₂.addClock v (cs.idOf i)).bit v j = true →
      cs''.bit v j = true ∨ ReflTransGen direct (cs.idOf i) (cs.idOf j) := by
    intro j hj
    rw [bit_addClock, hbit₂, Bool.or_eq_true, Bool.and_eq_true] at hj
    cases hj with
    | inl hj => exact .inl hj
    | inr hj => exact .inr (hknows.mp ⟨j, hj.2, hprogress.idOf_eq j⟩)
  constructor
  · exact hprogress.addClock (Set.mem_insert v under) (hsize ▸ hv) hy hfresh hreach
  · intro w hw j
    have hwv : w ≠ v := fun hwv => hunder (hwv ▸ hw)
    rw [bit_addClock, hframe w (Set.mem_insert_of_mem v hw) j, ← h.frame hw j,
      decide_eq_false hwv, Bool.false_and, Bool.or_false]
  · intro j hj
    cases hcases hj with
    | inr hj => exact .inr ⟨i, Nat.lt_succ_self i, hfollowed, hvalid.reaches_iff.mpr hj⟩
    | inl hj =>
        cases h.origin hj with
        | inl hj => exact .inl hj
        | inr hfound =>
            obtain ⟨k, hk, hrest⟩ := hfound
            exact .inr ⟨k, Nat.lt_succ_of_lt hk, hrest⟩
  · intro j hj
    cases hcases hj with
    | inr hj => exact .inr fun z hz => htaken (hj.tail hz)
    | inl hj =>
        cases h.closed hj with
        | inr hclosed =>
            refine .inr fun z hz => (contains_addClock cs₂ v _ v z).mpr (.inl ?_)
            obtain ⟨l, hl, hidOf⟩ := hclosed z hz
            exact ⟨l, (hbit₂ l).trans hl, (hprogress.idOf_eq l).trans
              ((h.progress.idOf_eq l).symm.trans hidOf)⟩
        | inl hopen =>
            by_cases hji : j = i
            · subst hji
              exact .inr fun z hz => htaken (.single hz)
            · exact .inl ⟨Nat.lt_of_le_of_ne hopen.1 (Ne.symm hji), hopen.2⟩

/-- One turn of the loop, given what the update of another clock does. -/
theorem exists_turn (h : Turns idxs direct under cs cs' v i cs'') (hvalid : cs.Valid idxs direct)
    (hunder : v ∉ under) (hv : v < cs.size)
    (hcall : cs.Followed v i → ∃ depth cs₂, update depth cs'' (cs.idOf i) = some cs₂ ∧
      Progress idxs direct (insert v under) cs cs₂ ∧ cs₂.updateTs (cs.idOf i) = cs.time ∧
      ∀ w ∈ insert v under, ∀ j, cs₂.bit w j = cs''.bit w j) :
    ∃ depth cs₂, updateBit (update depth) v (cs.updateTs v) cs'' i = some cs₂ ∧
      Turns idxs direct under cs cs' v (i + 1) cs₂ := by
  by_cases hcond : cs.idOf i ≠ v ∧ cs''.bit v i = true ∧ cs.updateTs v < cs.changeTs (cs.idOf i)
  · have hfollowed := h.followed hvalid hcond.2.1 hcond.1 hcond.2.2
    obtain ⟨depth, cs₂, hupdate, hprogress, hfresh, hframe⟩ := hcall hfollowed
    refine ⟨depth, _, ?_,
      h.absorb hvalid hunder hv hcond.2.1 hfollowed hprogress hfresh hframe⟩
    rw [← h.progress.idOf_eq i, ← h.progress.changeTs_eq] at hcond
    rw [updateBit_of_follow hcond, h.progress.idOf_eq i, hupdate]
    rfl
  · refine ⟨0, cs'', ?_, h.skip hvalid hcond⟩
    rw [← h.progress.idOf_eq i, ← h.progress.changeTs_eq] at hcond
    rw [updateBit_of_not_follow hcond]

/-- The update of the clock is over. -/
theorem finish (h : Turns idxs direct under cs cs' v cs.idxToId.length cs'')
    (hunder : v ∉ under) (hacc : cs.Accessible v) :
    Progress idxs direct under cs
      { cs'' with updateTs := Function.update cs''.updateTs v cs''.time } := by
  refine h.progress.finish hunder hacc fun y z hy hz => ?_
  obtain ⟨j, hj, rfl⟩ := hy
  rw [h.progress.idOf_eq] at hz
  cases h.closed hj with
  | inl hopen =>
      have hlt := h.progress.valid.lt_length hj
      rw [h.progress.idxToId_eq] at hlt
      omega
  | inr hclosed => exact hclosed z hz

end Turns

/-! ### Termination -/

theorem Followed.lt_length (h : cs.Followed v i) (hvalid : cs.Valid idxs direct) :
    i < cs.idxToId.length := by
  cases h with
  | stored hbit => exact hvalid.lt_length hbit
  | found _ _ _ hbit => exact hvalid.lt_length hbit

theorem Followed.idOf_lt (h : cs.Followed v i) (hvalid : cs.Valid idxs direct) :
    cs.idOf i < cs.size := by
  cases h with
  | stored hbit => exact hvalid.idOf_lt hbit
  | found _ _ _ hbit => exact hvalid.idOf_lt hbit

/-- The update of a clock returns if following clocks from it comes to an end. No clock that is
under way is changed meanwhile. -/
theorem Accessible.exists_update (hvalid : cs.Valid idxs direct) (hacc : cs.Accessible v) :
    ∀ {under : Set ℕ} {cs' : ClockSystem}, v < cs.size → Progress idxs direct under cs cs' →
      (∀ w ∈ under, ¬cs.Accessible w ∨ TransGen cs.Follows w v) →
      ∃ depth cs'', update depth cs' v = some cs'' ∧ Progress idxs direct under cs cs'' ∧
        cs''.updateTs v = cs.time ∧ ∀ w ∈ under, ∀ j, cs''.bit w j = cs'.bit w j := by
  induction hacc with
  | intro v hacc ih =>
      intro under cs' hv hprogress hunder
      replace hacc : cs.Accessible v := Acc.intro v hacc
      have hnot : v ∉ under :=
        fun hin => (hunder v hin).elim (fun h => h hacc) hacc.not_transGen_self
      by_cases hfresh : cs'.updateTs v = cs'.time
      · refine ⟨1, cs', ?_, hprogress, hfresh.trans hprogress.time_eq, fun _ _ _ => rfl⟩
        rw [ClockSystem.update, if_pos hfresh]
      · have hstale : cs'.updateTs v ≠ cs.time := fun h => hfresh (h.trans hprogress.time_eq.symm)
        obtain ⟨hsame, hbits⟩ := (hprogress.status hnot).resolve_right fun h => hstale h.1
        have hstart : Turns idxs direct under cs cs' v 0 cs' :=
          { progress := hprogress.insert hstale
            frame := fun _ _ => rfl
            origin := fun hj => .inl ((hbits _).symm.trans hj)
            closed := fun hj => .inl ⟨Nat.zero_le _, (hbits _).symm.trans hj⟩ }
        obtain ⟨depth, cs₁, hloop, hturns⟩ := exists_loop v (cs.updateTs v) cs.idxToId.length
          hstart fun i _ cs₁ hturns => by
            refine hturns.exists_turn hvalid hnot hv fun hfollowed => ?_
            have hfollows : cs.Follows v (cs.idOf i) := ⟨hsame ▸ hstale, i, hfollowed, rfl⟩
            refine ih _ hfollows (hfollowed.idOf_lt hvalid) hturns.progress fun w hw => ?_
            cases hw with
            | inl hw => exact .inr (hw ▸ .single hfollows)
            | inr hw => exact (hunder w hw).imp_right fun hwv => hwv.tail hfollows
        refine ⟨depth + 1, _, ?_, hturns.finish hnot hacc, ?_, fun _ => hturns.frame⟩
        · rw [ClockSystem.update, if_neg hfresh, hsame, hprogress.idxToId_eq, hloop]
          rfl
        · exact (Function.update_self _ _ _).trans hturns.progress.time_eq

/-! ### Nontermination -/

/-- A clock that is up to date follows no clock. -/
theorem Accessible.of_fresh (h : cs.updateTs v = cs.time) : cs.Accessible v :=
  Acc.intro v fun _ hfollows => absurd h hfollows.1

/-- The loop of a clock with no end to following. The calls that have returned have brought
everything that the clocks that they were for reach. -/
structure Tried (idxs : List ℕ) (direct : ℕ → ℕ → Prop) (under : Set ℕ) (cs : ClockSystem)
    (v i : ℕ) (cs₁ : ClockSystem) : Prop where
  progress : Progress idxs direct (insert v under) cs cs₁
  returned : ∀ {k : ℕ}, k < i → cs.Followed v k → cs.Accessible (cs.idOf k) ∧
    ∀ {w : ℕ}, ReflTransGen cs.Contains (cs.idOf k) w → cs₁.Contains v w

namespace Tried

/-- The loop stops at every position that is followed. -/
theorem follows (h : Tried idxs direct under cs v i cs') (hvalid : cs.Valid idxs direct)
    (hfollowed : cs.Followed v i) :
    cs.idOf i ≠ v ∧ cs'.bit v i = true ∧ cs.updateTs v < cs.changeTs (cs.idOf i) := by
  cases hfollowed with
  | stored hbit hne hlt => exact ⟨hne, h.progress.mono hbit, hlt⟩
  | @found _ j w hj hji hreach hbit hne hlt =>
      have hcontains := (h.returned hji hj).2 (hreach.tail ⟨i, hbit, rfl⟩)
      rw [← h.progress.idOf_eq i] at hcontains
      exact ⟨hne, h.progress.valid.bit_of_contains (hvalid.indexed hbit) hcontains, hlt⟩

/-- One turn of the loop, given that only updates of accessible clocks return. -/
theorem turn {depth : ℕ} (h : Tried idxs direct under cs v i cs') (hvalid : cs.Valid idxs direct)
    (hv : v < cs.size) (hunder : ∀ w ∈ insert v under, ¬cs.Accessible w)
    (hcall : ∀ {cs₂}, cs.idOf i < cs.size → update depth cs' (cs.idOf i) = some cs₂ →
      cs.Accessible (cs.idOf i))
    (hturn : updateBit (update depth) v (cs.updateTs v) cs' i = some cs'') :
    Tried idxs direct under cs v (i + 1) cs'' := by
  by_cases hcond : cs.idOf i ≠ v ∧ cs'.bit v i = true ∧ cs.updateTs v < cs.changeTs (cs.idOf i)
  · have hy := h.progress.valid.idOf_lt hcond.2.1
    rw [h.progress.idOf_eq i, h.progress.valid.size_eq, ← hvalid.size_eq] at hy
    have hbit := hcond.2.1
    rw [← h.progress.idOf_eq i, ← h.progress.changeTs_eq] at hcond
    rw [updateBit_of_follow hcond, h.progress.idOf_eq i] at hturn
    obtain ⟨cs₂, hupdate, rfl⟩ := Option.map_eq_some_iff.mp hturn
    have hacc := hcall hy hupdate
    obtain ⟨depth', cs₃, hupdate', hprogress, hfresh, hframe⟩ :=
      hacc.exists_update hvalid hy h.progress fun w hw => .inl (hunder w hw)
    obtain rfl := update_unique hupdate hupdate'
    have hsize : cs₂.size = cs.size := hprogress.valid.size_eq.trans hvalid.size_eq.symm
    have hcontains : cs₂.Contains v (cs.idOf i) :=
      ⟨i, (hframe v (Set.mem_insert v under) i).trans hbit, hprogress.idOf_eq i⟩
    refine ⟨hprogress.addClock (Set.mem_insert v under) (hsize ▸ hv) (hsize ▸ hy) hfresh
      (hprogress.valid.tracks.sound hcontains), ?_⟩
    intro k hk hfollowed
    by_cases hki : k = i
    · subst hki
      refine ⟨hacc, fun hreach => (contains_addClock cs₂ v _ v _).mpr (.inr ⟨rfl, ?_⟩)⟩
      exact (hprogress.valid.contains_iff (hfresh.trans hprogress.time_eq.symm) (hsize ▸ hy)).mpr
        (hvalid.reaches_iff.mp hreach)
    · obtain ⟨hacc, hbrought⟩ := h.returned (by omega) hfollowed
      refine ⟨hacc, fun hreach => (contains_addClock cs₂ v _ v _).mpr (.inl ?_)⟩
      obtain ⟨l, hl, hidOf⟩ := hbrought hreach
      exact ⟨l, (hframe v (Set.mem_insert v under) l).trans hl,
        (hprogress.idOf_eq l).trans ((h.progress.idOf_eq l).symm.trans hidOf)⟩
  · have hnot : ¬cs.Followed v i := fun hfollowed => hcond (h.follows hvalid hfollowed)
    rw [← h.progress.idOf_eq i, ← h.progress.changeTs_eq] at hcond
    rw [updateBit_of_not_follow hcond] at hturn
    cases hturn
    refine ⟨h.progress, fun {k} hk hfollowed => ?_⟩
    by_cases hki : k = i
    · exact absurd (hki ▸ hfollowed) hnot
    · exact h.returned (by omega) hfollowed

end Tried

/-- Only the updates of clocks from which following comes to an end return. -/
theorem Accessible.of_update (hvalid : cs.Valid idxs direct) (depth : ℕ) :
    ∀ {under : Set ℕ} {cs' cs'' : ClockSystem} {v : ℕ}, v < cs.size →
      Progress idxs direct under cs cs' → (∀ w ∈ under, ¬cs.Accessible w) →
      update depth cs' v = some cs'' → cs.Accessible v := by
  induction depth with
  | zero =>
      intro under cs' cs'' v _ _ _ hupdate
      cases hupdate
  | succ depth ih =>
      intro under cs' cs'' v hv hprogress hunder hupdate
      by_contra hnot
      have hsame : cs'.updateTs v = cs.updateTs v := by
        by_cases hin : v ∈ under
        · exact hprogress.running hin
        · exact ((hprogress.status hin).resolve_right fun h => hnot h.2).1
      have hstale : cs'.updateTs v ≠ cs.time := fun h => hnot (.of_fresh (hsame.symm.trans h))
      have hunder' : ∀ w ∈ insert v under, ¬cs.Accessible w := by
        intro w hw
        cases hw with
        | inl hw => exact hw ▸ hnot
        | inr hw => exact hunder w hw
      have hfresh : ¬cs'.updateTs v = cs'.time := fun h => hstale (h.trans hprogress.time_eq)
      rw [ClockSystem.update, if_neg hfresh, hsame, hprogress.idxToId_eq] at hupdate
      obtain ⟨cs₁, hloop, -⟩ := Option.map_eq_some_iff.mp hupdate
      have htried := @FoldInvariant.of_foldlM_indexed ClockSystem ℕ _
        (Tried idxs direct under cs v) _ 0 (fun j cs₁ i cs₂ hj htried hturn => by
          rw [Nat.zero_add] at htried ⊢
          obtain ⟨hlt, rfl⟩ := List.getElem?_eq_some_iff.mp hj
          rw [List.getElem_range] at hturn
          exact htried.turn hvalid hv hunder' (fun hy => ih hy htried.progress hunder') hturn)
        _ _ ⟨hprogress.insert hstale, fun hk => absurd hk (Nat.not_lt_zero _)⟩ hloop
      rw [Nat.zero_add, List.length_range] at htried
      refine hnot (Acc.intro v fun y hfollows => ?_)
      obtain ⟨-, i, hfollowed, rfl⟩ := hfollows
      exact (htried.returned (hfollowed.lt_length hvalid) hfollowed).1

end Nidhugg.ClockSystem
