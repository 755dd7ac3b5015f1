import Nidhugg.Library.Reachability
import Nidhugg.Verification.FBVClock.Termination

/-! # Sequences of operations on clocks

The clocks are right about everything that they reach, and the operations return, exactly if no
update comes back to a clock whose own update is under way. -/

namespace Nidhugg

namespace ClockSystem

open Relation LazyClosure

variable {idxs : List ℕ} {direct : ℕ → ℕ → Prop}
variable {cs cs' : ClockSystem} {x y v i j idx depth : ℕ}

/-- What is done with a result does not change whether there is one. -/
theorem exists_map_iff {α β : Type} {f : α → β} {result : ℕ → Option α} :
    (∃ depth r, (result depth).map f = some r) ↔ ∃ depth r, result depth = some r := by
  constructor
  · intro ⟨depth, r, h⟩
    obtain ⟨r', h, -⟩ := Option.map_eq_some_iff.mp h
    exact ⟨depth, r', h⟩
  · intro ⟨depth, r, h⟩
    exact ⟨depth, f r, Option.map_eq_some_iff.mpr ⟨r, h, rfl⟩⟩

/-! ### Updates -/

/-- The walk of an update reaches a clock that it reaches again from this clock. -/
def ComesBack (cs : ClockSystem) (v : ℕ) : Prop :=
  ∃ y, ReflTransGen cs.Follows v y ∧ TransGen cs.Follows y y

/-- A clock whose bit is stored has changed since the last update. -/
def Changed (cs : ClockSystem) (x i : ℕ) : Prop :=
  cs.bit x i = true ∧ cs.idOf i = i ∧ cs.updateTs x < cs.changeTs i ∧ cs.updateTs x ≠ cs.time

instance (cs : ClockSystem) (x i : ℕ) : Decidable (cs.Changed x i) :=
  inferInstanceAs (Decidable (_ ∧ _ ∧ _ ∧ _))

theorem Changed.follows (h : cs.Changed x i) (hne : i ≠ x) : cs.Follows x i := by
  obtain ⟨hbit, hid, hlt, hstale⟩ := h
  exact ⟨hstale, i, .stored hbit (hid.trans_ne hne) (hid.symm ▸ hlt), hid⟩

theorem accessible_iff (h : cs.Valid idxs direct) (hv : v < cs.size) :
    cs.Accessible v ↔ ¬cs.ComesBack v := by
  constructor
  · intro hacc ⟨y, hreach, hcycle⟩
    refine Accessible.not_transGen_self ?_ hcycle
    cases reflTransGen_iff_eq_or_transGen.mp hreach with
    | inl heq => exact heq ▸ hacc
    | inr hreach => exact hacc.of_transGen hreach
  · intro hback
    refine Reachability.acc_of_not_transGen ((Set.finite_lt_nat cs.size).subset ?_)
      fun y hreach hcycle => hback ⟨y, hreach, hcycle⟩
    intro y hreach
    cases ReflTransGen.cases_tail hreach with
    | inl heq => exact heq ▸ hv
    | inr hlast =>
        obtain ⟨z, -, -, i, hfollowed, rfl⟩ := hlast
        exact hfollowed.idOf_lt h

/-- An update returns exactly if its walk does not come back. -/
theorem exists_update_iff (h : cs.Valid idxs direct) (hv : v < cs.size) :
    (∃ depth cs', update depth cs v = some cs') ↔ ¬cs.ComesBack v := by
  rw [← accessible_iff h hv]
  constructor
  · intro ⟨depth, cs', hupdate⟩
    exact Accessible.of_update h depth hv (Progress.refl h) (fun _ hw => absurd hw id) hupdate
  · intro hacc
    obtain ⟨depth, cs', hupdate, -⟩ :=
      hacc.exists_update h hv (Progress.refl h) fun _ (hw : _ ∈ (∅ : Set ℕ)) => absurd hw id
    exact ⟨depth, cs', hupdate⟩

theorem Valid.update (h : cs.Valid idxs direct) (hv : v < cs.size)
    (hupdate : update depth cs v = some cs') :
    cs'.Valid idxs direct ∧ cs'.updateTs v = cs'.time := by
  have hacc := Accessible.of_update h depth hv (Progress.refl h) (fun _ hw => absurd hw id) hupdate
  obtain ⟨depth', cs₁, hupdate', hprogress, hfresh, -⟩ :=
    hacc.exists_update h hv (Progress.refl h) fun _ (hw : _ ∈ (∅ : Set ℕ)) => absurd hw id
  cases update_unique hupdate hupdate'
  exact ⟨hprogress.valid, hfresh.trans hprogress.time_eq.symm⟩

/-- A clock that is up to date has the bits of the clocks that it reaches. -/
theorem Valid.bit_iff (h : cs.Valid idxs direct) (hv : v < cs.size)
    (hfresh : cs.updateTs v = cs.time) :
    cs.bit v i = true ↔ ∃ k : ℕ, idxs[k]? = some i ∧ ReflTransGen direct v k := by
  constructor
  · intro hbit
    obtain ⟨k, hk⟩ := h.indexed hbit
    exact ⟨k, hk, (h.contains_iff hfresh hv).mp ⟨i, hbit, (h.lookup hk).2⟩⟩
  · intro ⟨k, hk, hreach⟩
    refine h.bit_of_contains ⟨k, hk⟩ ?_
    rw [(h.lookup hk).2]
    exact (h.contains_iff hfresh hv).mpr hreach

/-! ### Creating clocks -/

theorem valid_empty : empty.Valid [] fun _ _ => False where
  size_eq := rfl
  nodup := List.nodup_nil
  lookup := fun h => absurd h (by simp)
  indexed := fun h => absurd h (by simp [bit, empty])
  created := fun h => absurd h (by simp [bit, empty])
  self := fun h => absurd h (by simp)
  tracks :=
    { complete := fun h => h.elim
      sound := fun ⟨i, hi, _⟩ => absurd hi (by simp [bit, empty])
      stale := fun _ h => h.elim
      change_le := fun _ => Nat.le_refl 0
      update_le := fun _ => Nat.le_refl 0 }

theorem getD_set_resize {α : Type} (xs : List α) (idx i : ℕ) (x d : α) :
    ((resize xs (idx + 1) d).set idx x).getD i d = if i = idx then x else xs.getD i d := by
  have hlength : idx < (resize xs (idx + 1) d).length := by
    rw [resize, List.length_append, List.length_replicate]
    omega
  rw [List.getD_eq_getElem?_getD, List.getElem?_set]
  by_cases hi : idx = i
  · subst hi
    rw [if_pos rfl, if_pos hlength, if_pos rfl, Option.getD_some]
  · rw [if_neg hi, if_neg (Ne.symm hi), resize, List.getD_eq_getElem?_getD, List.getElem?_append]
    by_cases hlt : i < xs.length
    · rw [if_pos hlt]
    · rw [if_neg hlt, List.getElem?_replicate, List.getElem?_eq_none (Nat.le_of_not_lt hlt)]
      split <;> rfl

theorem bit_create (cs : ClockSystem) (idx x i : ℕ) : (cs.create idx).1.bit x i =
    if x = cs.size then decide (i = idx) else cs.bit x i := by
  have hclocks : (cs.create idx).1.clocks =
      Function.update cs.clocks cs.size ((resize [] (idx + 1) false).set idx true) := rfl
  by_cases hx : x = cs.size
  · rw [if_pos hx, hx, bit, hclocks, Function.update_self, getD_set_resize, List.getD_nil]
    by_cases hi : i = idx
    · rw [if_pos hi, decide_eq_true hi]
    · rw [if_neg hi, decide_eq_false hi]
  · rw [if_neg hx, bit, hclocks, Function.update_of_ne hx, bit]

theorem idOf_create (cs : ClockSystem) (idx i : ℕ) :
    (cs.create idx).1.idOf i = if i = idx then cs.size else cs.idOf i :=
  getD_set_resize cs.idxToId idx i cs.size 0

/-- A new clock with an index of its own. -/
theorem Valid.create (h : cs.Valid idxs direct) (hidx : idx ∉ idxs) :
    (cs.create idx).1.Valid (idxs ++ [idx]) direct := by
  have hold : ∀ {k i : ℕ}, idxs[k]? = some i → k ≠ cs.size ∧ i ≠ idx := by
    intro k i hk
    rw [h.size_eq]
    exact ⟨Nat.ne_of_lt (List.getElem?_eq_some_iff.mp hk).1,
      fun hi => hidx (hi ▸ List.mem_of_getElem? hk)⟩
  have hsnoc : ∀ {k i : ℕ}, (idxs ++ [idx])[k]? = some i ↔
      idxs[k]? = some i ∨ k = cs.size ∧ i = idx := by
    intro k i
    rw [h.size_eq, List.getElem?_append]
    by_cases hk : k < idxs.length
    · rw [if_pos hk]
      exact ⟨.inl, fun h => h.resolve_right fun h => absurd h.1 (Nat.ne_of_lt hk)⟩
    · rw [if_neg hk, List.getElem?_eq_none (Nat.le_of_not_lt hk), List.getElem?_singleton]
      by_cases heq : k = idxs.length
      · simp [heq, eq_comm]
      · simp [heq, show k - idxs.length ≠ 0 by omega]
  have hbit : ∀ {x i : ℕ}, cs.bit x i = true → x ≠ cs.size ∧ i ≠ idx := by
    intro x i hi
    obtain ⟨k, hk⟩ := h.indexed hi
    exact ⟨Nat.ne_of_lt (h.created hi), (hold hk).2⟩
  have hset : ∀ {x i : ℕ}, (cs.create idx).1.bit x i = true ↔
      cs.bit x i = true ∨ x = cs.size ∧ i = idx := by
    intro x i
    rw [bit_create]
    by_cases hx : x = cs.size
    · rw [if_pos hx, decide_eq_true_iff]
      exact ⟨fun hi => .inr ⟨hx, hi⟩, fun h => h.elim (fun hi => absurd hx (hbit hi).1) And.right⟩
    · rw [if_neg hx]
      exact ⟨.inl, fun h => h.resolve_right fun h => hx h.1⟩
  have hcontains : ∀ u w, (cs.create idx).1.Contains u w ↔
      cs.Contains u w ∨ u = cs.size ∧ w = cs.size := by
    intro u w
    constructor
    · intro ⟨i, hi, hw⟩
      rw [idOf_create] at hw
      cases hset.mp hi with
      | inl hi => exact .inl ⟨i, hi, (if_neg (hbit hi).2).symm.trans hw⟩
      | inr hi => exact .inr ⟨hi.1, ((if_pos hi.2).symm.trans hw).symm⟩
    · intro hcases
      cases hcases with
      | inl hold =>
          obtain ⟨i, hi, hw⟩ := hold
          exact ⟨i, hset.mpr (.inl hi), by rw [idOf_create, if_neg (hbit hi).2, hw]⟩
      | inr hnew =>
          exact ⟨idx, hset.mpr (.inr ⟨hnew.1, rfl⟩), by rw [idOf_create, if_pos rfl, hnew.2]⟩
  have hlength : (cs.create idx).1.idxToId.length = max cs.idxToId.length (idx + 1) := by
    simp only [ClockSystem.create, resize, List.length_set, List.length_append,
      List.length_replicate]
    omega
  constructor
  · rw [List.length_append, ← h.size_eq]
    rfl
  · exact List.nodup_append.mpr ⟨h.nodup, List.nodup_singleton idx,
      fun i hi j hj hij => hidx (List.mem_singleton.mp hj ▸ hij ▸ hi)⟩
  · intro k i hk
    rw [hlength, idOf_create]
    cases hsnoc.mp hk with
    | inl hk =>
        rw [if_neg (hold hk).2]
        exact ⟨Nat.lt_of_lt_of_le (h.lookup hk).1 (Nat.le_max_left _ _), (h.lookup hk).2⟩
    | inr hk =>
        rw [if_pos hk.2, hk.1, hk.2]
        exact ⟨Nat.lt_of_lt_of_le (Nat.lt_succ_self idx) (Nat.le_max_right _ _), rfl⟩
  · intro x i hi
    cases hset.mp hi with
    | inl hi =>
        obtain ⟨k, hk⟩ := h.indexed hi
        exact ⟨k, hsnoc.mpr (.inl hk)⟩
    | inr hi => exact ⟨cs.size, hsnoc.mpr (.inr ⟨rfl, hi.2⟩)⟩
  · intro x i hi
    cases hset.mp hi with
    | inl hi => exact Nat.lt_succ_of_lt (h.created hi)
    | inr hi => exact hi.1 ▸ Nat.lt_succ_self cs.size
  · intro k i hk
    exact hset.mpr ((hsnoc.mp hk).imp_left h.self)
  · refine h.tracks.add_element (fun y hy => ?_) (fun y hy => ?_) hcontains
    · obtain ⟨i, hi, -⟩ := h.tracks.complete hy
      exact absurd (h.created hi) (Nat.lt_irrefl _)
    · obtain ⟨i, hi, -⟩ := hy
      exact absurd (h.created hi) (Nat.lt_irrefl _)

/-! ### Adding and reading clocks -/

variable {a c : FBVClock} {b : Bool}

/-- Nothing is to be done for a clock that is already contained. -/
theorem addAssign_of_bit (hbit : cs.bit a.id c.idx = true) :
    cs.addAssign depth a c = some cs :=
  if_pos hbit

theorem addAssign_of_not_bit (hbit : cs.bit a.id c.idx = false) :
    cs.addAssign depth a c = (cs.update depth c.id).map fun cs =>
      { (ClockSystem.addClock { cs with
          time := cs.time + 1
          updateTs := Function.update cs.updateTs c.id (cs.time + 1) } a.id c.id) with
        changeTs := Function.update cs.changeTs a.id (cs.time + 1) } :=
  if_neg (by rw [hbit]; exact Bool.noConfusion)

/-- An addition returns exactly if it has nothing to do or its update does not come back. -/
theorem exists_addAssign_iff (h : cs.Valid idxs direct) (hc : c.id < cs.size) :
    (∃ depth cs', cs.addAssign depth a c = some cs') ↔
      ¬(cs.bit a.id c.idx = false ∧ cs.ComesBack c.id) := by
  cases hbit : cs.bit a.id c.idx with
  | true => exact ⟨fun _ h => Bool.noConfusion h.1, fun _ => ⟨0, cs, addAssign_of_bit hbit⟩⟩
  | false =>
      simp only [addAssign_of_not_bit hbit, true_and, exists_map_iff, exists_update_iff h hc]

theorem Valid.addAssign (h : cs.Valid idxs direct) (ha : a.id < cs.size)
    (hc : idxs[c.id]? = some c.idx) (hbit : cs.bit a.id c.idx = false)
    (hadd : cs.addAssign depth a c = some cs') :
    cs'.Valid idxs fun x y => direct x y ∨ x = a.id ∧ y = c.id := by
  rw [addAssign_of_not_bit hbit] at hadd
  obtain ⟨cs₁, hupdate, rfl⟩ := Option.map_eq_some_iff.mp hadd
  have hcsize : c.id < cs.size := h.size_eq ▸ (List.getElem?_eq_some_iff.mp hc).1
  obtain ⟨hvalid, hfresh⟩ := h.update hcsize hupdate
  have hsize : cs₁.size = cs.size := hvalid.size_eq.trans h.size_eq.symm
  have hself := hvalid.contains_self (hsize ▸ hcsize)
  have hne : a.id ≠ c.id := by
    intro heq
    rw [heq, h.self hc] at hbit
    cases hbit
  exact hvalid.of_taken (hsize ▸ ha) rfl rfl rfl
    (hvalid.tracks.add_edge hfresh hself hne (contains_addClock cs₁ a.id c.id))

theorem exists_read_iff (h : cs.Valid idxs direct) (ha : a.id < cs.size) :
    (∃ depth r, cs.read depth a i = some r) ↔ ¬cs.ComesBack a.id := by
  rw [← exists_update_iff h ha]
  exact exists_map_iff

theorem Valid.read (h : cs.Valid idxs direct) (ha : a.id < cs.size)
    (hread : cs.read depth a i = some (cs', b)) : cs'.Valid idxs direct ∧
      (b = true ↔ ∃ k : ℕ, idxs[k]? = some i ∧ ReflTransGen direct a.id k) := by
  obtain ⟨cs₁, hupdate, heq⟩ := Option.map_eq_some_iff.mp hread
  cases heq
  obtain ⟨hvalid, hfresh⟩ := h.update ha hupdate
  have hsize : cs'.size = cs.size := hvalid.size_eq.trans h.size_eq.symm
  exact ⟨hvalid, hvalid.bit_iff (hsize ▸ ha) hfresh⟩

end ClockSystem

namespace FBVClock

open Relation ClockSystem

variable {ops pre post : List Op} {op : Op} {s s' : State} {answer : Option Bool} {depth : ℕ}

/-! ### What the operations are for -/

/-- The indices of the clocks, in the order of their creation. -/
def indices (ops : List Op) : List ℕ :=
  ops.filterMap fun
    | .create idx => some idx
    | _ => none

/-- The pairs of clocks for which an addition has been executed. -/
def Added (ops : List Op) (x y : ℕ) : Prop := Op.addAssign x y ∈ ops

/-- New clocks have indices of their own, and operations are on existing clocks. -/
def Op.WellFormed (idxs : List ℕ) : Op → Prop
  | .create idx => idx ∉ idxs
  | .addAssign a c => a < idxs.length ∧ c < idxs.length
  | .read a _ => a < idxs.length

instance (idxs : List ℕ) (op : Op) : Decidable (op.WellFormed idxs) :=
  match op with
  | .create idx => inferInstanceAs (Decidable (idx ∉ idxs))
  | .addAssign a c => inferInstanceAs (Decidable (a < idxs.length ∧ c < idxs.length))
  | .read a _ => inferInstanceAs (Decidable (a < idxs.length))

def WellFormed (ops : List Op) : Prop :=
  ∀ pre op post, ops = pre ++ op :: post → op.WellFormed (indices pre)

theorem wellFormed_iff (ops : List Op) : WellFormed ops ↔
    ∀ n : Fin ops.length, (ops.get n).WellFormed (indices (ops.take n)) := by
  constructor
  · intro h n
    refine h _ _ (ops.drop (n + 1)) ?_
    rw [List.get_eq_getElem, ← List.drop_eq_getElem_cons n.isLt, List.take_append_drop]
  · intro h pre op post heq
    subst heq
    have hn : pre.length < (pre ++ op :: post).length := by
      rw [List.length_append, List.length_cons]
      omega
    have hop := h ⟨pre.length, hn⟩
    simpa using hop

instance (ops : List Op) : Decidable (WellFormed ops) :=
  decidable_of_iff _ (wellFormed_iff ops).symm

/-- A read tells whether the index is that of a clock that is reached through additions. -/
def Op.Right (pre : List Op) : Op → Option Bool → Prop
  | .read a i, answer => ∃ b, answer = some b ∧
      (b = true ↔ ∃ k : ℕ, (indices pre)[k]? = some i ∧ ReflTransGen (Added pre) a k)
  | .create _, answer => answer = none
  | .addAssign _ _, answer => answer = none

/-- Every operation returns, and every read is right. -/
def Correct (ops : List Op) : Prop :=
  ∀ pre op post, ops = pre ++ op :: post → ∃ depth s s' answer,
    run depth .init pre = some s ∧ step depth s op = some (s', answer) ∧ op.Right pre answer

/-- The operation updates a clock, and the walk of this update comes back. -/
def Op.ComesBack (s : State) : Op → Prop
  | .create _ => False
  | .addAssign a c => ∃ a' c', s.handles[a]? = some a' ∧ s.handles[c]? = some c' ∧
      s.sys.bit a'.id c'.idx = false ∧ s.sys.ComesBack c'.id
  | .read a _ => ∃ a', s.handles[a]? = some a' ∧ s.sys.ComesBack a'.id

/-! ### Runs -/

/-- The state after the operations `ops`. The edges that the clocks keep track of leave out the
additions that had nothing to do. -/
structure Represents (ops : List Op) (s : State) : Prop where
  handles : s.handles = (indices ops).mapIdx fun k idx => ⟨k, idx⟩
  edges : ∃ direct, s.sys.Valid (indices ops) direct ∧
    ∀ x y, ReflTransGen direct x y ↔ ReflTransGen (Added ops) x y

theorem represents_init : Represents [] .init where
  handles := rfl
  edges := ⟨Added [], by
    have hnone : Added [] = fun _ _ => False := by
      funext x y
      simp [Added]
    exact hnone ▸ valid_empty, fun _ _ => Iff.rfl⟩

theorem indices_snoc_create (pre : List Op) (idx : ℕ) :
    indices (pre ++ [.create idx]) = indices pre ++ [idx] := by
  rw [indices, List.filterMap_append]
  rfl

theorem indices_snoc_addAssign (pre : List Op) (a c : ℕ) :
    indices (pre ++ [.addAssign a c]) = indices pre := by
  rw [indices, List.filterMap_append]
  exact List.append_nil _

theorem indices_snoc_read (pre : List Op) (a i : ℕ) :
    indices (pre ++ [.read a i]) = indices pre := by
  rw [indices, List.filterMap_append]
  exact List.append_nil _

theorem added_snoc_create (pre : List Op) (idx : ℕ) :
    Added (pre ++ [.create idx]) = Added pre := by
  funext x y
  simp [Added]

theorem added_snoc_addAssign (pre : List Op) (a c : ℕ) :
    Added (pre ++ [.addAssign a c]) = fun x y => Added pre x y ∨ x = a ∧ y = c := by
  funext x y
  simp [Added]

theorem added_snoc_read (pre : List Op) (a i : ℕ) : Added (pre ++ [.read a i]) = Added pre := by
  funext x y
  simp [Added]

variable {a c i : ℕ} {a' c' : FBVClock}

theorem step_addAssign (ha : s.handles[a]? = some a') (hc : s.handles[c]? = some c') :
    step depth s (.addAssign a c) =
      (s.sys.addAssign depth a' c').map fun sys => (⟨sys, s.handles⟩, none) := by
  rw [step, ha, hc]
  rfl

theorem step_read (ha : s.handles[a]? = some a') : step depth s (.read a i) =
    (s.sys.read depth a' i).map fun r => (⟨r.1, s.handles⟩, some r.2) := by
  rw [step, ha]
  rfl

theorem comesBack_addAssign_iff (ha : s.handles[a]? = some a') (hc : s.handles[c]? = some c') :
    Op.ComesBack s (.addAssign a c) ↔ s.sys.bit a'.id c'.idx = false ∧ s.sys.ComesBack c'.id := by
  simp [Op.ComesBack, ha, hc]

theorem comesBack_read_iff (ha : s.handles[a]? = some a') :
    Op.ComesBack s (.read a i) ↔ s.sys.ComesBack a'.id := by
  simp [Op.ComesBack, ha]

namespace Represents

/-- The handle of a clock. -/
theorem exists_handle (h : Represents pre s) (ha : a < (indices pre).length) :
    ∃ idx, (indices pre)[a]? = some idx ∧ s.handles[a]? = some ⟨a, idx⟩ := by
  refine ⟨(indices pre)[a], List.getElem?_eq_getElem ha, ?_⟩
  rw [h.handles, List.getElem?_mapIdx, List.getElem?_eq_getElem ha]
  rfl

/-- An operation that returns is right, and the state afterwards represents one operation more. -/
theorem step (h : Represents pre s) (hop : op.WellFormed (indices pre))
    (hstep : FBVClock.step depth s op = some (s', answer)) :
    Represents (pre ++ [op]) s' ∧ op.Right pre answer := by
  obtain ⟨direct, hvalid, hreach⟩ := h.edges
  cases op with
  | create idx =>
      cases hstep
      refine ⟨⟨?_, direct, ?_, ?_⟩, rfl⟩
      · rw [indices_snoc_create, List.mapIdx_concat, ← h.handles, ← hvalid.size_eq]
        rfl
      · rw [indices_snoc_create]
        exact hvalid.create hop
      · rw [added_snoc_create]
        exact hreach
  | addAssign a c =>
      obtain ⟨aIdx, haIdx, ha⟩ := h.exists_handle hop.1
      obtain ⟨cIdx, hcIdx, hc⟩ := h.exists_handle hop.2
      rw [step_addAssign ha hc] at hstep
      obtain ⟨sys, hadd, heq⟩ := Option.map_eq_some_iff.mp hstep
      cases heq
      have hcongr : ∀ x y, ReflTransGen (fun u v => direct u v ∨ u = a ∧ v = c) x y ↔
          ReflTransGen (fun u v => Added pre u v ∨ u = a ∧ v = c) x y :=
        fun x y => LazyClosure.reaches_add_congr hreach
      refine ⟨⟨?_, ?_⟩, rfl⟩
      · rw [indices_snoc_addAssign]
        exact h.handles
      · rw [indices_snoc_addAssign, added_snoc_addAssign]
        cases hbit : s.sys.bit a cIdx with
        | true =>
            rw [addAssign_of_bit hbit] at hadd
            cases hadd
            have hreached : ReflTransGen direct a c := hvalid.tracks.sound
              ⟨cIdx, hbit, (hvalid.lookup hcIdx).2⟩
            exact ⟨direct, hvalid, fun x y =>
              (LazyClosure.reaches_add_reached hreached).symm.trans (hcongr x y)⟩
        | false =>
            have ha : a < s.sys.size := hvalid.size_eq ▸ hop.1
            exact ⟨_, hvalid.addAssign ha hcIdx hbit hadd, hcongr⟩
  | read a i =>
      obtain ⟨aIdx, haIdx, ha⟩ := h.exists_handle hop
      rw [step_read ha] at hstep
      obtain ⟨⟨sys, b⟩, hread, heq⟩ := Option.map_eq_some_iff.mp hstep
      cases heq
      have ha : a < s.sys.size := hvalid.size_eq ▸ hop
      obtain ⟨hvalid', hb⟩ := hvalid.read ha hread
      refine ⟨⟨?_, direct, ?_, ?_⟩, b, rfl, ?_⟩
      · rw [indices_snoc_read]
        exact h.handles
      · rw [indices_snoc_read]
        exact hvalid'
      · rw [added_snoc_read]
        exact hreach
      · simp only [hb, hreach]

/-- An operation returns exactly if its update does not come back. -/
theorem exists_step_iff (h : Represents pre s) (hop : op.WellFormed (indices pre)) :
    (∃ depth r, FBVClock.step depth s op = some r) ↔ ¬op.ComesBack s := by
  obtain ⟨direct, hvalid, -⟩ := h.edges
  cases op with
  | create idx => exact ⟨fun _ h => h, fun _ => ⟨0, _, rfl⟩⟩
  | addAssign a c =>
      obtain ⟨aIdx, haIdx, ha⟩ := h.exists_handle hop.1
      obtain ⟨cIdx, hcIdx, hc⟩ := h.exists_handle hop.2
      have hsize : c < s.sys.size := hvalid.size_eq ▸ hop.2
      rw [comesBack_addAssign_iff ha hc, ← exists_addAssign_iff hvalid hsize]
      simp only [step_addAssign ha hc, exists_map_iff]
  | read a i =>
      obtain ⟨aIdx, haIdx, ha⟩ := h.exists_handle hop
      have hsize : a < s.sys.size := hvalid.size_eq ▸ hop
      rw [comesBack_read_iff ha, ← exists_read_iff (i := i) hvalid hsize]
      simp only [step_read ha, exists_map_iff]

end Represents

/-! ### Deeper stacks -/

theorem map_mono {α β : Type} {o o' : Option α} (h : ∀ r, o = some r → o' = some r) {f : α → β}
    {r : β} (hr : o.map f = some r) : o'.map f = some r := by
  obtain ⟨x, hx, hfx⟩ := Option.map_eq_some_iff.mp hr
  exact Option.map_eq_some_iff.mpr ⟨x, h x hx, hfx⟩

theorem addAssign_mono {depth' : ℕ} {cs cs' : ClockSystem} {a c : FBVClock}
    (hle : depth ≤ depth') (h : cs.addAssign depth a c = some cs') :
    cs.addAssign depth' a c = some cs' := by
  cases hbit : cs.bit a.id c.idx with
  | true =>
      rw [addAssign_of_bit hbit] at h ⊢
      exact h
  | false =>
      rw [addAssign_of_not_bit hbit] at h ⊢
      exact map_mono (fun _ => update_mono hle) h

theorem step_mono {depth' : ℕ} {r : State × Option Bool} (hle : depth ≤ depth')
    (h : step depth s op = some r) : step depth' s op = some r := by
  cases op with
  | create idx => exact h
  | addAssign a c =>
      obtain ⟨a', ha, h⟩ := Option.bind_eq_some_iff.mp h
      obtain ⟨c', hc, h⟩ := Option.bind_eq_some_iff.mp h
      rw [step_addAssign ha hc]
      exact map_mono (fun _ => addAssign_mono hle) h
  | read a i =>
      obtain ⟨a', ha, h⟩ := Option.bind_eq_some_iff.mp h
      rw [step_read ha]
      exact map_mono (fun _ => map_mono fun _ => update_mono hle) h

theorem run_mono {depth' : ℕ} (hle : depth ≤ depth') (h : run depth s ops = some s') :
    run depth' s ops = some s' := by
  induction ops generalizing s with
  | nil => exact h
  | cons op ops ih =>
      rw [run] at h ⊢
      obtain ⟨r, hstep, hrest⟩ := Option.bind_eq_some_iff.mp h
      rw [step_mono hle hstep]
      exact ih hrest

theorem run_unique {depth' : ℕ} (h : run depth s ops = some s')
    {s'' : State} (h' : run depth' s ops = some s'') : s' = s'' :=
  Option.some.inj ((run_mono (Nat.le_max_left depth depth') h).symm.trans
    (run_mono (Nat.le_max_right depth depth') h'))

theorem run_snoc (depth : ℕ) (s : State) (pre : List Op) (op : Op) : run depth s (pre ++ [op]) =
    (run depth s pre).bind fun s => (step depth s op).map Prod.fst := by
  induction pre generalizing s with
  | nil =>
      rw [List.nil_append, run, run, Option.bind_some]
      exact (Option.map_eq_bind ..).symm
  | cons op' pre ih =>
      rw [List.cons_append, run, run, Option.bind_assoc]
      exact congrArg (Option.bind _) (funext fun r => ih r.1)

/-! ### Runs -/

theorem WellFormed.of_append (h : WellFormed (pre ++ post)) : WellFormed pre := by
  intro pre' op' post' heq
  refine h pre' op' (post' ++ post) ?_
  rw [heq, List.append_assoc, List.cons_append]

theorem represents_run (hops : WellFormed ops) (hrun : run depth .init ops = some s) :
    Represents ops s := by
  induction ops using List.reverseRecOn generalizing s with
  | nil =>
      cases hrun
      exact represents_init
  | append_singleton pre op ih =>
      rw [run_snoc] at hrun
      obtain ⟨s₁, hpre, hlast⟩ := Option.bind_eq_some_iff.mp hrun
      obtain ⟨⟨s₂, answer⟩, hstep, rfl⟩ := Option.map_eq_some_iff.mp hlast
      exact ((ih hops.of_append hpre).step (hops pre op [] rfl) hstep).1

/-- The condition: no update in the run comes back to a clock whose own update is under way. -/
def NeverComesBack (ops : List Op) : Prop :=
  ∀ pre op post depth s, ops = pre ++ op :: post → run depth .init pre = some s → ¬op.ComesBack s

theorem NeverComesBack.of_append (h : NeverComesBack (pre ++ post)) : NeverComesBack pre := by
  intro pre' op' post' depth s heq
  refine h pre' op' (post' ++ post) depth s ?_
  rw [heq, List.append_assoc, List.cons_append]

theorem exists_run (hops : WellFormed ops) (hback : NeverComesBack ops) :
    ∃ depth s, run depth .init ops = some s := by
  induction ops using List.reverseRecOn with
  | nil => exact ⟨0, .init, rfl⟩
  | append_singleton pre op ih =>
      obtain ⟨depth, s, hrun⟩ := ih hops.of_append hback.of_append
      obtain ⟨depth', r, hstep⟩ := ((represents_run hops.of_append hrun).exists_step_iff
        (hops pre op [] rfl)).mpr (hback pre op [] depth s rfl hrun)
      refine ⟨max depth depth', r.1, ?_⟩
      rw [run_snoc, run_mono (Nat.le_max_left depth depth') hrun, Option.bind_some,
        step_mono (Nat.le_max_right depth depth') hstep]
      rfl

/-- All operations of a run return and all its reads are right exactly if no update comes back. -/
theorem correct_iff (ops : List Op) (hops : WellFormed ops) :
    Correct ops ↔ NeverComesBack ops := by
  constructor
  · intro hcorrect pre op post depth s heq hrun
    have hpre : WellFormed pre := WellFormed.of_append (heq ▸ hops)
    obtain ⟨depth', s₁, s₂, answer, hrun', hstep, -⟩ := hcorrect pre op post heq
    cases run_unique hrun hrun'
    exact ((represents_run hpre hrun).exists_step_iff (hops pre op post heq)).mp
      ⟨depth', _, hstep⟩
  · intro hback pre op post heq
    have hpre : WellFormed pre := WellFormed.of_append (heq ▸ hops)
    obtain ⟨depth, s, hrun⟩ := exists_run hpre (NeverComesBack.of_append (heq ▸ hback))
    have hrep := represents_run hpre hrun
    have hop := hops pre op post heq
    obtain ⟨depth', ⟨s', answer⟩, hstep⟩ :=
      (hrep.exists_step_iff hop).mpr (hback pre op post depth s heq hrun)
    exact ⟨max depth depth', s, s', answer, run_mono (Nat.le_max_left depth depth') hrun,
      step_mono (Nat.le_max_right depth depth') hstep, (hrep.step hop hstep).2⟩

theorem correct_iff_chain :
    Correct [.create 0, .create 1, .create 2, .addAssign 0 1, .addAssign 1 2, .read 0 2] ↔
      NeverComesBack
        [.create 0, .create 1, .create 2, .addAssign 0 1, .addAssign 1 2, .read 0 2] :=
  correct_iff _ (by decide)

/-- Two clocks that contain each other, and then each gets a new one. -/
def mutualAdditions : List Op :=
  [.create 0, .create 1, .create 2, .create 3, .addAssign 0 1, .addAssign 1 0, .addAssign 0 2,
    .addAssign 1 3]

/-- Both clocks have changed since the last update of the other one, so reading one of them does
not return. -/
theorem not_correct_mutualAdditions : WellFormed (mutualAdditions ++ [.read 0 0]) ∧
    ¬Correct (mutualAdditions ++ [.read 0 0]) := by
  refine ⟨by decide, fun hcorrect => ?_⟩
  obtain ⟨depth, s, s', answer, hrun, hstep, -⟩ := hcorrect mutualAdditions (.read 0 0) [] rfl
  have hchanged : (run 2 .init mutualAdditions).map
      (fun s => decide (s.sys.Changed 0 1 ∧ s.sys.Changed 1 0)) = some true := by decide
  obtain ⟨s₁, hrun₁, hboth⟩ := Option.map_eq_some_iff.mp hchanged
  cases run_unique hrun hrun₁
  have hboth : s.sys.Changed 0 1 ∧ s.sys.Changed 1 0 := of_decide_eq_true hboth
  have hback : s.sys.ComesBack 0 :=
    ⟨0, .refl, .tail (.single (hboth.1.follows (by decide))) (hboth.2.follows (by decide))⟩
  have hrep := represents_run (by decide) hrun
  have hread : Op.WellFormed (indices mutualAdditions) (.read 0 0) := by decide
  refine (hrep.exists_step_iff hread).mp ⟨depth, _, hstep⟩ ⟨⟨0, 0⟩, ?_, hback⟩
  rw [hrep.handles]
  rfl

end FBVClock

end Nidhugg
