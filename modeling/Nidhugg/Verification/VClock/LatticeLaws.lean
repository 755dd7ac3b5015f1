import Mathlib.Order.PiLex
import Nidhugg.Model.VClock

/-! # Pointwise equations of vector clocks -/

namespace Nidhugg.VClock

theorem get_resize (v : List ℕ) (n d : ℕ) : (resize v n).getD d 0 = v.getD d 0 := by
  simp only [resize, List.getD_eq_getElem?_getD]
  by_cases h : d < v.length
  · rw [List.getElem?_append_left h]
  · have h' : v.length ≤ d := Nat.le_of_not_lt h
    rw [List.getElem?_append_right h', List.getElem?_replicate,
      List.getElem?_eq_none h']
    split <;> rfl

@[simp] theorem get_empty (d : ℕ) : empty.get d = 0 := by
  simp [empty, get]

/-- An entry that is present in neither vector reads as zero. -/
theorem get_eq_zero_of_sizeUb_le {c : VClock} {d : ℕ} (h : c.sizeUb ≤ d) : c.get d = 0 := by
  simp only [get, List.getD_eq_getElem?_getD]
  rw [List.getElem?_eq_none h, Option.getD_none]

theorem lt_sizeUb_of_get_pos {c : VClock} {d : ℕ} (h : 0 < c.get d) : d < c.sizeUb := by
  by_contra hd
  rw [get_eq_zero_of_sizeUb_le (Nat.le_of_not_lt hd)] at h
  exact Nat.lt_irrefl 0 h

theorem get_set (c : VClock) (d value p : ℕ) :
    (c.set d value).get p = if p = d then value else c.get p := by
  have hlen : d < (resize c.vec (d + 1)).length := by
    simp only [resize, List.length_append, List.length_replicate]
    omega
  by_cases hp : p = d
  · subst hp
    simp [set, get, hlen]
  · rw [if_neg hp]
    have h := get_resize c.vec (d + 1) p
    simp only [List.getD_eq_getElem?_getD] at h
    simp only [set, get, List.getD_eq_getElem?_getD, List.getElem?_set]
    rw [if_neg (fun h' => hp h'.symm), h]

theorem get_addAssign (a b : VClock) (d : ℕ) :
    (a.addAssign b).get d = max (a.get d) (b.get d) := by
  have hr := get_resize a.vec b.vec.length d
  simp only [List.getD_eq_getElem?_getD] at hr
  simp only [addAssign, get, List.getD_eq_getElem?_getD, List.getElem?_mapIdx]
  cases h : (resize a.vec b.vec.length)[d]? with
  | none =>
      rw [h] at hr
      have hlen : (resize a.vec b.vec.length).length ≤ d := List.getElem?_eq_none_iff.mp h
      have hb : b.vec.length ≤ d := by
        simp only [resize, List.length_append, List.length_replicate] at hlen
        omega
      have ha : a.vec[d]?.getD 0 = 0 := by simpa using hr.symm
      rw [ha, List.getElem?_eq_none hb]
      simp
  | some x =>
      rw [h, Option.getD_some] at hr
      simp only [Option.map_some, Option.getD_some]
      rw [← hr]
      by_cases hb : d < b.vec.length
      · simp only [hb, true_and]
        split <;> omega
      · have hz : b.vec[d]?.getD 0 = 0 := by
          rw [List.getElem?_eq_none (Nat.le_of_not_lt hb)]; rfl
        rw [hz]
        simp [hb]

theorem eq_iff (a b : VClock) : a.eq b = true ↔ ∀ d, a.get d = b.get d := by
  simp only [eq, List.all_eq_true, List.mem_range, beq_iff_eq]
  constructor
  · intro h d
    by_cases hd : d < max a.vec.length b.vec.length
    · exact h d hd
    · have ha : a.sizeUb ≤ d := by simp only [sizeUb]; omega
      have hb : b.sizeUb ≤ d := by simp only [sizeUb]; omega
      rw [get_eq_zero_of_sizeUb_le ha, get_eq_zero_of_sizeUb_le hb]
  · intro h d _
    exact h d

theorem leq_iff (a b : VClock) : a.leq b = true ↔ ∀ d, a.get d ≤ b.get d := by
  simp only [leq, Bool.and_eq_true, List.all_eq_true, List.mem_range, decide_eq_true_eq,
    beq_iff_eq]
  constructor
  · rintro ⟨hmin, hrest⟩ d
    by_cases hd : d < min a.vec.length b.vec.length
    · exact hmin d hd
    · by_cases ha : d < a.vec.length
      · -- past the end of `b`, where `leq` insists on zero entries
        have hmem : a.vec[d] ∈ a.vec.drop (min a.vec.length b.vec.length) := by
          rw [List.mem_drop_iff_getElem]
          exact ⟨d - min a.vec.length b.vec.length, by omega, by congr 1; omega⟩
        have hz := hrest _ hmem
        simp [get, List.getElem?_eq_getElem ha, hz]
      · rw [get_eq_zero_of_sizeUb_le (c := a) (Nat.le_of_not_lt ha)]
        exact Nat.zero_le _
  · intro h
    refine ⟨fun d _ => h d, ?_⟩
    intro x hx
    rw [List.mem_drop_iff_getElem] at hx
    obtain ⟨i, hi, rfl⟩ := hx
    have hb : b.sizeUb ≤ min a.vec.length b.vec.length + i := by
      simp only [sizeUb]; omega
    have hle := h (min a.vec.length b.vec.length + i)
    rw [get_eq_zero_of_sizeUb_le hb] at hle
    have hz : a.get (min a.vec.length b.vec.length + i) = 0 := Nat.le_zero.mp hle
    have hi' : min a.vec.length b.vec.length + i < a.vec.length := by omega
    rw [get, List.getD_eq_getElem?_getD, List.getElem?_eq_getElem hi', Option.getD_some] at hz
    exact hz

theorem leq_refl (a : VClock) : a.leq a = true := (leq_iff a a).mpr fun _ => Nat.le_refl _

theorem leq_trans {a b c : VClock} (h : a.leq b = true) (h' : b.leq c = true) :
    a.leq c = true := by
  rw [leq_iff] at h h' ⊢
  exact fun d => Nat.le_trans (h d) (h' d)

theorem empty_leq (a : VClock) : empty.leq a = true := by
  rw [leq_iff]
  intro d
  rw [get_empty]
  exact Nat.zero_le _

theorem leq_addAssign_left (a b : VClock) : a.leq (a.addAssign b) = true := by
  rw [leq_iff]
  intro d
  rw [get_addAssign]
  exact Nat.le_max_left ..

theorem leq_addAssign_right (a b : VClock) : b.leq (a.addAssign b) = true := by
  rw [leq_iff]
  intro d
  rw [get_addAssign]
  exact Nat.le_max_right ..

theorem addAssign_leq {a b c : VClock} (h : a.leq c = true) (h' : b.leq c = true) :
    (a.addAssign b).leq c = true := by
  rw [leq_iff] at h h' ⊢
  intro d
  rw [get_addAssign]
  exact Nat.max_le.mpr ⟨h d, h' d⟩

end Nidhugg.VClock

namespace Nidhugg.ClockRef

@[simp] theorem length_assign (size : ℕ) (c : VClock) : (assign size c).length = size := by
  simp [assign]

theorem getD_assign {size d : ℕ} (c : VClock) (h : d < size) :
    (assign size c).getD d 0 = c.get d := by
  simp [assign, List.getElem?_map, List.getElem?_range h]

@[simp] theorem length_subAssign (a b : ClockRef) : (subAssign a b).length = a.length := by
  simp [subAssign]

theorem getD_subAssign (a b : ClockRef) {d : ℕ} (h : d < a.length) :
    (subAssign a b).getD d 0 = min (a.getD d 0) (b.getD d 0) := by
  simp only [subAssign, List.getD_eq_getElem?_getD, List.getElem?_mapIdx,
    List.getElem?_eq_getElem h, Option.map_some, Option.getD_some]
  split <;> omega

end Nidhugg.ClockRef

/-! # The lattice laws of integer vector clocks

A clock stands for a function on all processes. The operations agree with those of the lattice of
such functions, except that `operator-=` forgets the processes behind the end of its argument. -/

namespace Nidhugg.VClock

/-! ### Maximum and minimum -/

theorem get_map_range (f : ℕ → ℕ) (n d : ℕ) :
    get ⟨(List.range n).map f⟩ d = if d < n then f d else 0 := by
  simp only [get, List.getD_eq_getElem?_getD, List.getElem?_map]
  by_cases h : d < n
  · rw [List.getElem?_range h, if_pos h]
    rfl
  · rw [List.getElem?_eq_none (by simpa using h), if_neg h]
    rfl

theorem get_eq_zero_of_max_le {a b : VClock} {d : ℕ}
    (h : ¬d < max a.vec.length b.vec.length) : a.get d = 0 ∧ b.get d = 0 := by
  constructor <;> refine get_eq_zero_of_sizeUb_le ?_ <;> simp only [sizeUb] <;> omega

theorem get_add (a b : VClock) (d : ℕ) : (a.add b).get d = max (a.get d) (b.get d) := by
  rw [add, get_map_range]
  by_cases h : d < max a.vec.length b.vec.length
  · rw [if_pos h]
  · rw [if_neg h, (get_eq_zero_of_max_le h).1, (get_eq_zero_of_max_le h).2, max_self]

theorem get_sub (a b : VClock) (d : ℕ) : (a.sub b).get d = min (a.get d) (b.get d) := by
  rw [sub, get_map_range]
  by_cases h : d < max a.vec.length b.vec.length
  · rw [if_pos h]
  · rw [if_neg h, (get_eq_zero_of_max_le h).1, (get_eq_zero_of_max_le h).2, min_self]

/-- Only the entries that the argument stores are lowered. -/
theorem get_subAssign (a b : VClock) (d : ℕ) :
    (a.subAssign b).get d = if d < b.sizeUb then min (a.get d) (b.get d) else a.get d := by
  have hresize := get_resize a.vec b.vec.length d
  simp only [List.getD_eq_getElem?_getD] at hresize
  simp only [subAssign, get, sizeUb, List.getD_eq_getElem?_getD, List.getElem?_mapIdx]
  rw [← hresize]
  cases h : (resize a.vec b.vec.length)[d]? with
  | none => simp
  | some x =>
      by_cases hd : d < b.vec.length
      · simp only [hd, Option.map_some, Option.getD_some, true_and, if_true]
        split <;> omega
      · simp [hd]

/-! ### The length that values need -/

theorem get_rdropWhile (v : List ℕ) (d : ℕ) :
    get ⟨v.rdropWhile (· == 0)⟩ d = get ⟨v⟩ d := by
  induction v using List.reverseRecOn with
  | nil => simp
  | append_singleton v x ih =>
      cases h : x == 0 with
      | false => rw [List.rdropWhile_concat_neg _ _ _ (by simpa using h)]
      | true =>
          rw [List.rdropWhile_concat_pos (· == 0) v x h, ih]
          have hx : x = 0 := by simpa using h
          simp only [get, List.getD_eq_getElem?_getD, List.getElem?_append]
          split
          · rfl
          · rename_i hd
            rw [List.getElem?_eq_none (Nat.le_of_not_lt hd), hx]
            cases d - v.length <;> simp

theorem get_pred_size {c : VClock} (h : 0 < c.size) : c.get (c.size - 1) ≠ 0 := by
  have hne : c.vec.rdropWhile (· == 0) ≠ [] := List.length_pos_iff.mp h
  have hlast := List.rdropWhile_last_not (· == 0) c.vec hne
  rw [List.getLast_eq_getElem] at hlast
  have hget := get_rdropWhile c.vec (c.size - 1)
  have hlt : c.size - 1 < (c.vec.rdropWhile (· == 0)).length := Nat.sub_lt h Nat.one_pos
  rw [get, List.getD_eq_getElem?_getD, List.getElem?_eq_getElem hlt, Option.getD_some] at hget
  intro hzero
  rw [show c.get (c.size - 1) = get ⟨c.vec⟩ (c.size - 1) from rfl] at hzero
  simp only [beq_iff_eq] at hlast
  exact hlast (hget.trans hzero)

/-- The length without trailing zeros only depends on the values. -/
theorem size_le_iff (c : VClock) (n : ℕ) : c.size ≤ n ↔ ∀ d, n ≤ d → c.get d = 0 := by
  constructor
  · intro h d hd
    rw [← get_rdropWhile]
    exact get_eq_zero_of_sizeUb_le (c := ⟨c.vec.rdropWhile (· == 0)⟩) (h.trans hd)
  · intro h
    by_contra hn
    exact get_pred_size (by omega) (h (c.size - 1) (by omega))

theorem size_le_sizeUb (c : VClock) : c.size ≤ c.sizeUb :=
  (c.size_le_iff _).mpr fun _ => get_eq_zero_of_sizeUb_le

/-! ### The partial order -/

theorem geq_iff (a b : VClock) : a.geq b = true ↔ ∀ d, b.get d ≤ a.get d := by
  simp only [geq, List.all_eq_true, List.mem_range, Bool.not_eq_true', decide_eq_false_iff_not,
    Nat.not_lt]
  constructor
  · intro h d
    by_cases hd : d < max a.vec.length b.vec.length
    · exact h d hd
    · rw [(get_eq_zero_of_max_le hd).2]
      exact Nat.zero_le _
  · exact fun h d _ => h d

theorem strictlyBelow_iff (a b : VClock) (is : List ℕ) (strict : Bool) :
    strictlyBelow a b is strict = true ↔ (∀ i ∈ is, a.get i ≤ b.get i) ∧
      (strict = true ∨ ∃ i ∈ is, a.get i < b.get i) := by
  induction is generalizing strict with
  | nil => simp [strictlyBelow]
  | cons i is ih =>
      rw [strictlyBelow]
      by_cases hi : b.get i < a.get i
      · have hle : ¬a.get i ≤ b.get i := Nat.not_le.mpr hi
        simp [hi, hle]
      · have hle : a.get i ≤ b.get i := Nat.le_of_not_lt hi
        simp [hi, ih, hle, or_assoc]

/-- Behind both vectors no entry is smaller than the other. -/
theorem strictlyBelow_range_iff (a b : VClock) {n : ℕ}
    (h : ∀ d, n ≤ d → a.get d = 0 ∧ b.get d = 0) :
    strictlyBelow a b (List.range n) false = true ↔
      (∀ d, a.get d ≤ b.get d) ∧ ∃ d, a.get d < b.get d := by
  rw [strictlyBelow_iff]
  simp only [List.mem_range, Bool.false_eq_true, false_or]
  constructor
  · intro ⟨hle, i, _, hi⟩
    refine ⟨fun d => ?_, i, hi⟩
    by_cases hd : d < n
    · exact hle d hd
    · rw [(h d (Nat.le_of_not_lt hd)).1]
      exact Nat.zero_le _
  · intro ⟨hle, i, hi⟩
    refine ⟨fun d _ => hle d, i, ?_, hi⟩
    by_contra hn
    rw [(h i (Nat.le_of_not_lt hn)).1, (h i (Nat.le_of_not_lt hn)).2] at hi
    exact Nat.lt_irrefl 0 hi

theorem lt_iff (a b : VClock) :
    a.lt b = true ↔ (∀ d, a.get d ≤ b.get d) ∧ ∃ d, a.get d < b.get d :=
  strictlyBelow_range_iff a b fun _ hd => get_eq_zero_of_max_le (Nat.not_lt.mpr hd)

theorem gt_iff (a b : VClock) :
    a.gt b = true ↔ (∀ d, b.get d ≤ a.get d) ∧ ∃ d, b.get d < a.get d :=
  strictlyBelow_range_iff b a fun _ hd => (get_eq_zero_of_max_le (Nat.not_lt.mpr hd)).symm

/-! ### The total order -/

theorem lessFrom_iff (a b : VClock) (n k : ℕ) :
    lessFrom a b (List.range' k n) = true ↔
      ∃ i, k ≤ i ∧ i < k + n ∧ a.get i < b.get i ∧ ∀ j, k ≤ j → j < i → a.get j = b.get j := by
  induction n generalizing k with
  | zero =>
      simp only [List.range'_zero, lessFrom, Bool.false_eq_true, false_iff]
      intro ⟨i, hk, hi, _⟩
      omega
  | succ n ih =>
      rw [List.range'_succ, lessFrom]
      by_cases hlt : a.get k < b.get k
      · simp only [hlt, if_true, true_iff]
        exact ⟨k, Nat.le_refl k, by omega, hlt, fun j hj hjk => by omega⟩
      · by_cases hgt : b.get k < a.get k
        · simp only [hlt, hgt, if_false, if_true, Bool.false_eq_true, false_iff]
          intro ⟨i, hk, _, hi, hj⟩
          cases Nat.eq_or_lt_of_le hk with
          | inl heq => exact hlt (heq ▸ hi)
          | inr hki => exact Nat.ne_of_gt hgt (hj k (Nat.le_refl k) hki)
        · have heq : a.get k = b.get k := by omega
          simp only [hlt, hgt, if_false, ih]
          constructor
          · intro ⟨i, hk, hi, hless, hj⟩
            refine ⟨i, by omega, by omega, hless, ?_⟩
            intro j hkj hji
            cases Nat.eq_or_lt_of_le hkj with
            | inl hk => exact hk ▸ heq
            | inr hk => exact hj j hk hji
          · intro ⟨i, hk, hi, hless, hj⟩
            have hne : k ≠ i := fun h => hlt (h ▸ hless)
            exact ⟨i, by omega, by omega, hless, fun j hkj => hj j (by omega)⟩

/-- `operator<` compares lexicographically. -/
theorem less_iff (a b : VClock) : a.less b = true ↔ toLex a.get < toLex b.get := by
  rw [less, List.range_eq_range', lessFrom_iff]
  constructor
  · intro ⟨i, _, _, hi, hj⟩
    exact ⟨i, fun j hji => hj j (Nat.zero_le j) hji, hi⟩
  · intro ⟨i, hj, hi⟩
    refine ⟨i, Nat.zero_le i, ?_, hi, fun j _ hji => hj j hji⟩
    by_contra hn
    have hzero := get_eq_zero_of_max_le (a := a) (b := b) (d := i) (by omega)
    have hlt : a.get i < b.get i := hi
    omega

theorem eq_iff_get (a b : VClock) : a.eq b = true ↔ a.get = b.get := by
  rw [eq_iff, funext_iff]

theorem less_of_not_eq {a b : VClock} (h : a.eq b = false) :
    a.less b = true ∨ b.less a = true := by
  have hne : toLex a.get ≠ toLex b.get := by
    intro heq
    rw [(eq_iff_get a b).mpr (toLex.injective heq)] at h
    cases h
  rw [less_iff, less_iff]
  exact lt_or_gt_of_ne hne

theorem less_asymm {a b : VClock} (h : a.less b = true) : b.less a = false := by
  cases hba : b.less a with
  | false => rfl
  | true => exact absurd ((less_iff b a).mp hba) (lt_asymm ((less_iff a b).mp h))

theorem less_trans {a b c : VClock} (hab : a.less b = true) (hbc : b.less c = true) :
    a.less c = true := by
  rw [less_iff] at *
  exact lt_trans hab hbc

theorem not_less_of_eq {a b : VClock} (h : a.eq b = true) : a.less b = false := by
  cases hab : a.less b with
  | false => rfl
  | true =>
      rw [less_iff, (eq_iff_get a b).mp h] at hab
      exact absurd hab (lt_irrefl _)

/-! ### The laws -/

/-- The operations on two clocks mean what they mean for functions on all processes. -/
structure LatticeLaws (a b : VClock) : Prop where
  add : ∀ d, (a.add b).get d = max (a.get d) (b.get d)
  addAssign : ∀ d, (a.addAssign b).get d = max (a.get d) (b.get d)
  sub : ∀ d, (a.sub b).get d = min (a.get d) (b.get d)
  subAssign : ∀ d, (a.subAssign b).get d = min (a.get d) (b.get d)
  subAssign_eq_sub : (a.subAssign b).eq (a.sub b) = true
  leq : a.leq b = true ↔ ∀ d, a.get d ≤ b.get d
  lt : a.lt b = true ↔ (∀ d, a.get d ≤ b.get d) ∧ ∃ d, a.get d < b.get d
  geq : a.geq b = true ↔ ∀ d, b.get d ≤ a.get d
  gt : a.gt b = true ↔ (∀ d, b.get d ≤ a.get d) ∧ ∃ d, b.get d < a.get d
  eq : a.eq b = true ↔ ∀ d, a.get d = b.get d
  less_irrefl : a.eq b = true → a.less b = false
  less_total : a.eq b = false → a.less b = true ∨ b.less a = true
  less_asymm : a.less b = true → b.less a = false
  less_trans : ∀ c, a.less b = true → b.less c = true → a.less c = true

/-- The operations give the same on two pairs of clocks. -/
structure SameResults (a b a' b' : VClock) : Prop where
  add : (a.add b).get = (a'.add b').get
  addAssign : (a.addAssign b).get = (a'.addAssign b').get
  sub : (a.sub b).get = (a'.sub b').get
  subAssign : (a.subAssign b).get = (a'.subAssign b').get
  leq : a.leq b = a'.leq b'
  lt : a.lt b = a'.lt b'
  geq : a.geq b = a'.geq b'
  gt : a.gt b = a'.gt b'
  eq : a.eq b = a'.eq b'
  less : a.less b = a'.less b'

/-- The lengths of the vectors do not matter. -/
def DependsOnValues (a b : VClock) : Prop :=
  ∀ a' b' : VClock, a'.get = a.get → b'.get = b.get → SameResults a b a' b'

theorem subAssign_eq_min_iff (a b : VClock) :
    (∀ d, (a.subAssign b).get d = min (a.get d) (b.get d)) ↔
      ∀ d, b.sizeUb ≤ d → a.get d = 0 := by
  constructor
  · intro h d hd
    have hmin := h d
    rw [get_subAssign, if_neg (Nat.not_lt.mpr hd), get_eq_zero_of_sizeUb_le hd] at hmin
    simpa using hmin
  · intro h d
    rw [get_subAssign]
    split
    · rfl
    · rename_i hd
      simp [h d (Nat.le_of_not_lt hd)]

theorem LatticeLaws.of_subAssign {a b : VClock}
    (h : ∀ d, (a.subAssign b).get d = min (a.get d) (b.get d)) : LatticeLaws a b where
  add := get_add a b
  addAssign := get_addAssign a b
  sub := get_sub a b
  subAssign := h
  subAssign_eq_sub := (eq_iff _ _).mpr fun d => by rw [h, get_sub]
  leq := leq_iff a b
  lt := lt_iff a b
  geq := geq_iff a b
  gt := gt_iff a b
  eq := eq_iff a b
  less_irrefl := not_less_of_eq
  less_total := less_of_not_eq
  less_asymm := VClock.less_asymm
  less_trans := fun _ => VClock.less_trans

/-- Everything but `operator-=` only depends on the values. -/
theorem SameResults.of_subAssign {a b a' b' : VClock} (ha : a'.get = a.get) (hb : b'.get = b.get)
    (h : (a.subAssign b).get = (a'.subAssign b').get) : SameResults a b a' b' where
  add := by simp only [funext_iff, get_add, ha, hb, implies_true]
  addAssign := by simp only [funext_iff, get_addAssign, ha, hb, implies_true]
  sub := by simp only [funext_iff, get_sub, ha, hb, implies_true]
  subAssign := h
  leq := by rw [Bool.eq_iff_iff, leq_iff, leq_iff, ha, hb]
  lt := by rw [Bool.eq_iff_iff, lt_iff, lt_iff, ha, hb]
  geq := by rw [Bool.eq_iff_iff, geq_iff, geq_iff, ha, hb]
  gt := by rw [Bool.eq_iff_iff, gt_iff, gt_iff, ha, hb]
  eq := by rw [Bool.eq_iff_iff, eq_iff, eq_iff, ha, hb]
  less := by rw [Bool.eq_iff_iff, less_iff, less_iff, ha, hb]

theorem latticeLaws_of_zero {a b : VClock} (h : ∀ d, b.size ≤ d → a.get d = 0) :
    LatticeLaws a b :=
  .of_subAssign ((subAssign_eq_min_iff a b).mpr fun d hd => h d (b.size_le_sizeUb.trans hd))

/-- The laws hold exactly if the left clock is zero behind the vector of the right one, and for
all vectors with the same values exactly if it is zero behind the last entry that is not. -/
theorem latticeLaws_iff (a b : VClock) :
    (LatticeLaws a b ↔ ∀ d, b.sizeUb ≤ d → a.get d = 0) ∧
      (LatticeLaws a b ∧ DependsOnValues a b ↔ ∀ d, b.size ≤ d → a.get d = 0) := by
  refine ⟨⟨fun h => (subAssign_eq_min_iff a b).mp h.subAssign, fun h => .of_subAssign
    ((subAssign_eq_min_iff a b).mpr h)⟩, ?_, ?_⟩
  · intro ⟨hlaws, hvalues⟩ d hd
    -- the same clock without the zeros at its end
    have htrim := (hvalues a ⟨b.vec.rdropWhile (· == 0)⟩ rfl
      (funext (get_rdropWhile b.vec))).subAssign
    have hget := congrFun htrim d
    have hbehind : ¬d < sizeUb ⟨b.vec.rdropWhile (· == 0)⟩ := Nat.not_lt.mpr hd
    rw [hlaws.subAssign, get_subAssign, if_neg hbehind,
      (b.size_le_iff b.size).mp (Nat.le_refl _) d hd] at hget
    simpa using hget.symm
  · intro h
    refine ⟨latticeLaws_of_zero h, ?_⟩
    intro a' b' ha hb
    have hsize : b.size = b'.size := by
      apply Nat.le_antisymm
      · rw [size_le_iff, ← hb, ← size_le_iff]
      · rw [size_le_iff, hb, ← size_le_iff]
    have hlaws : LatticeLaws a' b' := latticeLaws_of_zero fun d hd => by
      rw [ha]
      exact h d (hsize ▸ hd)
    refine .of_subAssign ha hb (funext fun d => ?_)
    rw [(latticeLaws_of_zero h).subAssign, hlaws.subAssign, ha, hb]

theorem not_latticeLaws_shorter : ¬LatticeLaws ⟨[1, 1]⟩ ⟨[1]⟩ :=
  fun h => absurd (h.subAssign 1) (by decide)

end Nidhugg.VClock
