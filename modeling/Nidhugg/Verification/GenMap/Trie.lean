import Mathlib.Tactic.NormNum
import Mathlib.Tactic.Positivity
import Mathlib.Tactic.Ring
import Nidhugg.Library.AssocList
import Nidhugg.Model.GenMap

/-! # Bitmaps and array positions

The array of a node holds one child for each set bit, from the highest to the lowest. -/

namespace Nidhugg.GenMap

/-- The set bits in decreasing order. -/
def setBits (bitmap : BitVec 32) : List ℕ := (List.range 32).reverse.filter bitmap.getLsbD

theorem mem_setBits {bitmap : BitVec 32} {i : ℕ} :
    i ∈ setBits bitmap ↔ bitmap.getLsbD i = true := by
  simp only [setBits, List.mem_filter, List.mem_reverse, List.mem_range, and_iff_right_iff_imp]
  intro h
  exact BitVec.lt_of_getLsbD h

theorem setBits_pairwise (bitmap : BitVec 32) : (setBits bitmap).Pairwise (· > ·) := by
  apply List.Pairwise.filter
  rw [List.pairwise_reverse]
  exact List.pairwise_lt_range

/-- A decreasing list splits at every number. -/
theorem eq_filter_append {l : List ℕ} (h : l.Pairwise (· > ·)) (i : ℕ) :
    l = l.filter (i < ·) ++ (l.filter (· = i) ++ l.filter (· < i)) := by
  induction l with
  | nil => rfl
  | cons x l ih =>
      obtain ⟨hx, hl⟩ := List.pairwise_cons.mp h
      rcases lt_or_ge i x with hgt | hle
      · rw [List.filter_cons_of_pos (by simpa using hgt), List.filter_cons_of_neg (by simp; omega),
          List.filter_cons_of_neg (by simp; omega), List.cons_append, ← ih hl]
      · -- from here on the list is below the number
        have hlow : ∀ y ∈ l, y < i := fun y hy => (hx y hy).trans_le hle
        have habove : l.filter (i < ·) = [] := by
          apply List.filter_eq_nil_iff.mpr
          intro y hy
          simpa using (hlow y hy).le
        have hequal : l.filter (· = i) = [] := by
          apply List.filter_eq_nil_iff.mpr
          intro y hy
          simpa using (hlow y hy).ne
        have hbelow : l.filter (· < i) = l := by
          apply List.filter_eq_self.mpr
          intro y hy
          simpa using hlow y hy
        rcases hle.lt_or_eq with hlt | heq
        · simp [habove, hequal, hbelow, hlt, hlt.ne, hle]
        · simp [habove, hequal, hbelow, heq]

/-- The number of bits above `i` and, if it is set, bit `i` itself. -/
theorem popcount_ushiftRight (bitmap : BitVec 32) {i : ℕ} (hi : i < 32) :
    popcount (bitmap >>> i) =
      ((setBits bitmap).filter (i < ·)).length + (bitmap.getLsbD i).toNat := by
  have hshift : popcount (bitmap >>> i) = (List.range' i 32).countP bitmap.getLsbD := by
    rw [popcount, List.range'_eq_map_range, List.countP_map]
    congr 1
    funext j
    simp
  -- the shifted window is bit `i`, the bits above it, and nothing beyond the width
  have hwindow : List.range' i 32 =
      List.range' i 1 ++ (List.range' (i + 1) (31 - i) ++ List.range' (i + 1 + (31 - i)) i) := by
    rw [List.range'_append_1, List.range'_append_1]
    congr 1
    omega
  have hbeyond : (List.range' (i + 1 + (31 - i)) i).countP bitmap.getLsbD = 0 := by
    apply List.countP_eq_zero.mpr
    intro j hj
    have hge : 32 ≤ j := by
      have := (List.mem_range'_1.mp hj).1
      omega
    simp [BitVec.getLsbD_of_ge bitmap j hge]
  have hrange : List.range 32 = List.range' 0 (i + 1) ++ List.range' (0 + (i + 1)) (31 - i) := by
    rw [List.range'_append_1, List.range_eq_range']
    congr 1
    omega
  have hbelow : (List.range' 0 (i + 1)).countP
      (fun j => decide (i < j) && bitmap.getLsbD j) = 0 := by
    apply List.countP_eq_zero.mpr
    intro j hj
    have hle : j ≤ i := by
      have := (List.mem_range'_1.mp hj).2
      omega
    simp [hle]
  have habove : (List.range' (0 + (i + 1)) (31 - i)).countP
      (fun j => decide (i < j) && bitmap.getLsbD j) =
      (List.range' (i + 1) (31 - i)).countP bitmap.getLsbD := by
    rw [Nat.zero_add]
    apply List.countP_congr
    intro j hj
    have hlt : i < j := (List.mem_range'_1.mp hj).1
    simp [hlt]
  have hhigh : ((setBits bitmap).filter (i < ·)).length =
      (List.range' (i + 1) (31 - i)).countP bitmap.getLsbD := by
    rw [setBits, List.filter_filter, List.filter_reverse, List.length_reverse,
      ← List.countP_eq_length_filter, hrange, List.countP_append, hbelow, habove, Nat.zero_add]
  have hself : (List.range' i 1).countP bitmap.getLsbD = (bitmap.getLsbD i).toNat := by
    cases h : bitmap.getLsbD i <;> simp [h]
  rw [hshift, hwindow, List.countP_append, List.countP_append, hbeyond, hhigh, hself]
  omega

theorem setBits_eq (bitmap : BitVec 32) (i : ℕ) :
    setBits bitmap = (setBits bitmap).filter (i < ·) ++
      (List.replicate (bitmap.getLsbD i).toNat i ++ (setBits bitmap).filter (· < i)) := by
  have hnodup : (setBits bitmap).Nodup := (setBits_pairwise bitmap).imp fun h => h.ne'
  have hself : (setBits bitmap).filter (· = i) = List.replicate (bitmap.getLsbD i).toNat i := by
    rw [List.filter_eq, hnodup.count]
    cases h : bitmap.getLsbD i <;> simp [mem_setBits, h]
  rw [← hself]
  exact eq_filter_append (setBits_pairwise bitmap) i

theorem getLsbD_or_bit (bitmap : BitVec 32) {i j : ℕ} (hi : i < 32) :
    (bitmap ||| bit i).getLsbD j = (bitmap.getLsbD j || decide (j = i)) := by
  by_cases hj : j = i
  · simp [bit, hj, hi]
  · simp [bit, hj]
    omega

/-- A set bit and its position in the array. -/
theorem setBits_split {bitmap : BitVec 32} {i : ℕ} (h : bitmap.getLsbD i = true) :
    ∃ high low, setBits bitmap = high ++ i :: low ∧
      high.length = popcount (bitmap >>> i) - 1 := by
  refine ⟨(setBits bitmap).filter (i < ·), (setBits bitmap).filter (· < i), ?_, ?_⟩
  · simpa [h] using setBits_eq bitmap i
  · rw [popcount_ushiftRight bitmap (BitVec.lt_of_getLsbD h), h]
    simp

/-- A new bit and the position that it takes in the array. -/
theorem setBits_or_bit {bitmap : BitVec 32} {i : ℕ} (hi : i < 32)
    (h : bitmap.getLsbD i = false) :
    ∃ high low, setBits bitmap = high ++ low ∧ setBits (bitmap ||| bit i) = high ++ i :: low ∧
      high.length = popcount (bitmap >>> i) := by
  have hother : ∀ p : ℕ → Bool, p i = false →
      (setBits (bitmap ||| bit i)).filter p = (setBits bitmap).filter p := by
    intro p hp
    rw [setBits, setBits, List.filter_filter, List.filter_filter]
    apply List.filter_congr
    intro j _
    rw [getLsbD_or_bit bitmap hi]
    by_cases hj : j = i
    · simp [hj, hp]
    · simp [hj]
  refine ⟨(setBits bitmap).filter (i < ·), (setBits bitmap).filter (· < i), ?_, ?_, ?_⟩
  · simpa [h] using setBits_eq bitmap i
  · have hsplit := setBits_eq (bitmap ||| bit i) i
    rw [hother _ (by simp), hother _ (by simp), getLsbD_or_bit bitmap hi] at hsplit
    simpa using hsplit
  · rw [popcount_ushiftRight bitmap hi, h]
    simp

theorem setBits_bit {i : ℕ} (hi : i < 32) : setBits (bit i) = [i] := by
  have hunset : (0#32).getLsbD i = false := by simp
  obtain ⟨high, low, hzero, hsplit, -⟩ := setBits_or_bit hi hunset
  have hnil : high ++ low = [] := by
    rw [← hzero]
    rfl
  obtain ⟨rfl, rfl⟩ := List.append_eq_nil_iff.mp hnil
  simpa using hsplit

/-- The bits of a node with two children. -/
theorem setBits_bit_or_bit {i j : ℕ} (hi : i < 32) (hj : j < 32) (hne : i ≠ j) :
    setBits (bit i ||| bit j) = if i < j then [j, i] else [i, j] := by
  have hbit : (bit i).getLsbD j = false := by
    have hmem : j ∉ setBits (bit i) := by simp [setBits_bit hi, hne.symm]
    simpa [mem_setBits] using hmem
  obtain ⟨high, low, hone, hsplit, -⟩ := setBits_or_bit hj hbit
  have hsorted := setBits_pairwise (bit i ||| bit j)
  rw [setBits_bit hi] at hone
  rw [hsplit] at hsorted ⊢
  rcases List.append_eq_singleton_iff.mp hone.symm with ⟨rfl, rfl⟩ | ⟨rfl, rfl⟩
  · have hlt : j > i := by simpa using hsorted
    simp [hlt]
  · have hlt : i > j := by simpa using hsorted
    simp [hlt.le]

end Nidhugg.GenMap

/-! # The shape of the trie

Every child holds the keys whose hashes agree on the digits above it. A node stands only
where two different hashes meet, so a leaf list is deeper than the hash is long exactly when
another hash differs from its own in the last digit alone. -/

namespace Nidhugg.GenMap

open AssocList

variable {K T : Type*}

/-! ### Arrays of children -/

theorem forEachIn_append (xs ys : List (Child K T)) :
    forEachIn (xs ++ ys) = forEachIn xs ++ forEachIn ys := by
  induction xs with
  | nil => rfl
  | cons c xs ih => simp [forEachIn, ih]

theorem mem_keys_forEachIn {x : K} {array : List (Child K T)} :
    x ∈ keys (forEachIn array) ↔ ∃ c ∈ array, x ∈ keys c.forEach := by
  induction array with
  | nil => simp [forEachIn]
  | cons c array ih => simp [forEachIn, ih]

theorem findAt_length [DecidableEq K] (k : K) (front : List (Child K T)) (c : Child K T)
    (back : List (Child K T)) (hash : ℕ) :
    findAt k (front ++ c :: back) front.length hash = c.find k hash := by
  induction front with
  | nil => rfl
  | cons d front ih => exact ih

theorem mutateAt_length [DecidableEq K] (hashKey : K → BitVec 64) (generation : ℤ) (k : K)
    (write : T → T) (init : T) (front : List (Child K T)) (c : Child K T)
    (back : List (Child K T)) (hash depth : ℕ) :
    mutateAt hashKey generation k write init (front ++ c :: back) front.length hash depth =
      (c.mutate hashKey generation k write init hash depth).map
        fun r => (r.1, front ++ r.2 :: back) := by
  induction front with
  | nil =>
      simp only [List.nil_append, List.length_nil, mutateAt]
      cases c.mutate hashKey generation k write init hash depth with
      | none => rfl
      | some r => rfl
  | cons d front ih =>
      simp only [List.cons_append, List.length_cons, mutateAt, ih]
      cases c.mutate hashKey generation k write init hash depth with
      | none => rfl
      | some r => rfl

/-! ### The invariant -/

variable (hashKey : K → BitVec 64)

def hashOf (k : K) : ℕ := (hashKey k).toNat

/-- The child at a level of the trie holds keys whose hashes have the remainder `pre` below
that level. A leaf list holds keys of one hash, a node keys of several. -/
inductive Trie : ℕ → ℕ → Child K T → Prop where
  | leaf {level pre : ℕ} {first : Leaf K T} {next : List (Leaf K T)} :
      (∀ leaf ∈ next, hashOf hashKey leaf.key = hashOf hashKey first.key) →
      hashOf hashKey first.key % 32 ^ level = pre → Trie level pre (.leaf first next)
  | node {level pre : ℕ} {generation : ℤ} {bitmap : BitVec 32} {array : List (Child K T)} :
      array.length = (setBits bitmap).length →
      (∀ i c, (i, c) ∈ (setBits bitmap).zip array → Trie (level + 1) (pre + 32 ^ level * i) c) →
      (∃ x ∈ keys (forEachIn array), ∃ y ∈ keys (forEachIn array),
        hashOf hashKey x ≠ hashOf hashKey y) →
      Trie level pre (.node generation bitmap array)

variable {hashKey}

theorem hashOf_lt (k : K) : hashOf hashKey k < 32 ^ 13 := by
  have h := (hashKey k).isLt
  have hpow : 2 ^ 64 ≤ 32 ^ 13 := by norm_num
  exact h.trans_le hpow

/-- The digits of a remainder. -/
theorem digits_eq {h level pre i : ℕ} (hpre : pre < 32 ^ level)
    (hmod : h % 32 ^ (level + 1) = pre + 32 ^ level * i) :
    h % 32 ^ level = pre ∧ h / 32 ^ level % 32 = i := by
  have hpos : 0 < 32 ^ level := by positivity
  rw [Nat.mod_pow_succ] at hmod
  have hlt : h % 32 ^ level < 32 ^ level := Nat.mod_lt h hpos
  have hlow : h % 32 ^ level = pre := by
    have := congrArg (· % 32 ^ level) hmod
    simpa [Nat.add_mul_mod_self_left, Nat.mod_eq_of_lt hpre] using this
  refine ⟨hlow, ?_⟩
  rw [hlow] at hmod
  exact Nat.eq_of_mul_eq_mul_left hpos (Nat.add_left_cancel hmod)

theorem mod_succ_eq {h level pre : ℕ} (hmod : h % 32 ^ level = pre) :
    h % 32 ^ (level + 1) = pre + 32 ^ level * (h / 32 ^ level % 32) := by
  rw [Nat.mod_pow_succ, hmod]

theorem pre_succ_lt {level pre i : ℕ} (hpre : pre < 32 ^ level) (hi : i < 32) :
    pre + 32 ^ level * i < 32 ^ (level + 1) := by
  calc pre + 32 ^ level * i < 32 ^ level + 32 ^ level * i := by omega
    _ = 32 ^ level * (i + 1) := by ring
    _ ≤ 32 ^ level * 32 := Nat.mul_le_mul_left _ hi
    _ = 32 ^ (level + 1) := by ring

theorem exists_append_cons {α : Type*} {l : List α} {n m : ℕ} (h : l.length = n + (m + 1)) :
    ∃ front c back, l = front ++ c :: back ∧ front.length = n ∧ back.length = m := by
  have hlt : n < l.length := by omega
  refine ⟨l.take n, l[n], l.drop (n + 1), by simp, ?_, ?_⟩
  · rw [List.length_take]
    omega
  · rw [List.length_drop]
    omega

theorem exists_index {is : List ℕ} {array : List (Child K T)} (hlen : array.length = is.length)
    {c : Child K T} (hc : c ∈ array) : ∃ i, (i, c) ∈ is.zip array := by
  have hmap : (is.zip array).map Prod.snd = array := List.map_snd_zip (by omega)
  rw [← hmap] at hc
  obtain ⟨⟨i, d⟩, hmem, rfl⟩ := List.mem_map.mp hc
  exact ⟨i, hmem⟩

theorem lt_of_mem_setBits {bitmap : BitVec 32} {i : ℕ} (h : i ∈ setBits bitmap) : i < 32 :=
  BitVec.lt_of_getLsbD (mem_setBits.mp h)

theorem lt_of_mem_zip {bitmap : BitVec 32} {array : List (Child K T)} {i : ℕ} {c : Child K T}
    (h : (i, c) ∈ (setBits bitmap).zip array) : i < 32 :=
  lt_of_mem_setBits (List.of_mem_zip h).1

theorem Trie.mod_eq {level pre : ℕ} {c : Child K T} (h : Trie hashKey level pre c)
    (hpre : pre < 32 ^ level) {x : K} (hx : x ∈ keys c.forEach) :
    hashOf hashKey x % 32 ^ level = pre := by
  induction h with
  | @leaf level pre first next hnext hfirst =>
      simp only [Child.forEach, keys, List.map_map, List.mem_map, List.mem_cons] at hx
      obtain ⟨leaf, rfl | hmem, rfl⟩ := hx
      · exact hfirst
      · simpa [hnext leaf hmem] using hfirst
  | @node level pre generation bitmap array hlen _ _ ih =>
      obtain ⟨c, hc, hx⟩ := mem_keys_forEachIn.mp hx
      obtain ⟨i, hmem⟩ := exists_index hlen hc
      exact (digits_eq hpre (ih i c hmem (pre_succ_lt hpre (lt_of_mem_zip hmem)) hx)).1

/-- The digit of a key below a node. -/
theorem Trie.digit_eq {level pre i : ℕ} {c : Child K T}
    (h : Trie hashKey (level + 1) (pre + 32 ^ level * i) c) (hpre : pre < 32 ^ level)
    (hi : i < 32) {x : K} (hx : x ∈ keys c.forEach) : hashOf hashKey x / 32 ^ level % 32 = i :=
  (digits_eq hpre (h.mod_eq (pre_succ_lt hpre hi) hx)).2

theorem mod_eq_of_children {level pre : ℕ} {bitmap : BitVec 32} {array : List (Child K T)}
    (hlen : array.length = (setBits bitmap).length)
    (hsub : ∀ i c, (i, c) ∈ (setBits bitmap).zip array →
      Trie hashKey (level + 1) (pre + 32 ^ level * i) c) (hpre : pre < 32 ^ level) {x : K}
    (hx : x ∈ keys (forEachIn array)) : hashOf hashKey x % 32 ^ level = pre := by
  obtain ⟨c, hc, hx⟩ := mem_keys_forEachIn.mp hx
  obtain ⟨i, hmem⟩ := exists_index hlen hc
  exact (digits_eq hpre ((hsub i c hmem).mod_eq (pre_succ_lt hpre (lt_of_mem_zip hmem)) hx)).1

/-- A key whose digit has no child is not below the node. -/
theorem not_mem_of_bit_unset {level pre : ℕ} {bitmap : BitVec 32} {array : List (Child K T)}
    (hlen : array.length = (setBits bitmap).length)
    (hsub : ∀ i c, (i, c) ∈ (setBits bitmap).zip array →
      Trie hashKey (level + 1) (pre + 32 ^ level * i) c) (hpre : pre < 32 ^ level) {x : K}
    (hbit : bitmap.getLsbD (hashOf hashKey x / 32 ^ level % 32) = false) :
    x ∉ keys (forEachIn array) := by
  intro hx
  obtain ⟨c, hc, hx⟩ := mem_keys_forEachIn.mp hx
  obtain ⟨i, hmem⟩ := exists_index hlen hc
  rw [(hsub i c hmem).digit_eq hpre (lt_of_mem_zip hmem) hx, mem_setBits.mp (List.of_mem_zip hmem).1] at hbit
  simp at hbit

/-- The child for a digit, its position, and what replacing it changes. -/
theorem exists_child {level pre : ℕ} {bitmap : BitVec 32} {array : List (Child K T)}
    (hlen : array.length = (setBits bitmap).length)
    (hsub : ∀ i c, (i, c) ∈ (setBits bitmap).zip array →
      Trie hashKey (level + 1) (pre + 32 ^ level * i) c) (hpre : pre < 32 ^ level) {i : ℕ}
    (hbit : bitmap.getLsbD i = true) :
    ∃ front c back, array = front ++ c :: back ∧
      front.length = popcount (bitmap >>> i) - 1 ∧ (i, c) ∈ (setBits bitmap).zip array ∧
      (∀ x, hashOf hashKey x / 32 ^ level % 32 = i →
        x ∉ keys (forEachIn front) ∧ x ∉ keys (forEachIn back)) ∧
      ∀ d, Trie hashKey (level + 1) (pre + 32 ^ level * i) d →
        ∀ j e, (j, e) ∈ (setBits bitmap).zip (front ++ d :: back) →
          Trie hashKey (level + 1) (pre + 32 ^ level * j) e := by
  obtain ⟨high, low, hbits, hpos⟩ := setBits_split hbit
  have hsorted := setBits_pairwise bitmap
  rw [hbits] at hlen hsub hsorted ⊢
  obtain ⟨front, c, back, rfl, hfront, hback⟩ :=
    exists_append_cons (n := high.length) (m := low.length) (by simpa using hlen)
  have hzip : ∀ d, (high ++ i :: low).zip (front ++ d :: back) =
      high.zip front ++ (i, d) :: low.zip back := by
    intro d
    rw [List.zip_append hfront.symm, List.zip_cons_cons]
  rw [hzip] at hsub
  obtain ⟨-, hlow, hhigh⟩ := List.pairwise_append.mp hsorted
  refine ⟨front, c, back, rfl, hfront.trans hpos, by simp [hzip], ?_, ?_⟩
  · intro x hx
    constructor
    · intro hmem
      obtain ⟨d, hd, hxd⟩ := mem_keys_forEachIn.mp hmem
      obtain ⟨j, hj⟩ := exists_index hfront hd
      have hjbit : j ∈ setBits bitmap := by simp [hbits, (List.of_mem_zip hj).1]
      have hdigit := (hsub j d (List.mem_append_left _ hj)).digit_eq hpre (lt_of_mem_setBits hjbit) hxd
      have hgt := hhigh j (List.of_mem_zip hj).1 i (by simp)
      omega
    · intro hmem
      obtain ⟨d, hd, hxd⟩ := mem_keys_forEachIn.mp hmem
      obtain ⟨j, hj⟩ := exists_index hback hd
      have hjbit : j ∈ setBits bitmap := by simp [hbits, (List.of_mem_zip hj).1]
      have hdigit := (hsub j d (List.mem_append_right _ (List.mem_cons_of_mem _ hj))).digit_eq hpre
        (lt_of_mem_setBits hjbit) hxd
      have hlt := (List.pairwise_cons.mp hlow).1 j (List.of_mem_zip hj).1
      omega
  · intro d hd j e hmem
    rw [hzip] at hmem
    rcases List.mem_append.mp hmem with hmem | hmem
    · exact hsub j e (List.mem_append_left _ hmem)
    · rcases List.mem_cons.mp hmem with heq | hmem
      · cases heq
        exact hd
      · exact hsub j e (List.mem_append_right _ (List.mem_cons_of_mem _ hmem))

/-! ### Lookup -/

theorem findLeaf_eq_lookup [DecidableEq K] (k : K) (leaves : List (Leaf K T)) :
    findLeaf k leaves = (leaves.map fun leaf => (leaf.key, leaf.value)).lookup k := by
  induction leaves with
  | nil => rfl
  | cons leaf leaves ih =>
      by_cases h : leaf.key = k
      · simp [findLeaf, h]
      · rw [List.map_cons, lookup_cons_of_ne (Ne.symm h), ← ih]
        simp [findLeaf, h]

theorem Child.find_node_of_set [DecidableEq K] {generation : ℤ} {bitmap : BitVec 32}
    {array : List (Child K T)} {k : K} {hash : ℕ} (hbit : bitmap.getLsbD (hash % 32) = true) :
    (Child.node generation bitmap array).find k hash =
      findAt k array (popcount (bitmap >>> (hash % 32)) - 1) (hash / 32) :=
  if_pos hbit

theorem Child.find_node_of_unset [DecidableEq K] {generation : ℤ} {bitmap : BitVec 32}
    {array : List (Child K T)} {k : K} {hash : ℕ} (hbit : ¬ bitmap.getLsbD (hash % 32) = true) :
    (Child.node generation bitmap array).find k hash = none :=
  if_neg hbit

theorem Trie.find_eq [DecidableEq K] {c : Child K T} {level pre : ℕ}
    (h : Trie hashKey level pre c) (hpre : pre < 32 ^ level) {k : K}
    (hk : hashOf hashKey k % 32 ^ level = pre) :
    c.find k (hashOf hashKey k / 32 ^ level) = c.forEach.lookup k := by
  induction h with
  | leaf _ _ => exact findLeaf_eq_lookup k _
  | @node level pre generation bitmap array hlen hsub _ ih =>
      rw [Child.forEach]
      by_cases hbit : bitmap.getLsbD (hashOf hashKey k / 32 ^ level % 32) = true
      · obtain ⟨front, c, back, rfl, hpos, hmem, hother, -⟩ := exists_child hlen hsub hpre hbit
        obtain ⟨hfront, hback⟩ := hother k rfl
        have hchild := ih _ c hmem (pre_succ_lt hpre (lt_of_mem_zip hmem)) (mod_succ_eq hk)
        rw [Child.find_node_of_set hbit, ← hpos, findAt_length, Nat.div_div_eq_div_mul, ← pow_succ, hchild,
          forEachIn_append, List.lookup_append, lookup_eq_none_iff.mpr hfront, forEachIn,
          List.lookup_append, lookup_eq_none_iff.mpr hback]
        simp
      · have hmem := not_mem_of_bit_unset hlen hsub hpre (by simpa using hbit)
        rw [Child.find_node_of_unset hbit, lookup_eq_none_iff.mpr hmem]

end Nidhugg.GenMap
