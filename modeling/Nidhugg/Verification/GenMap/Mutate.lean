import Nidhugg.Verification.GenMap.Trie
import Mathlib.Data.List.TakeWhile

/-! # Writing a key

`mut` writes the value of a key in place or adds the key, and keeps the shape of the trie.
It is undefined when a new key meets its own hash in a leaf list below the last digit. -/

namespace Nidhugg.GenMap

open AssocList

variable {K T : Type*} {hashKey : K → BitVec 64}

/-- The elements of a leaf list. -/
def entries (leaves : List (Leaf K T)) : List (K × T) :=
  leaves.map fun leaf => (leaf.key, leaf.value)

theorem entries_append (xs ys : List (Leaf K T)) :
    entries (xs ++ ys) = entries xs ++ entries ys := List.map_append

theorem entries_cons (leaf : Leaf K T) (leaves : List (Leaf K T)) :
    entries (leaf :: leaves) = (leaf.key, leaf.value) :: entries leaves := rfl

theorem trie_leaf {level h : ℕ} {first : Leaf K T} {next : List (Leaf K T)}
    (hall : ∀ x ∈ keys (entries (first :: next)), hashOf hashKey x = h) :
    Trie hashKey level (h % 32 ^ level) (.leaf first next) := by
  have hfirst : hashOf hashKey first.key = h := hall _ (by simp [entries])
  refine .leaf ?_ (by rw [hfirst])
  intro leaf hleaf
  rw [hfirst]
  apply hall
  simp only [entries, keys, List.map_map, List.mem_map, List.mem_cons]
  exact ⟨leaf, .inr hleaf, rfl⟩

theorem Trie.leaf_keys {level pre : ℕ} {first : Leaf K T} {next : List (Leaf K T)}
    (h : Trie hashKey level pre (.leaf first next)) {x : K}
    (hx : x ∈ keys (entries (first :: next))) :
    hashOf hashKey x = hashOf hashKey first.key := by
  cases h with
  | leaf hnext _ =>
      simp only [entries, keys, List.map_map, List.mem_map, List.mem_cons] at hx
      obtain ⟨leaf, rfl | hmem, rfl⟩ := hx
      · rfl
      · exact hnext leaf hmem

/-! ### Leaf lists -/

section

variable {generation : ℤ} {k : K} {write : T → T} {init : T}

theorem mutLeaf_eq_none [DecidableEq K] {leaves : List (Leaf K T)} (h : k ∉ keys (entries leaves)) :
    mutLeaf generation k write leaves = none := by
  have hdrop : leaves.dropWhile (fun leaf => decide (leaf.key ≠ k)) = [] := by
    rw [List.dropWhile_eq_nil_iff]
    intro leaf hleaf
    have hne : leaf.key ≠ k := by
      rintro rfl
      apply h
      simp only [entries, keys, List.map_map, List.mem_map]
      exact ⟨leaf, hleaf, rfl⟩
    simpa using hne
  rw [mutLeaf, List.span_eq_takeWhile_dropWhile, hdrop]

theorem exists_first {leaves : List (Leaf K T)} (h : k ∈ keys (entries leaves)) :
    ∃ before leaf after, leaves = before ++ leaf :: after ∧ leaf.key = k ∧
      ∀ l ∈ before, l.key ≠ k := by
  induction leaves with
  | nil => simp [entries] at h
  | cons l leaves ih =>
      by_cases hl : l.key = k
      · exact ⟨[], l, leaves, rfl, hl, by simp⟩
      · have htail : k ∈ keys (entries leaves) := by
          simpa [entries, Ne.symm hl] using h
        obtain ⟨before, leaf, after, rfl, hleaf, hbefore⟩ := ih htail
        exact ⟨l :: before, leaf, after, rfl, hleaf, by simpa [hl] using hbefore⟩

theorem mutLeaf_eq_some [DecidableEq K] {leaves : List (Leaf K T)} (h : k ∈ keys (entries leaves)) :
    ∃ first next, mutLeaf generation k write leaves = some (first :: next) ∧
      Upserts k write init (entries leaves) (entries (first :: next)) false := by
  obtain ⟨before, leaf, after, rfl, hleaf, hbefore⟩ := exists_first h
  have hspan : (before ++ leaf :: after).span (fun l => decide (l.key ≠ k)) =
      (before, leaf :: after) := by
    rw [List.span_eq_takeWhile_dropWhile,
      List.takeWhile_append_of_pos (by simpa using hbefore),
      List.dropWhile_append_of_pos (by simpa using hbefore),
      List.takeWhile_cons_of_neg (by simpa using hleaf),
      List.dropWhile_cons_of_neg (by simpa using hleaf), List.append_nil]
  have hkeys : k ∉ keys (entries before) := by
    simp only [entries, keys, List.map_map, List.mem_map]
    rintro ⟨l, hl, hlk⟩
    exact hbefore l hl hlk
  -- copied leaves keep their keys and values
  set copied := if leaf.generation = generation then before
    else before.map fun l => { l with generation := generation } with hcopied
  have hentries : entries copied = entries before := by
    rw [hcopied]
    split
    · rfl
    · simp [entries]
  have hrun : mutLeaf generation k write (before ++ leaf :: after) =
      some (copied ++ ⟨generation, leaf.key, write leaf.value⟩ :: after) := by
    rw [mutLeaf, hspan]
  have hups : Upserts k write init (entries (before ++ leaf :: after))
      (entries (copied ++ ⟨generation, leaf.key, write leaf.value⟩ :: after)) false := by
    have hfound : Upserts k write init _ _ false :=
      .found (entries before) leaf.value (entries after) hkeys
    simpa only [entries_append, entries_cons, hentries, hleaf] using hfound
  cases hlist : copied ++ ⟨generation, leaf.key, write leaf.value⟩ :: after with
  | nil => simp at hlist
  | cons first next =>
      rw [hlist] at hrun hups
      exact ⟨first, next, hrun, hups⟩

/-! ### New nodes -/

theorem disambiguate_of_eq {existing new : Child K T} {turns firstHash hash : ℕ}
    (h : firstHash % 32 = hash % 32) :
    disambiguate generation existing new (turns + 1) firstHash hash =
      (disambiguate generation existing new turns (firstHash / 32) (hash / 32)).map
        fun c => .node generation (bit (hash % 32)) [c] := by
  have hrun : disambiguate generation existing new (turns + 1) firstHash hash = _ := if_pos h
  rw [hrun, h, BitVec.or_self]
  cases disambiguate generation existing new turns (firstHash / 32) (hash / 32) with
  | none => rfl
  | some c => rfl

theorem disambiguate_of_ne {existing new : Child K T} {turns firstHash hash : ℕ}
    (h : firstHash % 32 ≠ hash % 32) :
    disambiguate generation existing new (turns + 1) firstHash hash =
      some (.node generation (bit (firstHash % 32) ||| bit (hash % 32))
        (if firstHash % 32 < hash % 32 then [new, existing] else [existing, new])) :=
  if_neg h

/-- The new nodes separate two children of different hashes. -/
theorem disambiguate_spec {existing new : Child K T} {a b : ℕ}
    (hexisting : ∀ level, Trie hashKey level (a % 32 ^ level) existing)
    (hnew : ∀ level, Trie hashKey level (b % 32 ^ level) new)
    (ha : ∃ x ∈ keys existing.forEach, hashOf hashKey x = a)
    (hb : ∃ x ∈ keys new.forEach, hashOf hashKey x = b) (hne : a ≠ b) (turns level : ℕ)
    (halt : a < 32 ^ (level + turns)) (hblt : b < 32 ^ (level + turns))
    (hmod : a % 32 ^ level = b % 32 ^ level) :
    ∃ c, disambiguate generation existing new turns (a / 32 ^ level) (b / 32 ^ level) = some c ∧
      Trie hashKey level (a % 32 ^ level) c ∧
      (c.forEach = existing.forEach ++ new.forEach ∨
        c.forEach = new.forEach ++ existing.forEach) := by
  obtain ⟨x, hx, hxa⟩ := ha
  obtain ⟨y, hy, hyb⟩ := hb
  have hdistinct : ∀ {array : List (Child K T)},
      (forEachIn array = existing.forEach ++ new.forEach ∨
        forEachIn array = new.forEach ++ existing.forEach) →
      ∃ x ∈ keys (forEachIn array), ∃ y ∈ keys (forEachIn array),
        hashOf hashKey x ≠ hashOf hashKey y := by
    intro array harray
    refine ⟨x, ?_, y, ?_, by rwa [hxa, hyb]⟩
    · rcases harray with harray | harray <;> simp [harray, hx]
    · rcases harray with harray | harray <;> simp [harray, hy]
  induction turns generalizing level with
  | zero =>
      rw [Nat.add_zero] at halt hblt
      rw [Nat.mod_eq_of_lt halt, Nat.mod_eq_of_lt hblt] at hmod
      exact absurd hmod hne
  | succ turns ih =>
      have hia : a / 32 ^ level % 32 < 32 := Nat.mod_lt _ (by norm_num)
      have hib : b / 32 ^ level % 32 < 32 := Nat.mod_lt _ (by norm_num)
      have hsucca : a % 32 ^ (level + 1) = _ := mod_succ_eq rfl
      have hsuccb : b % 32 ^ (level + 1) = _ := mod_succ_eq hmod.symm
      by_cases hdigit : a / 32 ^ level % 32 = b / 32 ^ level % 32
      · have hshift : level + (turns + 1) = level + 1 + turns := by omega
        rw [hshift] at halt hblt
        obtain ⟨c, hrun, hc, hcontents⟩ :=
          ih (level + 1) halt hblt (by rw [hsucca, hsuccb, hdigit])
        rw [pow_succ, ← Nat.div_div_eq_div_mul, ← Nat.div_div_eq_div_mul] at hrun
        refine ⟨_, by rw [disambiguate_of_eq hdigit, hrun]; rfl, .node ?_ ?_ ?_, ?_⟩
        · simp [setBits_bit hib]
        · intro i d hmem
          have hpair : (i, d) = (b / 32 ^ level % 32, c) := by
            simpa [setBits_bit hib] using hmem
          cases hpair
          rw [← hdigit, ← hsucca]
          exact hc
        · apply hdistinct
          simpa [forEachIn] using hcontents
        · simpa [Child.forEach, forEachIn] using hcontents
      · refine ⟨_, disambiguate_of_ne hdigit, .node ?_ ?_ ?_, ?_⟩
        · rw [setBits_bit_or_bit hia hib hdigit]
          split <;> rfl
        · intro i d hmem
          rw [setBits_bit_or_bit hia hib hdigit] at hmem
          have hpair : (i, d) = (a / 32 ^ level % 32, existing) ∨
              (i, d) = (b / 32 ^ level % 32, new) := by
            split at hmem
            · rw [or_comm]
              simpa using hmem
            · simpa using hmem
          rcases hpair with hpair | hpair
          · cases hpair
            rw [← hsucca]
            exact hexisting (level + 1)
          · cases hpair
            rw [← hsuccb]
            exact hnew (level + 1)
        · apply hdistinct
          split <;> simp [forEachIn]
        · simp only [Child.forEach]
          split <;> simp [forEachIn]

/-! ### The whole trie -/

variable (hashKey) in
/-- A new key would be shifted past the width of the hash: its hash is there already, and so
is another one that differs only above bit 60. -/
def DeepCollision (k : K) (level : ℕ) (ks : List K) : Prop :=
  (∃ x ∈ ks, hashOf hashKey x = hashOf hashKey k) ∧
    (13 ≤ level ∨ ∃ y ∈ ks, hashOf hashKey y ≠ hashOf hashKey k ∧
      hashOf hashKey y % 2 ^ 60 = hashOf hashKey k % 2 ^ 60)

/-- What `mut` makes of a child: it is undefined for a new key in a deep collision, and
otherwise writes the key and keeps the shape. -/
structure MutateSpec [DecidableEq K] (hashKey : K → BitVec 64) (generation : ℤ) (k : K)
    (write : T → T) (init : T) (level pre : ℕ) (c : Child K T) : Prop where
  undefined : DeepCollision hashKey k level (keys c.forEach) → k ∉ keys c.forEach →
    c.mutate hashKey generation k write init (hashOf hashKey k / 32 ^ level) (5 * level) = none
  defined : ¬ (DeepCollision hashKey k level (keys c.forEach) ∧ k ∉ keys c.forEach) →
    ∃ new d, c.mutate hashKey generation k write init (hashOf hashKey k / 32 ^ level)
        (5 * level) = some (new, d) ∧
      Trie hashKey level pre d ∧ Upserts k write init c.forEach d.forEach new

theorem shiftRight_eq (h level : ℕ) : h >>> (5 * level) = h / 32 ^ level := by
  rw [Nat.shiftRight_eq_div_pow, pow_mul]
  norm_num

/-- Hashes that agree below the last digit and beyond are equal. -/
theorem eq_of_mod_eq {x y : K} {level : ℕ} (hlevel : 13 ≤ level)
    (h : hashOf hashKey x % 32 ^ level = hashOf hashKey y % 32 ^ level) :
    hashOf hashKey x = hashOf hashKey y := by
  have hpow : 32 ^ 13 ≤ 32 ^ level := Nat.pow_le_pow_right (by norm_num) hlevel
  rwa [Nat.mod_eq_of_lt ((hashOf_lt x).trans_le hpow),
    Nat.mod_eq_of_lt ((hashOf_lt y).trans_le hpow)] at h

theorem Trie.mutateSpec_leaf [DecidableEq K] {level pre : ℕ} {first : Leaf K T}
    {next : List (Leaf K T)} (h : Trie hashKey level pre (.leaf first next))
    (hk : hashOf hashKey k % 32 ^ level = pre) :
    MutateSpec hashKey generation k write init level pre (.leaf first next) := by
  have hkeys : ∀ x ∈ keys (entries (first :: next)),
      hashOf hashKey x = hashOf hashKey first.key := fun _ hx => h.leaf_keys hx
  have hfirst : hashOf hashKey first.key % 32 ^ level = pre := by
    cases h with
    | leaf _ hfirst => exact hfirst
  have hself : first.key ∈ keys (entries (first :: next)) := by simp [entries]
  by_cases hmem : k ∈ keys (entries (first :: next))
  · -- the key is in the list
    refine ⟨fun _ hnot => absurd hmem hnot, fun _ => ?_⟩
    obtain ⟨first', next', hrun, hups⟩ : ∃ first' next',
        mutLeaf generation k write (first :: next) = some (first' :: next') ∧
          Upserts k write init _ _ false := mutLeaf_eq_some hmem
    refine ⟨false, .leaf first' next', by simp only [Child.mutate, mutLeaves, hrun], ?_, hups⟩
    rw [← hfirst]
    apply trie_leaf
    intro x hx
    rcases hups.mem_keys_iff.mp hx with rfl | hx
    · exact hkeys _ hmem
    · exact hkeys _ hx
  have hrun : mutLeaf generation k write (first :: next) = none := mutLeaf_eq_none hmem
  by_cases hlevel : 13 ≤ level
  · -- below the last digit every hash is that of the list
    have hdeep : DeepCollision hashKey k level (keys (entries (first :: next))) :=
      ⟨⟨first.key, hself, eq_of_mod_eq hlevel (hfirst.trans hk.symm)⟩, .inl hlevel⟩
    refine ⟨fun _ _ => ?_, fun hnot => absurd ⟨hdeep, hmem⟩ hnot⟩
    have hdepth : 64 ≤ 5 * level := by omega
    simp only [Child.mutate, mutLeaves, hrun, hdepth, if_true]
  · have hshallow : ¬ DeepCollision hashKey k level (keys (entries (first :: next))) := by
      rintro ⟨⟨x, hx, hxk⟩, hdeep | ⟨y, hy, hyk, -⟩⟩
      · exact hlevel hdeep
      · exact hyk ((hkeys y hy).trans ((hkeys x hx).symm.trans hxk))
    refine ⟨fun hdeep => absurd hdeep hshallow, fun _ => ?_⟩
    have hdepth : ¬ 64 ≤ 5 * level := by omega
    by_cases hsame : hashOf hashKey first.key / 32 ^ level = hashOf hashKey k / 32 ^ level
    · -- equal digits on both sides of the level: the new leaf goes in front of the list
      have heq : hashOf hashKey first.key = hashOf hashKey k := by
        rw [← Nat.div_add_mod (hashOf hashKey first.key) (32 ^ level),
          ← Nat.div_add_mod (hashOf hashKey k) (32 ^ level), hsame, hfirst, hk]
      refine ⟨true, .leaf ⟨generation, k, write init⟩ (first :: next), ?_, ?_, ?_⟩
      · simp only [Child.mutate, mutLeaves, hrun]
        rw [if_neg hdepth, shiftRight_eq]
        exact if_pos hsame
      · rw [← hk]
        apply trie_leaf
        intro x hx
        rcases List.mem_cons.mp hx with rfl | hx
        · rfl
        · exact (hkeys x hx).trans heq
      · exact .added [] (entries (first :: next)) hmem
    · have hne : hashOf hashKey first.key ≠ hashOf hashKey k := fun heq => hsame (by rw [heq])
      have hlt : ∀ x, hashOf hashKey x < 32 ^ (level + 13) := fun x =>
        (hashOf_lt x).trans_le (Nat.pow_le_pow_right (by norm_num) (by omega))
      obtain ⟨c, hc, htrie, hcontents⟩ : ∃ c,
          disambiguate generation (.leaf first next) (.leaf ⟨generation, k, write init⟩ []) 13
            (hashOf hashKey first.key / 32 ^ level) (hashOf hashKey k / 32 ^ level) = some c ∧ _ :=
        disambiguate_spec (fun _ => trie_leaf hkeys)
          (fun _ => trie_leaf (by simp [entries])) ⟨first.key, hself, rfl⟩
          ⟨k, by simp [Child.forEach], rfl⟩ hne 13 level (hlt _) (hlt _) (hfirst.trans hk.symm)
      refine ⟨true, c, ?_, hfirst ▸ htrie, ?_⟩
      · simp only [Child.mutate, mutLeaves, hrun]
        rw [if_neg hdepth, shiftRight_eq]
        refine (if_neg hsame).trans ?_
        exact congrArg (fun o => o >>= fun child => pure (true, child)) hc
      · rcases hcontents with hcontents | hcontents
        · have hadd : Upserts k write init _ _ true :=
            .added (entries (first :: next)) [] (by simpa using hmem)
          simpa [hcontents, Child.forEach, entries] using hadd
        · have hadd : Upserts k write init _ _ true :=
            .added [] (entries (first :: next)) hmem
          simpa [hcontents, Child.forEach, entries] using hadd

/-- Below a node a deep collision is one below the child of the key's digit. -/
theorem deepCollision_iff {level pre : ℕ} {front back : List (Child K T)} {c : Child K T}
    (hmod : ∀ x ∈ keys (forEachIn (front ++ c :: back)), hashOf hashKey x % 32 ^ level = pre)
    (hk : hashOf hashKey k % 32 ^ level = pre)
    (hother : ∀ x, hashOf hashKey x / 32 ^ level % 32 = hashOf hashKey k / 32 ^ level % 32 →
      x ∉ keys (forEachIn front) ∧ x ∉ keys (forEachIn back))
    (hdistinct : ∃ x ∈ keys (forEachIn (front ++ c :: back)),
      ∃ y ∈ keys (forEachIn (front ++ c :: back)), hashOf hashKey x ≠ hashOf hashKey y) :
    DeepCollision hashKey k level (keys (forEachIn (front ++ c :: back))) ↔
      DeepCollision hashKey k (level + 1) (keys c.forEach) := by
  set all := keys (forEachIn (front ++ c :: back)) with hall
  have hsub : ∀ x ∈ keys c.forEach, x ∈ all := by
    intro x hx
    simp [hall, forEachIn_append, forEachIn, hx]
  have hchild : ∀ x ∈ all, hashOf hashKey x / 32 ^ level % 32 = hashOf hashKey k / 32 ^ level % 32 →
      x ∈ keys c.forEach := by
    intro x hx hdigit
    obtain ⟨hfront, hback⟩ := hother x hdigit
    simpa [hall, forEachIn_append, forEachIn, hfront, hback] using hx
  -- two hashes meet at the node, so it is not below the last digit
  have hlevel : level < 13 := by
    by_contra hge
    obtain ⟨x, hx, y, hy, hne⟩ := hdistinct
    exact hne (eq_of_mod_eq (not_lt.mp hge) ((hmod x hx).trans (hmod y hy).symm))
  have hpow : 2 ^ 60 = 32 ^ 12 := by norm_num
  rw [DeepCollision, DeepCollision, hpow]
  constructor
  · rintro ⟨⟨x, hx, hxk⟩, hdeep | ⟨y, hy, hyk, hagree⟩⟩
    · omega
    · refine ⟨⟨x, hchild x hx (by rw [hxk]), hxk⟩, ?_⟩
      by_cases hlast : 13 ≤ level + 1
      · exact .inl hlast
      · right
        refine ⟨y, hchild y hy ?_, hyk, hagree⟩
        have hdvd : 32 ^ (level + 1) ∣ 32 ^ 12 := pow_dvd_pow 32 (by omega)
        have hsucc : hashOf hashKey y % 32 ^ (level + 1) = hashOf hashKey k % 32 ^ (level + 1) := by
          rw [← Nat.mod_mod_of_dvd _ hdvd, hagree, Nat.mod_mod_of_dvd _ hdvd]
        have hlt : pre < 32 ^ level := hk ▸ Nat.mod_lt _ (by positivity)
        exact (digits_eq hlt (hsucc.trans (mod_succ_eq hk))).2
  · rintro ⟨⟨x, hx, hxk⟩, hdeep⟩
    refine ⟨⟨x, hsub x hx, hxk⟩, .inr ?_⟩
    rcases hdeep with hlast | ⟨y, hy, hyk, hagree⟩
    · obtain rfl : level = 12 := by omega
      obtain ⟨y, hy, z, hz, hne⟩ := hdistinct
      by_cases hyk : hashOf hashKey y = hashOf hashKey k
      · exact ⟨z, hz, fun hzk => hne (hyk.trans hzk.symm), (hmod z hz).trans hk.symm⟩
      · exact ⟨y, hy, hyk, (hmod y hy).trans hk.symm⟩
    · exact ⟨y, hsub y hy, hyk, hagree⟩

theorem Child.mutate_node_of_set [DecidableEq K] {generation' : ℤ} {bitmap : BitVec 32}
    {array : List (Child K T)} {hash depth : ℕ} (hbit : bitmap.getLsbD (hash % 32) = true) :
    (Child.node generation' bitmap array).mutate hashKey generation k write init hash depth =
      (mutateAt hashKey generation k write init array (popcount (bitmap >>> (hash % 32)) - 1)
        (hash / 32) (depth + 5)).map fun r => (r.1, .node generation bitmap r.2) := by
  refine (if_pos hbit).trans ?_
  cases mutateAt hashKey generation k write init array (popcount (bitmap >>> (hash % 32)) - 1)
    (hash / 32) (depth + 5) with
  | none => rfl
  | some r => rfl

theorem Child.mutate_node_of_unset [DecidableEq K] {generation' : ℤ} {bitmap : BitVec 32}
    {array : List (Child K T)} {hash depth : ℕ} (hbit : ¬ bitmap.getLsbD (hash % 32) = true) :
    (Child.node generation' bitmap array).mutate hashKey generation k write init hash depth =
      some (true, .node generation (bitmap ||| bit (hash % 32))
        (array.insertIdx (popcount (bitmap >>> (hash % 32)))
          (.leaf ⟨generation, k, write init⟩ []))) :=
  if_neg hbit

/-- Writing below the child for a digit. -/
theorem mutateSpec_of_set [DecidableEq K] {level pre : ℕ} {generation' : ℤ} {bitmap : BitVec 32}
    {array : List (Child K T)} (hlen : array.length = (setBits bitmap).length)
    (hsub : ∀ i c, (i, c) ∈ (setBits bitmap).zip array →
      Trie hashKey (level + 1) (pre + 32 ^ level * i) c)
    (hdistinct : ∃ x ∈ keys (forEachIn array), ∃ y ∈ keys (forEachIn array),
      hashOf hashKey x ≠ hashOf hashKey y) (hpre : pre < 32 ^ level)
    (hk : hashOf hashKey k % 32 ^ level = pre)
    (hbit : bitmap.getLsbD (hashOf hashKey k / 32 ^ level % 32) = true)
    (ih : ∀ i c, (i, c) ∈ (setBits bitmap).zip array → pre + 32 ^ level * i < 32 ^ (level + 1) →
      hashOf hashKey k % 32 ^ (level + 1) = pre + 32 ^ level * i →
      MutateSpec hashKey generation k write init (level + 1) (pre + 32 ^ level * i) c) :
    MutateSpec hashKey generation k write init level pre (.node generation' bitmap array) := by
  obtain ⟨front, c, back, rfl, hpos, hmem, hother, hreplace⟩ := exists_child hlen hsub hpre hbit
  have hchild := ih _ c hmem (pre_succ_lt hpre (lt_of_mem_zip hmem)) (mod_succ_eq hk)
  have hdeep := deepCollision_iff (fun x hx => mod_eq_of_children hlen hsub hpre hx) hk hother
    hdistinct
  obtain ⟨hfront, hback⟩ := hother k rfl
  have hkeys : k ∈ keys (forEachIn (front ++ c :: back)) ↔ k ∈ keys c.forEach := by
    simp [forEachIn_append, forEachIn, hfront, hback]
  have hrun : (Child.node generation' bitmap (front ++ c :: back)).mutate hashKey generation k
      write init (hashOf hashKey k / 32 ^ level) (5 * level) =
      (c.mutate hashKey generation k write init (hashOf hashKey k / 32 ^ (level + 1))
        (5 * (level + 1))).map fun r => (r.1, .node generation bitmap (front ++ r.2 :: back)) := by
    rw [Child.mutate_node_of_set hbit, ← hpos, mutateAt_length, Nat.div_div_eq_div_mul,
      ← pow_succ, Option.map_map]
    rfl
  constructor
  · intro hd hnot
    rw [hrun, hchild.undefined (hdeep.mp hd) (mt hkeys.mpr hnot)]
    rfl
  · intro hnot
    obtain ⟨new, d, hd, htrie, hups⟩ := hchild.defined fun hboth =>
      hnot ⟨hdeep.mpr hboth.1, mt hkeys.mp hboth.2⟩
    have hall : Upserts k write init (forEachIn (front ++ c :: back))
        (forEachIn (front ++ d :: back)) new := by
      simpa [forEachIn_append, forEachIn] using hups.append hfront hback
    refine ⟨new, _, by rw [hrun, hd]; rfl, .node (by simpa using hlen) (hreplace d htrie) ?_, hall⟩
    obtain ⟨x, hx, y, hy, hne⟩ := hdistinct
    exact ⟨x, hall.mem_keys_iff.mpr (.inr hx), y, hall.mem_keys_iff.mpr (.inr hy), hne⟩

theorem insertIdx_length {α : Type*} (front : List α) (a : α) (back : List α) :
    (front ++ back).insertIdx front.length a = front ++ a :: back := by
  induction front with
  | nil => rfl
  | cons b front ih => simp [ih]

/-- Growing a node by the child for a digit. -/
theorem mutateSpec_of_unset [DecidableEq K] {level pre : ℕ} {generation' : ℤ}
    {bitmap : BitVec 32} {array : List (Child K T)}
    (hlen : array.length = (setBits bitmap).length)
    (hsub : ∀ i c, (i, c) ∈ (setBits bitmap).zip array →
      Trie hashKey (level + 1) (pre + 32 ^ level * i) c)
    (hdistinct : ∃ x ∈ keys (forEachIn array), ∃ y ∈ keys (forEachIn array),
      hashOf hashKey x ≠ hashOf hashKey y) (hpre : pre < 32 ^ level)
    (hk : hashOf hashKey k % 32 ^ level = pre)
    (hbit : bitmap.getLsbD (hashOf hashKey k / 32 ^ level % 32) = false) :
    MutateSpec hashKey generation k write init level pre (.node generation' bitmap array) := by
  have habsent : ∀ x, hashOf hashKey x = hashOf hashKey k → x ∉ keys (forEachIn array) :=
    fun x hx => not_mem_of_bit_unset hlen hsub hpre (by rw [hx]; exact hbit)
  have hi : hashOf hashKey k / 32 ^ level % 32 < 32 := Nat.mod_lt _ (by norm_num)
  obtain ⟨high, low, hbits, hgrown, hpos⟩ := setBits_or_bit hi hbit
  obtain ⟨front, back, rfl, hfront, hback⟩ : ∃ front back, array = front ++ back ∧
      front.length = high.length ∧ back.length = low.length := by
    refine ⟨array.take high.length, array.drop high.length, by simp, ?_, ?_⟩
    · rw [List.length_take, hlen, hbits]
      simp
    · rw [List.length_drop, hlen, hbits]
      simp
  set leaf : Child K T := .leaf ⟨generation, k, write init⟩ [] with hleaf
  have hinsert : (front ++ back).insertIdx
      (popcount (bitmap >>> (hashOf hashKey k / 32 ^ level % 32))) leaf = front ++ leaf :: back := by
    rw [← hpos, ← hfront, insertIdx_length]
  have hall : Upserts k write init (forEachIn (front ++ back))
      (forEachIn (front ++ leaf :: back)) true := by
    have hadd : Upserts k write init _ _ true :=
      .added (forEachIn front) (forEachIn back) (by simpa [forEachIn_append] using habsent k rfl)
    simpa [forEachIn_append, forEachIn, hleaf, Child.forEach] using hadd
  constructor
  · rintro ⟨⟨x, hx, hxk⟩, -⟩
    exact absurd hx (habsent x hxk)
  · intro _
    refine ⟨true, _, Child.mutate_node_of_unset (by simpa using hbit), ?_, ?_⟩
    · rw [hinsert]
      refine .node ?_ ?_ ?_
      · rw [hgrown]
        simp [hfront, hback]
      · intro j d hmem
        rw [hgrown, List.zip_append hfront.symm, List.zip_cons_cons] at hmem
        rw [hbits, List.zip_append hfront.symm] at hsub
        rcases List.mem_append.mp hmem with hmem | hmem
        · exact hsub j d (List.mem_append_left _ hmem)
        · rcases List.mem_cons.mp hmem with heq | hmem
          · cases heq
            rw [← mod_succ_eq hk]
            exact trie_leaf (by simp [entries])
          · exact hsub j d (List.mem_append_right _ hmem)
      · obtain ⟨x, hx, y, hy, hne⟩ := hdistinct
        exact ⟨x, hall.mem_keys_iff.mpr (.inr hx), y, hall.mem_keys_iff.mpr (.inr hy), hne⟩
    · rw [hinsert]
      exact hall

/-- `mut` meets its specification everywhere in a trie. -/
theorem Trie.mutateSpec [DecidableEq K] {level pre : ℕ} {c : Child K T}
    (h : Trie hashKey level pre c) (hpre : pre < 32 ^ level)
    (hk : hashOf hashKey k % 32 ^ level = pre) :
    MutateSpec hashKey generation k write init level pre c := by
  induction h with
  | leaf hnext hfirst => exact (Trie.leaf hnext hfirst).mutateSpec_leaf hk
  | @node level pre generation' bitmap array hlen hsub hdistinct ih =>
      cases hbit : bitmap.getLsbD (hashOf hashKey k / 32 ^ level % 32) with
      | true => exact mutateSpec_of_set hlen hsub hdistinct hpre hk hbit ih
      | false => exact mutateSpec_of_unset hlen hsub hdistinct hpre hk hbit

end

end Nidhugg.GenMap
