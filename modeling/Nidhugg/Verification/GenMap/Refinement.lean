import Mathlib.Data.BitVec
import Nidhugg.Library.LabelledRun
import Nidhugg.Verification.GenMap.Mutate

/-! # Generational maps as finite maps

A sequence of operations denotes a finite map. `gen::map` implements it as long as no new
key meets a deep collision and the two 32-bit counters do not overflow. -/

namespace Nidhugg.GenMap

open AssocList LabelledRun

variable {K T : Type*}

/-! ### What the operations mean -/

def Operation.key? : Operation K T → Option K
  | .mutate k _ => some k
  | .copy => none

def Operation.isCopy : Operation K T → Bool
  | .mutate _ _ => false
  | .copy => true

/-- The keys of the operations, with repetitions. -/
def inserted (ops : List (Operation K T)) : List K := ops.filterMap Operation.key?

/-- One operation on the finite map. -/
def denote [DecidableEq K] (init : T) (values : K → Option T) : Operation K T → K → Option T
  | .mutate k write => Function.update values k (some (write ((values k).getD init)))
  | .copy => values

/-- The value last written for each key. -/
def written [DecidableEq K] (init : T) (ops : List (Operation K T)) : K → Option T :=
  ops.foldl (denote init) fun _ => none

/-- How often a map with keys has been copied. -/
def copies (ops : List (Operation K T)) : ℕ :=
  (ops.dropWhile Operation.isCopy).countP Operation.isCopy

/-- `m` behaves as the finite map of the operations. -/
structure Refines [DecidableEq K] (hashKey : K → BitVec 64) (init : T) (m : GenMap K T)
    (ops : List (Operation K T)) : Prop where
  find_eq : ∀ k, m.find hashKey k = written init ops k
  at_eq : ∀ k v, m.atKey hashKey k = .ok v ↔ written init ops k = some v
  getElem_eq : ∀ k, m.getElem hashKey init k = (written init ops k).getD init
  count_eq : ∀ k, m.count hashKey k = if k ∈ inserted ops then 1 else 0
  size_eq : m.size = (inserted ops).dedup.length
  forEach_keys : (keys m.forEach).Perm (inserted ops).dedup
  forEach_values : ∀ k v, (k, v) ∈ m.forEach → written init ops k = some v

/-- Another key has the hash of `k`, and a third one a hash that differs from it only above
bit 60. -/
def Collides (hashKey : K → BitVec 64) (ks : List K) (k : K) : Prop :=
  (∃ x ∈ ks, hashKey x = hashKey k) ∧
    ∃ y ∈ ks, hashKey y ≠ hashKey k ∧ (hashKey y).toNat % 2 ^ 60 = (hashKey k).toNat % 2 ^ 60

/-- No key is new when it meets a collision. -/
def NoCollision (hashKey : K → BitVec 64) (ops : List (Operation K T)) : Prop :=
  ∀ pre k write, pre ++ [.mutate k write] <+: ops → k ∉ inserted pre →
    ¬ Collides hashKey (inserted pre) k

theorem deepCollision_zero_iff {hashKey : K → BitVec 64} {k : K} {ks : List K} :
    DeepCollision hashKey k 0 ks ↔ Collides hashKey ks k := by
  have hinj : ∀ x, hashOf hashKey x = hashOf hashKey k ↔ hashKey x = hashKey k :=
    fun x => ⟨BitVec.eq_of_toNat_eq, fun h => by rw [hashOf, h]; rfl⟩
  have hzero : ¬ 13 ≤ 0 := by decide
  simp only [DeepCollision, Collides, ne_eq, hinj, hzero, false_or]
  rfl

/-! ### The invariant of a run -/

/-- What holds after a defined run. -/
structure Inv [DecidableEq K] (hashKey : K → BitVec 64) (init : T) (ops : List (Operation K T))
    (m : GenMap K T) : Prop where
  size : m.size = (inserted ops).dedup.length % 2 ^ 32
  generation : m.generation = copies ops
  empty_iff : m.root = none ↔ ops.dropWhile Operation.isCopy = []
  trie : ∀ c ∈ m.root, Trie hashKey 0 0 c
  nodup : (keys m.forEach).Nodup
  mem_keys : ∀ x, x ∈ keys m.forEach ↔ x ∈ inserted ops
  lookup : ∀ k, m.forEach.lookup k = written init ops k

theorem inserted_append (xs ys : List (Operation K T)) :
    inserted (xs ++ ys) = inserted xs ++ inserted ys := List.filterMap_append

theorem written_concat [DecidableEq K] (init : T) (ops : List (Operation K T)) (op : Operation K T) :
    written init (ops ++ [op]) = denote init (written init ops) op := by
  simp [written, List.foldl_append]

theorem noCollision_concat {hashKey : K → BitVec 64} {ops : List (Operation K T)}
    {op : Operation K T} : NoCollision hashKey (ops ++ [op]) ↔ NoCollision hashKey ops ∧
      ∀ k write, op = .mutate k write → k ∉ inserted ops → ¬ Collides hashKey (inserted ops) k := by
  constructor
  · intro h
    refine ⟨fun pre k write hpre => h pre k write (hpre.trans (List.prefix_append _ _)), ?_⟩
    rintro k write rfl
    exact h ops k write List.prefix_rfl
  · rintro ⟨h, hlast⟩ pre k write hpre
    rcases List.prefix_concat_iff.mp hpre with heq | hpre
    · obtain ⟨rfl, hop⟩ := List.append_inj' heq rfl
      exact hlast k write (by simpa using hop.symm)
    · exact h pre k write hpre

theorem dropWhile_concat (ops : List (Operation K T)) (op : Operation K T) :
    (ops ++ [op]).dropWhile Operation.isCopy =
      if ops.dropWhile Operation.isCopy = [] then [op].dropWhile Operation.isCopy
      else ops.dropWhile Operation.isCopy ++ [op] := by
  rw [List.dropWhile_append]
  simp only [List.isEmpty_iff]

theorem dropWhile_concat_mut_ne_nil (ops : List (Operation K T)) (k : K) (write : T → T) :
    (ops ++ [Operation.mutate k write]).dropWhile Operation.isCopy ≠ [] := by
  rw [dropWhile_concat]
  split
  · simp [Operation.isCopy]
  · simp

theorem dropWhile_concat_copy_eq_nil_iff (ops : List (Operation K T)) :
    (ops ++ [Operation.copy]).dropWhile Operation.isCopy = [] ↔
      ops.dropWhile Operation.isCopy = [] := by
  rw [dropWhile_concat]
  split
  case isTrue h =>
    rw [List.dropWhile_cons_of_pos rfl]
    simp [h]
  case isFalse h => simp [h]

theorem copies_concat_mut (ops : List (Operation K T)) (k : K) (write : T → T) :
    copies (ops ++ [.mutate k write]) = copies ops := by
  rw [copies, copies, dropWhile_concat]
  split
  case isTrue h => simp [h, Operation.isCopy]
  case isFalse h => simp [Operation.isCopy]

theorem copies_concat_copy (ops : List (Operation K T)) :
    copies (ops ++ [.copy]) =
      if ops.dropWhile Operation.isCopy = [] then 0 else copies ops + 1 := by
  rw [copies, copies, dropWhile_concat]
  split
  case isTrue h =>
    rw [List.dropWhile_cons_of_pos rfl]
    rfl
  case isFalse h => simp [Operation.isCopy]

theorem copies_le_concat (ops : List (Operation K T)) (op : Operation K T) :
    copies ops ≤ copies (ops ++ [op]) := by
  cases op with
  | mutate k write => rw [copies_concat_mut]
  | copy =>
      rw [copies_concat_copy]
      split
      case isTrue h => simp [copies, h]
      case isFalse h => omega

variable [DecidableEq K]

theorem dedup_length_concat (ks : List K) (k : K) :
    (ks ++ [k]).dedup.length = ks.dedup.length + if k ∈ ks then 0 else 1 := by
  have hperm : (ks ++ [k]).Perm (k :: ks) := List.perm_append_singleton k ks
  rw [hperm.dedup.length_eq]
  by_cases hk : k ∈ ks
  · simp [hk]
  · simp [hk]

theorem inv_empty (hashKey : K → BitVec 64) (init : T) :
    Inv hashKey init [] (empty : GenMap K T) := by
  constructor <;> simp [empty, inserted, copies, forEach, written]

/-- A map whose contents have been written at one key. -/
theorem Inv.of_upserts {hashKey : K → BitVec 64} {init : T} {ops : List (Operation K T)}
    {m : GenMap K T} (h : Inv hashKey init ops m) {k : K} {write : T → T} {c : Child K T}
    {new : Bool} (htrie : Trie hashKey 0 0 c)
    (hups : Upserts k write init m.forEach c.forEach new) :
    Inv hashKey init (ops ++ [.mutate k write])
      ⟨m.generation, if new then (m.size + 1) % 2 ^ 32 else m.size, some c⟩ := by
  have hkeys : inserted (ops ++ [.mutate k write]) = inserted ops ++ [k] := inserted_append _ _
  have hmem : k ∈ keys m.forEach ↔ k ∈ inserted ops := h.mem_keys k
  have hnew := hups.new_iff
  constructor
  case size =>
    rw [hmem] at hnew
    rw [hkeys, dedup_length_concat, h.size]
    cases new with
    | true => simp [hnew.mp rfl]
    | false =>
        have hold : k ∈ inserted ops := by simpa using hnew
        simp [hold]
  case generation =>
    rw [copies_concat_mut]
    exact h.generation
  case empty_iff => simpa using dropWhile_concat_mut_ne_nil ops k write
  case trie =>
    intro d hd
    obtain rfl : c = d := by simpa using hd
    exact htrie
  case nodup =>
    show (keys c.forEach).Nodup
    rw [hups.keys_perm.nodup_iff]
    cases new with
    | true => exact List.nodup_cons.mpr ⟨hnew.mp rfl, h.nodup⟩
    | false => exact h.nodup
  case mem_keys =>
    intro x
    show x ∈ keys c.forEach ↔ _
    rw [hups.mem_keys_iff, h.mem_keys, hkeys, List.mem_append, List.mem_singleton, or_comm]
  case lookup =>
    intro x
    show c.forEach.lookup x = _
    rw [hups.lookup_eq, h.lookup, h.lookup, written_concat, denote]
    by_cases hx : x = k
    · simp [hx]
    · simp [hx]

/-- A write of a key is undefined for a new key that meets a collision. -/
theorem Inv.mutate {hashKey : K → BitVec 64} {init : T} {ops : List (Operation K T)}
    {m : GenMap K T} (h : Inv hashKey init ops m) (k : K) (write : T → T) :
    (k ∉ inserted ops → Collides hashKey (inserted ops) k →
      m.mutate hashKey init k write = none) ∧
    (¬ (k ∉ inserted ops ∧ Collides hashKey (inserted ops) k) →
      ∃ m', m.mutate hashKey init k write = some m' ∧
        Inv hashKey init (ops ++ [.mutate k write]) m') := by
  cases hroot : m.root with
  | none =>
      have hforEach : m.forEach = [] := by rw [forEach, hroot]
      have hempty : ∀ x, x ∉ inserted ops := by
        intro x
        rw [← h.mem_keys, hforEach]
        simp
      constructor
      · rintro - ⟨⟨x, hx, -⟩, -⟩
        exact absurd hx (hempty x)
      · intro _
        set leaf : Child K T := .leaf ⟨m.generation, k, write init⟩ []
        have htrie : Trie hashKey 0 (hashOf hashKey k % 32 ^ 0) leaf :=
          trie_leaf (by simp [entries])
        have hadd : Upserts k write init m.forEach leaf.forEach true := by
          rw [hforEach]
          exact .added [] [] (by simp)
        rw [pow_zero, Nat.mod_one] at htrie
        exact ⟨_, by simp only [GenMap.mutate, hroot]; rfl, h.of_upserts htrie hadd⟩
  | some c =>
      have hforEach : m.forEach = c.forEach := by rw [forEach, hroot]
      have hkeys : ∀ x, x ∈ keys c.forEach ↔ x ∈ inserted ops := fun x => hforEach ▸ h.mem_keys x
      have hspec : MutateSpec hashKey m.generation k write init 0 0 c :=
        (h.trie c hroot).mutateSpec (by simp) (by simp [Nat.mod_one])
      have hdeep : DeepCollision hashKey k 0 (keys c.forEach) ↔
          Collides hashKey (inserted ops) k := by
        rw [deepCollision_zero_iff]
        simp only [Collides, hkeys]
      have hrun : m.mutate hashKey init k write =
          (c.mutate hashKey m.generation k write init (hashOf hashKey k / 32 ^ 0) (5 * 0)).map
            fun r => ⟨m.generation, if r.1 then (m.size + 1) % 2 ^ 32 else m.size, some r.2⟩ := by
        simp only [GenMap.mutate, hroot, pow_zero, Nat.div_one, Nat.mul_zero, hashOf]
        cases c.mutate hashKey m.generation k write init (hashKey k).toNat 0 with
        | none => rfl
        | some r => rfl
      constructor
      · intro hnew hcollides
        rw [hrun, hspec.undefined (hdeep.mpr hcollides) (mt (hkeys k).mp hnew)]
        rfl
      · intro hnot
        obtain ⟨new, d, hd, htrie, hups⟩ := hspec.defined fun hboth =>
          hnot ⟨mt (hkeys k).mpr hboth.2, hdeep.mp hboth.1⟩
        rw [← hforEach] at hups
        exact ⟨_, by rw [hrun, hd]; rfl, h.of_upserts htrie hups⟩

theorem Inv.of_copy {hashKey : K → BitVec 64} {init : T} {ops : List (Operation K T)}
    {m : GenMap K T} (h : Inv hashKey init ops m) :
    Inv hashKey init (ops ++ [.copy]) ⟨copies (ops ++ [.copy]), m.size, m.root⟩ := by
  have hkeys : inserted (ops ++ [.copy]) = inserted ops := by
    rw [inserted_append]
    exact List.append_nil _
  have hwritten : written init (ops ++ [.copy]) = written init ops := written_concat init ops _
  constructor
  case size =>
    rw [hkeys]
    exact h.size
  case generation => rfl
  case empty_iff =>
    rw [dropWhile_concat_copy_eq_nil_iff]
    exact h.empty_iff
  case trie => exact h.trie
  case nodup => exact h.nodup
  case mem_keys =>
    rw [hkeys]
    exact h.mem_keys
  case lookup =>
    rw [hwritten]
    exact h.lookup

/-- A copy is undefined when the generation overflows. -/
theorem Inv.copy {hashKey : K → BitVec 64} {init : T} {ops : List (Operation K T)}
    {m : GenMap K T} (h : Inv hashKey init ops m) (hcopies : copies ops < 2 ^ 31) :
    (2 ^ 31 ≤ copies (ops ++ [.copy]) → m.copy = none) ∧
    (copies (ops ++ [.copy]) < 2 ^ 31 →
      ∃ m', m.copy = some m' ∧ Inv hashKey init (ops ++ [.copy]) m') := by
  have hcopy := h.of_copy
  rw [copies_concat_copy] at hcopy ⊢
  cases hroot : m.root with
  | none =>
      have hempty := h.empty_iff.mp hroot
      rw [if_pos hempty, hroot] at hcopy
      rw [if_pos hempty]
      refine ⟨fun hle => absurd hle (by norm_num), fun _ => ⟨_, ?_, hcopy⟩⟩
      rw [GenMap.copy, hroot]
      rfl
  | some c =>
      have hnonempty : ops.dropWhile Operation.isCopy ≠ [] := by
        intro hempty
        rw [h.empty_iff.mpr hempty] at hroot
        simp at hroot
      rw [if_neg hnonempty, hroot] at hcopy
      rw [if_neg hnonempty]
      have hgeneration := h.generation
      constructor
      · intro hle
        rw [GenMap.copy, hroot]
        exact if_neg (by omega)
      · intro hlt
        refine ⟨_, ?_, hcopy⟩
        rw [GenMap.copy, hroot]
        refine (if_pos (by omega)).trans ?_
        rw [hgeneration]
        rfl

/-- A run is defined as long as no new key meets a collision and the generation does not
overflow. -/
theorem run_spec (hashKey : K → BitVec 64) (init : T) (ops : List (Operation K T)) :
    (NoCollision hashKey ops ∧ copies ops < 2 ^ 31 →
      ∃ m, run (apply hashKey init) empty ops = some m ∧ Inv hashKey init ops m) ∧
    (¬ (NoCollision hashKey ops ∧ copies ops < 2 ^ 31) →
      run (apply hashKey init) empty ops = none) := by
  induction ops using List.reverseRecOn with
  | nil =>
      refine ⟨fun _ => ⟨empty, rfl, inv_empty hashKey init⟩, fun hnot => absurd ?_ hnot⟩
      simp [NoCollision, copies]
  | append_singleton ops op ih =>
      obtain ⟨hdefined, hundefined⟩ := ih
      rw [run_concat, noCollision_concat]
      by_cases hprior : NoCollision hashKey ops ∧ copies ops < 2 ^ 31
      · obtain ⟨m, hrun, hinv⟩ := hdefined hprior
        rw [hrun]
        cases op with
        | mutate k write =>
            obtain ⟨hnone, hsome⟩ := hinv.mutate k write
            rw [copies_concat_mut]
            constructor
            · rintro ⟨⟨-, hnew⟩, -⟩
              exact hsome fun hboth => hnew k write rfl hboth.1 hboth.2
            · intro hnot
              have hboth : k ∉ inserted ops ∧ Collides hashKey (inserted ops) k := by
                by_contra hneither
                refine hnot ⟨⟨hprior.1, ?_⟩, hprior.2⟩
                rintro k' write' hop hk hcollides
                cases hop
                exact hneither ⟨hk, hcollides⟩
              exact hnone hboth.1 hboth.2
        | copy =>
            obtain ⟨hnone, hsome⟩ := hinv.copy hprior.2
            constructor
            · rintro ⟨-, hcopies⟩
              exact hsome hcopies
            · intro hnot
              apply hnone
              by_contra hlt
              exact hnot ⟨⟨hprior.1, by simp⟩, not_le.mp hlt⟩
      · rw [hundefined hprior]
        refine ⟨fun hok => absurd ⟨hok.1.1, ?_⟩ hprior, fun _ => rfl⟩
        exact (copies_le_concat ops op).trans_lt hok.2

theorem Inv.refines_iff {hashKey : K → BitVec 64} {init : T} {ops : List (Operation K T)}
    {m : GenMap K T} (h : Inv hashKey init ops m) :
    Refines hashKey init m ops ↔ (inserted ops).dedup.length < 2 ^ 32 := by
  have hpos : (0 : ℕ) < 2 ^ 32 := by norm_num
  have hfind : ∀ k, m.find hashKey k = written init ops k := by
    intro k
    rw [← h.lookup, GenMap.find]
    cases hroot : m.root with
    | none => simp [forEach, hroot]
    | some c =>
        have hc := (h.trie c hroot).find_eq (k := k) (by simp) (by simp [Nat.mod_one])
        rw [forEach, hroot]
        simpa [hashOf] using hc
  constructor
  · intro href
    have hsize := href.size_eq
    rw [h.size] at hsize
    rw [← hsize]
    exact Nat.mod_lt _ hpos
  · intro hlt
    constructor
    case find_eq => exact hfind
    case at_eq =>
      intro k v
      rw [atKey, hfind]
      cases written init ops k <;> simp
    case getElem_eq =>
      intro k
      rw [GenMap.getElem, hfind]
    case count_eq =>
      intro k
      rw [count, hfind, ← h.lookup]
      have hsome : (m.forEach.lookup k).isSome ↔ k ∈ inserted ops := by
        rw [← h.mem_keys, ← not_iff_not, Bool.not_eq_true, Option.isSome_eq_false_iff,
          Option.isNone_iff_eq_none, lookup_eq_none_iff]
      simp only [hsome]
    case size_eq => rw [h.size, Nat.mod_eq_of_lt hlt]
    case forEach_keys =>
      apply (List.perm_ext_iff_of_nodup h.nodup (List.nodup_dedup _)).mpr
      intro x
      rw [h.mem_keys, List.mem_dedup]
    case forEach_values =>
      intro k v hmem
      rw [← h.lookup]
      exact lookup_of_mem h.nodup hmem

/-- A sequence of operations leaves a map that behaves as their finite map if and only if no
new key meets a collision, fewer than `2 ^ 31` copies of a map with keys are made, and there
are fewer than `2 ^ 32` keys. -/
theorem run_refines_iff (hashKey : K → BitVec 64) (init : T) (ops : List (Operation K T)) :
    (∃ m, run (apply hashKey init) empty ops = some m ∧ Refines hashKey init m ops) ↔
      NoCollision hashKey ops ∧ copies ops < 2 ^ 31 ∧ (inserted ops).dedup.length < 2 ^ 32 := by
  obtain ⟨hdefined, hundefined⟩ := run_spec hashKey init ops
  constructor
  · rintro ⟨m, hrun, href⟩
    have hok : NoCollision hashKey ops ∧ copies ops < 2 ^ 31 := by
      by_contra hnot
      rw [hundefined hnot] at hrun
      simp at hrun
    obtain ⟨m', hrun', hinv⟩ := hdefined hok
    obtain rfl : m = m' := Option.some.inj (hrun.symm.trans hrun')
    exact ⟨hok.1, hok.2, hinv.refines_iff.mp href⟩
  · rintro ⟨hcollision, hcopies, hlength⟩
    obtain ⟨m, hrun, hinv⟩ := hdefined ⟨hcollision, hcopies⟩
    exact ⟨m, hrun, hinv.refines_iff.mpr hlength⟩

/-- Keys 0 and 1 have equal hashes, and that of key 2 differs from theirs in bit 60. -/
def deepHash (k : ℕ) : BitVec 64 := if k = 2 then 7 + 2 ^ 60 else 7

theorem not_refines_deepHash :
    ¬ ∃ m, run (apply deepHash 0) empty
        [.mutate 0 fun _ => 10, .mutate 2 fun _ => 12, .mutate 1 fun _ => 11] = some m ∧
      Refines deepHash 0 m
        [.mutate 0 fun _ => 10, .mutate 2 fun _ => 12, .mutate 1 fun _ => 11] := by
  have hrun : (run (apply deepHash 0) empty
      [.mutate 0 fun _ => 10, .mutate 2 fun _ => 12, .mutate 1 fun _ => 11]).isNone := by
    decide +kernel
  rintro ⟨m, hm, -⟩
  rw [hm] at hrun
  simp at hrun

end Nidhugg.GenMap
