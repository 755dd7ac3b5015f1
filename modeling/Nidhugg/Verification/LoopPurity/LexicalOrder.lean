import Mathlib.Data.List.Sort
import Nidhugg.Verification.LoopPurity.Conditions

/-! # Precedence of instructions

`isBefore` searches backwards from the block of one instruction for the block of the other one. The
search is exact: an instruction is before another one in its block, or there is a path of forward
edges between their blocks. -/

namespace Nidhugg.LoopPurity.Graph

variable {g : Graph} {p b target : ℕ} {i j k : Location}

/-- A forward edge. -/
def Edge (g : Graph) (p b : ℕ) : Prop := p ∈ g.predecessors b ∧ p < b

/-- There is a path of forward edges. -/
abbrev Precedes (g : Graph) : ℕ → ℕ → Prop := Relation.TransGen g.Edge

theorem Precedes.lt (h : g.Precedes p b) : p < b := by
  induction h with
  | single hedge => exact hedge.2
  | tail _ hedge ih => exact Nat.lt_trans ih hedge.2

/-- A path ends with an edge. -/
theorem precedes_iff : g.Precedes p b ↔ g.Edge p b ∨ ∃ m, g.Precedes p m ∧ g.Edge m b := by
  constructor
  · intro h
    cases h with
    | single hedge => exact .inl hedge
    | tail hpath hedge => exact .inr ⟨_, hpath, hedge⟩
  · intro h
    cases h with
    | inl hedge => exact .single hedge
    | inr h =>
        obtain ⟨m, hpath, hedge⟩ := h
        exact .tail hpath hedge

/-! ### The search -/

/-- What is found in one turn of the search. -/
theorem precedes_found_iff {block : ℕ} {found : List ℕ} (htarget : target ∉ g.predecessors block) :
    (g.Precedes target block ∨ ∃ x ∈ found, g.Precedes target x) ↔
      ∃ x ∈ found ++ (g.predecessors block).filter fun pred => target ≤ pred && pred < block,
        g.Precedes target x := by
  have hblock : g.Precedes target block ↔
      ∃ x ∈ (g.predecessors block).filter fun pred => target ≤ pred && pred < block,
        g.Precedes target x := by
    rw [precedes_iff]
    constructor
    · intro h
      cases h with
      | inl hedge => exact absurd hedge.1 htarget
      | inr h =>
          obtain ⟨m, hpath, hmem, hlt⟩ := h
          refine ⟨m, List.mem_filter.mpr ⟨hmem, ?_⟩, hpath⟩
          simp [hlt, Nat.le_of_lt hpath.lt]
    · intro h
      obtain ⟨m, hm, hpath⟩ := h
      obtain ⟨hmem, hrange⟩ := List.mem_filter.mp hm
      rw [Bool.and_eq_true, decide_eq_true_eq, decide_eq_true_eq] at hrange
      exact .inr ⟨m, hpath, hmem, hrange.2⟩
  rw [hblock]
  simp only [List.mem_append, or_and_right, exists_or]
  exact or_comm

theorem searchBack_iff {turns block : ℕ} {found : List ℕ} (hturns : block ≤ turns)
    (hblock : target < block) (hfound : ∀ x ∈ found, target < x ∧ x < block) :
    g.searchBack target turns block found = true ↔
      g.Precedes target block ∨ ∃ x ∈ found, g.Precedes target x := by
  induction turns generalizing block found with
  | zero => omega
  | succ turns ih =>
      rw [searchBack]
      split
      · rename_i hmem
        exact iff_of_true rfl (.inl (.single ⟨hmem, hblock⟩))
      rename_i htarget
      rw [precedes_found_iff htarget]
      have hfound' : ∀ x ∈ found ++
          (g.predecessors block).filter fun pred => target ≤ pred && pred < block,
            target < x ∧ x < block := by
        intro x hx
        cases List.mem_append.mp hx with
        | inl hx => exact hfound x hx
        | inr hx =>
            obtain ⟨hmem, hrange⟩ := List.mem_filter.mp hx
            rw [Bool.and_eq_true, decide_eq_true_eq, decide_eq_true_eq] at hrange
            have hne : target ≠ x := fun heq => htarget (heq ▸ hmem)
            exact ⟨Nat.lt_of_le_of_ne hrange.1 hne, hrange.2⟩
      dsimp only
      generalize found ++
        ((g.predecessors block).filter fun pred => target ≤ pred && pred < block) = found'
        at hfound' ⊢
      cases hmax : found'.max? with
      | none =>
          rw [List.max?_eq_none_iff.mp hmax]
          exact iff_of_false nofun fun h => absurd h.choose_spec.1 List.not_mem_nil
      | some next =>
          -- the largest block is next, and the others stay smaller than it
          obtain ⟨hnext, hle⟩ := List.max?_eq_some_iff.mp hmax
          have hrange := hfound' next hnext
          have hsplit : (∃ x ∈ found', g.Precedes target x) ↔ g.Precedes target next ∨
              ∃ x ∈ found'.filter (· ≠ next), g.Precedes target x := by
            constructor
            · intro h
              obtain ⟨x, hx, hpath⟩ := h
              by_cases heq : x = next
              · exact .inl (heq ▸ hpath)
              · exact .inr ⟨x, List.mem_filter.mpr ⟨hx, decide_eq_true heq⟩, hpath⟩
            · intro h
              cases h with
              | inl hpath => exact ⟨next, hnext, hpath⟩
              | inr h =>
                  obtain ⟨x, hx, hpath⟩ := h
                  exact ⟨x, (List.mem_filter.mp hx).1, hpath⟩
          rw [hsplit]
          dsimp only
          apply ih (by omega) (by omega)
          intro x hx
          obtain ⟨hx, hne⟩ := List.mem_filter.mp hx
          have hlex := hle x hx
          exact ⟨(hfound' x hx).1, Nat.lt_of_le_of_ne hlex (of_decide_eq_true hne)⟩

theorem isBefore_iff : g.isBefore i j = true ↔
    (i.block = j.block ∧ i.place < j.place) ∨ g.Precedes i.block j.block := by
  rw [isBefore]
  split
  · rename_i heq
    rw [decide_eq_true_eq, heq]
    refine ⟨fun h => .inl ⟨rfl, h⟩, ?_⟩
    intro h
    cases h with
    | inl h => exact h.2
    | inr h => exact absurd h.lt (Nat.lt_irrefl _)
  rename_i hne
  split
  · rename_i hlt
    refine iff_of_false nofun ?_
    intro h
    cases h with
    | inl h => exact hne h.1
    | inr h => exact absurd h.lt (Nat.lt_asymm hlt)
  · rename_i hlt
    rw [searchBack_iff (Nat.le_succ _) (by omega) fun x hx => absurd hx List.not_mem_nil]
    constructor
    · intro h
      cases h with
      | inl h => exact .inr h
      | inr h => exact absurd h.choose_spec.1 List.not_mem_nil
    · intro h
      cases h with
      | inl h => exact absurd h.1 hne
      | inr h => exact .inl h

theorem isBefore_irrefl (g : Graph) (i : Location) : g.isBefore i i = false := by
  rw [← Bool.not_eq_true, isBefore_iff]
  intro h
  cases h with
  | inl h => exact Nat.lt_irrefl _ h.2
  | inr h => exact Nat.lt_irrefl _ h.lt

theorem isBefore_trans (hij : g.isBefore i j = true) (hjk : g.isBefore j k = true) :
    g.isBefore i k = true := by
  rw [isBefore_iff] at hij hjk ⊢
  cases hij with
  | inl hij =>
      cases hjk with
      | inl hjk => exact .inl ⟨hij.1.trans hjk.1, Nat.lt_trans hij.2 hjk.2⟩
      | inr hjk => exact .inr (hij.1 ▸ hjk)
  | inr hij =>
      cases hjk with
      | inl hjk => exact .inr (hjk.1 ▸ hij)
      | inr hjk => exact .inr (hij.trans hjk)

theorem isBefore_asymm (hij : g.isBefore i j = true) : g.isBefore j i = false := by
  rw [← Bool.not_eq_true]
  intro hji
  have hii := isBefore_trans hij hji
  rw [isBefore_irrefl] at hii
  cases hii

/-! ### Insertion points -/

/-- The later of two insertion points is the lesser one, and no insertion point is the greatest. -/
theorem pointLt_iff {a b : Option Location} : g.pointLt a b = true ↔
    ∃ i, a = some i ∧ ∀ j, b = some j → g.isBefore j i = true := by
  rw [pointLt, Bool.and_eq_true, decide_eq_true_eq]
  cases a with
  | none =>
      cases b with
      | none => simp
      | some j => simp [pointLe]
  | some i =>
      cases b with
      | none => simp [pointLe]
      | some j =>
          rw [pointLe, Bool.or_eq_true, decide_eq_true_eq]
          constructor
          · intro h
            refine ⟨i, rfl, ?_⟩
            intro k hk
            cases hk
            exact h.2.resolve_left fun heq => h.1 (congrArg some heq)
          · intro h
            obtain ⟨i', hi, hbefore⟩ := h
            cases hi
            have hji := hbefore j rfl
            refine ⟨?_, .inr hji⟩
            intro heq
            cases heq
            rw [isBefore_irrefl] at hji
            cases hji

theorem pointLt_asymm {a b : Option Location} (h : g.pointLt a b = true) :
    g.pointLt b a = false := by
  rw [← Bool.not_eq_true]
  intro h'
  obtain ⟨i, rfl, hi⟩ := pointLt_iff.mp h
  obtain ⟨j, rfl, hj⟩ := pointLt_iff.mp h'
  have hbefore := isBefore_asymm (hi j rfl)
  rw [hj i rfl] at hbefore
  cases hbefore

end Nidhugg.LoopPurity.Graph

/-! # The order of disjuncts

`LexicalCompare` takes disjuncts for equal if they have the same conjuncts and neither insertion
point is before the other. This is an equivalence only if no point is beside two points of which
one is before the other, and it is equality only if all points are ordered. -/

namespace Nidhugg.LoopPurity

open VecSet

variable {env : Env} {points : Location → Prop} {x x' : Disjunction} {c d : ConjunctionLoc}

/-! ### The comparator -/

/-- A disjunct whose insertion point is one of some places, if it has one. -/
def At (points : Location → Prop) (d : ConjunctionLoc) : Prop :=
  ∀ i, d.insertionPoint = some i → points i

namespace Graph

variable {g : Graph}

/-- One of two places is before the other, or they are the same. -/
def Ordered (g : Graph) (i j : Location) : Prop :=
  i = j ∨ g.isBefore i j = true ∨ g.isBefore j i = true

/-- No place is beside two places of which one is before the other. -/
def NoneBeside (g : Graph) (points : Location → Prop) : Prop :=
  ∀ i j k, points i → points j → points k → g.isBefore i j = true →
    g.Ordered k i ∨ g.Ordered k j

def AllOrdered (g : Graph) (points : Location → Prop) : Prop :=
  ∀ i j, points i → points j → g.Ordered i j

theorem AllOrdered.noneBeside (h : g.AllOrdered points) : g.NoneBeside points :=
  fun i _ k hi _ hk _ => .inl (h k i hk hi)

theorem pointLt_side (h : g.NoneBeside points) {a b c : Option Location}
    (ha : ∀ i, a = some i → points i) (hb : ∀ i, b = some i → points i)
    (hc : ∀ i, c = some i → points i) (hac : g.pointLt a c = true) :
    g.pointLt a b = true ∨ g.pointLt b c = true := by
  obtain ⟨i, rfl, hi⟩ := pointLt_iff.mp hac
  cases b with
  | none => exact .inl (pointLt_iff.mpr ⟨i, rfl, nofun⟩)
  | some j =>
      cases c with
      | none => exact .inr (pointLt_iff.mpr ⟨j, rfl, nofun⟩)
      | some k =>
          have hki := hi k rfl
          have hleft : g.isBefore j i = true → g.pointLt (some i) (some j) = true := by
            intro hji
            refine pointLt_iff.mpr ⟨i, rfl, ?_⟩
            rintro _ ⟨⟩
            exact hji
          have hright : g.isBefore k j = true → g.pointLt (some j) (some k) = true := by
            intro hkj
            refine pointLt_iff.mpr ⟨j, rfl, ?_⟩
            rintro _ ⟨⟩
            exact hkj
          cases h k i j (hc k rfl) (ha i rfl) (hb j rfl) hki with
          | inl hordered =>
              rcases hordered with rfl | hjk | hkj
              · exact .inl (hleft hki)
              · exact .inl (hleft (isBefore_trans hjk hki))
              · exact .inr (hright hkj)
          | inr hordered =>
              rcases hordered with rfl | hji | hij
              · exact .inr (hright hki)
              · exact .inl (hleft hji)
              · exact .inr (hright (isBefore_trans hki hij))

theorem strictWeakOn_pointLt (h : g.NoneBeside points) :
    StrictWeakOn (fun a : Option Location => ∀ i, a = some i → points i) g.pointLt :=
  .of_asymm (fun _ _ => pointLt_asymm) fun ha hb hc => pointLt_side h ha hb hc

end Graph

theorem strictWeakOn_predicates : StrictWeakOn (fun _ => True) BinaryPredicate.lexicalLt := by
  apply StrictWeakOn.of_asymm
  · intro p q _ _ hlt
    simp only [BinaryPredicate.lexicalLt, Bool.or_eq_true, Bool.and_eq_true, decide_eq_true_eq,
      Bool.or_eq_false_iff, Bool.and_eq_false_iff, decide_eq_false_iff_not] at hlt ⊢
    omega
  · intro p q r _ _ _ hlt
    simp only [BinaryPredicate.lexicalLt, Bool.or_eq_true, Bool.and_eq_true,
      decide_eq_true_eq] at hlt ⊢
    omega

theorem lexicalLt_point {i j : Location} :
    env.lexicalLt ⟨[], some i⟩ ⟨[], some j⟩ = env.isBefore j i := by
  rw [Bool.eq_iff_iff, Env.lexicalLt, Bool.or_eq_true]
  constructor
  · intro h
    cases h with
    | inl hlt =>
        obtain ⟨i', hi, hbefore⟩ := Graph.pointLt_iff.mp hlt
        cases hi
        exact hbefore j rfl
    | inr h => simp [seqLt] at h
  · intro hbefore
    refine .inl (Graph.pointLt_iff.mpr ⟨i, rfl, ?_⟩)
    rintro _ ⟨⟩
    exact hbefore

theorem at_point {i : Location} (hi : points i) : At points ⟨[], some i⟩ := by
  rintro _ ⟨⟩
  exact hi

/-- Places that are not ordered are equivalent to the comparator. -/
theorem equivalent_of_not_ordered {i j : Location} (h : ¬ env.Ordered i j) :
    Equivalent env.lexicalLt ⟨[], some i⟩ ⟨[], some j⟩ := by
  rw [Equivalent, lexicalLt_point, lexicalLt_point]
  constructor
  · exact Bool.eq_false_iff.mpr fun hji => h (.inr (.inr hji))
  · exact Bool.eq_false_iff.mpr fun hij => h (.inr (.inl hij))

theorem strictWeakOn_lexicalLt_iff :
    StrictWeakOn (At points) env.lexicalLt ↔ env.NoneBeside points := by
  constructor
  · intro h i j k hi hj hk hij
    by_contra hbeside
    rw [not_or] at hbeside
    have hequivalent := h.equivalent_trans (at_point hi) (at_point hk) (at_point hj)
      (equivalent_of_not_ordered hbeside.1).symm (equivalent_of_not_ordered hbeside.2)
    have hlt := hequivalent.2
    rw [lexicalLt_point, hij] at hlt
    cases hlt
  · intro h
    exact .lex ConjunctionLoc.insertionPoint ConjunctionLoc.conjuncts
      (Graph.strictWeakOn_pointLt h) (strictWeakOn_seqLt strictWeakOn_predicates)

/-! ### The sets of disjuncts -/

/-- `std::sort` sorts if the comparator is a strict weak order on the elements. -/
def Sorts (s : StdSort) : Prop :=
  ∀ lt vec, StrictWeakOn (· ∈ vec) lt → (s.sort lt vec).Pairwise fun a b => lt b a = false

/-- The sets that the operations on disjunctions build. -/
inductive Built (env : Env) (points : Location → Prop) : Disjunction → Prop
  | empty : Built env points []
  | single {d : ConjunctionLoc} (hd : At points d) : Built env points [d]
  | addCond {x : Disjunction} {d : ConjunctionLoc} (hx : Built env points x) (hd : At points d) :
      Built env points (env.addCond x d)
  | erase {x x' : Disjunction} {d : ConjunctionLoc} (hx : Built env points x)
      (herase : VecSet.erase env.lexicalLt x d = some x') : Built env points x'
  | bound {x : Disjunction} (hx : Built env points x) : Built env points (env.bound x)

/-- The sets stay sorted, without duplicates, and what is inserted can be erased. -/
structure KeepsSorted (env : Env) (points : Location → Prop) : Prop where
  sorted : ∀ x, Built env points x → Sorted env.lexicalLt x
  insert : ∀ x d, Built env points x → At points d →
    Sorted env.lexicalLt (VecSet.insert env.lexicalLt x d)
  erased : ∀ x d, Built env points x → At points d →
    (VecSet.erase env.lexicalLt (VecSet.insert env.lexicalLt x d) d).isSome = true

/-- What is inserted is counted. -/
def Counts (env : Env) (points : Location → Prop) : Prop :=
  ∀ x d, Built env points x → At points d →
    VecSet.count env.lexicalLt (VecSet.insert env.lexicalLt x d) d = 1

theorem Built.at (h : Built env points x) : ∀ d ∈ x, At points d := by
  induction h with
  | empty => exact fun d hd => absurd hd List.not_mem_nil
  | single hd => exact fun c hc => List.mem_singleton.mp hc ▸ hd
  | @addCond x d _ hd ih =>
      intro c hc
      rw [Env.addCond] at hc
      split at hc
      · exact ih c hc
      · cases eq_or_mem_of_mem_insert hc with
        | inl heq => exact heq ▸ hd
        | inr hc => exact ih c (List.mem_filter.mp hc).1
  | erase _ herase ih => exact fun c hc => ih c ((erase_spec herase).1 c hc)
  | @bound x _ ih =>
      intro c hc
      rw [Env.bound] at hc
      split at hc
      · have hc' := List.mem_of_mem_take ((env.perm _ _).mem_iff.mp hc)
        exact ih c ((env.perm _ _).mem_iff.mp hc')
      · exact ih c hc

/-- Sorting a set of elements that are not equivalent makes it increase. -/
theorem sorted_sort (hsorts : Sorts env.toStdSort) (h : StrictWeakOn (At points) env.lexicalLt)
    (hat : ∀ d ∈ x, At points d)
    (hdistinct : x.Pairwise fun a b => ¬ Equivalent env.lexicalLt a b) :
    Sorted env.lexicalLt (env.sort env.lexicalLt x) := by
  have hpairwise := hsorts env.lexicalLt x (h.mono hat)
  have hdistinct' := (env.perm env.lexicalLt x).symm.pairwise hdistinct
    fun hab hba => hab hba.symm
  refine (hpairwise.and hdistinct').imp ?_
  intro a b hab
  by_contra hlt
  exact hab.2 ⟨Bool.eq_false_iff.mpr hlt, hab.1⟩

theorem Sorted.distinct (hx : Sorted env.lexicalLt x) :
    x.Pairwise fun a b => ¬ Equivalent env.lexicalLt a b := by
  refine hx.imp ?_
  intro a b hlt hequivalent
  rw [hequivalent.1] at hlt
  cases hlt

theorem sorted_bound (hsorts : Sorts env.toStdSort) (h : StrictWeakOn (At points) env.lexicalLt)
    (hat : ∀ d ∈ x, At points d) (hx : Sorted env.lexicalLt x) :
    Sorted env.lexicalLt (env.bound x) := by
  rw [Env.bound]
  split
  · have hperm := env.perm (fun a b => a.conjuncts.length < b.conjuncts.length) x
    apply sorted_sort hsorts h
    · intro d hd
      exact hat d (hperm.mem_iff.mp (List.mem_of_mem_take hd))
    · have hdistinct := hperm.symm.pairwise (Sorted.distinct hx) fun hab hba => hab hba.symm
      exact hdistinct.sublist (List.take_sublist _ _)
  · exact hx

theorem Built.sorted (hsorts : Sorts env.toStdSort) (h : StrictWeakOn (At points) env.lexicalLt)
    (hbuilt : Built env points x) : Sorted env.lexicalLt x := by
  induction hbuilt with
  | empty => exact List.Pairwise.nil
  | single hd => exact List.pairwise_singleton _ _
  | @addCond x d hx hd ih =>
      rw [Env.addCond]
      split
      · exact ih
      · apply sorted_insert h ?_ hd (ih.sublist List.filter_sublist)
        exact fun c hc => hx.at c (List.mem_filter.mp hc).1
  | @erase x x' d _ herase ih =>
      rw [VecSet.erase] at herase
      split at herase
      · cases herase
      · split at herase
        · cases herase
        · cases herase
          exact ih.sublist (List.eraseIdx_sublist _ _)
  | bound hx ih => exact sorted_bound hsorts h hx.at ih

theorem at_insert (hx : ∀ c ∈ x, At points c) (hd : At points d) :
    ∀ c ∈ VecSet.insert env.lexicalLt x d, At points c := by
  intro c hc
  cases eq_or_mem_of_mem_insert hc with
  | inl heq => exact heq ▸ hd
  | inr hc => exact hx c hc

theorem keepsSorted_of_strictWeakOn (h : StrictWeakOn (At points) env.lexicalLt)
    (hsorts : Sorts env.toStdSort) : KeepsSorted env points where
  sorted := fun _ hx => hx.sorted hsorts h
  insert := fun _ _ hx hd => sorted_insert h hx.at hd (hx.sorted hsorts h)
  erased := by
    intro x d hx hd
    obtain ⟨c, hc, heq⟩ := exists_mem_insert env.lexicalLt x d
    refine erase_isSome h (at_insert hx.at hd) hd
      (sorted_insert h hx.at hd (hx.sorted hsorts h)) hc ?_
    cases heq with
    | inl heq =>
        rw [heq]
        exact ⟨h.irrefl hd, h.irrefl hd⟩
    | inr heq => exact heq

/-- Disjuncts that the comparator does not tell apart are the same, if all points are ordered. -/
theorem eq_of_equivalent_of_allOrdered (h : env.AllOrdered points) (hc : At points c)
    (hd : At points d) (hequivalent : Equivalent env.lexicalLt c d) : c = d := by
  obtain ⟨hconjuncts, hpoint⟩ := samePoint_of_equivalent hequivalent
  have hsame : c.insertionPoint = d.insertionPoint := by
    cases hi : c.insertionPoint with
    | none => exact (hpoint.none_iff.mp hi).symm
    | some i =>
        cases hj : d.insertionPoint with
        | none =>
            rw [hpoint.none_iff.mpr hj] at hi
            cases hi
        | some j =>
            rw [hi, hj] at hpoint
            rcases h i j (hc i hi) (hd j hj) with heq | hij | hji
            · rw [heq]
            · have hlt := hpoint.2
              rw [Graph.pointLt_iff.mpr ⟨j, rfl, by rintro _ ⟨⟩; exact hij⟩] at hlt
              cases hlt
            · have hlt := hpoint.1
              rw [Graph.pointLt_iff.mpr ⟨i, rfl, by rintro _ ⟨⟩; exact hji⟩] at hlt
              cases hlt
  cases c
  cases d
  simp_all only

theorem Graph.AllOrdered.counts (h : env.AllOrdered points) (hsorts : Sorts env.toStdSort) :
    Counts env points := by
  intro x d hx hd
  have hweak := strictWeakOn_lexicalLt_iff.mpr h.noneBeside
  obtain ⟨c, hc, heq⟩ := exists_mem_insert env.lexicalLt x d
  have hequivalent : Equivalent env.lexicalLt c d := by
    cases heq with
    | inl heq =>
        rw [heq]
        exact ⟨hweak.irrefl hd, hweak.irrefl hd⟩
    | inr heq => exact heq
  have hat : ∀ c ∈ VecSet.insert env.lexicalLt x d, At points c := at_insert hx.at hd
  obtain ⟨y, hy, hyd⟩ := exists_findGeq hweak hat hd
    (sorted_insert hweak hx.at hd (hx.sorted hsorts hweak)) hc hequivalent
  have heq : y = d := eq_of_equivalent_of_allOrdered h (hat y (List.mem_of_getElem? hy)) hd hyd
  simp [VecSet.count, VecSet.find, hy, heq]

/-- A disjunct on another branch is neither inserted nor counted. -/
theorem count_insert_of_not_ordered {i j : Location} (h : ¬ env.Ordered i j) :
    VecSet.count env.lexicalLt (VecSet.insert env.lexicalLt [⟨[], some i⟩] ⟨[], some j⟩)
      ⟨[], some j⟩ = 0 := by
  obtain ⟨hij, hji⟩ := equivalent_of_not_ordered h
  have hfound : findGeq env.lexicalLt [⟨[], some i⟩] ⟨[], some j⟩ = 0 := by
    simp [findGeq, findGeqBetween, hij, hji]
  have hne : i ≠ j := fun heq => h (.inl heq)
  have hinsert : VecSet.insert env.lexicalLt [⟨[], some i⟩] ⟨[], some j⟩ = [⟨[], some i⟩] := by
    simp [VecSet.insert, hfound, hji]
  rw [hinsert]
  simp [VecSet.count, VecSet.find, hfound, hne]

/-- The comparator is a strict weak order, and the sets of disjuncts are sorted and allow erasing,
exactly if no point is beside two ordered ones. What is inserted is counted exactly if all points
are ordered. -/
theorem lexicalCompare_iff (hsorts : Sorts env.toStdSort) (points : Location → Prop) :
    (StrictWeakOn (At points) env.lexicalLt ∧ KeepsSorted env points ↔
      env.NoneBeside points) ∧
    (StrictWeakOn (At points) env.lexicalLt ∧ KeepsSorted env points ∧ Counts env points ↔
      env.AllOrdered points) := by
  constructor
  · constructor
    · exact fun h => strictWeakOn_lexicalLt_iff.mp h.1
    · intro h
      have hweak := strictWeakOn_lexicalLt_iff.mpr h
      exact ⟨hweak, keepsSorted_of_strictWeakOn hweak hsorts⟩
  · constructor
    · intro h i j hi hj
      by_contra hordered
      have hcount := h.2.2 _ ⟨[], some j⟩ (.single (at_point hi)) (at_point hj)
      rw [count_insert_of_not_ordered hordered] at hcount
      cases hcount
    · intro h
      have hweak := strictWeakOn_lexicalLt_iff.mpr h.noneBeside
      exact ⟨hweak, keepsSorted_of_strictWeakOn hweak hsorts, h.counts hsorts⟩

/-! ### A loop with two branches -/

theorem pairwise_orderedInsert {lt : ConjunctionLoc → ConjunctionLoc → Bool}
    {S : ConjunctionLoc → Prop} (h : StrictWeakOn S lt) (hd : S d) (hx : ∀ c ∈ x, S c)
    (hsorted : x.Pairwise fun a b => lt b a = false) :
    (x.orderedInsert (fun a b => lt b a = false) d).Pairwise fun a b => lt b a = false := by
  induction x with
  | nil => exact List.pairwise_singleton _ _
  | cons c x ih =>
      obtain ⟨hc, hsorted⟩ := List.pairwise_cons.mp hsorted
      obtain ⟨hSc, hSx⟩ := List.forall_mem_cons.mp hx
      rw [List.orderedInsert_cons]
      split
      · rename_i hcd
        apply List.pairwise_cons.mpr
        refine ⟨?_, List.pairwise_cons.mpr ⟨hc, hsorted⟩⟩
        intro b hb
        cases List.mem_cons.mp hb with
        | inl heq => exact heq ▸ hcd
        | inr hb => exact h.not_lt_trans (hSx b hb) hSc hd (hc b hb) hcd
      · rename_i hcd
        apply List.pairwise_cons.mpr
        refine ⟨?_, ih hSx hsorted⟩
        intro b hb
        cases List.mem_cons.mp ((List.perm_orderedInsert _ d x).mem_iff.mp hb) with
        | inl heq => exact heq ▸ h.asymm hSc hd (by simpa using hcd)
        | inr hb => exact hc b hb

/-- The blocks 1 and 2 are on two branches between the blocks 0 and 3. -/
def diamond : Env where
  predecessors
    | 1 => [0]
    | 2 => [0]
    | 3 => [1, 2]
    | _ => []
  sort lt vec := vec.insertionSort fun a b => lt b a = false
  perm _ vec := List.perm_insertionSort _ vec
  constant _ := none

theorem diamond_sorts : Sorts diamond.toStdSort := by
  intro lt vec h
  have hsorted : ∀ x : Disjunction, (∀ d ∈ x, d ∈ vec) →
      (x.insertionSort fun a b => lt b a = false).Pairwise fun a b => lt b a = false := by
    intro x hx
    induction x with
    | nil => exact List.Pairwise.nil
    | cons d x ih =>
        obtain ⟨hd, hx⟩ := List.forall_mem_cons.mp hx
        refine pairwise_orderedInsert h hd ?_ (ih hx)
        intro c hc
        exact hx c ((List.perm_insertionSort _ x).mem_iff.mp hc)
  exact hsorted vec fun d hd => hd

theorem lexicalCompare_iff_diamond :
    (StrictWeakOn (At fun i => i.block = 0) diamond.lexicalLt ∧
      KeepsSorted diamond (fun i => i.block = 0) ↔
        diamond.NoneBeside fun i => i.block = 0) ∧
    (StrictWeakOn (At fun i => i.block = 0) diamond.lexicalLt ∧
      KeepsSorted diamond (fun i => i.block = 0) ∧ Counts diamond (fun i => i.block = 0) ↔
        diamond.AllOrdered fun i => i.block = 0) :=
  lexicalCompare_iff diamond_sorts fun i => i.block = 0

/-- Two instructions on one branch and one on the other. -/
theorem not_strictWeakOn_diamond :
    ¬ StrictWeakOn (At fun i => i.block = 1 ∨ i.block = 2) diamond.lexicalLt := by
  intro h
  have hbeside := h.equivalent_trans (at_point (.inl rfl : (⟨1, 0⟩ : Location).block = 1 ∨ _))
    (at_point (.inr rfl : _ ∨ (⟨2, 0⟩ : Location).block = 2))
    (at_point (.inl rfl : (⟨1, 1⟩ : Location).block = 1 ∨ _)) ⟨rfl, rfl⟩ ⟨rfl, rfl⟩
  exact absurd hbeside.2 (by decide)

end Nidhugg.LoopPurity
