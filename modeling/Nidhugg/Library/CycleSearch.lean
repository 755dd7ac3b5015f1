import Mathlib.Algebra.Order.BigOperators.Group.Finset
import Mathlib.Data.List.TakeWhile

/-! # Searching for cycles with an explicit stack

A depth-first search keeps the vertices that wait on a stack, with repetitions, and two marks for
each vertex: it has been visited, and everything below it is done. An edge to a visited vertex that
is not done closes a cycle. The search marks a vertex as visited either before or after it looks at
the successors. In the second case it overlooks the edges from a vertex to itself. -/

namespace CycleSearch

open Relation

variable {α : Type*}

/-- The top of the stack comes first. -/
structure Search (α : Type*) where
  stack : List α
  visited : α → Bool
  done : α → Bool

inductive Outcome (α : Type*) where
  | cycle
  | finished (s : Search α)

def Outcome.acyclic : Outcome α → Bool
  | .cycle => false
  | .finished _ => true

/-! ### The search -/

/-- A vertex is open while it is visited and not done. -/
def Search.isOpen (s : Search α) (x : α) : Bool := s.visited x && !s.done x

/-- Puts a vertex on the stack, unless it is visited and not done. -/
def enter (s : Search α) (x : α) : Option (Search α) :=
  if s.isOpen x then none else some { s with stack := x :: s.stack }

theorem foldlM_enter (xs : List α) (s : Search α) :
    xs.foldlM enter s =
      if xs.any s.isOpen then none else some { s with stack := xs.reverse ++ s.stack } := by
  induction xs generalizing s with
  | nil => rfl
  | cons x xs ih =>
      rw [List.foldlM_cons, enter]
      cases hopen : s.isOpen x with
      | true =>
          simp [hopen]
      | false =>
          have hany : xs.any ({ s with stack := x :: s.stack } : Search α).isOpen = xs.any s.isOpen := rfl
          simp only [Bool.false_eq_true, if_false, Option.bind_eq_bind, Option.bind_some, ih, hany,
            List.any_cons, hopen, Bool.false_or, List.reverse_cons, List.append_assoc,
            List.singleton_append]

variable [DecidableEq α]

def Search.mark (s : Search α) (x : α) : Search α :=
  { s with visited := Function.update s.visited x true }

/-- Enters the successors of the vertex on top of the stack. -/
def expand (markFirst : Bool) (succ : α → List α) (s : Search α) (x : α) : Option (Search α) :=
  if markFirst then (succ x).foldlM enter (s.mark x)
  else ((succ x).foldlM enter s).map (·.mark x)

/-- Works off the stack. The fuel bounds the number of turns. -/
def explore (markFirst : Bool) (succ : α → List α) : ℕ → Search α → Option (Outcome α)
  | 0, _ => none
  | fuel + 1, s =>
      match s.stack with
      | [] => some (.finished s)
      | x :: stack =>
          if s.visited x then
            explore markFirst succ fuel
              { s with stack := stack, done := Function.update s.done x true }
          else
            match expand markFirst succ s x with
            | none => some .cycle
            | some s' => explore markFirst succ fuel s'

/-- Starts from each vertex that is not done. -/
def exploreAll (markFirst : Bool) (succ : α → List α) (fuel : ℕ) :
    List α → Search α → Option (Outcome α)
  | [], s => some (.finished s)
  | r :: rs, s =>
      if s.done r then exploreAll markFirst succ fuel rs s
      else
        match explore markFirst succ fuel { s with stack := r :: s.stack } with
        | some (.finished s') => exploreAll markFirst succ fuel rs s'
        | outcome => outcome

/-- A search that has not visited anything. -/
def Search.start (stack : List α) : Search α := ⟨stack, fun _ => false, fun _ => false⟩

/-! ### One turn -/

variable {markFirst : Bool} {succ : α → List α} {s s' : Search α}

/-- The vertices that count as open while the successors of `x` are entered. -/
def closes (markFirst : Bool) (s : Search α) (x y : α) : Bool :=
  if markFirst then (s.mark x).isOpen y else s.isOpen y

theorem expand_eq (x : α) : expand markFirst succ s x =
    if (succ x).any (closes markFirst s x) then none
    else some { s.mark x with stack := (succ x).reverse ++ s.stack } := by
  cases markFirst with
  | true =>
      rw [expand, if_pos rfl, foldlM_enter]
      rfl
  | false =>
      rw [expand, if_neg (by simp), foldlM_enter]
      have hcloses : closes false s x = s.isOpen := rfl
      rw [hcloses]
      split <;> rfl

/-! ### Open vertices and the stack above them -/

/-- The edges that the search notices. -/
def Edge (markFirst : Bool) (succ : α → List α) (x y : α) : Prop :=
  y ∈ succ x ∧ (markFirst = true ∨ y ≠ x)

/-- The part of a stack above the topmost place of `x`. -/
def above (x : α) (stack : List α) : List α := stack.takeWhile (· ≠ x)

theorem above_cons_self (x : α) (stack : List α) : above x (x :: stack) = [] := by
  simp [above]

theorem above_cons_of_ne {x z : α} (h : x ≠ z) (stack : List α) :
    above z (x :: stack) = x :: above z stack := by
  simp [above, h]

theorem above_append_of_notMem {z : α} {pushed : List α} (h : z ∉ pushed) (stack : List α) :
    above z (pushed ++ stack) = pushed ++ above z stack := by
  apply List.takeWhile_append_of_pos
  intro y hy
  simp only [decide_eq_true_eq]
  exact fun heq => h (heq ▸ hy)

/-- Above the first place of `x` are pushed vertices other than `x`. -/
theorem mem_pushed_of_mem_above {x y : α} {pushed stack : List α}
    (h : y ∈ above x (pushed ++ x :: stack)) : y ∈ pushed ∧ y ≠ x := by
  have hne : y ≠ x := by simpa using List.mem_takeWhile_imp h
  refine ⟨?_, hne⟩
  induction pushed with
  | nil => simp [above_cons_self] at h
  | cons z pushed ih =>
      by_cases hz : z = x
      · subst hz
        rw [List.cons_append, above_cons_self] at h
        cases h
      · rw [List.cons_append, above_cons_of_ne hz] at h
        rcases List.mem_cons.mp h with rfl | h
        · exact List.mem_cons_self
        · exact List.mem_cons_of_mem z (ih h)

/-- Open vertices are on the stack, and what is above an open vertex can be reached from it. -/
structure Path (markFirst : Bool) (succ : α → List α) (s : Search α) : Prop where
  mem_stack : ∀ x, s.isOpen x = true → x ∈ s.stack
  reaches : ∀ x y, s.isOpen x = true → y ∈ above x s.stack → TransGen (Edge markFirst succ) x y

theorem isOpen_pop {x y : α} {stack : List α} :
    ({ s with stack := stack, done := Function.update s.done x true } : Search α).isOpen y = true ↔
      s.isOpen y = true ∧ y ≠ x := by
  by_cases h : y = x
  · subst h
    simp [Search.isOpen]
  · simp [Search.isOpen, h]

theorem isOpen_push {x y : α} {stack : List α} :
    ({ s.mark x with stack := stack } : Search α).isOpen y = true →
      y = x ∨ (s.isOpen y = true ∧ y ≠ x) := by
  intro h
  by_cases hxy : y = x
  · exact .inl hxy
  · right
    simpa [Search.isOpen, Search.mark, hxy] using h

/-- The vertex on top of the stack is reached from every other open vertex. -/
theorem Path.reaches_top {x y : α} {stack : List α} (h : Path markFirst succ s)
    (hs : s.stack = x :: stack) (hy : s.isOpen y = true) (hne : y ≠ x) :
    TransGen (Edge markFirst succ) y x := by
  apply h.reaches y x hy
  rw [hs, above_cons_of_ne hne.symm]
  exact List.mem_cons_self

theorem Path.pop {x : α} {stack : List α} (h : Path markFirst succ s) (hs : s.stack = x :: stack) :
    Path markFirst succ { s with stack := stack, done := Function.update s.done x true } := by
  refine ⟨fun y hy => ?_, fun y z hy hz => ?_⟩
  · obtain ⟨hopen, hne⟩ := isOpen_pop.mp hy
    have hmem := h.mem_stack y hopen
    rw [hs] at hmem
    exact (List.mem_cons.mp hmem).resolve_left hne
  · obtain ⟨hopen, hne⟩ := isOpen_pop.mp hy
    apply h.reaches y z hopen
    rw [hs, above_cons_of_ne hne.symm]
    exact List.mem_cons_of_mem x hz

/-- No successor is open when all of them have been entered. -/
theorem notMem_succ {x y : α} (hclosed : (succ x).any (closes markFirst s x) = false)
    (hy : s.isOpen y = true) (hne : y ≠ x) : y ∉ succ x := by
  intro hmem
  rw [List.any_eq_false] at hclosed
  apply hclosed y hmem
  cases markFirst with
  | true => simpa [closes, Search.isOpen, Search.mark, hne] using hy
  | false => exact hy

theorem notMem_succ_self {x : α} (hclosed : (succ x).any (closes true s x) = false)
    (hdone : s.done x = false) : x ∉ succ x := by
  intro hmem
  rw [List.any_eq_false] at hclosed
  apply hclosed x hmem
  simp [closes, Search.isOpen, Search.mark, hdone]

theorem Path.push {x : α} {stack : List α} (h : Path markFirst succ s) (hs : s.stack = x :: stack)
    (hclosed : (succ x).any (closes markFirst s x) = false) :
    Path markFirst succ { s.mark x with stack := (succ x).reverse ++ s.stack } := by
  refine ⟨fun y hy => ?_, fun y z hy hz => ?_⟩
  · apply List.mem_append_right
    rcases isOpen_push hy with rfl | ⟨hopen, -⟩
    · rw [hs]
      exact List.mem_cons_self
    · exact h.mem_stack y hopen
  · rcases isOpen_push hy with rfl | ⟨hopen, hne⟩
    · -- above the vertex itself are its successors
      simp only [hs] at hz
      obtain ⟨hmem, hzy⟩ := mem_pushed_of_mem_above hz
      exact .single ⟨List.mem_reverse.mp hmem, .inr hzy⟩
    · have hnotMem : y ∉ (succ x).reverse := by
        rw [List.mem_reverse]
        exact notMem_succ hclosed hopen hne
      simp only [above_append_of_notMem hnotMem] at hz
      rcases List.mem_append.mp hz with hz | hz
      · have htop := h.reaches_top hs hopen hne
        by_cases hzx : z = x
        · exact hzx ▸ htop
        · exact htop.tail ⟨List.mem_reverse.mp hz, .inr hzx⟩
      · exact h.reaches y z hopen hz

/-- An open successor closes a cycle. -/
theorem Path.cycle {x : α} {stack : List α} (h : Path markFirst succ s) (hs : s.stack = x :: stack)
    (hvisited : s.visited x = false) (hclosed : (succ x).any (closes markFirst s x) = true) :
    ∃ y, TransGen (Edge markFirst succ) y y := by
  obtain ⟨y, hy, hcloses⟩ := List.any_eq_true.mp hclosed
  by_cases hyx : y = x
  · subst hyx
    cases markFirst with
    | true => exact ⟨y, .single ⟨hy, .inl rfl⟩⟩
    | false => simp [closes, Search.isOpen, hvisited] at hcloses
  · have hopen : s.isOpen y = true := by
      cases markFirst with
      | true => simpa [closes, Search.isOpen, Search.mark, hyx] using hcloses
      | false => exact hcloses
    exact ⟨y, (h.reaches_top hs hopen hyx).tail ⟨hy, .inr hyx⟩⟩

/-! ### What is done -/

/-- Below a vertex that is done there is no infinite path. The successors of an open vertex are done
or wait above it. -/
structure Below (succ : α → List α) (s : Search α) : Prop where
  acc : ∀ x, s.done x = true → Acc (fun y x => y ∈ succ x) x
  waits : ∀ x y, s.isOpen x = true → y ∈ succ x → s.done y = true ∨ y ∈ above x s.stack

theorem Below.pop {x : α} {stack : List α} (h : Below succ s) (hs : s.stack = x :: stack)
    (hvisited : s.visited x = true) :
    Below succ { s with stack := stack, done := Function.update s.done x true } := by
  refine ⟨fun y hy => ?_, fun y z hy hz => ?_⟩
  · by_cases hyx : y = x
    · subst hyx
      cases hdone : s.done y with
      | true => exact h.acc y hdone
      | false =>
          -- nothing waits above the top of the stack
          refine .intro y fun z hz => ?_
          have hwaits := h.waits y z (by simp [Search.isOpen, hvisited, hdone]) hz
          rw [hs, above_cons_self] at hwaits
          exact h.acc z (hwaits.resolve_right (List.not_mem_nil))
    · simp only [Function.update_of_ne hyx] at hy
      exact h.acc y hy
  · obtain ⟨hopen, hne⟩ := isOpen_pop.mp hy
    have hwaits := h.waits y z hopen hz
    rw [hs, above_cons_of_ne hne.symm] at hwaits
    by_cases hzx : z = x
    · subst hzx
      left
      simp
    · simp only [Function.update_of_ne hzx]
      exact hwaits.imp_right fun hmem => (List.mem_cons.mp hmem).resolve_left hzx

theorem Below.push {x : α} {stack : List α} (h : Below succ s) (hs : s.stack = x :: stack)
    (hself : x ∉ succ x) (hclosed : (succ x).any (closes markFirst s x) = false) :
    Below succ { s.mark x with stack := (succ x).reverse ++ s.stack } := by
  refine ⟨h.acc, fun y z hy hz => ?_⟩
  rcases isOpen_push hy with rfl | ⟨hopen, hne⟩
  · right
    have hnotMem : y ∉ (succ y).reverse := by rwa [List.mem_reverse]
    simp only [above_append_of_notMem hnotMem]
    exact List.mem_append_left _ (List.mem_reverse.mpr hz)
  · have hnotMem : y ∉ (succ x).reverse := by
      rw [List.mem_reverse]
      exact notMem_succ hclosed hopen hne
    simp only [above_append_of_notMem hnotMem]
    exact (h.waits y z hopen hz).imp_right (List.mem_append_right _)

/-! ### The whole search -/

/-- What each turn keeps. Vertices that are done are understood only if no edge is overlooked. -/
structure Invariant (markFirst : Bool) (succ : α → List α) (s : Search α) : Prop where
  visited : ∀ x, s.done x = true → s.visited x = true
  path : Path markFirst succ s
  below : (markFirst = true ∨ ∀ x, x ∉ succ x) → Below succ s

theorem Invariant.start (stack : List α) : Invariant markFirst succ (.start stack) := by
  refine ⟨?_, ⟨?_, ?_⟩, fun _ => ⟨?_, ?_⟩⟩ <;> simp [Search.start, Search.isOpen]

theorem Invariant.pop {x : α} {stack : List α} (h : Invariant markFirst succ s)
    (hs : s.stack = x :: stack) (hvisited : s.visited x = true) :
    Invariant markFirst succ
      { s with stack := stack, done := Function.update s.done x true } := by
  refine ⟨fun y hy => ?_, h.path.pop hs, fun hloops => (h.below hloops).pop hs hvisited⟩
  by_cases hyx : y = x
  · exact hyx ▸ hvisited
  · simp only [Function.update_of_ne hyx] at hy
    exact h.visited y hy

theorem Invariant.push {x : α} {stack : List α} (h : Invariant markFirst succ s)
    (hs : s.stack = x :: stack) (hvisited : s.visited x = false)
    (hclosed : (succ x).any (closes markFirst s x) = false) :
    Invariant markFirst succ { s.mark x with stack := (succ x).reverse ++ s.stack } := by
  refine ⟨fun y hy => ?_, h.path.push hs hclosed, fun hloops => ?_⟩
  · by_cases hyx : y = x
    · simp [Search.mark, hyx]
    · simpa [Search.mark, hyx] using h.visited y hy
  · apply (h.below hloops).push hs _ hclosed
    cases hloops with
    | inl hfirst =>
        subst hfirst
        apply notMem_succ_self hclosed
        rw [Bool.eq_false_iff]
        intro hdone
        rw [h.visited x hdone] at hvisited
        cases hvisited
    | inr hloops => exact hloops x

/-- Every vertex that has been on the stack is visited in the end. -/
structure Finishes (markFirst : Bool) (succ : α → List α) (s s' : Search α) : Prop where
  invariant : Invariant markFirst succ s'
  stack : s'.stack = []
  visited : ∀ x, x ∈ s.stack ∨ s.visited x = true → s'.visited x = true

/-- What an outcome says about the graph. -/
def Correct (markFirst : Bool) (succ : α → List α) (s : Search α) : Outcome α → Prop
  | .cycle => ∃ x, TransGen (Edge markFirst succ) x x
  | .finished s' => Finishes markFirst succ s s'

theorem Correct.mono {t : Search α} {outcome : Outcome α} (h : Correct markFirst succ t outcome)
    (hst : ∀ x, x ∈ s.stack ∨ s.visited x = true → x ∈ t.stack ∨ t.visited x = true) :
    Correct markFirst succ s outcome := by
  cases outcome with
  | cycle => exact h
  | finished s' => exact ⟨h.invariant, h.stack, fun x hx => h.visited x (hst x hx)⟩

theorem explore_correct {fuel : ℕ} {outcome : Outcome α} (h : Invariant markFirst succ s)
    (hrun : explore markFirst succ fuel s = some outcome) : Correct markFirst succ s outcome := by
  induction fuel generalizing s with
  | zero => cases hrun
  | succ fuel ih =>
      rw [explore] at hrun
      cases hs : s.stack with
      | nil =>
          simp only [hs] at hrun
          cases hrun
          refine ⟨h, hs, fun x hx => hx.resolve_left ?_⟩
          rw [hs]
          exact List.not_mem_nil
      | cons x stack =>
          simp only [hs] at hrun
          cases hvisited : s.visited x with
          | true =>
              rw [if_pos hvisited] at hrun
              apply (ih (h.pop hs hvisited) hrun).mono
              intro y hy
              rw [hs] at hy
              rcases hy with hy | hy
              · rcases List.mem_cons.mp hy with rfl | hy
                · exact .inr hvisited
                · exact .inl hy
              · exact .inr hy
          | false =>
              rw [if_neg (by simp [hvisited]), expand_eq] at hrun
              cases hclosed : (succ x).any (closes markFirst s x) with
              | true =>
                  simp only [hclosed, if_true] at hrun
                  cases hrun
                  exact h.path.cycle hs hvisited hclosed
              | false =>
                  simp only [hclosed, Bool.false_eq_true, if_false] at hrun
                  apply (ih (h.push hs hvisited hclosed) hrun).mono
                  intro y hy
                  refine hy.imp (List.mem_append_right _) fun hy => ?_
                  by_cases hyx : y = x
                  · simp [Search.mark, hyx]
                  · simpa [Search.mark, hyx] using hy

/-- With an empty stack no vertex is open, so any vertex may come next. -/
theorem Invariant.root (h : Invariant markFirst succ s) (hs : s.stack = []) (stack : List α) :
    Invariant markFirst succ { s with stack := stack } := by
  have hnone (x : α) : s.isOpen x = false := by
    rw [Bool.eq_false_iff]
    intro hopen
    have hmem := h.path.mem_stack x hopen
    rw [hs] at hmem
    cases hmem
  refine ⟨h.visited, ⟨fun x hx => ?_, fun x y hx => ?_⟩, fun hloops =>
    ⟨(h.below hloops).acc, fun x y hx => ?_⟩⟩
  all_goals exact absurd ((hnone x).symm.trans hx) (by decide)

theorem exploreAll_correct {fuel : ℕ} {roots : List α} {outcome : Outcome α}
    (h : Invariant markFirst succ s) (hs : s.stack = [])
    (hrun : exploreAll markFirst succ fuel roots s = some outcome) :
    Correct markFirst succ { s with stack := roots } outcome := by
  induction roots generalizing s with
  | nil =>
      cases hrun
      exact ⟨h, hs, fun x hx => hx.resolve_left List.not_mem_nil⟩
  | cons r roots ih =>
      rw [exploreAll] at hrun
      cases hdone : s.done r with
      | true =>
          rw [if_pos hdone] at hrun
          apply (ih h hs hrun).mono
          intro x hx
          rcases hx with hx | hx
          · rcases List.mem_cons.mp hx with rfl | hx
            · exact .inr (h.visited x hdone)
            · exact .inl hx
          · exact .inr hx
      | false =>
          rw [if_neg (by simp [hdone]), hs] at hrun
          cases hroot : explore markFirst succ fuel { s with stack := [r] } with
          | none =>
              rw [hroot] at hrun
              cases hrun
          | some result =>
              have hcorrect := explore_correct (h.root hs [r]) hroot
              rw [hroot] at hrun
              cases result with
              | cycle =>
                  cases hrun
                  exact hcorrect
              | finished s' =>
                  apply (ih hcorrect.invariant hcorrect.stack hrun).mono
                  intro x hx
                  rcases hx with hx | hx
                  · rcases List.mem_cons.mp hx with rfl | hx
                    · exact .inr (hcorrect.visited x (.inl List.mem_cons_self))
                    · exact .inl hx
                  · exact .inr (hcorrect.visited x (.inr hx))

/-! ### Termination -/

/-- The vertices on the stack and the edges that are left. -/
def work (succ : α → List α) (univ : Finset α) (s : Search α) : ℕ :=
  s.stack.length + ∑ x ∈ univ with s.visited x = false, ((succ x).length + 1)

/-- A visit pushes fewer vertices than it uses up edges. -/
theorem work_push {univ : Finset α} {x : α} (hx : x ∈ univ) (hvisited : s.visited x = false) :
    work succ univ { s.mark x with stack := (succ x).reverse ++ s.stack } < work succ univ s := by
  have hfilter : (univ.filter fun y => (s.mark x).visited y = false) =
      (univ.filter fun y => s.visited y = false).erase x := by
    ext y
    rw [Finset.mem_filter, Finset.mem_erase, Finset.mem_filter]
    by_cases hyx : y = x
    · simp [hyx, Search.mark]
    · simp [hyx, Search.mark]
  have hmem : x ∈ univ.filter fun y => s.visited y = false :=
    Finset.mem_filter.mpr ⟨hx, hvisited⟩
  have hsum := Finset.add_sum_erase _ (fun y => (succ y).length + 1) hmem
  simp only [work, hfilter, List.length_append, List.length_reverse]
  omega

theorem isSome_explore {univ : Finset α} (huniv : ∀ x ∈ univ, ∀ y ∈ succ x, y ∈ univ) {fuel : ℕ}
    (hstack : ∀ x ∈ s.stack, x ∈ univ) (hfuel : work succ univ s < fuel) :
    (explore markFirst succ fuel s).isSome = true := by
  induction fuel generalizing s with
  | zero => exact absurd hfuel (Nat.not_lt_zero _)
  | succ fuel ih =>
      rw [explore]
      cases hs : s.stack with
      | nil => rfl
      | cons x stack =>
          rw [hs] at hstack
          have hx := hstack x List.mem_cons_self
          simp only
          cases hvisited : s.visited x with
          | true =>
              rw [if_pos rfl]
              apply ih
              · exact fun y hy => hstack y (List.mem_cons_of_mem x hy)
              · simp only [work, hs, List.length_cons] at hfuel ⊢
                omega
          | false =>
              rw [if_neg (by simp), expand_eq]
              cases (succ x).any (closes markFirst s x) with
              | true => rfl
              | false =>
                  simp only [Bool.false_eq_true, if_false]
                  apply ih
                  · intro y hy
                    simp only [hs] at hy
                    rcases List.mem_append.mp hy with hy | hy
                    · exact huniv x hx y (List.mem_reverse.mp hy)
                    · exact hstack y hy
                  · exact (work_push hx hvisited).trans_le (Nat.le_of_lt_succ hfuel)

omit [DecidableEq α] in
/-- The work is never more than that of a search that has not visited anything. -/
theorem work_le (univ : Finset α) (s : Search α) :
    work succ univ s ≤ s.stack.length + ∑ x ∈ univ, ((succ x).length + 1) := by
  apply Nat.add_le_add_left
  exact Finset.sum_le_sum_of_subset (Finset.filter_subset _ _)

theorem isSome_exploreAll {univ : Finset α} (huniv : ∀ x ∈ univ, ∀ y ∈ succ x, y ∈ univ)
    {fuel : ℕ} (hfuel : 1 + ∑ x ∈ univ, ((succ x).length + 1) < fuel) {roots : List α}
    (hroots : ∀ r ∈ roots, r ∈ univ) (h : Invariant markFirst succ s) (hs : s.stack = []) :
    (exploreAll markFirst succ fuel roots s).isSome = true := by
  induction roots generalizing s with
  | nil => rfl
  | cons r roots ih =>
      have hrest := fun x hx => hroots x (List.mem_cons_of_mem r hx)
      rw [exploreAll]
      split
      · exact ih hrest h hs
      · rw [hs]
        have hsome : (explore markFirst succ fuel { s with stack := [r] }).isSome = true := by
          apply isSome_explore huniv
          · intro x hx
            rw [List.mem_singleton.mp hx]
            exact hroots r List.mem_cons_self
          · exact (work_le univ _).trans_lt hfuel
        obtain ⟨result, hroot⟩ := Option.isSome_iff_exists.mp hsome
        have hcorrect := explore_correct (h.root hs [r]) hroot
        rw [hroot]
        cases result with
        | cycle => rfl
        | finished s' => exact ih hrest hcorrect.invariant hcorrect.stack

/-- With enough fuel the search ends, and its outcome is correct. -/
theorem explore_ends {univ : Finset α} (huniv : ∀ x ∈ univ, ∀ y ∈ succ x, y ∈ univ)
    {stack : List α} (hstack : ∀ x ∈ stack, x ∈ univ) : ∃ fuel, ∀ n, fuel ≤ n → ∃ outcome,
      explore markFirst succ n (.start stack) = some outcome ∧
        Correct markFirst succ (.start stack) outcome := by
  refine ⟨work succ univ (.start stack) + 1, fun n hn => ?_⟩
  have hsome : (explore markFirst succ n (.start stack)).isSome = true :=
    isSome_explore huniv hstack hn
  obtain ⟨outcome, houtcome⟩ := Option.isSome_iff_exists.mp hsome
  exact ⟨outcome, houtcome, explore_correct (.start stack) houtcome⟩

theorem exploreAll_ends {univ : Finset α} (huniv : ∀ x ∈ univ, ∀ y ∈ succ x, y ∈ univ)
    {roots : List α} (hroots : ∀ r ∈ roots, r ∈ univ) : ∃ fuel, ∀ n, fuel ≤ n → ∃ outcome,
      exploreAll markFirst succ n roots (.start []) = some outcome ∧
        Correct markFirst succ (.start roots) outcome := by
  have hstart : Invariant markFirst succ (.start []) := .start []
  refine ⟨1 + ∑ x ∈ univ, ((succ x).length + 1) + 1, fun n hn => ?_⟩
  have hsome := isSome_exploreAll huniv hn hroots hstart rfl
  obtain ⟨outcome, houtcome⟩ := Option.isSome_iff_exists.mp hsome
  exact ⟨outcome, houtcome, exploreAll_correct hstart rfl houtcome⟩

/-! ### The verdict -/

/-- There is no cycle, self-loops included. -/
def Acyclic (r : α → α → Prop) : Prop := ∀ x, ¬ TransGen r x x

omit [DecidableEq α] in
/-- No cycle passes a vertex below which there is no infinite path. -/
theorem not_cycle_of_acc {r : α → α → Prop} {x : α} (h : Acc (Function.swap r) x) :
    ¬ TransGen r x x := by
  have hacc := h.transGen
  induction hacc with
  | intro x _ ih =>
      intro hcycle
      exact ih x (transGen_swap.mpr hcycle) h hcycle

omit [DecidableEq α] in
/-- A path takes old edges only, or leads over a new one. -/
theorem transGen_or_new {r old : α → α → Prop} {x y : α} (h : TransGen r x y) :
    TransGen old x y ∨ ∃ a b, ReflTransGen r x a ∧ r a b ∧ ¬ old a b ∧ ReflTransGen r b y := by
  induction h with
  | @single y hxy =>
      by_cases hold : old x y
      · exact .inl (.single hold)
      · exact .inr ⟨x, y, .refl, hxy, hold, .refl⟩
  | @tail y z hxy hyz ih =>
      rcases ih with hpath | ⟨a, b, hxa, hab, hnew, hby⟩
      · by_cases hold : old y z
        · exact .inl (hpath.tail hold)
        · exact .inr ⟨y, z, hxy.to_reflTransGen, hyz, hold, .refl⟩
      · exact .inr ⟨a, b, hxa, hab, hnew, hby.tail hyz⟩

omit [DecidableEq α] in
/-- If the old edges have no cycle and every new edge touches a root, then every cycle leads to a
cycle through a root. -/
theorem cycle_through_root {r old : α → α → Prop} {roots : List α} (hold : Acyclic old)
    (hnew : ∀ a b, r a b → ¬ old a b → a ∈ roots ∨ b ∈ roots) {x : α} (hx : TransGen r x x) :
    ∃ v ∈ roots, TransGen r v v := by
  have hpath : TransGen old x x ∨ _ := transGen_or_new hx
  rcases hpath with hcycle | ⟨a, b, hxa, hab, hfresh, hbx⟩
  · exact absurd hcycle (hold x)
  · have hba : ReflTransGen r b a := hbx.trans hxa
    rcases hnew a b hab hfresh with ha | hb
    · exact ⟨a, ha, .head' hab hba⟩
    · exact ⟨b, hb, .tail' hba hab⟩

/-- The search decides whether there is a cycle, if it notices all edges and every cycle leads to a
cycle through a vertex on the stack. -/
theorem Correct.acyclic_iff {outcome : Outcome α} (h : Correct markFirst succ s outcome)
    (hloops : markFirst = true ∨ ∀ x, x ∉ succ x)
    (hroots : ∀ x, TransGen (fun x y => y ∈ succ x) x x →
      ∃ r ∈ s.stack, TransGen (fun x y => y ∈ succ x) r r) :
    outcome.acyclic = true ↔ Acyclic fun x y => y ∈ succ x := by
  cases outcome with
  | cycle =>
      obtain ⟨x, hx⟩ := h
      simp only [Outcome.acyclic, Bool.false_eq_true, false_iff]
      exact fun hacyclic => hacyclic x (TransGen.mono (fun _ _ hedge => hedge.1) _ _ hx)
  | finished s' =>
      simp only [Outcome.acyclic, true_iff]
      intro x hx
      obtain ⟨r, hr, hcycle⟩ := hroots x hx
      -- nothing is open any more, so the root is done
      have hdone : s'.done r = true := by
        have hvisited := h.visited r (.inl hr)
        cases hdone : s'.done r with
        | true => rfl
        | false =>
            have hmem := h.invariant.path.mem_stack r (by simp [Search.isOpen, hvisited, hdone])
            rw [h.stack] at hmem
            cases hmem
      exact not_cycle_of_acc ((h.invariant.below hloops).acc r hdone) hcycle

/-- Without a longer cycle the search does not report one. -/
theorem Correct.acyclic_of_acyclic {outcome : Outcome α} (h : Correct markFirst succ s outcome)
    (hacyclic : Acyclic (Edge markFirst succ)) : outcome.acyclic = true := by
  cases outcome with
  | cycle =>
      obtain ⟨x, hx⟩ := h
      exact absurd hx (hacyclic x)
  | finished s' => rfl

end CycleSearch
