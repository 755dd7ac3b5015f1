import Mathlib.Data.List.Nodup
import Mathlib.Order.Nat

/-! # Depth-first post-order

A depth-first walk that marks a vertex when it is entered and emits it when all of its
successors have been visited. -/

namespace PostOrder

open Relation

variable {α : Type*}

/-- The vertices entered so far and the vertices emitted so far. -/
structure Walk (α : Type*) where
  marked : List α
  order : List α

def Walk.start : Walk α := ⟨[], []⟩

/-- Visits `x` and everything below it that is not marked yet. The fuel bounds the
depth of the recursion. -/
def visit [DecidableEq α] (succ : α → List α) : ℕ → Walk α → α → Walk α
  | 0, s, _ => s
  | fuel + 1, s, x =>
      if x ∈ s.marked then s
      else
        let s' := (succ x).foldl (visit succ fuel) { s with marked := x :: s.marked }
        { s' with order := s'.order ++ [x] }

/-- Visits a list of roots one after another. -/
def visitAll [DecidableEq α] (succ : α → List α) (fuel : ℕ) (s : Walk α) (roots : List α) : Walk α :=
  roots.foldl (visit succ fuel) s

/-! ## Walks -/

/-- The edges of the graph. -/
def Step (succ : α → List α) (a b : α) : Prop := b ∈ succ a

instance [DecidableEq α] (succ : α → List α) (a b : α) : Decidable (Step succ a b) :=
  inferInstanceAs (Decidable (b ∈ succ a))

/-- The edges along which the order descends: the successor has been emitted first. -/
def Descends (succ : α → List α) (order : List α) (a b : α) : Prop :=
  b ∈ succ a ∧ ∃ l₁ l₂, order = l₁ ++ a :: l₂ ∧ b ∈ l₁

theorem Descends.append {succ : α → List α} {order : List α} {a b : α}
    (h : Descends succ order a b) (rest : List α) : Descends succ (order ++ rest) a b := by
  obtain ⟨hstep, l₁, l₂, rfl, hb⟩ := h
  exact ⟨hstep, l₁, l₂ ++ rest, by simp, hb⟩

/-- A walk inside `univ`. A successor of an emitted vertex has been emitted before it,
unless it leads back to the vertex. -/
structure Valid (succ : α → List α) (univ : List α) (s : Walk α) : Prop where
  nodup : s.order.Nodup
  order_marked : ∀ y ∈ s.order, y ∈ s.marked
  marked_univ : ∀ y ∈ s.marked, y ∈ univ
  closed : ∀ y ∈ s.order, ∀ z ∈ succ y, z ∈ s.marked
  back : ∀ l₁ y l₂, s.order = l₁ ++ y :: l₂ → ∀ z ∈ succ y,
    z ∈ l₁ ∨ ReflTransGen (Step succ) z y

/-- The effect of a visit: the emitted vertices are new, reached from one of `tops` along
descending edges, and no vertex is left open that was not open before. -/
structure Visited (succ : α → List α) (univ : List α) (tops : List α) (s s' : Walk α) :
    Prop where
  valid : Valid succ univ s'
  marked_mono : ∀ y ∈ s.marked, y ∈ s'.marked
  tops_marked : ∀ x ∈ tops, x ∈ s'.marked
  appended : ∃ new, s'.order = s.order ++ new ∧ ∀ y ∈ new, y ∉ s.marked ∧
    ∃ x ∈ tops, ReflTransGen (Descends succ s'.order) x y
  open_iff : ∀ y, (y ∈ s'.marked ∧ y ∉ s'.order) ↔ (y ∈ s.marked ∧ y ∉ s.order)

theorem Visited.refl {succ : α → List α} {univ tops : List α} {s : Walk α}
    (h : Valid succ univ s) (htops : ∀ x ∈ tops, x ∈ s.marked) :
    Visited succ univ tops s s :=
  ⟨h, fun _ hy => hy, htops, ⟨[], by simp, by simp⟩, fun _ => Iff.rfl⟩

theorem Visited.trans {succ : α → List α} {univ tops tops' : List α} {s s' s'' : Walk α}
    (h : Visited succ univ tops s s') (h' : Visited succ univ tops' s' s'') :
    Visited succ univ (tops ++ tops') s s'' := by
  obtain ⟨new, hnew, hpath⟩ := h.appended
  obtain ⟨new', hnew', hpath'⟩ := h'.appended
  refine ⟨h'.valid, fun y hy => h'.marked_mono y (h.marked_mono y hy), ?_, ?_, ?_⟩
  · intro x hx
    rcases List.mem_append.mp hx with hx | hx
    · exact h'.marked_mono x (h.tops_marked x hx)
    · exact h'.tops_marked x hx
  · refine ⟨new ++ new', by rw [hnew', hnew, List.append_assoc], fun y hy => ?_⟩
    rcases List.mem_append.mp hy with hy | hy
    · obtain ⟨hfresh, x, hx, hxy⟩ := hpath y hy
      refine ⟨hfresh, x, by simp [hx], ?_⟩
      refine ReflTransGen.mono (fun a b hab => ?_) _ _ hxy
      rw [hnew']
      exact hab.append new'
    · obtain ⟨hfresh, x, hx, hxy⟩ := hpath' y hy
      exact ⟨fun hy => hfresh (h.marked_mono y hy), x, by simp [hx], hxy⟩
  · exact fun y => (h'.open_iff y).trans (h.open_iff y)

section Spec

variable [DecidableEq α]

/-- The vertices that have not been entered yet. -/
def unmarked (univ : List α) (s : Walk α) : List α := univ.filter (· ∉ s.marked)

theorem unmarked_sublist (univ : List α) {s s' : Walk α}
    (h : ∀ y ∈ s.marked, y ∈ s'.marked) : (unmarked univ s').Sublist (unmarked univ s) := by
  refine List.monotone_filter_right univ fun y hy => ?_
  simp only [decide_eq_true_eq] at hy ⊢
  exact fun hm => hy (h y hm)

theorem unmarked_enter {univ : List α} {s : Walk α} {x : α} (hx : x ∈ univ)
    (hs : x ∉ s.marked) :
    (unmarked univ { s with marked := x :: s.marked }).length < (unmarked univ s).length := by
  have hsub : (unmarked univ { s with marked := x :: s.marked }).Sublist (unmarked univ s) :=
    unmarked_sublist univ fun y hy => List.mem_cons_of_mem x hy
  refine lt_of_le_of_ne hsub.length_le fun hlen => ?_
  have heq := hsub.eq_of_length hlen
  have hmem : x ∈ unmarked univ s := by simp [unmarked, hx, hs]
  rw [← heq] at hmem
  simp [unmarked] at hmem

variable {succ : α → List α} {univ : List α}

/-- Emitting a vertex after all of its successors keeps the walk valid. -/
theorem Valid.emit {s : Walk α} (h : Valid succ univ s) {x : α} (hx : x ∈ s.marked)
    (hnot : x ∉ s.order) (hsucc : ∀ z ∈ succ x, z ∈ s.marked)
    (hopen : ∀ y ∈ s.marked, y ∉ s.order → ReflTransGen (Step succ) y x) :
    Valid succ univ { s with order := s.order ++ [x] } := by
  refine ⟨?_, ?_, h.marked_univ, ?_, ?_⟩
  · refine List.nodup_append.mpr ⟨h.nodup, by simp, fun a ha b hb hab => ?_⟩
    rw [List.mem_singleton.mp hb] at hab
    exact hnot (hab ▸ ha)
  · intro y hy
    rcases List.mem_append.mp hy with hy | hy
    · exact h.order_marked y hy
    · rw [List.mem_singleton.mp hy]
      exact hx
  · intro y hy z hz
    rcases List.mem_append.mp hy with hy | hy
    · exact h.closed y hy z hz
    · rw [List.mem_singleton.mp hy] at hz
      exact hsucc z hz
  · intro l₁ y l₂ hsplit z hz
    rcases List.eq_nil_or_concat l₂ with rfl | ⟨l₂', w, rfl⟩
    · -- the emitted vertex itself
      obtain ⟨rfl, hy⟩ := List.append_inj' hsplit rfl
      obtain rfl : x = y := by simpa using hy
      by_cases hzo : z ∈ s.order
      · exact .inl hzo
      · exact .inr (hopen z (hsucc z hz) hzo)
    · have hsplit' : s.order ++ [x] = (l₁ ++ y :: l₂') ++ [w] := by simpa using hsplit
      exact h.back l₁ y l₂' (List.append_inj' hsplit' rfl).1 z hz

/-- Visits of successors, one after another. -/
theorem foldl_visited {fuel : ℕ} (hvisit : ∀ (s : Walk α) (x : α), Valid succ univ s →
      x ∈ univ → (unmarked univ s).length < fuel →
      (∀ y ∈ s.marked, y ∉ s.order → ReflTransGen (Step succ) y x) →
      Visited succ univ [x] s (visit succ fuel s x)) (tops : List α) :
    ∀ s : Walk α, Valid succ univ s → (∀ x ∈ tops, x ∈ univ) →
      (unmarked univ s).length < fuel →
      (∀ x ∈ tops, ∀ y ∈ s.marked, y ∉ s.order → ReflTransGen (Step succ) y x) →
      Visited succ univ tops s (tops.foldl (visit succ fuel) s) := by
  induction tops with
  | nil =>
      intro s hs _ _ _
      exact .refl hs (by simp)
  | cons x tops ih =>
      intro s hs huniv hfuel hopen
      have hx := hvisit s x hs (huniv x (by simp)) hfuel (hopen x (by simp))
      have hlen := (unmarked_sublist univ hx.marked_mono).length_le
      refine hx.trans (ih _ hx.valid (fun y hy => huniv y (by simp [hy])) (by omega) ?_)
      intro z hz y hy hyo
      obtain ⟨hy', hyo'⟩ := (hx.open_iff y).mp ⟨hy, hyo⟩
      exact hopen z (by simp [hz]) y hy' hyo'

/-- A visit with enough fuel emits the vertex and everything new below it. -/
theorem visit_visited (huniv : ∀ y ∈ univ, ∀ z ∈ succ y, z ∈ univ) (fuel : ℕ) :
    ∀ (s : Walk α) (x : α), Valid succ univ s → x ∈ univ →
      (unmarked univ s).length < fuel →
      (∀ y ∈ s.marked, y ∉ s.order → ReflTransGen (Step succ) y x) →
      Visited succ univ [x] s (visit succ fuel s x) := by
  induction fuel with
  | zero => exact fun s x _ _ hfuel => absurd hfuel (Nat.not_lt_zero _)
  | succ fuel ih =>
      intro s x hs hx hfuel hopen
      by_cases hmem : x ∈ s.marked
      · have hrun : visit succ (fuel + 1) s x = s := by simp [visit, hmem]
        rw [hrun]
        exact .refl hs (by simpa using hmem)
      · set s₁ : Walk α := { s with marked := x :: s.marked } with hs₁
        have hvalid₁ : Valid succ univ s₁ := by
          refine ⟨hs.nodup, ?_, ?_, ?_, hs.back⟩
          · exact fun y hy => List.mem_cons_of_mem _ (hs.order_marked y hy)
          · intro y hy
            rcases List.mem_cons.mp hy with rfl | hy
            · exact hx
            · exact hs.marked_univ y hy
          · exact fun y hy z hz => List.mem_cons_of_mem _ (hs.closed y hy z hz)
        have hopen₁ : ∀ y ∈ s₁.marked, y ∉ s₁.order → ReflTransGen (Step succ) y x := by
          intro y hy hyo
          rcases List.mem_cons.mp hy with rfl | hy
          · exact .refl
          · exact hopen y hy hyo
        have hlen : (unmarked univ s₁).length < (unmarked univ s).length := unmarked_enter hx hmem
        have hsub := foldl_visited ih (succ x) s₁ hvalid₁ (huniv x hx) (by omega)
          fun z hz y hy hyo => (hopen₁ y hy hyo).tail hz
        set s₂ := (succ x).foldl (visit succ fuel) s₁ with hs₂
        have hrun : visit succ (fuel + 1) s x = { s₂ with order := s₂.order ++ [x] } := by
          simp [visit, hmem, hs₁, hs₂]
        rw [hrun]
        have hxnot : x ∉ s.order := fun ho => hmem (hs.order_marked x ho)
        obtain ⟨hxm, hxo⟩ := (hsub.open_iff x).mpr ⟨by simp [hs₁], hxnot⟩
        obtain ⟨new, hnew, hpath⟩ := hsub.appended
        refine ⟨?_, ?_, by simpa using hxm, ⟨new ++ [x], ?_, ?_⟩, ?_⟩
        · refine hsub.valid.emit hxm hxo hsub.tops_marked fun y hy hyo => ?_
          obtain ⟨hy₁, hyo₁⟩ := (hsub.open_iff y).mp ⟨hy, hyo⟩
          exact hopen₁ y hy₁ hyo₁
        · exact fun y hy => hsub.marked_mono y (List.mem_cons_of_mem _ hy)
        · simp [hnew, hs₁]
        · intro y hy
          rcases List.mem_append.mp hy with hy | hy
          · obtain ⟨hfresh, c, hc, hcy⟩ := hpath y hy
            refine ⟨fun hm => hfresh (List.mem_cons_of_mem _ hm), x, by simp, ?_⟩
            -- the path starts at a successor that has been emitted before `x`
            have hco : c ∈ s₂.order := by
              rcases ReflTransGen.cases_head hcy with rfl | ⟨d, ⟨-, l₁, l₂, ho, -⟩, -⟩
              · rw [hnew]
                exact List.mem_append.mpr (.inr hy)
              · rw [ho]
                simp
            have hxc : Descends succ (s₂.order ++ [x]) x c := ⟨hc, s₂.order, [], rfl, hco⟩
            refine .head hxc (ReflTransGen.mono (fun a b hab => ?_) _ _ hcy)
            exact hab.append [x]
          · rw [List.mem_singleton.mp hy]
            exact ⟨hmem, x, by simp, .refl⟩
        · intro y
          have hiff := hsub.open_iff y
          simp only [List.mem_append, List.mem_singleton, not_or]
          constructor
          · rintro ⟨hym, hyo, hyx⟩
            obtain ⟨hy₁, hyo₁⟩ := hiff.mp ⟨hym, hyo⟩
            exact ⟨(List.mem_cons.mp hy₁).resolve_left hyx, hyo₁⟩
          · rintro ⟨hym, hyo⟩
            obtain ⟨hy₂, hyo₂⟩ := hiff.mpr ⟨List.mem_cons_of_mem _ hym, hyo⟩
            refine ⟨hy₂, hyo₂, ?_⟩
            rintro rfl
            exact hmem hym

/-! ## Complete walks -/

/-- The order emitted by a complete walk from `roots`. -/
structure Emitted (succ : α → List α) (roots order : List α) : Prop where
  nodup : order.Nodup
  back : ∀ l₁ y l₂, order = l₁ ++ y :: l₂ → ∀ z ∈ succ y,
    z ∈ l₁ ∨ (z ∈ order ∧ ReflTransGen (Step succ) z y)
  descends : ∀ y ∈ order, ∃ r ∈ roots, ReflTransGen (Descends succ order) r y
  roots_mem : ∀ r ∈ roots, r ∈ order

theorem visitAll_visited {roots : List α} {fuel : ℕ}
    (huniv : ∀ y ∈ univ, ∀ z ∈ succ y, z ∈ univ) (hroots : ∀ r ∈ roots, r ∈ univ)
    (hfuel : univ.length < fuel) :
    Visited succ univ roots Walk.start (visitAll succ fuel Walk.start roots) := by
  have hstart : Valid succ univ (Walk.start : Walk α) :=
    ⟨by simp [Walk.start], by simp [Walk.start], by simp [Walk.start], by simp [Walk.start],
      by simp [Walk.start]⟩
  have hlen : (unmarked univ (Walk.start : Walk α)).length < fuel :=
    lt_of_le_of_lt (List.length_filter_le _ _) hfuel
  exact foldl_visited (visit_visited huniv fuel) roots Walk.start hstart hroots hlen
    (by simp [Walk.start])

omit [DecidableEq α] in
/-- No vertex is left open. -/
theorem Visited.mem_order_iff {tops : List α} {s : Walk α}
    (h : Visited succ univ tops Walk.start s) {y : α} : y ∈ s.order ↔ y ∈ s.marked := by
  refine ⟨h.valid.order_marked y, fun hy => ?_⟩
  by_contra hyo
  have hopen := (h.open_iff y).mp ⟨hy, hyo⟩
  simp [Walk.start] at hopen

theorem visitAll_emitted {roots : List α} {fuel : ℕ}
    (huniv : ∀ y ∈ univ, ∀ z ∈ succ y, z ∈ univ) (hroots : ∀ r ∈ roots, r ∈ univ)
    (hfuel : univ.length < fuel) :
    Emitted succ roots (visitAll succ fuel Walk.start roots).order := by
  have hwalk := visitAll_visited huniv hroots hfuel
  obtain ⟨new, hnew, hpath⟩ := hwalk.appended
  have hdone : ∀ y ∈ (visitAll succ fuel Walk.start roots).marked,
      y ∈ (visitAll succ fuel Walk.start roots).order := fun y hy => hwalk.mem_order_iff.mpr hy
  refine ⟨hwalk.valid.nodup, ?_, ?_, fun r hr => hdone r (hwalk.tops_marked r hr)⟩
  · intro l₁ y l₂ hsplit z hz
    refine (hwalk.valid.back l₁ y l₂ hsplit z hz).imp_right fun hback => ⟨?_, hback⟩
    exact hdone z (hwalk.valid.closed y (by rw [hsplit]; simp) z hz)
  · intro y hy
    have hy' : y ∈ new := by
      rw [hnew] at hy
      simpa [Walk.start] using hy
    exact (hpath y hy').2

omit [DecidableEq α] in
theorem Emitted.closed {roots order : List α} (h : Emitted succ roots order) {y z : α}
    (hy : y ∈ order) (hyz : ReflTransGen (Step succ) y z) : z ∈ order := by
  induction hyz with
  | refl => exact hy
  | tail _ hbc ih =>
      obtain ⟨l₁, l₂, hsplit⟩ := List.append_of_mem ih
      rcases h.back l₁ _ l₂ hsplit _ hbc with hz | ⟨hz, -⟩
      · rw [hsplit]
        exact List.mem_append.mpr (.inl hz)
      · exact hz

omit [DecidableEq α] in
theorem Emitted.reached {roots order : List α} (h : Emitted succ roots order) {y : α}
    (hy : y ∈ order) : ∃ r ∈ roots, ReflTransGen (Step succ) r y := by
  obtain ⟨r, hr, hry⟩ := h.descends y hy
  exact ⟨r, hr, ReflTransGen.mono (fun _ _ hab => hab.1) _ _ hry⟩

/-- Every vertex comes after its other successors. -/
def SuccessorsFirst (succ : α → List α) (order : List α) : Prop :=
  ∀ l₁ y l₂, order = l₁ ++ y :: l₂ → ∀ z ∈ succ y, z ≠ y → z ∈ l₁

theorem idxOf_lt_of_mem {order l₁ l₂ : List α} {y z : α} (hnodup : order.Nodup)
    (hsplit : order = l₁ ++ y :: l₂) (hz : z ∈ l₁) : order.idxOf z < order.idxOf y := by
  subst hsplit
  have hy : y ∉ l₁ := by
    intro hy
    exact (List.nodup_append.mp hnodup).2.2 y hy y (by simp) rfl
  rw [List.idxOf_append_of_mem hz, List.idxOf_append_of_notMem hy]
  have := List.idxOf_lt_length_iff.mpr hz
  omega

/-- The order is topological exactly when no two vertices reach each other. -/
theorem Emitted.successorsFirst_iff {roots order : List α} (h : Emitted succ roots order) :
    SuccessorsFirst succ order ↔ ∀ x ∈ order, ∀ y, ReflTransGen (Step succ) x y →
      ReflTransGen (Step succ) y x → x = y := by
  constructor
  · intro hfirst x hx y hxy hyx
    have hlt : ∀ {a b}, a ∈ order → ReflTransGen (Step succ) a b →
        a = b ∨ order.idxOf b < order.idxOf a := by
      intro a b ha hab
      induction hab with
      | refl => exact .inl rfl
      | @tail b c hab hbc ih =>
          by_cases hcb : c = b
          · rw [hcb]
            exact ih
          obtain ⟨l₁, l₂, hsplit⟩ := List.append_of_mem (h.closed ha hab)
          have hidx := idxOf_lt_of_mem h.nodup hsplit (hfirst l₁ b l₂ hsplit c hbc hcb)
          rcases ih with rfl | ih
          · exact .inr hidx
          · exact .inr (hidx.trans ih)
    rcases hlt hx hxy with heq | hlt₁
    · exact heq
    · rcases hlt (h.closed hx hxy) hyx with heq | hlt₂
      · exact heq.symm
      · exact absurd hlt₁ (Nat.lt_asymm hlt₂)
  · intro hacyc l₁ y l₂ hsplit z hz hne
    rcases h.back l₁ y l₂ hsplit z hz with hz' | ⟨hzo, hzy⟩
    · exact hz'
    · exact absurd (hacyc z hzo y hzy (.single hz)) hne

end Spec

end PostOrder
