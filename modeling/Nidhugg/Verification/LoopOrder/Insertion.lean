import Nidhugg.Library.LaterPoint
import Nidhugg.Model.LoopOrder
import Nidhugg.Verification.LoopPurity.LexicalOrder

/-! # The reverse post-order of a loop

The recursion is the depth-first walk of the library. It goes through all blocks of the loop, as each
of them is reached from the header inside the loop. -/

namespace Nidhugg.LoopOrder

open Relation PostOrder

variable {β ι : Type} {F : Cfg β ι} {L : Loop F}

/-! ### Blocks of a loop -/

/-- The successors of a block that are in the loop. -/
def inside [DecidableEq β] (L : Loop F) (b : β) : List β := (F.successors b).filter (· ∈ L.blocks)

theorem mem_inside [DecidableEq β] {a b : β} :
    b ∈ inside L a ↔ b ∈ F.successors a ∧ b ∈ L.blocks := by
  simp [inside]

theorem Loop.header_mem (L : Loop F) : L.header ∈ L.blocks := (L.mem_blocks _).mpr (.inl rfl)

theorem Loop.predecessor_mem {p b : β} (hb : b ∈ L.blocks) (hne : b ≠ L.header)
    (hp : p ∈ F.predecessors b) : p ∈ L.blocks :=
  (L.mem_blocks p).mpr
    (((L.mem_blocks b).mp hb).predecessor hne ((F.mem_predecessors p b).mp hp))

theorem Loop.reached [DecidableEq β] {b : β} (hb : b ∈ L.blocks) :
    ReflTransGen (Step (inside L)) L.header b := by
  have hreach := ((L.mem_blocks b).mp hb).reached (F.reachable b)
  apply ReflTransGen.mono _ _ _ hreach
  intro x y hxy
  exact mem_inside.mpr ⟨hxy.1, (L.mem_blocks y).mpr hxy.2⟩

/-! ### The walk -/

/-- The blocks with their indices, in post-order. -/
def entries (total : ℕ) (order : List β) : List (β × ℕ) :=
  order.mapIdx fun k b => (b, total - (k + 1))

theorem entries_concat (total : ℕ) (order : List β) (b : β) : entries total (order ++ [b]) =
    entries total order ++ [(b, total - (order ++ [b]).length)] := by
  simp [entries]

theorem mem_entries {total i : ℕ} {order : List β} {b : β} (hlen : order.length = total) :
    (b, i) ∈ entries total order ↔ order.reverse[i]? = some b := by
  rw [entries, List.mem_mapIdx]
  constructor
  · intro h
    obtain ⟨k, hk, heq⟩ := h
    obtain ⟨rfl, rfl⟩ := Prod.mk.inj heq
    rw [List.getElem?_reverse (by omega), List.getElem?_eq_some_iff]
    exact ⟨by omega, by congr 1; omega⟩
  · intro h
    have hi := (List.getElem?_eq_some_iff.mp h).1
    rw [List.length_reverse] at hi
    rw [List.getElem?_reverse hi, List.getElem?_eq_some_iff] at h
    obtain ⟨hlt, hget⟩ := h
    exact ⟨_, hlt, by rw [hget]; congr 1; omega⟩

variable [LinearOrder β]

/-- The state is that of the walk. -/
structure Follows (L : Loop F) (rpo : Visit β) (w : Walk β) : Prop where
  visited : rpo.visited = w.marked
  blocks : rpo.blocks = w.order
  poorder : rpo.poorder = entries L.blocks.length w.order

theorem marked_visit {succ : β → List β} {fuel : ℕ} {w : Walk β} {x y : β} (hy : y ∈ w.marked) :
    y ∈ (visit succ fuel w x).marked := by
  induction fuel generalizing w x with
  | zero => exact hy
  | succ fuel ih =>
      have hfoldl : ∀ (tops : List β) (w : Walk β), y ∈ w.marked →
          y ∈ (tops.foldl (visit succ fuel) w).marked := by
        intro tops
        induction tops with
        | nil => exact fun w hw => hw
        | cons x tops ihtops => exact fun w hw => ihtops _ (ih hw)
      rw [visit]
      split
      · exact hy
      · exact hfoldl _ _ (List.mem_cons_of_mem _ hy)

theorem unmarked_visit_le (succ : β → List β) (fuel : ℕ) (w : Walk β) (x : β) (univ : List β) :
    (unmarked univ (visit succ fuel w x)).length ≤ (unmarked univ w).length :=
  (unmarked_sublist univ fun _ => marked_visit).length_le

theorem Follows.foldl {fuel : ℕ} (hvisit : ∀ (rpo : Visit β) (w : Walk β) (x : β),
      Follows L rpo w → x ∈ L.blocks → (unmarked L.blocks w).length < fuel →
      ∃ rpo', rpoVisit L fuel rpo x = some rpo' ∧ Follows L rpo' (visit (inside L) fuel w x))
    {tops : List β} (htops : ∀ x ∈ tops, x ∈ L.blocks) {rpo : Visit β} {w : Walk β}
    (h : Follows L rpo w) (hfuel : (unmarked L.blocks w).length < fuel) :
    ∃ rpo', tops.foldlM (rpoVisit L fuel) rpo = some rpo' ∧
      Follows L rpo' (tops.foldl (visit (inside L) fuel) w) := by
  induction tops generalizing rpo w with
  | nil => exact ⟨rpo, rfl, h⟩
  | cons x tops ih =>
      obtain ⟨rpo₁, hrun, hfollows⟩ := hvisit rpo w x h (htops x List.mem_cons_self) hfuel
      have hlen := unmarked_visit_le (inside L) fuel w x L.blocks
      obtain ⟨rpo₂, hrest, hfollows'⟩ := ih (fun y hy => htops y (List.mem_cons_of_mem _ hy))
        hfollows (lt_of_le_of_lt hlen hfuel)
      exact ⟨rpo₂, by rw [List.foldlM_cons, hrun]; exact hrest, hfollows'⟩

theorem Follows.visit {fuel : ℕ} {rpo : Visit β} {w : Walk β} {x : β} (h : Follows L rpo w)
    (hx : x ∈ L.blocks) (hfuel : (unmarked L.blocks w).length < fuel) :
    ∃ rpo', rpoVisit L fuel rpo x = some rpo' ∧ Follows L rpo' (visit (inside L) fuel w x) := by
  induction fuel generalizing rpo w x with
  | zero => cases hfuel
  | succ fuel ih =>
      rw [rpoVisit, PostOrder.visit, h.visited]
      by_cases hmem : x ∈ w.marked
      · rw [if_pos hmem, if_pos hmem]
        exact ⟨rpo, rfl, h⟩
      · rw [if_neg hmem, if_neg hmem]
        have henter := unmarked_enter hx hmem
        have hfollows : Follows L { rpo with visited := x :: w.marked }
            { w with marked := x :: w.marked } := ⟨rfl, h.blocks, h.poorder⟩
        have hinside : ∀ y ∈ inside L x, y ∈ L.blocks := fun y hy => (mem_inside.mp hy).2
        obtain ⟨rpo', hrun, hfollows'⟩ :=
          hfollows.foldl (fun rpo w x h => ih h) hinside (by omega)
        refine ⟨_, by rw [inside] at hrun; rw [hrun]; rfl, ?_⟩
        constructor
        · exact hfollows'.visited
        · exact congrArg (· ++ [x]) hfollows'.blocks
        · show rpo'.poorder ++ _ = _
          rw [entries_concat, ← hfollows'.blocks, hfollows'.poorder, hfollows'.blocks]

/-! ### Indices -/

/-- The indices of the blocks are their positions. -/
structure RPO.Exact (rpo : RPO β) (L : Loop F) : Prop where
  nodup : rpo.blocks.Nodup
  mem_blocks : ∀ b, b ∈ rpo.blocks ↔ b ∈ L.blocks
  first : rpo.blocks[0]? = some L.header
  indexAt_iff : ∀ (b : β) (i : ℕ), rpo.indexAt b = some i ↔ rpo.blocks[i]? = some b

theorem indexAt_eq_some_iff {rpo : RPO β} {order : List β} (hnodup : order.Nodup)
    (hperm : rpo.blockIndices.Perm (entries order.length order)) {b : β} {i : ℕ} :
    rpo.indexAt b = some i ↔ order.reverse[i]? = some b := by
  have hmem : ∀ (b : β) (i : ℕ), (b, i) ∈ rpo.blockIndices ↔ order.reverse[i]? = some b :=
    fun b i => hperm.mem_iff.trans (mem_entries rfl)
  rw [RPO.indexAt, Option.map_eq_some_iff]
  constructor
  · intro h
    obtain ⟨⟨b', i'⟩, hfind, rfl⟩ := h
    have hkey : b' = b := by simpa using List.find?_some hfind
    rw [← hmem, ← hkey]
    exact List.mem_of_find?_eq_some hfind
  · intro h
    cases hfind : rpo.blockIndices.find? fun entry => entry.1 = b with
    | none =>
        have hnone := List.find?_eq_none.mp hfind (b, i) ((hmem b i).mpr h)
        exact absurd (decide_eq_true rfl) hnone
    | some entry =>
        obtain ⟨b', i'⟩ := entry
        have hkey : b' = b := by simpa using List.find?_some hfind
        have hget := (hmem b' i').mp (List.mem_of_find?_eq_some hfind)
        have hlt := (List.getElem?_eq_some_iff.mp h).1
        refine ⟨(b', i'), rfl, ?_⟩
        rw [hkey] at hget
        exact ((List.getElem?_inj hlt (List.nodup_reverse.mpr hnodup)).mp (h.trans hget.symm)).symm

/-- The reverse post-order is found, and it has all blocks of the loop. -/
theorem exists_getLoopRPO (L : Loop F) {fuel : ℕ} (hfuel : L.blocks.length < fuel) :
    ∃ rpo, getLoopRPO L fuel = some rpo ∧ rpo.Exact L := by
  have hstart : Follows L ⟨[], [], []⟩ Walk.start := ⟨rfl, rfl, rfl⟩
  have hlen : (unmarked L.blocks Walk.start).length < fuel :=
    lt_of_le_of_lt (List.length_filter_le _ _) hfuel
  obtain ⟨ret, hret, hfollows⟩ := hstart.visit L.header_mem hlen
  have hemitted : Emitted (inside L) [L.header] ret.blocks := by
    rw [hfollows.blocks]
    exact visitAll_emitted (fun y hy z hz => (mem_inside.mp hz).2)
      (fun r hr => List.mem_singleton.mp hr ▸ L.header_mem) hfuel
  have hmem : ∀ b, b ∈ ret.blocks ↔ b ∈ L.blocks := by
    intro b
    constructor
    · intro hb
      obtain ⟨r, hr, hreach⟩ := hemitted.reached hb
      rw [List.mem_singleton.mp hr] at hreach
      cases ReflTransGen.cases_tail hreach with
      | inl heq => exact heq ▸ L.header_mem
      | inr hlast => exact (mem_inside.mp hlast.choose_spec.2).2
    · intro hb
      exact hemitted.closed (hemitted.roots_mem _ List.mem_cons_self) (Loop.reached hb)
  have hperm : ret.blocks.Perm L.blocks :=
    (List.perm_ext_iff_of_nodup hemitted.nodup L.nodup).mpr hmem
  have hpoorder : ret.poorder = entries ret.blocks.length ret.blocks := by
    rw [hfollows.poorder, hperm.length_eq, hfollows.blocks]
  have hindex : ∀ (b : β) (i : ℕ), RPO.indexAt ⟨ret.blocks.reverse, ret.poorder.mergeSort pairLe⟩ b =
      some i ↔ ret.blocks.reverse[i]? = some b := fun b i =>
    indexAt_eq_some_iff hemitted.nodup (hpoorder ▸ List.mergeSort_perm ret.poorder pairLe)
  have hlast : ret.blocks.getLast? = some L.header := by
    cases fuel with
    | zero => cases hfuel
    | succ fuel =>
        have hnot : L.header ∉ (Walk.start : Walk β).marked := List.not_mem_nil
        rw [hfollows.blocks, PostOrder.visit, if_neg hnot]
        exact List.getLast?_concat
  refine ⟨⟨ret.blocks.reverse, ret.poorder.mergeSort pairLe⟩, ?_, ?_, ?_, ?_, hindex⟩
  · rw [getLoopRPO, hret]
    dsimp only [Option.bind_eq_bind, Option.bind_some]
    rw [if_pos]
    refine ⟨by rw [List.length_reverse, hperm.length_eq], ?_⟩
    intro entry hentry
    rw [hindex]
    exact List.mem_zipIdx_iff_getElem?.mp hentry
  · exact List.nodup_reverse.mpr hemitted.nodup
  · intro b
    rw [List.mem_reverse]
    exact hmem b
  · rw [← List.head?_eq_getElem?, List.head?_reverse, hlast]

end Nidhugg.LoopOrder

/-! # The order of insertion points

The search on blocks is the one on their numbers, and no assertion fails in it: the header has the
least index, and other blocks have no predecessors outside the loop. -/

namespace Nidhugg.LoopOrder

open Relation

variable {β ι : Type} [LinearOrder β] {F : Cfg β ι} {L : Loop F} {rpo : RPO β}

/-! ### Numbered blocks -/

/-- The forward edges of a loop, backwards. -/
def graph (F : Cfg β ι) (rpo : RPO β) : LoopPurity.Graph where
  predecessors i :=
    ((rpo.blocks[i]?).map fun b => (F.predecessors b).filterMap rpo.indexAt).getD []

theorem mem_predecessors_graph {i p : ℕ} {b : β} (hb : rpo.blocks[i]? = some b) :
    p ∈ (graph F rpo).predecessors i ↔ ∃ q ∈ F.predecessors b, rpo.indexAt q = some p := by
  simp [graph, hb]

theorem RPO.Exact.exists_index (h : rpo.Exact L) {b : β} (hb : b ∈ L.blocks) :
    ∃ i, rpo.indexAt b = some i := by
  obtain ⟨i, hi⟩ := List.mem_iff_getElem?.mp ((h.mem_blocks b).mpr hb)
  exact ⟨i, (h.indexAt_iff b i).mpr hi⟩

theorem RPO.Exact.indexAt_inj (h : rpo.Exact L) {a b : β} {i : ℕ} (ha : rpo.indexAt a = some i)
    (hb : rpo.indexAt b = some i) : a = b :=
  Option.some.inj (((h.indexAt_iff a i).mp ha).symm.trans ((h.indexAt_iff b i).mp hb))

theorem RPO.Exact.predecessor_mem (h : rpo.Exact L) {i : ℕ} {b : β} (hpos : 0 < i)
    (hb : rpo.blocks[i]? = some b) {p : β} (hp : p ∈ F.predecessors b) : p ∈ L.blocks := by
  have hmem := (h.mem_blocks b).mp (List.mem_of_getElem? hb)
  have hne : b ≠ L.header := by
    rintro rfl
    have hlt := (List.getElem?_eq_some_iff.mp h.first).1
    have hzero := (List.getElem?_inj hlt h.nodup).mp (h.first.trans hb.symm)
    omega
  exact L.predecessor_mem hmem hne hp

/-! ### The predecessors of a block -/

section

variable {IB : β} {preds : List β} {predecessors : List ℕ} (IBI JBI : ℕ)

theorem scanPredecessors_target (h : rpo.Exact L) (hpreds : ∀ p ∈ preds, p ∈ L.blocks)
    (htarget : IB ∈ preds) :
    scanPredecessors rpo IB IBI JBI preds predecessors = some .target := by
  induction preds generalizing predecessors with
  | nil => cases htarget
  | cons p preds ih =>
      rw [scanPredecessors]
      by_cases hp : p = IB
      · rw [if_pos hp]
      · obtain ⟨i, hi⟩ := h.exists_index (hpreds p List.mem_cons_self)
        rw [if_neg hp, hi]
        apply ih fun q hq => hpreds q (List.mem_cons_of_mem _ hq)
        exact (List.mem_cons.mp htarget).resolve_left (Ne.symm hp)

theorem exists_scanPredecessors (h : rpo.Exact L) (hpreds : ∀ p ∈ preds, p ∈ L.blocks)
    (htarget : IB ∉ preds) (hsorted : predecessors.Pairwise (· < ·)) :
    ∃ found, scanPredecessors rpo IB IBI JBI preds predecessors = some (.others found) ∧
      found.Pairwise (· < ·) ∧ ∀ x, x ∈ found ↔ x ∈ predecessors ∨
        ∃ p ∈ preds, rpo.indexAt p = some x ∧ IBI ≤ x ∧ x < JBI := by
  induction preds generalizing predecessors with
  | nil => exact ⟨predecessors, rfl, hsorted, by simp⟩
  | cons p preds ih =>
      rw [List.mem_cons, not_or] at htarget
      obtain ⟨i, hi⟩ := h.exists_index (hpreds p List.mem_cons_self)
      have hrest : ∀ q ∈ preds, q ∈ L.blocks := fun q hq => hpreds q (List.mem_cons_of_mem _ hq)
      rw [scanPredecessors, if_neg (Ne.symm htarget.1), hi]
      by_cases hrange : IBI ≤ i ∧ i < JBI
      · have hinsert : (VecSet.insert (fun a b => decide (a < b)) predecessors i).Pairwise
            (· < ·) := by
          have hvec : VecSet.Sorted (fun a b => decide (a < b)) predecessors :=
            hsorted.imp fun hlt => decide_eq_true hlt
          exact (VecSet.sorted_insert VecSet.strictTotal_nat.weak (fun _ _ => trivial) trivial
            hvec).imp of_decide_eq_true
        obtain ⟨found, hfound, hsorted', hmem⟩ := ih hrest htarget.2 hinsert
        refine ⟨found, ?_, hsorted', fun x => ?_⟩
        · dsimp only [Option.bind_eq_bind, Option.bind_some]
          rw [if_pos hrange]
          exact hfound
        · rw [hmem, VecSet.mem_insert VecSet.strictTotal_nat, List.exists_mem_cons_iff, hi,
            Option.some.injEq]
          constructor
          · rintro ((rfl | hx) | hx)
            · exact .inr (.inl ⟨rfl, hrange⟩)
            · exact .inl hx
            · exact .inr (.inr hx)
          · rintro (hx | ⟨rfl, _⟩ | hx)
            · exact .inl (.inr hx)
            · exact .inl (.inl rfl)
            · exact .inr hx
      · obtain ⟨found, hfound, hsorted', hmem⟩ := ih hrest htarget.2 hsorted
        refine ⟨found, ?_, hsorted', fun x => ?_⟩
        · dsimp only [Option.bind_eq_bind, Option.bind_some]
          rw [if_neg hrange]
          exact hfound
        · rw [hmem, List.exists_mem_cons_iff, hi, Option.some.injEq]
          refine or_congr_right (or_iff_right ?_).symm
          rintro ⟨rfl, hx⟩
          exact hrange hx

end

/-! ### The search -/

/-- The last element of a sorted list, and the others. -/
theorem mem_dropLast_iff {found : List ℕ} {next x : ℕ} (hsorted : found.Pairwise (· < ·))
    (hlast : found.getLast? = some next) : x ∈ found.dropLast ↔ x ∈ found ∧ x < next := by
  obtain ⟨front, rfl⟩ := List.getLast?_eq_some_iff.mp hlast
  have hlt := (List.pairwise_append.mp hsorted).2.2
  rw [List.dropLast_concat, List.mem_append, List.mem_singleton]
  constructor
  · intro hx
    exact ⟨.inl hx, hlt x hx next List.mem_cons_self⟩
  · intro hx
    exact hx.1.resolve_right (Nat.ne_of_lt hx.2)

theorem exists_mem_iff_last {found : List ℕ} {next : ℕ} {p : ℕ → Prop}
    (hlast : found.getLast? = some next) :
    (∃ x ∈ found, p x) ↔ p next ∨ ∃ x ∈ found.dropLast, p x := by
  obtain ⟨front, rfl⟩ := List.getLast?_eq_some_iff.mp hlast
  simp only [List.dropLast_concat, List.mem_append, List.mem_singleton, or_and_right, exists_or,
    exists_eq_left]
  exact or_comm

/-- What is left of the search is decided by the blocks that have been found. -/
theorem exists_searchBackwards (h : rpo.Exact L) {IB : β} {IBI : ℕ}
    (hIB : rpo.blocks[IBI]? = some IB) {turns JBI : ℕ} {JB : β} {predecessors : List ℕ}
    (hturns : JBI < turns) (hJB : rpo.blocks[JBI]? = some JB) (hlt : IBI < JBI)
    (hsorted : predecessors.Pairwise (· < ·)) (hrange : ∀ x ∈ predecessors, IBI < x ∧ x < JBI) :
    ∃ found, searchBackwards F rpo IB IBI turns JB JBI predecessors = some found ∧
      (found = true ↔ (graph F rpo).Precedes IBI JBI ∨
        ∃ x ∈ predecessors, (graph F rpo).Precedes IBI x) := by
  induction turns generalizing JBI JB predecessors with
  | zero => cases hturns
  | succ turns ih =>
      have hpreds : ∀ p ∈ F.predecessors JB, p ∈ L.blocks :=
        fun p hp => h.predecessor_mem (Nat.zero_lt_of_lt hlt) hJB hp
      have hIBI : rpo.indexAt IB = some IBI := (h.indexAt_iff IB IBI).mpr hIB
      rw [searchBackwards]
      by_cases htarget : IB ∈ F.predecessors JB
      · rw [scanPredecessors_target IBI JBI h hpreds htarget]
        refine ⟨true, rfl, iff_of_true rfl (.inl (.single ⟨?_, hlt⟩))⟩
        exact (mem_predecessors_graph hJB).mpr ⟨IB, htarget, hIBI⟩
      · obtain ⟨found, hfound, hsorted', hmem⟩ :=
          exists_scanPredecessors IBI JBI h hpreds htarget hsorted
        have hnot : IBI ∉ (graph F rpo).predecessors JBI := by
          intro hedge
          obtain ⟨q, hq, hindex⟩ := (mem_predecessors_graph hJB).mp hedge
          exact htarget (h.indexAt_inj hindex hIBI ▸ hq)
        have hfound' : ∀ x, x ∈ found ↔ x ∈ predecessors ++
            ((graph F rpo).predecessors JBI).filter fun p => IBI ≤ p && p < JBI := by
          intro x
          rw [hmem, List.mem_append, List.mem_filter, mem_predecessors_graph hJB,
            Bool.and_eq_true, decide_eq_true_eq, decide_eq_true_eq]
          constructor
          · intro hx
            refine hx.imp_right fun hnew => ?_
            obtain ⟨p, hp, hindex, hbounds⟩ := hnew
            exact ⟨⟨p, hp, hindex⟩, hbounds⟩
          · intro hx
            refine hx.imp_right fun hnew => ?_
            obtain ⟨⟨p, hp, hindex⟩, hbounds⟩ := hnew
            exact ⟨p, hp, hindex, hbounds⟩
        have hrange' : ∀ x ∈ found, IBI < x ∧ x < JBI := by
          intro x hx
          cases (hmem x).mp hx with
          | inl hold => exact hrange x hold
          | inr hnew =>
              obtain ⟨p, hp, hindex, hle, hlt'⟩ := hnew
              have hne : IBI ≠ x := by
                rintro rfl
                exact htarget (h.indexAt_inj hindex hIBI ▸ hp)
              exact ⟨Nat.lt_of_le_of_ne hle hne, hlt'⟩
        rw [LoopPurity.Graph.precedes_found_iff hnot, hfound]
        simp only [← hfound']
        cases hlast : found.getLast? with
        | none =>
            rw [List.getLast?_eq_none_iff] at hlast
            refine ⟨false, by simp [hlast], ?_⟩
            simp [hlast]
        | some next =>
            have hnext := hrange' next (List.mem_of_getLast? hlast)
            obtain ⟨b, hb⟩ : ∃ b, rpo.blocks[next]? = some b := by
              have hlen := (List.getElem?_eq_some_iff.mp hJB).1
              exact ⟨_, List.getElem?_eq_getElem (Nat.lt_trans hnext.2 hlen)⟩
            obtain ⟨r, hr, hiff⟩ := ih (by omega) hb hnext.1
              (hsorted'.sublist (List.dropLast_sublist _)) fun x hx => by
                obtain ⟨hx', hltx⟩ := (mem_dropLast_iff hsorted' hlast).mp hx
                exact ⟨(hrange' x hx').1, hltx⟩
            refine ⟨r, ?_, hiff.trans ?_⟩
            · dsimp only [Option.bind_eq_bind, Option.bind_some]
              rw [hlast]
              dsimp only
              rw [if_pos ⟨hnext.2, hnext.1⟩, hb]
              exact hr
            · exact (exists_mem_iff_last hlast).symm

/-! ### Paths -/

/-- An edge inside the loop that increases the index. -/
def Forward (L : Loop F) (rpo : RPO β) (p b : β) : Prop :=
  p ∈ L.blocks ∧ b ∈ L.blocks ∧ b ∈ F.successors p ∧
    ∃ i j, rpo.indexAt p = some i ∧ rpo.indexAt b = some j ∧ i < j

theorem precedes_graph_iff (h : rpo.Exact L) {p b : β} {i j : ℕ} (hp : rpo.indexAt p = some i)
    (hb : rpo.indexAt b = some j) :
    (graph F rpo).Precedes i j ↔ TransGen (Forward L rpo) p b := by
  have hedge : ∀ {q c : β} {k l : ℕ}, rpo.indexAt q = some k → rpo.indexAt c = some l →
      ((graph F rpo).Edge k l ↔ Forward L rpo q c) := by
    intro q c k l hq hc
    rw [LoopPurity.Graph.Edge, mem_predecessors_graph ((h.indexAt_iff c l).mp hc)]
    constructor
    · intro hkl
      obtain ⟨⟨q', hq', hindex⟩, hlt⟩ := hkl
      obtain rfl := h.indexAt_inj hindex hq
      have hmem : ∀ {d : β} {m : ℕ}, rpo.indexAt d = some m → d ∈ L.blocks := fun hd =>
        (h.mem_blocks _).mp (List.mem_of_getElem? ((h.indexAt_iff _ _).mp hd))
      exact ⟨hmem hq, hmem hc, (F.mem_predecessors _ _).mp hq', k, l, hq, hc, hlt⟩
    · intro hforward
      obtain ⟨_, _, hsucc, k', l', hk', hl', hlt⟩ := hforward
      obtain rfl : k' = k := Option.some.inj (hk'.symm.trans hq)
      obtain rfl : l' = l := Option.some.inj (hl'.symm.trans hc)
      exact ⟨⟨q, (F.mem_predecessors _ _).mpr hsucc, hq⟩, hlt⟩
  constructor
  · intro hpath
    induction hpath generalizing b with
    | single hstep => exact .single ((hedge hp hb).mp hstep)
    | @tail m l hpath hstep ih =>
        obtain ⟨q, hq, hindex⟩ := (mem_predecessors_graph ((h.indexAt_iff b l).mp hb)).mp hstep.1
        exact (ih hindex).tail ((hedge hindex hb).mp hstep)
  · intro hpath
    induction hpath generalizing j with
    | single hstep => exact .single ((hedge hp hb).mpr hstep)
    | tail hpath hstep ih =>
        have ⟨_, _, _, k, _, hk, _⟩ := hstep
        exact (ih hk).tail ((hedge hk hb).mpr hstep)

/-! ### Instructions -/

variable [DecidableEq ι]

/-- The number of the block of an instruction, and its place in the block. -/
def location (F : Cfg β ι) (rpo : RPO β) (I : ι) : LoopPurity.Location where
  block := (rpo.indexAt (F.getParent I)).getD 0
  place := (F.instructions (F.getParent I)).idxOf I

theorem scanInstructions_iff {I : ι} {l : List ι} : scanInstructions I l = true ↔ I ∈ l := by
  induction l with
  | nil => simp [scanInstructions]
  | cons J l ih =>
      rw [scanInstructions, List.mem_cons]
      by_cases heq : I = J
      · simp [heq]
      · rw [if_neg heq, ih]
        simp [heq]

theorem mem_takeWhile_iff {I J : ι} {l : List ι} (hJ : J ∈ l) :
    I ∈ l.takeWhile (· ≠ J) ↔ l.idxOf I < l.idxOf J := by
  induction l with
  | nil => cases hJ
  | cons K l ih =>
      by_cases hKJ : K = J
      · subst hKJ
        simp
      · have hJ' : J ∈ l := (List.mem_cons.mp hJ).resolve_left (Ne.symm hKJ)
        rw [List.takeWhile_cons_of_pos (by simpa using hKJ), List.mem_cons,
          List.idxOf_cons_ne _ hKJ, ih hJ']
        by_cases hKI : K = I
        · subst hKI
          simp
        · rw [List.idxOf_cons_ne _ hKI]
          simp [Ne.symm hKI]

/-- The order of instructions is the one that is found on the numbers of their blocks. -/
theorem isBefore_eq (h : rpo.Exact L) {turns : ℕ} (hturns : L.blocks.length ≤ turns) {I J : ι}
    (hI : F.getParent I ∈ L.blocks) (hJ : F.getParent J ∈ L.blocks) :
    isBefore F rpo turns I J =
      some ((graph F rpo).isBefore (location F rpo I) (location F rpo J)) := by
  obtain ⟨IBI, hIBI⟩ := h.exists_index hI
  obtain ⟨JBI, hJBI⟩ := h.exists_index hJ
  rw [isBefore]
  by_cases hblock : F.getParent I = F.getParent J
  · rw [if_pos hblock]
    congr 1
    rw [Bool.eq_iff_iff, scanInstructions_iff, List.mem_reverse,
      mem_takeWhile_iff ((F.mem_instructions J _).mpr rfl), LoopPurity.Graph.isBefore_iff]
    simp only [location, hblock, true_and]
    exact (or_iff_left fun hpath => Nat.lt_irrefl _ hpath.lt).symm
  · have hne : IBI ≠ JBI := by
      rintro rfl
      exact hblock (h.indexAt_inj hIBI hJBI)
    rw [if_neg hblock, hIBI, hJBI]
    dsimp only [Option.bind_eq_bind, Option.bind_some]
    rw [if_neg hne, LoopPurity.Graph.isBefore]
    simp only [location, hIBI, hJBI, Option.getD_some]
    rw [if_neg hne]
    by_cases hlt : JBI < IBI
    · rw [if_pos hlt, if_pos hlt]
    · rw [if_neg hlt, if_neg hlt]
      have hJB := (h.indexAt_iff _ JBI).mp hJBI
      have hJBI' : JBI < turns := by
        have hlen := (List.getElem?_eq_some_iff.mp hJB).1
        have hperm := (List.perm_ext_iff_of_nodup h.nodup L.nodup).mpr h.mem_blocks
        rw [hperm.length_eq] at hlen
        omega
      obtain ⟨found, hfound, hiff⟩ := exists_searchBackwards h ((h.indexAt_iff _ IBI).mp hIBI) hJBI'
        hJB (by omega) .nil (by simp)
      rw [hfound]
      congr 1
      rw [Bool.eq_iff_iff, hiff, LoopPurity.Graph.searchBack_iff (Nat.le_succ _) (by omega)
        (by simp)]

/-! ### The results -/

/-- An instruction comes first in their block, or there is a way to the block of the other. -/
def Precedes (L : Loop F) (rpo : RPO β) (I J : ι) : Prop :=
  (F.getParent I = F.getParent J ∧
    (F.instructions (F.getParent J)).idxOf I < (F.instructions (F.getParent J)).idxOf J) ∨
  TransGen (Forward L rpo) (F.getParent I) (F.getParent J)

theorem isBefore_location_iff (h : rpo.Exact L) {I J : ι} (hI : F.getParent I ∈ L.blocks)
    (hJ : F.getParent J ∈ L.blocks) :
    (graph F rpo).isBefore (location F rpo I) (location F rpo J) = true ↔ Precedes L rpo I J := by
  obtain ⟨i, hi⟩ := h.exists_index hI
  obtain ⟨j, hj⟩ := h.exists_index hJ
  rw [LoopPurity.Graph.isBefore_iff, Precedes]
  simp only [location, hi, hj, Option.getD_some]
  apply or_congr _ (precedes_graph_iff h hi hj)
  constructor
  · intro heq
    obtain ⟨rfl, hlt⟩ := heq
    have hblock := h.indexAt_inj hi hj
    exact ⟨hblock, hblock ▸ hlt⟩
  · intro heq
    obtain ⟨hblock, hlt⟩ := heq
    rw [hblock] at hi ⊢
    exact ⟨Option.some.inj (hi.symm.trans hj), hlt⟩

/-- The order of the instructions of a loop. -/
def before (F : Cfg β ι) (rpo : RPO β) (I J : ι) : Bool :=
  (graph F rpo).isBefore (location F rpo I) (location F rpo J)

theorem strictOrder_before : LaterPoint.StrictOrder (before F rpo) where
  irrefl := fun _ => LoopPurity.Graph.isBefore_irrefl _ _
  trans := LoopPurity.Graph.isBefore_trans

/-- The point is anywhere or in the loop. -/
def InsertionPoint.InLoop (L : Loop F) (a : InsertionPoint ι) : Prop :=
  ∀ I, a.earliest = some I → F.getParent I ∈ L.blocks

theorem meet_eq (h : rpo.Exact L) {turns : ℕ} (hturns : L.blocks.length ≤ turns)
    {a b : InsertionPoint ι} (ha : a.InLoop L) (hb : b.InLoop L) :
    a.meet F rpo turns b =
      some ((LaterPoint.later (before F rpo) a.earliest b.earliest).map InsertionPoint.mk) := by
  cases a with
  | mk a =>
      cases b with
      | mk b =>
          cases a with
          | none => rfl
          | some I =>
              cases b with
              | none => rfl
              | some J =>
                  have hIJ := isBefore_eq h hturns (ha I rfl) (hb J rfl)
                  have hJI := isBefore_eq h hturns (hb J rfl) (ha I rfl)
                  rw [InsertionPoint.meet]
                  dsimp only
                  rw [hIJ, hJI, LaterPoint.later, before, before]
                  dsimp only [Option.bind_eq_bind, Option.bind_some]
                  split
                  · rfl
                  · split
                    · rfl
                    · split
                      · rfl
                      · rfl

/-- `isBefore` and `operator&` for the instructions of a loop. -/
structure Ordered (L : Loop F) (rpo : RPO β) (turns : ℕ) : Prop where
  isBefore_iff : ∀ I J, F.getParent I ∈ L.blocks → F.getParent J ∈ L.blocks →
    ∃ found, isBefore F rpo turns I J = some found ∧ (found = true ↔ Precedes L rpo I J)
  irrefl : ∀ I, F.getParent I ∈ L.blocks → isBefore F rpo turns I I = some false
  trans : ∀ I J K, F.getParent I ∈ L.blocks → F.getParent J ∈ L.blocks →
    F.getParent K ∈ L.blocks → isBefore F rpo turns I J = some true →
    isBefore F rpo turns J K = some true → isBefore F rpo turns I K = some true
  comm : ∀ a b : InsertionPoint ι, a.InLoop L → b.InLoop L →
    ∃ res, a.meet F rpo turns b = some res ∧ b.meet F rpo turns a = some res
  assoc : ∀ a b c ab bc : InsertionPoint ι, a.InLoop L → b.InLoop L → c.InLoop L →
    a.meet F rpo turns b = some (some ab) → b.meet F rpo turns c = some (some bc) →
    ∀ l r, ab.meet F rpo turns c = some (some l) → a.meet F rpo turns bc = some (some r) → l = r
  later : ∀ I J, F.getParent I ∈ L.blocks → F.getParent J ∈ L.blocks →
    I = J ∨ isBefore F rpo turns I J = some true →
    (InsertionPoint.mk (some I)).meet F rpo turns ⟨some J⟩ = some (some ⟨some J⟩)

theorem RPO.Exact.ordered (h : rpo.Exact L) {turns : ℕ} (hturns : L.blocks.length ≤ turns) :
    Ordered L rpo turns where
  isBefore_iff := by
    intro I J hI hJ
    exact ⟨_, isBefore_eq h hturns hI hJ, isBefore_location_iff h hI hJ⟩
  irrefl := by
    intro I hI
    rw [isBefore_eq h hturns hI hI, LoopPurity.Graph.isBefore_irrefl]
  trans := by
    intro I J K hI hJ hK hIJ hJK
    rw [isBefore_eq h hturns hI hJ, Option.some.injEq] at hIJ
    rw [isBefore_eq h hturns hJ hK, Option.some.injEq] at hJK
    rw [isBefore_eq h hturns hI hK, LoopPurity.Graph.isBefore_trans hIJ hJK]
  comm := by
    intro a b ha hb
    refine ⟨_, meet_eq h hturns ha hb, ?_⟩
    rw [meet_eq h hturns hb ha, LaterPoint.later_comm strictOrder_before]
  assoc := by
    intro a b c ab bc ha hb hc hab hbc l r hl hr
    have hmem : ∀ {x y z : InsertionPoint ι}, x.InLoop L → y.InLoop L →
        x.meet F rpo turns y = some (some z) →
        LaterPoint.later (before F rpo) x.earliest y.earliest = some z.earliest ∧ z.InLoop L := by
      intro x y z hx hy hz
      rw [meet_eq h hturns hx hy] at hz
      obtain ⟨p, hp, rfl⟩ := Option.map_eq_some_iff.mp (Option.some.inj hz)
      refine ⟨hp, fun I hI => ?_⟩
      cases LaterPoint.le_or_le_of_later hp with
      | inl heq => exact hy I (heq.2.symm.trans hI)
      | inr heq => exact hx I (heq.2.symm.trans hI)
    obtain ⟨hab', hab⟩ := hmem ha hb hab
    obtain ⟨hbc', hbc⟩ := hmem hb hc hbc
    have heq := LaterPoint.later_assoc strictOrder_before hab' (hmem hab hc hl).1 hbc'
      (hmem ha hbc hr).1
    cases l with
    | mk l =>
        cases r with
        | mk r => exact congrArg InsertionPoint.mk heq
  later := by
    intro I J hI hJ hle
    have hpoint : ∀ {K : ι}, F.getParent K ∈ L.blocks → (InsertionPoint.mk (some K)).InLoop L := by
      intro K hK K' heq
      cases heq
      exact hK
    rw [meet_eq h hturns (hpoint hI) (hpoint hJ)]
    have hle' : LaterPoint.Le (before F rpo) (some I) (some J) := by
      refine hle.imp_right fun hbefore => ?_
      rw [isBefore_eq h hturns hI hJ] at hbefore
      exact Option.some.inj hbefore
    rw [LaterPoint.later_of_le strictOrder_before hle']
    rfl

/-- The reverse post-order of a loop has each block once, with its index, and the order of insertion
points is that of paths that increase the index. -/
theorem getLoopRPO_ordered (L : Loop F) (fuel turns : ℕ) (hfuel : L.blocks.length < fuel)
    (hturns : L.blocks.length ≤ turns) :
    ∃ rpo, getLoopRPO L fuel = some rpo ∧ rpo.blocks.Nodup ∧
      (∀ b, b ∈ rpo.blocks ↔ b ∈ L.blocks) ∧
      (∀ b i, rpo.indexAt b = some i ↔ rpo.blocks[i]? = some b) ∧ Ordered L rpo turns := by
  obtain ⟨rpo, hrpo, h⟩ := exists_getLoopRPO L hfuel
  exact ⟨rpo, hrpo, h.nodup, h.mem_blocks, h.indexAt_iff, h.ordered hturns⟩

/-- A loop of three blocks, with a path and an edge from the header to the latch. -/
def shortcut : Cfg (Fin 3) (Fin 3) where
  entry := 0
  successors := fun b => if b = 0 then [1, 2] else if b = 1 then [2] else [0]
  predecessors := fun b => if b = 0 then [2] else if b = 1 then [0] else [0, 1]
  mem_predecessors := by decide
  reachable := by
    intro b
    by_cases hb : b = 0
    · exact hb ▸ .refl
    · apply ReflTransGen.single
      revert b
      decide
  instructions := fun b => [b]
  getParent := id
  mem_instructions := by decide
  nodup_instructions := by decide

def shortcutLoop : Loop shortcut where
  blocks := [0, 1, 2]
  header := 0
  nodup := by decide
  mem_blocks := by
    intro b
    apply iff_of_true (by revert b; decide)
    by_cases hb : b = 0
    · exact .inl hb
    · refine .inr ⟨2, by decide, fun h => h.1 rfl, hb, ?_⟩
      by_cases hlatch : b = 2
      · exact hlatch ▸ .refl
      · apply ReflTransGen.single
        revert b
        decide

theorem getLoopRPO_ordered_shortcut : ∃ rpo, getLoopRPO shortcutLoop 4 = some rpo ∧
    rpo.blocks.Nodup ∧ (∀ b, b ∈ rpo.blocks ↔ b ∈ shortcutLoop.blocks) ∧
    (∀ b i, rpo.indexAt b = some i ↔ rpo.blocks[i]? = some b) ∧ Ordered shortcutLoop rpo 3 :=
  getLoopRPO_ordered shortcutLoop 4 3 (by decide) (by decide)

end Nidhugg.LoopOrder
