import Nidhugg.Library.Frontier
import Nidhugg.Model.FrontierFilter

/-! # The filter keeps the maximal elements

The sequence consists of the elements that are kept, those that have been dropped and those that
the outer loop has not reached. The first two parts are a frontier of what it has reached. -/

namespace Nidhugg.FrontierFilter

open Frontier SwapRemove

variable {α : Type*} (less : α → α → Bool)

/-! ### The inner loop -/

/-- What the inner loop does to the elements that it compares with `x`. -/
structure Checked (x : α) (included : Bool) (front kept below : List α) :
    Prop where
  perm : (kept ++ below).Perm front
  drops : ∀ y ∈ below, less y x = true
  includes : included = true → ∀ y ∈ kept, less x y = false ∧ less y x = false
  excludes : included = false → ∃ y ∈ kept, less x y = true

theorem checkFill_append (current : ℕ) (x : α) (n : ℕ) (done front back : List α)
    (hn : front.length = n) (hcurrent : (done ++ front).length ≤ current)
    (hx : (done ++ front ++ back)[current]? = some x) :
    ∃ included kept below,
      checkFill less current (done ++ front ++ back) done.length (done ++ front).length =
        some (included, done ++ kept ++ below ++ back, (done ++ kept).length) ∧
      Checked less x included front kept below := by
  induction n generalizing done front back with
  | zero =>
      obtain rfl := List.length_eq_zero_iff.mp hn
      refine ⟨true, [], [], ?_, .refl _, by simp, by simp, by simp⟩
      rw [checkFill]
      simp
  | succ n ih =>
      obtain ⟨y, front, rfl⟩ := List.exists_cons_of_length_eq_add_one hn
      have hlength : front.length = n := by simpa using hn
      have hlt : done.length < (done ++ y :: front).length := by simp
      have hy : (done ++ y :: front ++ back)[done.length]? = some y := by simp
      rw [checkFill, if_pos hlt, hx, hy, Option.bind_eq_bind, Option.bind_some,
        Option.bind_some]
      cases hxy : less x y with
      | true =>
          refine ⟨false, y :: front, [], by simp, by simp, by simp, by simp, ?_⟩
          exact fun _ => ⟨y, by simp, hxy⟩
      | false =>
          cases hyx : less y x with
          | true =>
              obtain ⟨rest, hrest, hswap⟩ := swap_last done front back y
              have hfill : (done ++ y :: front).length - 1 = done.length + front.length := by
                simp
              have hsame : (done ++ rest).length = done.length + front.length := by
                simp [hrest.length_eq]
              -- The entry at `current` is behind everything that moves
              have hx' : (done ++ rest ++ y :: back)[current]? = some x := by
                have hle : (done ++ y :: front).length ≤ current := hcurrent
                have hbehind : (done ++ rest ++ [y]).length = (done ++ y :: front).length := by
                  simp [hrest.length_eq]
                rw [List.getElem?_append_right hle, ← hbehind] at hx
                rw [List.append_cons, List.getElem?_append_right (hbehind ▸ hle), hx]
              obtain ⟨included, kept, below, hrun, hchecked⟩ := ih done rest (y :: back)
                (hrest.length_eq.trans hlength)
                (by rw [hsame]; simp only [List.length_append, List.length_cons] at hcurrent; omega)
                hx'
              refine ⟨included, kept, below ++ [y], ?_, ?_, ?_, hchecked.includes,
                hchecked.excludes⟩
              · rw [hsame] at hrun
                simp only [Bool.false_eq_true, if_false, if_true, hfill, hswap,
                  Option.bind_eq_bind, Option.bind_some, hrun]
                simp
              · rw [← List.append_assoc]
                exact (List.perm_append_singleton y _).trans
                  ((hchecked.perm.trans hrest).cons y)
              · intro z hz
                cases List.mem_append.mp hz with
                | inl hz => exact hchecked.drops z hz
                | inr hz => rw [List.mem_singleton.mp hz, hyx]
          | false =>
              have hsplit : done ++ [y] ++ front = done ++ y :: front := by simp
              obtain ⟨included, kept, below, hrun, hchecked⟩ := ih (done ++ [y]) front back
                hlength (by rw [hsplit]; exact hcurrent) (by rw [hsplit]; exact hx)
              refine ⟨included, y :: kept, below, ?_, hchecked.perm.cons y, hchecked.drops, ?_,
                ?_⟩
              · rw [hsplit, List.length_append, List.length_singleton] at hrun
                simp only [Bool.false_eq_true, if_false, hrun]
                simp
              · intro hincluded z hz
                cases hz with
                | head => exact ⟨hxy, hyx⟩
                | tail _ hz => exact hchecked.includes hincluded z hz
              · intro hexcluded
                obtain ⟨z, hz, hxz⟩ := hchecked.excludes hexcluded
                exact ⟨z, List.mem_cons_of_mem _ hz, hxz⟩

/-! ### The outer loop -/

variable {less}
variable [IsStrictOrder α (less · · = true)]

theorem addCurrent_append {kept dropped : List α} (h : IsFrontier less kept dropped) (x : α)
    (rest : List α) :
    ∃ kept' dropped',
      addCurrent less (kept ++ dropped ++ x :: rest, kept.length) (kept ++ dropped).length =
        some (kept' ++ dropped' ++ rest, kept'.length) ∧
      IsFrontier less kept' dropped' ∧
      (kept' ++ dropped').Perm (kept ++ dropped ++ [x]) := by
  have hcheck := checkFill_append less (kept ++ dropped).length x kept.length [] kept
    (dropped ++ x :: rest) rfl (by simp) (by simp)
  obtain ⟨included, front, below, hrun, hchecked⟩ := hcheck
  simp only [List.nil_append, List.length_nil] at hrun
  have hperm : (front ++ (below ++ dropped)).Perm (kept ++ dropped) := by
    rw [← List.append_assoc]
    exact hchecked.perm.append_right dropped
  have hlength : (kept ++ dropped).length = front.length + (below ++ dropped).length := by
    rw [← hperm.length_eq, List.length_append]
  have hfront := h.perm hchecked.perm.symm (.refl dropped)
  have hassoc : front ++ below ++ (dropped ++ x :: rest) =
      front ++ (below ++ dropped) ++ x :: rest := by simp
  rw [addCurrent, List.append_assoc kept dropped, hrun, Option.bind_eq_bind, Option.bind_some]
  cases included with
  | false =>
      obtain ⟨y, hy, hxy⟩ := hchecked.excludes rfl
      obtain rfl := hfront.nothing_below hchecked.drops hy hxy
      refine ⟨front, dropped ++ [x], by simp, ?_, ?_⟩
      · rw [List.append_nil] at hfront
        exact hfront.discard hy hxy
      · rw [← List.append_assoc]
        exact hperm.append_right [x]
  | true =>
      have hnew := hfront.keep (hchecked.includes rfl) hchecked.drops
      by_cases hmoved : below ++ dropped = []
      · have hfill : front.length = (kept ++ dropped).length := by simp [hlength, hmoved]
        refine ⟨front ++ [x], below ++ dropped, ?_, hnew, ?_⟩
        · simp [hassoc, hfill, hmoved]
        · rw [hmoved] at hperm ⊢
          simpa using hperm.append_right [x]
      · obtain ⟨moved, hmoves, hswap⟩ := swap_first front (below ++ dropped) rest x hmoved
        have hpos := List.length_pos_iff.mpr hmoved
        have hfill : front.length ≠ front.length + (below ++ dropped).length := by omega
        refine ⟨front ++ [x], moved, ?_, hnew.perm (.refl _) hmoves.symm, ?_⟩
        · rw [hassoc]
          simp only [hlength, if_true, if_pos hfill, hswap, Option.bind_eq_bind,
            Option.bind_some]
          simp
        · have hx : (front ++ [x] ++ moved).Perm (front ++ (moved ++ [x])) := by
            rw [List.append_assoc]
            exact (List.perm_append_singleton x moved).symm.append_left front
          rw [← List.append_assoc] at hx
          exact hx.trans (((hmoves.append_left front).trans hperm).append_right [x])

theorem foldlM_addCurrent {kept dropped : List α} (h : IsFrontier less kept dropped)
    (rest : List α) :
    ∃ kept' dropped',
      (List.range' (kept ++ dropped).length rest.length).foldlM (addCurrent less)
        (kept ++ dropped ++ rest, kept.length) = some (kept' ++ dropped', kept'.length) ∧
      IsFrontier less kept' dropped' ∧
      (kept' ++ dropped').Perm (kept ++ dropped ++ rest) := by
  induction rest generalizing kept dropped with
  | nil => exact ⟨kept, dropped, by simp, h, by simp⟩
  | cons x rest ih =>
      obtain ⟨kept₁, dropped₁, hturn, h₁, hperm₁⟩ := addCurrent_append h x rest
      obtain ⟨kept₂, dropped₂, hrun, h₂, hperm₂⟩ := ih h₁
      refine ⟨kept₂, dropped₂, ?_, h₂, ?_⟩
      · have hlength : (kept ++ dropped).length + 1 = (kept₁ ++ dropped₁).length := by
          simpa [Nat.add_assoc] using hperm₁.length_eq.symm
        rw [List.length_cons, List.range'_succ, List.foldlM_cons, hturn, hlength]
        exact hrun
      · refine hperm₂.trans ((hperm₁.append_right rest).trans ?_)
        simp

variable (less)

/-- The filter ends with a rearrangement of the sequence whose elements before the returned
position are exactly its maximal elements. -/
theorem frontierFilter_eq_maxima (seq : List α) :
    ∃ out fill, frontierFilter less seq = some (out, fill) ∧ fill ≤ out.length ∧
      out.Perm seq ∧ (out.take fill).Perm (maxima less seq) := by
  obtain ⟨kept, dropped, hrun, hfrontier, hperm⟩ :=
    foldlM_addCurrent (IsFrontier.nil : IsFrontier less [] []) seq
  refine ⟨kept ++ dropped, kept.length, ?_, by simp, by simpa using hperm, ?_⟩
  · rw [frontierFilter, List.range_eq_range']
    exact hrun
  · rw [List.take_left]
    exact hfrontier.perm_maxima.trans (maxima_perm (by simpa using hperm))

/-- Whether a pair is smaller in both components. -/
def bothLess (p q : ℕ × ℕ) : Bool := p.1 < q.1 && p.2 < q.2

instance : IsStrictOrder (ℕ × ℕ) (bothLess · · = true) where
  irrefl p := by simp [bothLess]
  trans p q r hpq hqr := by
    simp only [bothLess, Bool.and_eq_true, decide_eq_true_eq] at *
    omega

theorem frontierFilter_eq_maxima_pairs :
    ∃ out fill, frontierFilter bothLess [(1, 1), (2, 3), (3, 2), (2, 3)] = some (out, fill) ∧
      out.Perm [(1, 1), (2, 3), (3, 2), (2, 3)] ∧
      (out.take fill).Perm [(2, 3), (3, 2), (2, 3)] := by
  obtain ⟨out, fill, hrun, -, hperm, hmaxima⟩ :=
    frontierFilter_eq_maxima bothLess [(1, 1), (2, 3), (3, 2), (2, 3)]
  exact ⟨out, fill, hrun, hperm, hmaxima⟩

end Nidhugg.FrontierFilter
