import Mathlib.Data.List.Nodup
import Mathlib.Data.List.ProdSigma
import Nidhugg.Model.PowerArmBranches

/-! # Nudged coherence positions

When two neighbours of a branch exchange places, the positions of their stores to common bytes are
adjusted so that both orders of the stores lead to the same coherence order. -/

namespace Nidhugg.PowerArmBranches

variable {e e0 e1 : Event} {choices c0 c1 : List Choice} {x : Addr} {p q : ℕ}

/-! ### The stores of an event -/

/-- An event stores to each byte at most once. -/
def DistinctStores (e : Event) : Prop :=
  ∀ (a b : ℕ) (A B : ByteAccess), e.baccesses[a]? = some A → e.baccesses[b]? = some B →
    A.isStore = true → B.isStore = true → A.addr = B.addr → a = b

theorem distinctStores_of_nodup (h : (e.baccesses.map ByteAccess.addr).Nodup) :
    DistinctStores e := by
  intro a b A B hA hB _ _ haddr
  have hlt := (List.getElem?_eq_some_iff.mp hA).1
  apply (List.getElem?_inj (by rwa [List.length_map]) h).mp
  rw [List.getElem?_map, List.getElem?_map, hA, hB, Option.map_some, Option.map_some, haddr]

/-- Stores have positions and loads have sources. -/
def ByteAccess.Fits (A : ByteAccess) : Choice → Prop
  | .coherence _ => A.isStore = true
  | .source _ => A.isStore = false

def Event.Fits (e : Event) (choices : List Choice) : Prop :=
  List.Forall₂ ByteAccess.Fits e.baccesses choices

/-- The event stores to a byte at position `p` of its coherence order. -/
def StoresAt (e : Event) (choices : List Choice) (x : Addr) (p : ℕ) : Prop :=
  ∃ (a : ℕ) (A : ByteAccess), e.baccesses[a]? = some A ∧ A.isStore = true ∧ A.addr = x ∧
    choices[a]? = some (.coherence p)

def StoresTo (e : Event) (x : Addr) : Prop := ∃ A ∈ e.baccesses, A.isStore = true ∧ A.addr = x

theorem StoresAt.storesTo (h : StoresAt e choices x p) : StoresTo e x := by
  obtain ⟨a, A, hA, hstore, haddr, _⟩ := h
  exact ⟨A, List.mem_of_getElem? hA, hstore, haddr⟩

theorem StoresAt.unique (h : DistinctStores e) (hp : StoresAt e choices x p)
    (hq : StoresAt e choices x q) : p = q := by
  obtain ⟨a, A, hA, hAs, hAx, hp⟩ := hp
  obtain ⟨b, B, hB, hBs, hBx, hq⟩ := hq
  rw [h a b A B hA hB hAs hBs (hAx.trans hBx.symm), hq] at hp
  cases hp
  rfl

/-! ### Single nudges -/

/-- What a nudge makes of two choices. -/
def nudged : Option Choice → Option Choice → Option Choice × Option Choice
  | some (.coherence p), some (.coherence q) =>
      if p < q then (some (.coherence p), some (.coherence (q - 1)))
      else (some (.coherence (p + 1)), some (.coherence q))
  | c, c' => (c, c')

theorem getElem?_nudgeAt (st : List Choice × List Choice) (a b a' b' : ℕ) :
    (nudgeAt st a b).1[a']? = (if a' = a then (nudged st.1[a]? st.2[b]?).1 else st.1[a']?) ∧
      (nudgeAt st a b).2[b']? = if b' = b then (nudged st.1[a]? st.2[b]?).2 else st.2[b']? := by
  have hset : ∀ (l : List Choice) (i j : ℕ) (c : Choice), l[i]?.isSome = true →
      (l.set i c)[j]? = if j = i then some c else l[j]? := by
    intro l i j c hi
    rw [List.getElem?_set]
    have hlt : i < l.length := by simpa using hi
    by_cases hij : i = j
    · simp [hij.symm, hlt]
    · simp [hij, Ne.symm hij]
  have hsame : ∀ (l : List Choice) (i j : ℕ), l[j]? = if j = i then l[i]? else l[j]? := by
    intro l i j
    split
    · rename_i h
      rw [h]
    · rfl
  by_cases hboth : ∃ y z, st.1[a]? = some (.coherence y) ∧ st.2[b]? = some (.coherence z)
  · obtain ⟨y, z, hy, hz⟩ := hboth
    simp only [nudgeAt, nudged, hy, hz]
    split
    · constructor
      · rw [← hy]
        exact hsame st.1 a a'
      · exact hset st.2 b b' _ (by simp [hz])
    · constructor
      · exact hset st.1 a a' _ (by simp [hy])
      · rw [← hz]
        exact hsame st.2 b b'
  · have hkeep : nudgeAt st a b = st := by
      unfold nudgeAt
      split
      · rename_i y z hy hz
        exact (hboth ⟨y, z, hy, hz⟩).elim
      · rfl
    have hnudged : nudged st.1[a]? st.2[b]? = (st.1[a]?, st.2[b]?) := by
      unfold nudged
      split
      · rename_i y z hy hz
        exact (hboth ⟨y, z, hy, hz⟩).elim
      · rfl
    rw [hkeep, hnudged]
    exact ⟨hsame st.1 a a', hsame st.2 b b'⟩

/-- Nudges of separate pairs do not influence each other. -/
theorem getElem?_foldl_nudgeAt {ps : List (ℕ × ℕ)} (hfst : (ps.map Prod.fst).Nodup)
    (hsnd : (ps.map Prod.snd).Nodup) (st : List Choice × List Choice) :
    (∀ a, a ∉ ps.map Prod.fst →
      (ps.foldl (fun st p => nudgeAt st p.1 p.2) st).1[a]? = st.1[a]?) ∧
    (∀ b, b ∉ ps.map Prod.snd →
      (ps.foldl (fun st p => nudgeAt st p.1 p.2) st).2[b]? = st.2[b]?) ∧
    ∀ a b, (a, b) ∈ ps →
      (ps.foldl (fun st p => nudgeAt st p.1 p.2) st).1[a]? = (nudged st.1[a]? st.2[b]?).1 ∧
      (ps.foldl (fun st p => nudgeAt st p.1 p.2) st).2[b]? = (nudged st.1[a]? st.2[b]?).2 := by
  induction ps generalizing st with
  | nil => simp
  | cons head ps ih =>
      obtain ⟨a₀, b₀⟩ := head
      obtain ⟨ha₀, hfst⟩ := List.nodup_cons.mp hfst
      obtain ⟨hb₀, hsnd⟩ := List.nodup_cons.mp hsnd
      obtain ⟨ihfst, ihsnd, ihboth⟩ := ih hfst hsnd (nudgeAt st a₀ b₀)
      have hstep := getElem?_nudgeAt st a₀ b₀
      rw [List.foldl_cons]
      refine ⟨?_, ?_, ?_⟩
      · intro a ha
        rw [List.map_cons, List.mem_cons, not_or] at ha
        rw [ihfst a ha.2, (hstep a b₀).1, if_neg ha.1]
      · intro b hb
        rw [List.map_cons, List.mem_cons, not_or] at hb
        rw [ihsnd b hb.2, (hstep a₀ b).2, if_neg hb.1]
      · intro a b hab
        rcases List.mem_cons.mp hab with heq | hab'
        · obtain ⟨rfl, rfl⟩ := Prod.mk.inj heq
          rw [ihfst a ha₀, ihsnd b hb₀, (hstep a b).1, (hstep a b).2, if_pos rfl, if_pos rfl]
          exact ⟨rfl, rfl⟩
        · have ha : a ≠ a₀ := by
            rintro rfl
            exact ha₀ (List.mem_map.mpr ⟨_, hab', rfl⟩)
          have hb : b ≠ b₀ := by
            rintro rfl
            exact hb₀ (List.mem_map.mpr ⟨_, hab', rfl⟩)
          have hboth := ihboth a b hab'
          rwa [(hstep a b).1, (hstep a b).2, if_neg ha, if_neg hb] at hboth

/-! ### Pairs of stores to the same byte -/

/-- The pairs of accesses in the order of the loops. -/
def pairs (e0 e1 : Event) : List (ℕ × ℕ) :=
  ((List.range e0.baccesses.length) ×ˢ (List.range e1.baccesses.length)).filter fun p =>
    sameByte e0 e1 p.1 p.2

theorem nudge_eq_foldl (e0 e1 : Event) (st : List Choice × List Choice) :
    nudge e0 e1 st = (pairs e0 e1).foldl (fun st p => nudgeAt st p.1 p.2) st := by
  rw [nudge, pairs, List.foldl_filter]
  generalize List.range e0.baccesses.length = as
  induction as generalizing st with
  | nil => rfl
  | cons a as ih =>
      rw [List.product_cons, List.foldl_append, List.foldl_cons, ih, List.foldl_map]

theorem sameByte_iff {a b : ℕ} : sameByte e0 e1 a b = true ↔
    ∃ A B, e0.baccesses[a]? = some A ∧ e1.baccesses[b]? = some B ∧ A.isStore = true ∧
      B.isStore = true ∧ A.addr = B.addr := by
  unfold sameByte
  split
  · rename_i A B hA hB
    rw [hA, hB]
    simp [and_assoc]
  · rename_i hnot
    simp only [Bool.false_eq_true, false_iff, not_exists, not_and]
    intro A B hA hB
    exact (hnot A B hA hB).elim

theorem mem_pairs {a b : ℕ} : (a, b) ∈ pairs e0 e1 ↔ sameByte e0 e1 a b = true := by
  rw [pairs, List.mem_filter, List.mem_product, List.mem_range, List.mem_range]
  constructor
  · exact And.right
  · intro h
    obtain ⟨A, B, hA, hB, _⟩ := sameByte_iff.mp h
    exact ⟨⟨(List.getElem?_eq_some_iff.mp hA).1, (List.getElem?_eq_some_iff.mp hB).1⟩, h⟩

theorem nodup_pairs (h0 : DistinctStores e0) (h1 : DistinctStores e1) :
    ((pairs e0 e1).map Prod.fst).Nodup ∧ ((pairs e0 e1).map Prod.snd).Nodup := by
  have hnodup : (pairs e0 e1).Nodup :=
    (List.nodup_range.product List.nodup_range).filter _
  constructor
  · apply hnodup.map_on
    rintro ⟨a, b⟩ hab ⟨a', b'⟩ hab' heq
    obtain rfl : a = a' := heq
    obtain ⟨A, B, hA, hB, hAs, hBs, haddr⟩ := sameByte_iff.mp (mem_pairs.mp hab)
    obtain ⟨A', B', hA', hB', _, hBs', haddr'⟩ := sameByte_iff.mp (mem_pairs.mp hab')
    rw [hA] at hA'
    cases hA'
    rw [h1 b b' B B' hB hB' hBs hBs' (haddr.symm.trans haddr')]
  · apply hnodup.map_on
    rintro ⟨a, b⟩ hab ⟨a', b'⟩ hab' heq
    obtain rfl : b = b' := heq
    obtain ⟨A, B, hA, hB, hAs, hBs, haddr⟩ := sameByte_iff.mp (mem_pairs.mp hab)
    obtain ⟨A', B', hA', hB', hAs', _, haddr'⟩ := sameByte_iff.mp (mem_pairs.mp hab')
    rw [hB] at hB'
    cases hB'
    rw [h0 a a' A A' hA hA' hAs hAs' (haddr.trans haddr'.symm)]

/-! ### The choices after an exchange -/

/-- The choices without the positions. -/
def Choice.erase : Choice → Choice
  | .coherence _ => .coherence 0
  | .source src => .source src

theorem erase_nudged (c c' : Option Choice) :
    (nudged c c').1.map Choice.erase = c.map Choice.erase ∧
      (nudged c c').2.map Choice.erase = c'.map Choice.erase := by
  unfold nudged
  split
  · split
    · exact ⟨rfl, rfl⟩
    · exact ⟨rfl, rfl⟩
  · exact ⟨rfl, rfl⟩

theorem erase_nudgeAt (st : List Choice × List Choice) (a b : ℕ) :
    (nudgeAt st a b).1.map Choice.erase = st.1.map Choice.erase ∧
      (nudgeAt st a b).2.map Choice.erase = st.2.map Choice.erase := by
  have hnudged := erase_nudged st.1[a]? st.2[b]?
  constructor
  · apply List.ext_getElem?
    intro a'
    rw [List.getElem?_map, List.getElem?_map, (getElem?_nudgeAt st a b a' b).1]
    by_cases ha : a' = a
    · rw [if_pos ha, ha]
      exact hnudged.1
    · rw [if_neg ha]
  · apply List.ext_getElem?
    intro b'
    rw [List.getElem?_map, List.getElem?_map, (getElem?_nudgeAt st a b a b').2]
    by_cases hb : b' = b
    · rw [if_pos hb, hb]
      exact hnudged.2
    · rw [if_neg hb]

/-- An exchange changes nothing but positions. -/
theorem erase_nudge (st : List Choice × List Choice) :
    (nudge e0 e1 st).1.map Choice.erase = st.1.map Choice.erase ∧
      (nudge e0 e1 st).2.map Choice.erase = st.2.map Choice.erase := by
  rw [nudge_eq_foldl]
  induction pairs e0 e1 generalizing st with
  | nil => exact ⟨rfl, rfl⟩
  | cons p ps ih =>
      obtain ⟨hfst, hsnd⟩ := ih (nudgeAt st p.1 p.2)
      obtain ⟨hfst', hsnd'⟩ := erase_nudgeAt st p.1 p.2
      exact ⟨hfst.trans hfst', hsnd.trans hsnd'⟩

theorem fits_iff_of_erase {choices' : List Choice}
    (h : choices.map Choice.erase = choices'.map Choice.erase) :
    e.Fits choices ↔ e.Fits choices' := by
  have herase : (fun A c => ByteAccess.Fits A (Choice.erase c)) = ByteAccess.Fits := by
    funext A c
    cases c <;> rfl
  unfold Event.Fits
  rw [← herase, ← List.forall₂_map_right_iff, h, List.forall₂_map_right_iff]

/-- The positions of two stores to the same byte, as they are nudged. -/
theorem storesAt_nudge_both (h0 : DistinctStores e0) (h1 : DistinctStores e1)
    (hp : StoresAt e0 c0 x p) (hq : StoresAt e1 c1 x q) :
    StoresAt e0 (nudge e0 e1 (c0, c1)).1 x (if p < q then p else p + 1) ∧
      StoresAt e1 (nudge e0 e1 (c0, c1)).2 x (if p < q then q - 1 else q) := by
  obtain ⟨hfst, hsnd⟩ := nodup_pairs h0 h1
  obtain ⟨_, _, hboth⟩ := getElem?_foldl_nudgeAt hfst hsnd (c0, c1)
  obtain ⟨a, A, hA, hAs, hAx, hca⟩ := hp
  obtain ⟨b, B, hB, hBs, hBx, hcb⟩ := hq
  have hab : (a, b) ∈ pairs e0 e1 :=
    mem_pairs.mpr (sameByte_iff.mpr ⟨A, B, hA, hB, hAs, hBs, hAx.trans hBx.symm⟩)
  obtain ⟨ha, hb⟩ := hboth a b hab
  rw [nudge_eq_foldl]
  dsimp only at ha hb
  rw [hca, hcb] at ha hb
  refine ⟨⟨a, A, hA, hAs, hAx, ?_⟩, ⟨b, B, hB, hBs, hBx, ?_⟩⟩
  · rw [ha, nudged]
    split <;> rfl
  · rw [hb, nudged]
    split <;> rfl

/-- A store to a byte to which the other event does not store keeps its position. -/
theorem storesAt_nudge_left (h0 : DistinctStores e0) (h1 : DistinctStores e1)
    (hp : StoresAt e0 c0 x p) (hx : ¬StoresTo e1 x) :
    StoresAt e0 (nudge e0 e1 (c0, c1)).1 x p := by
  obtain ⟨hfst, hsnd⟩ := nodup_pairs h0 h1
  obtain ⟨hne, _, _⟩ := getElem?_foldl_nudgeAt hfst hsnd (c0, c1)
  obtain ⟨a, A, hA, hAs, hAx, hca⟩ := hp
  rw [nudge_eq_foldl]
  refine ⟨a, A, hA, hAs, hAx, ?_⟩
  rw [hne, hca]
  intro ha
  obtain ⟨⟨a', b⟩, hab, rfl⟩ := List.mem_map.mp ha
  obtain ⟨A', B, hA', hB, _, hBs, haddr⟩ := sameByte_iff.mp (mem_pairs.mp hab)
  rw [hA] at hA'
  cases hA'
  exact hx ⟨B, List.mem_of_getElem? hB, hBs, haddr.symm.trans hAx⟩

theorem storesAt_nudge_right (h0 : DistinctStores e0) (h1 : DistinctStores e1)
    (hq : StoresAt e1 c1 x q) (hx : ¬StoresTo e0 x) :
    StoresAt e1 (nudge e0 e1 (c0, c1)).2 x q := by
  obtain ⟨hfst, hsnd⟩ := nodup_pairs h0 h1
  obtain ⟨_, hne, _⟩ := getElem?_foldl_nudgeAt hfst hsnd (c0, c1)
  obtain ⟨b, B, hB, hBs, hBx, hcb⟩ := hq
  rw [nudge_eq_foldl]
  refine ⟨b, B, hB, hBs, hBx, ?_⟩
  rw [hne, hcb]
  intro hb
  obtain ⟨⟨a, b'⟩, hab, rfl⟩ := List.mem_map.mp hb
  obtain ⟨A, B', hA, hB', hAs, _, haddr⟩ := sameByte_iff.mp (mem_pairs.mp hab)
  rw [hB] at hB'
  cases hB'
  exact hx ⟨A, List.mem_of_getElem? hA, hAs, haddr.trans hBx⟩

end Nidhugg.PowerArmBranches
