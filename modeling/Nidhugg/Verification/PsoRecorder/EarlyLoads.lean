import Mathlib.Data.List.Forall2
import Nidhugg.Verification.PsoRecorder.Batches

/-! # Loads that read pending stores

The buffers of a thread stay projections of its pending stores together with the loads that have
read them early. The last of these loads is noted at the first byte of the store. -/

namespace Nidhugg.PsoHistory

open ProjectedQueues PsoRecorder

/-- A pending store, with the loads that have read it early. -/
abbrev StoreRows := AccessRange × List ℕ

def StoreRows.covers (e : StoreRows) (b : SymAddr) : Bool := e.1.covers b

variable {s t : PsoRecorder} {log batch : List PsoLogged} {pid tid i : ℕ} {b c : SymAddr}
  {ml : AccessRange} {rows : List ℕ} {pending front back : List StoreRows} {e : StoreRows}
  {wakeups : List PsoAccess} {written : List PsoLocation} {pst : PsoPendingStore}

/-- An entry in the buffer of a byte stands for a pending store. -/
structure EntryOf (b : SymAddr) (pst : PsoPendingStore) (e : StoreRows) : Prop where
  ml : pst.ml = e.1
  rowe : e.1.1.addr = b → pst.lastRowe = e.2.getLast?

/-- The loads that have read a pending store early, compared with the loads that count already. -/
structure RowsOf (s : PsoRecorder) (log : List PsoLogged) (tid : ℕ) (e : StoreRows) : Prop where
  conflicts : ∀ i ∈ e.2, s.Conflicts i
  pid : ∀ i ∈ e.2, s.pidOf i = tid
  after : ∀ i ∈ e.2, ∀ x ∈ log, x.thread = tid → ∀ b ∈ e.1.bytes, ∀ own,
    x.access = .read b own → x.index ≤ i
  last : ∀ i ∈ e.2, ∀ r, e.2.getLast? = some r → i ≤ r

/-- The early loads of overlapping stores are in the order of the stores. -/
def InOrder (e e' : StoreRows) : Prop :=
  (∃ b, e.covers b = true ∧ e'.covers b = true) → ∀ i ∈ e.2, ∀ i' ∈ e'.2, i ≤ i'

/-- The pending stores of a real thread. -/
structure Pending (s : PsoRecorder) (log : List PsoLogged) (tid : ℕ)
    (pending : List StoreRows) : Prop where
  queues : ∀ b, List.Forall₂ (EntryOf b) ((s.threads tid).storeBuffers.get b)
    (queue StoreRows.covers pending b)
  rows : ∀ e ∈ pending, RowsOf s log tid e
  ordered : pending.Pairwise InOrder

theorem StoreRows.covers_iff : e.covers b = true ↔ b ∈ e.1.bytes := AccessRange.covers_iff

/-! ### Calls that leave the buffers of a thread as they are -/

theorem RowsOf.part (h : RowsOf s log tid e) (hpart : Part s t pid wakeups written)
    (hbatch : ∀ y ∈ batch, y.thread = tid → ∀ b ∈ e.1.bytes, ∀ own, y.access = .read b own →
      ∀ i ∈ e.2, y.index ≤ i) : RowsOf t (log ++ batch) tid e where
  conflicts := fun i hi => hpart.conflicts i (h.conflicts i hi)
  pid := by
    intro i hi
    rw [pidOf_congr hpart.pids]
    exact h.pid i hi
  after := by
    intro i hi x hx hthread b hb own haccess
    cases List.mem_append.mp hx with
    | inl hx => exact h.after i hi x hx hthread b hb own haccess
    | inr hx => exact hbatch x hx hthread b hb own haccess i hi
  last := h.last

/-- A call without accesses. -/
theorem RowsOf.same {e : StoreRows} (h : RowsOf s log tid e) (hpart : Part s t pid wakeups written) :
    RowsOf t log tid e := by
  rw [← List.append_nil log]
  exact h.part hpart nofun

theorem Pending.part (h : Pending s log tid pending) (hpart : Part s t pid wakeups written)
    (hbuffers : (t.threads tid).storeBuffers = (s.threads tid).storeBuffers)
    (hbatch : ∀ y ∈ batch, y.thread = tid → ∀ e ∈ pending, ∀ b ∈ e.1.bytes, ∀ own,
      y.access ≠ .read b own) : Pending t (log ++ batch) tid pending where
  queues := by
    rw [hbuffers]
    exact h.queues
  rows := by
    intro e he
    refine (h.rows e he).part hpart ?_
    intro y hy hthread b hb own haccess
    exact absurd haccess (hbatch y hy hthread e he b hb own)
  ordered := h.ordered

/-- A call without accesses. -/
theorem Pending.same (h : Pending s log tid pending) (hpart : Part s t pid wakeups written)
    (hbuffers : (t.threads tid).storeBuffers = (s.threads tid).storeBuffers) :
    Pending t log tid pending := by
  rw [← List.append_nil log]
  exact h.part hpart hbuffers nofun

/-- Nothing is pending to a byte whose buffer is empty. -/
theorem Pending.not_covers (h : Pending s log tid pending)
    (hget : (s.threads tid).storeBuffers.get b = []) (he : e ∈ pending) : b ∉ e.1.bytes := by
  have hqueue := h.queues b
  rw [hget] at hqueue
  intro hb
  have hmem : e ∈ queue StoreRows.covers pending b :=
    List.mem_filter.mpr ⟨he, StoreRows.covers_iff.mpr hb⟩
  cases hempty : queue StoreRows.covers pending b with
  | nil =>
      rw [hempty] at hmem
      cases hmem
  | cons x xs =>
      rw [hempty] at hqueue
      cases hqueue

/-! ### Stores to the buffers -/

theorem Pending.push (h : Pending s log tid pending) (hpart : Part s t pid wakeups written)
    (clock : VClock)
    (hbuffers : (t.threads tid).storeBuffers =
      (s.threads tid).storeBuffers.pushRange ml fun _ => ⟨ml, clock, none⟩) :
    Pending t log tid (pending ++ [(ml, [])]) where
  queues := by
    intro b
    rw [hbuffers, ByteBuffers.get_pushRange, queue_concat]
    by_cases hb : b ∈ ml.bytes
    · have hcovers : StoreRows.covers (ml, []) b = true := StoreRows.covers_iff.mpr hb
      rw [if_pos hb, if_pos hcovers]
      exact List.rel_append (h.queues b) (.cons ⟨rfl, fun _ => rfl⟩ .nil)
    · have hcovers : ¬ StoreRows.covers (ml, []) b = true := by
        rw [StoreRows.covers_iff]
        exact hb
      rw [if_neg hb, if_neg hcovers, List.append_nil]
      exact h.queues b
  rows := by
    intro e he
    cases List.mem_append.mp he with
    | inl he =>
        exact (h.rows e he).same hpart
    | inr he =>
        rw [List.mem_singleton.mp he]
        exact ⟨nofun, nofun, nofun, nofun⟩
  ordered := by
    rw [List.pairwise_append]
    refine ⟨h.ordered, List.pairwise_singleton .., ?_⟩
    intro e _ e' he'
    rw [List.mem_singleton.mp he']
    exact fun _ _ _ => nofun

/-! ### Early loads -/

/-- Two lists that are related, the second one with a known element. -/
theorem forall₂_split {α β : Type} {R : α → β → Prop} {l : List α} {xs ys : List β} {y : β}
    (h : List.Forall₂ R l (xs ++ y :: ys)) :
    ∃ l₁ a l₂, l = l₁ ++ a :: l₂ ∧ List.Forall₂ R l₁ xs ∧ R a y ∧ List.Forall₂ R l₂ ys := by
  induction xs generalizing l with
  | nil =>
      cases h with
      | cons hay hrest => exact ⟨[], _, _, rfl, .nil, hay, hrest⟩
  | cons x xs ih =>
      cases h with
      | cons hax hrest =>
          obtain ⟨l₁, a, l₂, rfl, hxs, hay, hys⟩ := ih hrest
          exact ⟨_ :: l₁, a, l₂, rfl, .cons hax hxs, hay, hys⟩

theorem noteEarly_append (hcovers : e.covers b = true)
    (hback : ∀ e ∈ back, StoreRows.covers e b = false) :
    noteEarly i b (front ++ e :: back) = front ++ (e.1, e.2 ++ [i]) :: back := by
  induction front with
  | nil =>
      have hnone : ¬ (back.any fun e => e.1.covers b) = true := by
        rw [List.any_eq_true]
        rintro ⟨e', he', hcovers'⟩
        have hnot := hback e' he'
        rw [StoreRows.covers, hcovers'] at hnot
        cases hnot
      have hcovers' : e.1.covers b = true := hcovers
      rw [List.nil_append, noteEarly, if_neg hnone, if_pos hcovers']
      rfl
  | cons e' front ih =>
      have hsome : ((front ++ e :: back).any fun e => e.1.covers b) = true := by
        rw [List.any_eq_true]
        exact ⟨e, by simp, hcovers⟩
      rw [List.cons_append, noteEarly, if_pos hsome, ih]
      rfl

/-- The youngest pending store to the first byte of a load that may be executed has the range of the
load, and no younger one overlaps it. -/
theorem Pending.exists_youngest (h : Pending s log tid pending)
    (hready : ∀ b ∈ ml.bytes, ∀ pst, ((s.threads tid).storeBuffers.get b).getLast? = some pst →
      pst.ml = ml) (hget : (s.threads tid).storeBuffers.get ml.1.addr ≠ []) :
    ∃ front rows back, pending = front ++ (ml, rows) :: back ∧
      ∀ e ∈ back, ∀ b ∈ ml.bytes, StoreRows.covers e b = false := by
  have hsome : ∃ e ∈ pending, ∃ b ∈ ml.bytes, StoreRows.covers e b = true := by
    by_contra hnone
    have hqueue := h.queues ml.1.addr
    rw [queue_eq_nil, List.forall₂_nil_right_iff] at hqueue
    · exact hget hqueue
    · intro e he
      rw [← Bool.not_eq_true]
      exact fun hcovers => hnone ⟨e, he, _, ml.addr_mem_bytes, hcovers⟩
  obtain ⟨front, e, back, hpending, ⟨b, hb, hcovers⟩, hback⟩ := exists_last hsome
  have hqueue := h.queues b
  rw [hpending, queue_append, queue_cons_of_pos hcovers, queue_eq_nil fun e he => hback e he b hb]
    at hqueue
  obtain ⟨l₁, pst, l₂, hl, -, hentry, hnil⟩ := forall₂_split hqueue
  cases hnil
  have hml := hready b hb pst (by rw [hl, List.getLast?_concat])
  refine ⟨front, e.2, back, ?_, hback⟩
  rw [hpending, ← hml, hentry.ml]

theorem Pending.mark (h : Pending s log tid (front ++ (ml, rows) :: back))
    (hback : ∀ e ∈ back, ∀ b ∈ ml.bytes, StoreRows.covers e b = false)
    (hpart : Part s t pid wakeups written)
    (hpid : s.pidOf i = tid) (hconflicts : t.Conflicts i) (hi : ∀ j, s.Conflicts j → j ≤ i)
    (hlog : ∀ x ∈ log, x.index ≤ i)
    (hbuffers : (t.threads tid).storeBuffers = { (s.threads tid).storeBuffers with
      get := Function.update (s.threads tid).storeBuffers.get ml.1.addr
        (((s.threads tid).storeBuffers.get ml.1.addr).modify
          (((s.threads tid).storeBuffers.get ml.1.addr).length - 1) fun pst =>
            { pst with lastRowe := some i }) }) :
    Pending t log tid (front ++ (ml, rows ++ [i]) :: back) where
  queues := by
    intro b
    have hqueue := h.queues b
    rw [hbuffers]
    dsimp only
    by_cases hb : b ∈ ml.bytes
    · have hcovers : ∀ rows, StoreRows.covers (ml, rows) b = true :=
        fun _ => StoreRows.covers_iff.mpr hb
      rw [queue_append, queue_cons_of_pos (hcovers _)] at hqueue ⊢
      obtain ⟨l₁, pst, l₂, hl, hfront, hentry, hrest⟩ := forall₂_split hqueue
      by_cases haddr : b = ml.1.addr
      · subst haddr
        have hnil : l₂ = [] := by
          rw [queue_eq_nil fun e he => hback e he _ hb] at hrest
          exact List.forall₂_nil_right_iff.mp hrest
        subst hnil
        rw [Function.update_self, hl]
        have hmodify : (l₁ ++ [pst]).modify ((l₁ ++ [pst]).length - 1)
            (fun pst => { pst with lastRowe := some i }) =
              l₁ ++ [{ pst with lastRowe := some i }] := by
          rw [List.modify_eq_take_drop]
          simp
        rw [hmodify]
        refine List.rel_append hfront (.cons ⟨hentry.ml, ?_⟩ hrest)
        exact fun _ => List.getLast?_concat.symm
      · rw [Function.update_of_ne haddr, hl]
        refine List.rel_append hfront (.cons ⟨hentry.ml, ?_⟩ hrest)
        exact fun heq => absurd heq.symm haddr
    · have hcovers : ∀ rows, StoreRows.covers (ml, rows) b = false :=
        fun _ => AccessRange.covers_eq_false.mpr hb
      have haddr : b ≠ ml.1.addr := fun heq => hb (heq ▸ ml.addr_mem_bytes)
      rw [queue_append, queue_cons_of_neg (hcovers _)] at hqueue ⊢
      rw [Function.update_of_ne haddr]
      exact hqueue
  rows := by
    have hsame : ∀ e ∈ front ++ (ml, rows) :: back, RowsOf t log tid e := by
      intro e he
      exact (h.rows e he).same hpart
    have hmarked := hsame (ml, rows) (by simp)
    intro e he
    rw [List.mem_append, List.mem_cons] at he
    rcases he with he | rfl | he
    · exact hsame e (List.mem_append_left _ he)
    · refine ⟨?_, ?_, ?_, ?_⟩
      · intro j hj
        cases List.mem_append.mp hj with
        | inl hj => exact hmarked.conflicts j hj
        | inr hj => exact List.mem_singleton.mp hj ▸ hconflicts
      · intro j hj
        cases List.mem_append.mp hj with
        | inl hj => exact hmarked.pid j hj
        | inr hj =>
            rw [List.mem_singleton.mp hj, pidOf_congr hpart.pids]
            exact hpid
      · intro j hj x hx hthread b hb own haccess
        cases List.mem_append.mp hj with
        | inl hj => exact hmarked.after j hj x hx hthread b hb own haccess
        | inr hj => exact List.mem_singleton.mp hj ▸ hlog x hx
      · intro j hj r hr
        rw [List.getLast?_concat] at hr
        obtain rfl := Option.some.inj hr
        cases List.mem_append.mp hj with
        | inl hj => exact hi j ((h.rows (ml, rows) (by simp)).conflicts j hj)
        | inr hj => exact Nat.le_of_eq (List.mem_singleton.mp hj)
    · exact hsame e (List.mem_append_right _ (List.mem_cons_of_mem _ he))
  ordered := by
    have hordered := h.ordered
    rw [List.pairwise_append, List.pairwise_cons] at hordered ⊢
    obtain ⟨hfront, ⟨-, hpairs⟩, hcross⟩ := hordered
    refine ⟨hfront, ⟨?_, hpairs⟩, ?_⟩
    · rintro e he ⟨b, hb, hcovers⟩
      rw [hback e he b (StoreRows.covers_iff.mp hb)] at hcovers
      cases hcovers
    · intro e he e' he'
      cases List.mem_cons.mp he' with
      | inr he' => exact hcross e he e' (List.mem_cons_of_mem _ he')
      | inl heq =>
          subst heq
          intro hoverlap j hj j' hj'
          cases List.mem_append.mp hj' with
          | inl hj' => exact hcross e he (ml, rows) List.mem_cons_self hoverlap j hj j' hj'
          | inr hj' =>
              rw [List.mem_singleton.mp hj']
              exact hi j ((h.rows e (List.mem_append_left _ he)).conflicts j hj)

/-! ### Updates -/

/-- The store that an auxiliary thread performs is the oldest one for all its bytes. -/
theorem Pending.exists_oldest (h : Pending s log tid pending)
    (hfronts : ∀ b ∈ ml.bytes, ∃ pst, ((s.threads tid).storeBuffers.get b).head? = some pst ∧
      pst.ml = ml) : ∃ front rows back, pending = front ++ (ml, rows) :: back ∧
        ∀ e ∈ front, ∀ b ∈ ml.bytes, StoreRows.covers e b = false := by
  have hheads : ∀ b ∈ ml.bytes,
      ∃ e, (queue StoreRows.covers pending b).head? = some e ∧ e.1 = ml := by
    intro b hb
    obtain ⟨pst, hpst, heq⟩ := hfronts b hb
    have hqueue := h.queues b
    cases hget : (s.threads tid).storeBuffers.get b with
    | nil =>
        rw [hget] at hpst
        cases hpst
    | cons pst' rest =>
        rw [hget] at hpst hqueue
        obtain rfl := Option.some.inj hpst
        cases hlist : queue StoreRows.covers pending b with
        | nil =>
            rw [hlist] at hqueue
            cases hqueue
        | cons e es =>
            rw [hlist] at hqueue
            cases hqueue with
            | cons hentry _ => exact ⟨e, rfl, hentry.ml ▸ heq⟩
  obtain ⟨front, e, back, hpending, rfl, -, hfront⟩ := exists_first ml.bytes_ne_nil hheads
  exact ⟨front, e.2, back, hpending, hfront⟩

/-- The last early load of the oldest store is noted in the buffer of its first byte. -/
theorem Pending.lastRowe (h : Pending s log tid (front ++ (ml, rows) :: back))
    (hfront : ∀ e ∈ front, ∀ b ∈ ml.bytes, StoreRows.covers e b = false)
    (hhead : ((s.threads tid).storeBuffers.get ml.1.addr).head? = some pst) :
    pst.lastRowe = rows.getLast? := by
  have hqueue := h.queues ml.1.addr
  rw [queue_append, queue_eq_nil fun e he => hfront e he _ ml.addr_mem_bytes, List.nil_append,
    queue_cons_of_pos (StoreRows.covers_iff.mpr ml.addr_mem_bytes)] at hqueue
  cases hget : (s.threads tid).storeBuffers.get ml.1.addr with
  | nil =>
      rw [hget] at hqueue
      cases hqueue
  | cons pst' rest =>
      rw [hget] at hqueue hhead
      obtain rfl := Option.some.inj hhead
      cases hqueue with
      | cons hentry _ => exact hentry.rowe rfl

theorem Pending.pop (h : Pending s log tid (front ++ (ml, rows) :: back))
    (hfront : ∀ e ∈ front, ∀ b ∈ ml.bytes, StoreRows.covers e b = false)
    (hpart : Part s t pid wakeups written)
    (hbuffers : (t.threads tid).storeBuffers = (s.threads tid).storeBuffers.popRange ml)
    (hbatch : ∀ y ∈ batch, y.thread = tid → ∀ b own, y.access = .read b own →
      b ∈ ml.bytes ∧ y.index ∈ rows) : Pending t (log ++ batch) tid (front ++ back) where
  queues := by
    intro b
    have hqueue := h.queues b
    have hremove : ∀ e ∈ front, ∀ c, StoreRows.covers (ml, rows) c = true →
        StoreRows.covers e c = false :=
      fun e he c hc => hfront e he c (StoreRows.covers_iff.mp hc)
    rw [hbuffers, ByteBuffers.get_popRange, queue_remove hremove]
    by_cases hb : b ∈ ml.bytes
    · have hcovers : StoreRows.covers (ml, rows) b = true := StoreRows.covers_iff.mpr hb
      rw [if_pos hb, if_pos hcovers, ← List.drop_one, ← List.drop_one]
      exact List.forall₂_drop 1 hqueue
    · have hcovers : ¬ StoreRows.covers (ml, rows) b = true := by
        rw [StoreRows.covers_iff]
        exact hb
      rw [if_neg hb, if_neg hcovers]
      exact hqueue
  rows := by
    intro e he
    have hmem : e ∈ front ++ (ml, rows) :: back := by
      rw [List.mem_append] at he ⊢
      exact he.imp_right (List.mem_cons_of_mem _)
    refine (h.rows e hmem).part hpart ?_
    intro y hy hthread b hb own haccess j hj
    obtain ⟨hml, hindex⟩ := hbatch y hy hthread b own haccess
    cases List.mem_append.mp he with
    | inl he =>
        have hcovers := hfront e he b hml
        rw [StoreRows.covers_iff.mpr hb] at hcovers
        cases hcovers
    | inr he =>
        have hordered := (List.pairwise_cons.mp (List.pairwise_append.mp h.ordered).2.1).1 e he
        exact hordered ⟨b, StoreRows.covers_iff.mpr hml, StoreRows.covers_iff.mpr hb⟩ _ hindex j hj
  ordered := h.ordered.sublist (List.Sublist.append_left (List.sublist_cons_self ..) _)

end Nidhugg.PsoHistory
