import Nidhugg.Library.BlockSequence
import Nidhugg.Model.RfscTraceBuilder

/-! # Numbered event sequences

The events of a trace builder number the instructions of each thread consecutively, and
their edges come from earlier events. -/

namespace Nidhugg.RfscTraceBuilder

open BlockSequence

/-- The number of instructions of a thread. -/
abbrev countOf (p : ℕ) (events : List Event) : ℕ :=
  total (fun e : Event => e.iid.pid) Event.size p events

/-- The events of the instructions of a thread. -/
abbrev unitsOf (p : ℕ) (events : List Event) : List ℕ :=
  positions (fun e : Event => e.iid.pid) Event.size p 0 events

structure Numbered (events : List Event) : Prop where
  size_pos : ∀ {j : ℕ} {e : Event}, events[j]? = some e → 0 < e.size
  index_eq : ∀ {j : ℕ} {e : Event}, events[j]? = some e → e.iid.index = countOf e.iid.pid (events.take j) + 1
  happensAfter_lt : ∀ {j : ℕ} {e : Event}, events[j]? = some e → ∀ i ∈ e.happensAfter, i < j
  readFrom_lt : ∀ {j : ℕ} {e : Event}, events[j]? = some e → ∀ i, e.readFrom = some (some i) → i < j

/-- What recording does to the event at position `n`. -/
structure Keeps (n : ℕ) (f : Event → Event) : Prop where
  iid : ∀ e, (f e).iid = e.iid
  size : ∀ e, (f e).size = e.size
  mayConflict : ∀ e, e.mayConflict = true → (f e).mayConflict = true
  sym : ∀ e, e.sym.empty = false → (f e).sym.empty = false
  happensAfter : ∀ e, ∀ i ∈ (f e).happensAfter, i ∈ e.happensAfter ∨ i < n
  readFrom : ∀ e i, (f e).readFrom = some (some i) → e.readFrom = some (some i) ∨ i < n

theorem Keeps.countOf {n : ℕ} {f : Event → Event} (hf : Keeps n f) (p i : ℕ) (events : List Event) :
    countOf p (events.modify i f) = countOf p events :=
  total_modify (fun e => by rw [hf.iid]) hf.size events i

theorem Keeps.unitsOf {n : ℕ} {f : Event → Event} (hf : Keeps n f) (p i : ℕ) (events : List Event) :
    unitsOf p (events.modify i f) = unitsOf p events :=
  positions_modify (fun e => by rw [hf.iid]) hf.size events i 0

namespace Numbered

theorem nil : Numbered [] := by
  constructor <;> simp

theorem modify {events : List Event} (h : Numbered events) {n : ℕ} {f : Event → Event}
    (hf : Keeps n f) : Numbered (events.modify n f) := by
  -- an event of the new list comes from one of the old list
  have hold : ∀ {j : ℕ} {e : Event}, (events.modify n f)[j]? = some e →
      ∃ e', events[j]? = some e' ∧ ((n = j ∧ e = f e') ∨ (n ≠ j ∧ e = e')) := by
    intro j e he
    rw [List.getElem?_modify] at he
    cases hj : events[j]? with
    | none => simp [hj] at he
    | some e' =>
        refine ⟨e', rfl, ?_⟩
        by_cases hnj : n = j
        · simp [hj, hnj] at he
          exact .inl ⟨hnj, he.symm⟩
        · simp [hj, hnj] at he
          exact .inr ⟨hnj, he.symm⟩
  constructor
  case size_pos =>
    intro j e he
    obtain ⟨e', he', ⟨-, rfl⟩ | ⟨-, rfl⟩⟩ := hold he
    · rw [hf.size]
      exact h.size_pos he'
    · exact h.size_pos he'
  case index_eq =>
    intro j e he
    rw [List.take_modify, hf.countOf]
    obtain ⟨e', he', ⟨-, rfl⟩ | ⟨-, rfl⟩⟩ := hold he
    · rw [hf.iid]
      exact h.index_eq he'
    · exact h.index_eq he'
  case happensAfter_lt =>
    intro j e he i hi
    obtain ⟨e', he', ⟨rfl, rfl⟩ | ⟨-, rfl⟩⟩ := hold he
    · rcases hf.happensAfter e' i hi with hi | hi
      · exact h.happensAfter_lt he' i hi
      · exact hi
    · exact h.happensAfter_lt he' i hi
  case readFrom_lt =>
    intro j e he i hi
    obtain ⟨e', he', ⟨rfl, rfl⟩ | ⟨-, rfl⟩⟩ := hold he
    · rcases hf.readFrom e' i hi with hi | hi
      · exact h.readFrom_lt he' i hi
      · exact hi
    · exact h.readFrom_lt he' i hi

theorem append_left {xs ys : List Event} (h : Numbered (xs ++ ys)) : Numbered xs := by
  have hget : ∀ {j : ℕ} {e : Event}, xs[j]? = some e → (xs ++ ys)[j]? = some e ∧ j ≤ xs.length := by
    intro j e he
    have hj : j < xs.length := (List.getElem?_eq_some_iff.mp he).1
    exact ⟨by rwa [List.getElem?_append_left hj], hj.le⟩
  constructor
  case size_pos => exact fun he => h.size_pos (hget he).1
  case index_eq =>
    intro j e he
    rw [h.index_eq (hget he).1, List.take_append_of_le_length (hget he).2]
  case happensAfter_lt => exact fun he => h.happensAfter_lt (hget he).1
  case readFrom_lt => exact fun he => h.readFrom_lt (hget he).1

/-- Adds an event that continues its thread. -/
theorem concat {events : List Event} (h : Numbered events) {e : Event} (hsize : 0 < e.size)
    (hindex : e.iid.index = countOf e.iid.pid events + 1)
    (hhappensAfter : ∀ i ∈ e.happensAfter, i < events.length)
    (hreadFrom : ∀ i, e.readFrom = some (some i) → i < events.length) :
    Numbered (events ++ [e]) := by
  have hold : ∀ {j : ℕ} {e' : Event}, (events ++ [e])[j]? = some e' →
      (events[j]? = some e' ∧ j < events.length) ∨ (j = events.length ∧ e' = e) := by
    intro j e' he'
    rcases lt_trichotomy j events.length with hj | rfl | hj
    · rw [List.getElem?_append_left hj] at he'
      exact .inl ⟨he', hj⟩
    · simp at he'
      exact .inr ⟨rfl, he'.symm⟩
    · rw [List.getElem?_eq_none (by simp; omega)] at he'
      simp at he'
  constructor
  case size_pos =>
    intro j e' he'
    rcases hold he' with ⟨hj, -⟩ | ⟨-, rfl⟩
    · exact h.size_pos hj
    · exact hsize
  case index_eq =>
    intro j e' he'
    rcases hold he' with ⟨hj, hlt⟩ | ⟨rfl, rfl⟩
    · rw [List.take_append_of_le_length hlt.le]
      exact h.index_eq hj
    · rw [List.take_left]
      exact hindex
  case happensAfter_lt =>
    intro j e' he'
    rcases hold he' with ⟨hj, -⟩ | ⟨rfl, rfl⟩
    · exact h.happensAfter_lt hj
    · exact hhappensAfter
  case readFrom_lt =>
    intro j e' he'
    rcases hold he' with ⟨hj, -⟩ | ⟨rfl, rfl⟩
    · exact h.readFrom_lt hj
    · exact hreadFrom

theorem getElem?_last (rest : List Event) (e : Event) : (rest ++ [e])[rest.length]? = some e := by
  simp

/-- The last event grows by one instruction. -/
theorem grow_last {rest : List Event} {e : Event} (h : Numbered (rest ++ [e])) :
    Numbered (rest ++ [{ e with size := e.size + 1 }]) := by
  have he := getElem?_last rest e
  apply h.append_left.concat
  case hsize => exact Nat.succ_pos _
  case hindex => simpa using h.index_eq he
  case hhappensAfter =>
    intro i hi
    exact h.happensAfter_lt he i hi
  case hreadFrom =>
    intro i hi
    exact h.readFrom_lt he i hi

end Numbered

theorem numbered_leafEvents (branches : List Branch) {events : List Event} {iidMap : ℕ → ℕ}
    (h : Numbered events) (hmap : ∀ p, iidMap p = countOf p events + 1) :
    Numbered (events ++ leafEvents branches iidMap) := by
  induction branches generalizing events iidMap with
  | nil => simpa [leafEvents] using h
  | cons b branches ih =>
      rw [leafEvents, List.append_cons]
      apply ih
      · apply h.concat
        case hsize => exact b.size_pos
        case hindex => exact hmap b.pid
        case hhappensAfter => simp [Event.new]
        case hreadFrom => simp [Event.new]
      · intro p
        by_cases hp : p = b.pid
        · subst hp
          simp only [Function.update_self, hmap, countOf, total_append, total, Event.new, if_true]
          omega
        · have hne : ¬ b.pid = p := fun heq => hp heq.symm
          simp [hmap, total, Event.new, hp, hne]

/-- An event of the leaf has not been touched. -/
theorem leafEvents_mem {branches : List Branch} {iidMap : ℕ → ℕ} {e : Event}
    (he : e ∈ leafEvents branches iidMap) : e.mayConflict = false := by
  induction branches generalizing iidMap with
  | nil => simp [leafEvents] at he
  | cons b branches ih =>
      rw [leafEvents, List.mem_cons] at he
      rcases he with rfl | he
      · rfl
      · exact ih he

theorem leafEvents_getLast? {branches : List Branch} {iidMap : ℕ → ℕ} {e : Event}
    (he : e ∈ (leafEvents branches iidMap).getLast?) :
    ∃ b ∈ branches.getLast?, e.sym = b.sym := by
  induction branches generalizing iidMap with
  | nil => simp [leafEvents] at he
  | cons b branches ih =>
      cases branches with
      | nil =>
          simp only [leafEvents, List.getLast?_singleton, Option.mem_def, Option.some.injEq] at he
          exact ⟨b, rfl, by rw [← he]⟩
      | cons c branches =>
          rw [leafEvents, leafEvents, List.getLast?_cons_cons] at he
          rw [List.getLast?_cons_cons]
          exact ih he

end Nidhugg.RfscTraceBuilder
