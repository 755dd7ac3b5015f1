import Nidhugg.Library.Splits
import Nidhugg.Model.TsoAwaits

/-! # The search of an await through earlier writes

The recursion over the writes after an event gives a race for every split of them whose included
part satisfies the await. The loop over the prefix hands it all writes that have been passed. -/

namespace Nidhugg.TsoTraceBuilder

open Splits

variable (bigEndian : Bool) (pre : List Event) (aw : Await)

/-! ## Subsequences -/

/-- The accesses of a list that do not happen after the event at `i`. -/
def notdep (i : ℕ) (ks : List ℕ) : List ℕ :=
  ks.filter fun k => !(eventAt pre k).clock.includes (eventAt pre i).iid

/-- What the recursion ends with. -/
abbrev leaves (i : ℕ) (ks included exclude : List ℕ) : List (List ℕ × List ℕ) :=
  splits (fun k => !aw.aboveClock.includes (eventAt pre k).iid)
    (fun k x => (eventAt pre k).clock.includes (eventAt pre x).iid) (notdep pre i ks) included
    exclude

/-- The await on the memory in front of the event at `i` and after some later events. -/
def decides (i : ℕ) (included : List ℕ) : Option Bool :=
  awaitcondSatisfiedBy bigEndian (pre.map (·.sym)) i included aw.ml aw.cond

/-- The races of the leaves that satisfy the await. -/
def found (i : ℕ) (splits : List (List ℕ × List ℕ)) : List Race :=
  (splits.filter fun s => decides bigEndian pre aw i s.1 = some true).map fun s =>
    .sequence i aw.pos aw.iid aw.ev s.2

variable {bigEndian pre aw}

theorem found_append (i : ℕ) (ss ss' : List (List ℕ × List ℕ)) :
    found bigEndian pre aw i (ss ++ ss') =
      found bigEndian pre aw i ss ++ found bigEndian pre aw i ss' := by
  simp [found]

theorem notdep_cons_of_includes {i k : ℕ} {ks : List ℕ}
    (h : (eventAt pre k).clock.includes (eventAt pre i).iid = true) :
    notdep pre i (k :: ks) = notdep pre i ks := by
  simp [notdep, h]

theorem notdep_cons_of_not_includes {i k : ℕ} {ks : List ℕ}
    (h : (eventAt pre k).clock.includes (eventAt pre i).iid = false) :
    notdep pre i (k :: ks) = k :: notdep pre i ks := by
  simp [notdep, h]

theorem leaves_cons (i k : ℕ) (ks included exclude : List ℕ)
    (h : (eventAt pre k).clock.includes (eventAt pre i).iid = false) :
    leaves pre aw i (k :: ks) included exclude =
      (if !aw.aboveClock.includes (eventAt pre k).iid then
        leaves pre aw i ks included (exclude ++ [k]) else []) ++
      (if notExcluded pre exclude k then leaves pre aw i ks (included ++ [k]) exclude else []) := by
  rw [leaves, notdep_cons_of_not_includes h, splits]
  rfl

/-- The recursion gives the races that are found at its leaves, at all of which it has decided the
await. -/
theorem trySubsequences_spec {i : ℕ} {ks included exclude : List ℕ} {races : List Race}
    (h : trySubsequences bigEndian pre aw i ks included exclude = some races) :
    races = found bigEndian pre aw i (leaves pre aw i ks included exclude) ∧
      ∀ s ∈ leaves pre aw i ks included exclude,
        (decides bigEndian pre aw i s.1).isSome = true := by
  induction ks generalizing included exclude races with
  | nil =>
      rw [trySubsequences] at h
      split at h
      · obtain ⟨b, hb, rfl⟩ := Option.map_eq_some_iff.mp h
        have hdecides : decides bigEndian pre aw i included = some b := hb
        cases b <;> simp [leaves, notdep, splits, found, hdecides]
      · cases h
  | cons k ks ih =>
      rw [trySubsequences] at h
      cases hdep : (eventAt pre k).clock.includes (eventAt pre i).iid with
      | true =>
          rw [hdep, if_pos rfl] at h
          rw [leaves, notdep_cons_of_includes hdep]
          exact ih h
      | false =>
          rw [hdep, if_neg Bool.false_ne_true] at h
          obtain ⟨without, hwithout, h⟩ := Option.bind_eq_some_iff.mp h
          obtain ⟨within, hwithin, rfl⟩ := Option.map_eq_some_iff.mp h
          rw [leaves_cons i k ks included exclude hdep, found_append]
          constructor
          · congr 1
            · split
              · rename_i hmay
                rw [if_pos hmay] at hwithout
                exact (ih hwithout).1
              · rename_i hmay
                rw [if_neg hmay] at hwithout
                cases hwithout
                rfl
            · split
              · rename_i hmay
                rw [if_pos hmay] at hwithin
                exact (ih hwithin).1
              · rename_i hmay
                rw [if_neg hmay] at hwithin
                cases hwithin
                rfl
          · intro s hs
            cases List.mem_append.mp hs with
            | inl hs =>
                split at hs
                · rename_i hmay
                  rw [if_pos hmay] at hwithout
                  exact (ih hwithout).2 s hs
                · cases hs
            | inr hs =>
                split at hs
                · rename_i hmay
                  rw [if_pos hmay] at hwithin
                  exact (ih hwithin).2 s hs
                · cases hs

/-- The recursion succeeds if the await can be decided at every leaf. -/
theorem isSome_trySubsequences {i : ℕ} {ks included exclude : List ℕ}
    (hsorted : (included ++ ks).Pairwise (· ≤ ·))
    (hleaves : ∀ s ∈ leaves pre aw i ks included exclude,
      (decides bigEndian pre aw i s.1).isSome = true) :
    (trySubsequences bigEndian pre aw i ks included exclude).isSome = true := by
  induction ks generalizing included exclude with
  | nil =>
      rw [List.append_nil] at hsorted
      have hdecides := hleaves (included, exclude) (by simp [leaves, notdep, splits])
      rw [trySubsequences, if_pos hsorted, Option.isSome_map]
      exact hdecides
  | cons k ks ih =>
      have htail : (included ++ ks).Pairwise (· ≤ ·) :=
        hsorted.sublist (List.Sublist.append_left (List.sublist_cons_self k ks) included)
      have hkept : (included ++ [k] ++ ks).Pairwise (· ≤ ·) := by simpa using hsorted
      rw [trySubsequences]
      cases hdep : (eventAt pre k).clock.includes (eventAt pre i).iid with
      | true =>
          rw [if_pos rfl]
          rw [leaves, notdep_cons_of_includes hdep] at hleaves
          exact ih htail hleaves
      | false =>
          rw [if_neg Bool.false_ne_true]
          rw [leaves_cons i k ks included exclude hdep] at hleaves
          have hwithout : (if !aw.aboveClock.includes (eventAt pre k).iid then
              trySubsequences bigEndian pre aw i ks included (exclude ++ [k])
              else some []).isSome = true := by
            split
            · rename_i hmay
              apply ih htail
              intro s hs
              exact hleaves s (List.mem_append_left _ (by rwa [if_pos hmay]))
            · rfl
          have hwithin : (if notExcluded pre exclude k then
              trySubsequences bigEndian pre aw i ks (included ++ [k]) exclude
              else some []).isSome = true := by
            split
            · rename_i hmay
              apply ih hkept
              intro s hs
              exact hleaves s (List.mem_append_right _ (by rwa [if_pos hmay]))
            · rfl
          obtain ⟨without, hwithout⟩ := Option.isSome_iff_exists.mp hwithout
          obtain ⟨within, hwithin⟩ := Option.isSome_iff_exists.mp hwithin
          simp only [hwithout, hwithin]
          rfl

theorem mem_found {i : ℕ} {ss : List (List ℕ × List ℕ)} {r : Race} :
    r ∈ found bigEndian pre aw i ss ↔
      ∃ s ∈ ss, decides bigEndian pre aw i s.1 = some true ∧
        r = .sequence i aw.pos aw.iid aw.ev s.2 := by
  simp only [found, List.mem_map, List.mem_filter, decide_eq_true_eq]
  constructor
  · rintro ⟨s, ⟨hs, hsat⟩, rfl⟩
    exact ⟨s, hs, hsat, rfl⟩
  · rintro ⟨s, hs, hsat, rfl⟩
    exact ⟨s, ⟨hs, hsat⟩, rfl⟩

/-- No race is found twice. -/
theorem nodup_found (i : ℕ) {ks : List ℕ} (hks : ks.Nodup) :
    (found bigEndian pre aw i (leaves pre aw i ks [] [])).Nodup := by
  have hnodup : ((leaves pre aw i ks [] []).map (·.2)).Nodup := nodup_splits (hks.filter _) [] []
  have hkept : (((leaves pre aw i ks [] []).filter
      fun s => decides bigEndian pre aw i s.1 = some true).map (·.2)).Nodup :=
    (List.filter_sublist.map _).nodup hnodup
  have hraces := hkept.map (f := Race.sequence i aw.pos aw.iid aw.ev) fun X Y h => by
    cases h
    rfl
  rwa [List.map_map] at hraces

/-! ## The loop over the prefix -/

/-- The positions from `n` on and before `j` whose events write to a location. -/
def writesFrom (pre : List Event) (ml : SymAddrSize) (n j : ℕ) : List ℕ :=
  (List.range' n (j - n)).filter fun k => (eventAt pre k).writes ml

theorem mem_writesFrom {ml : SymAddrSize} {n j k : ℕ} :
    k ∈ writesFrom pre ml n j ↔ (n ≤ k ∧ k < j) ∧ (eventAt pre k).writes ml = true := by
  simp only [writesFrom, List.mem_filter, List.mem_range'_1]
  constructor
  · rintro ⟨⟨hn, hj⟩, hw⟩
    exact ⟨⟨hn, by omega⟩, hw⟩
  · rintro ⟨⟨hn, hj⟩, hw⟩
    exact ⟨⟨hn, by omega⟩, hw⟩

theorem pairwise_writesFrom (ml : SymAddrSize) (n j : ℕ) :
    (writesFrom pre ml n j).Pairwise (· < ·) :=
  (List.pairwise_lt_range' (s := n) (n := j - n)).filter _

theorem writesFrom_eq {ml : SymAddrSize} {i j : ℕ} (hi : i < j) :
    writesFrom pre ml i j =
      if (eventAt pre i).writes ml then i :: writesFrom pre ml (i + 1) j
      else writesFrom pre ml (i + 1) j := by
  have hlen : j - i = (j - (i + 1)) + 1 := by omega
  rw [writesFrom, hlen, List.range'_succ, List.filter_cons]
  rfl

def Turn.races : Turn → List Race
  | .stop outcome => outcome.races
  | .next st => st.races

variable {conf : Configuration} {i : ℕ} {st : Search} {t : Turn} {outcome : Outcome}

/-- What a turn of the loop does when read-modify-writes commute. -/
inductive Visited (bigEndian : Bool) (pre : List Event) (aw : Await) (i : ℕ) (st : Search) :
    Turn → Prop where
  | conflict (error : Option (String × IID)) :
      (eventAt pre i).sym.any (· = .fullmem) = true →
      Visited bigEndian pre aw i st (.stop ⟨st.races, error⟩)
  | skip : (eventAt pre i).sym.any (· = .fullmem) = false →
      (eventAt pre i).writes aw.ml = false → Visited bigEndian pre aw i st (.next st)
  | write (pushed : List Race) (t : Turn) : (eventAt pre i).sym.any (· = .fullmem) = false →
      (eventAt pre i).writes aw.ml = true →
      (aw.aboveClock.includes (eventAt pre i).iid = true → pushed = []) →
      (aw.aboveClock.includes (eventAt pre i).iid = false →
        trySubsequences bigEndian pre aw i st.unorderedAccesses [] [] = some pushed) →
      (t = .stop ⟨st.races ++ pushed, none⟩ ∨
        ∃ canStop, t = .next ⟨canStop, i :: st.unorderedAccesses, st.races ++ pushed⟩) →
      Visited bigEndian pre aw i st t

theorem visited_of_visit (hconf : conf.commuteRmws = true)
    (h : visit conf bigEndian pre aw i st = some t) : Visited bigEndian pre aw i st t := by
  simp only [visit] at h
  cases hfull : (eventAt pre i).sym.any (· = .fullmem) with
  | true =>
      rw [hfull, if_pos rfl] at h
      cases h
      exact .conflict _ hfull
  | false =>
      rw [hfull, if_neg Bool.false_ne_true] at h
      cases hwrites : (eventAt pre i).writes aw.ml with
      | false =>
          simp only [hwrites, Bool.not_false, if_true] at h
          cases h
          exact .skip hfull hwrites
      | true =>
          simp only [hwrites, Bool.not_true, Bool.false_eq_true, if_false, hconf, if_true] at h
          obtain ⟨pushed, hpushed, rfl⟩ := Option.map_eq_some_iff.mp h
          refine .write pushed _ hfull hwrites ?_ ?_ ?_
          · intro habove
            simp only [habove, Bool.not_true, Bool.false_eq_true, if_false] at hpushed
            cases hpushed
            rfl
          · intro habove
            simpa only [habove, Bool.not_false, if_true] using hpushed
          · split
            · exact .inl rfl
            · exact .inr ⟨_, rfl⟩

/-- A turn pushes races with the event that it is about. -/
theorem races_of_visit (h : visit conf bigEndian pre aw i st = some t) :
    ∃ pushed, t.races = st.races ++ pushed ∧
      ∀ r ∈ pushed, ∃ X, r = .sequence i aw.pos aw.iid aw.ev X := by
  have hnone : ∃ pushed, st.races = st.races ++ pushed ∧
      ∀ r ∈ pushed, ∃ X, r = Race.sequence i aw.pos aw.iid aw.ev X := ⟨[], by simp, by simp⟩
  cases hconf : conf.commuteRmws with
  | true =>
      cases visited_of_visit hconf h with
      | conflict _ _ => exact hnone
      | skip _ _ => exact hnone
      | write pushed _ _ _ habove hbelow ht =>
          refine ⟨pushed, ?_, fun r hr => ?_⟩
          · cases ht with
            | inl ht => rw [ht, Turn.races]
            | inr ht =>
                obtain ⟨canStop, ht⟩ := ht
                rw [ht, Turn.races]
          · cases hclock : aw.aboveClock.includes (eventAt pre i).iid with
            | true =>
                rw [habove hclock] at hr
                cases hr
            | false =>
                rw [(trySubsequences_spec (hbelow hclock)).1] at hr
                obtain ⟨s, -, -, heq⟩ := mem_found.mp hr
                exact ⟨s.2, heq⟩
  | false =>
      simp only [visit, hconf] at h
      split at h
      · cases h
        exact hnone
      · split at h
        · cases h
          exact hnone
        · simp only [Bool.false_eq_true, if_false] at h
          split at h
          · cases h
            exact hnone
          · obtain ⟨satisfied, -, rfl⟩ := Option.map_eq_some_iff.mp h
            split
            · refine ⟨[.sequence i aw.pos aw.iid aw.ev []], ?_, by simp⟩
              split <;> rfl
            · exact hnone

/-- The races that are left to push are with events below the position. -/
theorem races_of_doAwaitFrom {n : ℕ} (h : doAwaitFrom conf bigEndian pre aw n st = some outcome) :
    ∃ later, outcome.races = st.races ++ later ∧
      ∀ r ∈ later, ∃ k < n, ∃ X, r = .sequence k aw.pos aw.iid aw.ev X := by
  induction n generalizing st with
  | zero =>
      cases h
      exact ⟨[], by simp, by simp⟩
  | succ n ih =>
      obtain ⟨t, ht, hrest⟩ := Option.bind_eq_some_iff.mp h
      obtain ⟨pushed, hraces, hpushed⟩ := races_of_visit ht
      cases t with
      | stop o =>
          cases hrest
          exact ⟨pushed, hraces, fun r hr => ⟨n, n.lt_succ_self, hpushed r hr⟩⟩
      | next st' =>
          obtain ⟨later, heq, hlater⟩ := ih hrest
          refine ⟨pushed ++ later, ?_, fun r hr => ?_⟩
          · rw [heq, show st'.races = st.races ++ pushed from hraces, List.append_assoc]
          · cases List.mem_append.mp hr with
            | inl hr => exact ⟨n, n.lt_succ_self, hpushed r hr⟩
            | inr hr =>
                obtain ⟨k, hk, X, hX⟩ := hlater r hr
                exact ⟨k, hk.trans n.lt_succ_self, X, hX⟩

/-- The search comes down to a position without having stopped. -/
inductive Reaches (conf : Configuration) (bigEndian : Bool) (pre : List Event) (aw : Await) :
    ℕ → Search → Prop where
  | start : Reaches conf bigEndian pre aw aw.pos ⟨false, [], []⟩
  | next {i : ℕ} {st st' : Search} : Reaches conf bigEndian pre aw (i + 1) st →
      visit conf bigEndian pre aw i st = some (.next st') → Reaches conf bigEndian pre aw i st'

theorem Reaches.doAwait_eq {n : ℕ} (h : Reaches conf bigEndian pre aw n st) :
    doAwait conf bigEndian pre aw = doAwaitFrom conf bigEndian pre aw n st := by
  induction h with
  | start => rfl
  | next _ hvisit ih => rw [ih, doAwaitFrom, hvisit, Option.bind_some]

theorem Reaches.le {n : ℕ} (h : Reaches conf bigEndian pre aw n st) : n ≤ aw.pos := by
  induction h with
  | start => exact le_rfl
  | next _ _ ih => exact Nat.le_of_succ_le ih

/-- The races that have been pushed are with events that have been passed. -/
theorem Reaches.le_firstEvent {n : ℕ} (h : Reaches conf bigEndian pre aw n st) :
    ∀ r ∈ st.races, n ≤ r.firstEvent := by
  induction h with
  | start => simp
  | @next i st st' _ hvisit ih =>
      obtain ⟨pushed, hraces, hpushed⟩ := races_of_visit hvisit
      intro r hr
      rw [show st'.races = st.races ++ pushed from hraces] at hr
      cases List.mem_append.mp hr with
      | inl hr => exact Nat.le_of_succ_le (ih r hr)
      | inr hr =>
          obtain ⟨X, rfl⟩ := hpushed r hr
          exact le_rfl

/-- All writes that have been passed are tried. -/
theorem Reaches.unorderedAccesses_eq (hconf : conf.commuteRmws = true) {n : ℕ}
    (h : Reaches conf bigEndian pre aw n st) :
    st.unorderedAccesses = writesFrom pre aw.ml n aw.pos := by
  induction h with
  | start => simp [writesFrom]
  | @next i st st' hreaches hvisit ih =>
      rw [writesFrom_eq hreaches.le]
      cases visited_of_visit hconf hvisit with
      | skip _ hwrites => rw [ih, hwrites, if_neg Bool.false_ne_true]
      | write pushed _ _ hwrites _ _ ht =>
          rw [hwrites, if_pos rfl]
          cases ht with
          | inl ht => cases ht
          | inr ht =>
              obtain ⟨canStop, ht⟩ := ht
              cases ht
              rw [ih]

end Nidhugg.TsoTraceBuilder
