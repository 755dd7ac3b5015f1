import Mathlib.Data.Finset.Union
import Nidhugg.Verification.TsoTraceBuilder.Content

/-! # What the scans over earlier events compute

Scanning backwards for the recorded bytes gives the content that the events leave in zeroed memory
if every one repeats its result. Collecting the events that a location depends on and applying
them in order gives the content that they leave if they compute their results. -/

namespace Nidhugg.TsoTraceBuilder

/-! ## Recorded bytes -/

theorem foldlM_takeByte {p : SymEv} (hp : p.Recorded) {addr : SymAddrSize}
    (haddr : p.storeAddr? = some addr) {as : List SymAddr} (has : ∀ a ∈ as, addr.includes a = true)
    {needed : Finset SymAddr} {ml : SymAddrSize} (hneeded : ∀ a ∈ needed, ml.includes a = true)
    (d : Memory) :
    as.foldlM (takeByte p addr) (needed, ⟨ml, d⟩) =
      some (needed \ as.toFinset,
        ⟨ml, fun a => if a ∈ needed ∧ a ∈ as then executeRecorded p d a else d a⟩) := by
  induction as generalizing needed d with
  | nil => simp
  | cons b as ih =>
      have has' : ∀ a ∈ as, addr.includes a = true := fun a ha => has a (List.mem_cons_of_mem b ha)
      have hb := has b List.mem_cons_self
      rw [List.foldlM_cons, takeByte]
      by_cases hmem : b ∈ needed
      · have hset : SymData.set ⟨ml, d⟩ b (executeRecorded p d b) =
            some ⟨ml, Function.update d b (executeRecorded p d b)⟩ := by
          simp [SymData.set, hneeded b hmem]
        have hneeded' : ∀ a ∈ needed.erase b, ml.includes a = true :=
          fun a ha => hneeded a (Finset.mem_of_mem_erase ha)
        simp only [hmem, if_true, dataAt_eq_some hp haddr hb d, hset, Option.bind_eq_bind,
          Option.bind_some, Option.pure_def, ih has' hneeded', Option.some.injEq, Prod.mk.injEq,
          SymData.mk.injEq, true_and]
        refine ⟨by ext a; simp; tauto, ?_⟩
        funext a
        by_cases hab : a = b
        · simp [hab, hmem]
        · have hrec : a ∈ as → executeRecorded p (Function.update d b (executeRecorded p d b)) a =
              executeRecorded p d a := fun ha =>
            executeRecorded_congr _ _ ⟨addr, haddr, has' a ha⟩
          simp only [Finset.mem_erase, ne_eq, hab, not_false_eq_true, true_and, List.mem_cons,
            false_or, Function.update_of_ne]
          split
          · rename_i h
            exact hrec h.2
          · rfl
      · simp only [hmem, if_false, Option.bind_eq_bind, Option.bind_some, ih has' hneeded,
          Option.some.injEq, Prod.mk.injEq, SymData.mk.injEq, true_and]
        refine ⟨by ext a; simp only [Finset.mem_sdiff, List.mem_toFinset, List.mem_cons]; grind, ?_⟩
        funext a
        by_cases hab : a = b
        · simp [hab, hmem]
        · simp [hab]

theorem recordedContent_congr {m m' : Memory} {a : SymAddr} (h : m a = m' a)
    (events : List SymEv) : recordedContent m events a = recordedContent m' events a := by
  have hlive : ∀ b ∈ repeating.live {a} events, m b = m' b := by
    intro b hb
    have hba : b ∈ ({a} : Set SymAddr) := Commands.live_subset (fun _ => rfl) {a} events hb
    rw [Set.mem_singleton_iff.mp hba, h]
  exact Commands.run_congr hlive a rfl

theorem recordedContent_concat (m : Memory) (events : List SymEv) (p : SymEv) :
    recordedContent m (events ++ [p]) = executeRecorded p (recordedContent m events) :=
  Commands.run_append m events [p]

/-- A scan fills in, for every needed byte, what the events leave there. -/
theorem revRecomputeData_spec {ps : List SymEv} (hps : ∀ p ∈ ps, p.Recorded) {ml : SymAddrSize}
    {needed : Finset SymAddr} (hneeded : ∀ a ∈ needed, ml.includes a = true) (d : Memory) :
    ∃ rest, revRecomputeData ps (needed, ⟨ml, d⟩) =
      some (rest, ⟨ml, fun a => if a ∈ needed then recordedContent d ps.reverse a else d a⟩) := by
  induction ps generalizing needed d with
  | nil => exact ⟨needed, by simp [revRecomputeData]⟩
  | cons p ps ih =>
      have hps' : ∀ q ∈ ps, q.Recorded := fun q hq => hps q (List.mem_cons_of_mem p hq)
      rw [revRecomputeData, List.reverse_cons]
      simp only [recordedContent_concat]
      by_cases hempty : needed = ∅
      · exact ⟨needed, by simp [hempty]⟩
      · rw [if_neg hempty]
        -- Unless the operation writes a needed byte, the scan continues as it was.
        have hskip : (∀ a ∈ needed, a ∉ written p) → ∃ rest,
            revRecomputeData ps (needed, ⟨ml, d⟩) = some (rest, ⟨ml, fun a =>
              if a ∈ needed then executeRecorded p (recordedContent d ps.reverse) a else d a⟩) := by
          intro hframe
          obtain ⟨rest, hrest⟩ := ih hps' hneeded d
          refine ⟨rest, hrest.trans ?_⟩
          simp only [Option.some.injEq, Prod.mk.injEq, SymData.mk.injEq, true_and]
          funext a
          split
          · rename_i ha
            rw [executeRecorded_frame _ (hframe a ha)]
          · rfl
        cases haddr : p.storeAddr? with
        | none =>
            apply hskip
            rintro a - ⟨addr, haddr', -⟩
            simp [haddr] at haddr'
        | some addr =>
            simp only
            have hp : p.Recorded := hps p List.mem_cons_self
            have hplaced := placed_of_recorded hp haddr
            by_cases hoverlap : ml.overlaps addr = true
            · rw [if_pos hoverlap, foldlM_takeByte hp haddr
                (fun a ha => (mem_bytes_iff hplaced a).mp ha) hneeded, Option.bind_some]
              have hneeded' : ∀ a ∈ needed \ addr.bytes.toFinset, ml.includes a = true :=
                fun a ha => hneeded a (Finset.mem_sdiff.mp ha).1
              obtain ⟨rest, hrest⟩ := ih hps' hneeded'
                (fun a => if a ∈ needed ∧ a ∈ addr.bytes then executeRecorded p d a else d a)
              refine ⟨rest, hrest.trans ?_⟩
              simp only [Option.some.injEq, Prod.mk.injEq, SymData.mk.injEq, true_and]
              funext a
              by_cases ha : a ∈ needed
              · by_cases hbyte : a ∈ addr.bytes
                · have hwritten : a ∈ written p := ⟨addr, haddr, (mem_bytes_iff hplaced a).mp hbyte⟩
                  simp [ha, hbyte, executeRecorded_congr _ (recordedContent d ps.reverse) hwritten]
                · have hframe : a ∉ written p := by
                    rintro ⟨addr', haddr', hincludes⟩
                    cases haddr.symm.trans haddr'
                    exact hbyte ((mem_bytes_iff hplaced a).mpr hincludes)
                  simp only [Finset.mem_sdiff, ha, List.mem_toFinset, hbyte, not_false_eq_true,
                    and_self, if_true, executeRecorded_frame _ hframe]
                  exact recordedContent_congr (by simp [hbyte]) _
              · simp [ha]
            · rw [if_neg hoverlap]
              apply hskip
              rintro a ha ⟨addr', haddr', hincludes⟩
              cases haddr.symm.trans haddr'
              exact hoverlap (overlaps_of_includes (hneeded a ha) hincludes)

theorem revRecomputeData_append (ps qs : List SymEv) (st : Finset SymAddr × SymData) :
    revRecomputeData (ps ++ qs) st = (revRecomputeData ps st).bind (revRecomputeData qs) := by
  induction ps generalizing st with
  | nil => rfl
  | cons p ps ih =>
      simp only [List.cons_append, revRecomputeData]
      by_cases hempty : st.1 = ∅
      · rw [if_pos hempty, if_pos hempty, Option.bind_some]
        cases qs with
        | nil => rfl
        | cons q qs => rw [revRecomputeData, if_pos hempty]
      · rw [if_neg hempty, if_neg hempty]
        cases p.storeAddr? with
        | none => exact ih st
        | some addr =>
            simp only
            split
            · cases addr.bytes.foldlM (takeByte p addr) st with
              | none => rfl
              | some st' => exact ih st'
            · exact ih st

/-- The scan over several events is the scan over all their operations. -/
theorem revRecomputeAll_eq (events : List (List SymEv)) (st : Finset SymAddr × SymData) :
    revRecomputeAll events st = revRecomputeData events.flatten.reverse st := by
  induction events using List.reverseRecOn generalizing st with
  | nil => rfl
  | append_singleton events sym ih =>
      simp only [revRecomputeAll, List.reverse_append, List.reverse_cons, List.reverse_nil,
        List.nil_append, List.singleton_append, List.foldlM_cons, List.flatten_append,
        List.flatten_singleton, revRecomputeData_append, Option.bind_eq_bind]
      cases revRecomputeData sym.reverse st with
      | none => rfl
      | some st' => exact ih st'

/-! ## Computed results -/

/-- An operation does not write outside of a location. -/
def Inside (ml : SymAddrSize) (p : SymEv) : Prop :=
  ∀ addr, p.storeAddr? = some addr → addr.subsetof ml = true

instance (ml : SymAddrSize) (p : SymEv) : Decidable (Inside ml p) :=
  decidable_of_iff (p.storeAddr?.all (·.subsetof ml) = true) (by
    cases h : p.storeAddr? <;> simp [Inside, h])

theorem mem_written_iff {p : SymEv} (hp : p.Recorded) {addr : SymAddrSize}
    (haddr : p.storeAddr? = some addr) (a : SymAddr) : a ∈ written p ↔ a ∈ addr.bytes := by
  rw [mem_bytes_iff (placed_of_recorded hp haddr)]
  constructor
  · rintro ⟨addr', haddr', hincludes⟩
    cases haddr.symm.trans haddr'
    exact hincludes
  · intro hincludes
    exact ⟨addr, haddr, hincludes⟩

/-- The test of the scan for operations that are of use. -/
theorem useful_iff {bigEndian : Bool} {p : SymEv} (hp : p.Recorded) {addr ml : SymAddrSize}
    (haddr : p.storeAddr? = some addr) {needed : Finset SymAddr}
    (hneeded : ∀ a ∈ needed, ml.includes a = true) :
    (computing bigEndian).Useful ↑needed p ↔
      (ml.overlaps addr && addr.bytes.any (· ∈ needed)) = true := by
  have hplaced := placed_of_recorded hp haddr
  simp only [Bool.and_eq_true, List.any_eq_true, decide_eq_true_eq]
  constructor
  · rintro ⟨b, hb, hlive⟩
    have hbyte := (mem_written_iff hp haddr b).mp hb
    have hmem : b ∈ needed := hlive
    exact ⟨overlaps_of_includes (hneeded b hmem) ((mem_bytes_iff hplaced b).mp hbyte), b, hbyte,
      hmem⟩
  · rintro ⟨-, b, hb, hmem⟩
    exact ⟨b, (mem_written_iff hp haddr b).mpr hb, hmem⟩

theorem liveBefore_rmw {bigEndian : Bool} {addr : SymAddrSize} {w operand : Block addr.size}
    {kind : RmwKind} {used : Bool} (hp : (SymEv.rmw addr w kind operand used).Recorded)
    {needed : Finset SymAddr}
    (h : (computing bigEndian).Useful ↑needed (.rmw addr w kind operand used)) :
    (computing bigEndian).liveBefore ↑needed (.rmw addr w kind operand used) =
      ↑(needed ∪ addr.bytes.toFinset) := by
  ext a
  have hwritten := mem_written_iff hp rfl a
  simp only [Commands.liveBefore, computing, observed, hwritten, Finset.coe_union,
    Finset.mem_coe, List.coe_toFinset, Set.mem_union, Set.mem_ofPred_eq]
  simp only [computing] at h
  tauto

theorem liveBefore_of_no_reads {bigEndian : Bool} {p : SymEv} (hp : p.Recorded)
    (hobserved : observed p = ∅) {addr : SymAddrSize} (haddr : p.storeAddr? = some addr)
    (needed : Finset SymAddr) :
    (computing bigEndian).liveBefore ↑needed p = ↑(needed \ addr.bytes.toFinset) := by
  ext a
  have hwritten := mem_written_iff hp haddr a
  simp [Commands.liveBefore, computing, hobserved, hwritten]

/-- The scan collects the slice of the events, or finds that it cannot be applied. -/
theorem recomputeScanRev_spec (bigEndian : Bool) {ps : List SymEv} (hps : ∀ p ∈ ps, p.Recorded)
    {ml : SymAddrSize} {needed : Finset SymAddr} (hneeded : ∀ a ∈ needed, ml.includes a = true)
    (stack : List SymEv) :
    (∀ st, recomputeScanRev ml ps (needed, stack) = some st →
      st.2 = (computing bigEndian).slice ↑needed ps.reverse ++ stack) ∧
    (recomputeScanRev ml ps (needed, stack) = none →
      ∃ p ∈ (computing bigEndian).slice ↑needed ps.reverse, ¬Inside ml p) := by
  induction ps generalizing needed stack with
  | nil =>
      constructor
      · intro st hst
        cases hst
        rfl
      · intro hnone
        cases hnone
  | cons p ps ih =>
      have hp : p.Recorded := hps p List.mem_cons_self
      have hps' : ∀ q ∈ ps, q.Recorded := fun q hq => hps q (List.mem_cons_of_mem p hq)
      rw [recomputeScanRev, List.reverse_cons, Commands.slice_append]
      by_cases hempty : needed = ∅
      · subst hempty
        simp [Commands.slice_empty, Commands.liveBefore_empty]
      · rw [if_neg hempty]
        by_cases huseful : (computing bigEndian).Useful ↑needed p
        · -- The operation is kept, and what it reads becomes needed.
          have hkeep {needed' : Finset SymAddr} (hneeded' : ∀ a ∈ needed', ml.includes a = true)
              (hlive : (computing bigEndian).liveBefore ↑needed p = ↑needed') :
              (∀ st, recomputeScanRev ml ps (needed', p :: stack) = some st →
                st.2 = (computing bigEndian).slice
                  ((computing bigEndian).live ↑needed [p]) ps.reverse ++ [p] ++ stack) ∧
              (recomputeScanRev ml ps (needed', p :: stack) = none →
                ∃ q ∈ (computing bigEndian).slice
                  ((computing bigEndian).live ↑needed [p]) ps.reverse ++ [p], ¬Inside ml q) := by
            rw [Commands.live_cons, Commands.live_nil, hlive]
            constructor
            · intro st hst
              rw [(ih hps' hneeded' (p :: stack)).1 st hst, List.append_assoc,
                List.singleton_append]
            · intro hnone
              obtain ⟨q, hq, hinside⟩ := (ih hps' hneeded' (p :: stack)).2 hnone
              exact ⟨q, List.mem_append_left [p] hq, hinside⟩
          rw [Commands.slice_singleton_of_useful huseful]
          have hwrites : ∃ addr, p.storeAddr? = some addr := by
            obtain ⟨b, ⟨addr, haddr, -⟩, -⟩ := huseful
            exact ⟨addr, haddr⟩
          obtain ⟨addr, haddr⟩ := hwrites
          have htest := (useful_iff hp haddr hneeded).mp huseful
          have hrest : ∀ a ∈ needed \ addr.bytes.toFinset, ml.includes a = true :=
            fun a ha => hneeded a (Finset.mem_sdiff.mp ha).1
          cases p with
          | rmw sas w kind operand used =>
              cases haddr
              by_cases hinside : addr.subsetof ml = true
              · simp only [SymEv.storeAddr?, htest, if_true, hinside]
                apply hkeep _ (liveBefore_rmw hp huseful)
                intro a ha
                cases Finset.mem_union.mp ha with
                | inl ha => exact hneeded a ha
                | inr ha =>
                    have hplaced : addr.Placed := placed_of_recorded hp rfl
                    exact includes_of_subsetof hinside
                      ((mem_bytes_iff hplaced a).mp (List.mem_toFinset.mp ha))
              · simp only [SymEv.storeAddr?, htest, if_true, hinside]
                refine ⟨by simp, fun _ => ⟨_, List.mem_append_right _ List.mem_cons_self, ?_⟩⟩
                exact fun h => hinside (h addr rfl)
          | store | unobsStore | xchgAwait | cmpXhg =>
              cases haddr
              simp only [SymEv.storeAddr?, htest, if_true]
              exact hkeep hrest (liveBefore_of_no_reads hp rfl rfl needed)
          | _ => cases haddr
        · rw [Commands.slice_singleton_of_not_useful huseful, List.append_nil]
          have hsame : (computing bigEndian).live ↑needed [p] = ↑needed :=
            Commands.liveBefore_of_not_useful huseful
          rw [hsame]
          cases haddr : p.storeAddr? with
          | none => exact ih hps' hneeded stack
          | some addr =>
              rw [useful_iff hp haddr hneeded] at huseful
              simp only [huseful]
              exact ih hps' hneeded stack

theorem recomputeScanRev_append (ml : SymAddrSize) (ps qs : List SymEv)
    (st : Finset SymAddr × List SymEv) :
    recomputeScanRev ml (ps ++ qs) st =
      (recomputeScanRev ml ps st).bind (recomputeScanRev ml qs) := by
  induction ps generalizing st with
  | nil => rfl
  | cons p ps ih =>
      simp only [List.cons_append, recomputeScanRev]
      by_cases hempty : st.1 = ∅
      · rw [if_pos hempty, if_pos hempty, Option.bind_some]
        cases qs with
        | nil => rfl
        | cons q qs => rw [recomputeScanRev, if_pos hempty]
      · rw [if_neg hempty, if_neg hempty]
        cases p.storeAddr? with
        | none => exact ih st
        | some addr =>
            simp only
            split
            · cases p with
              | rmw =>
                  simp only
                  split
                  · exact ih _
                  · rfl
              | _ => exact ih _
            · exact ih st

theorem recomputeScanRevAll_eq (ml : SymAddrSize) (events : List (List SymEv))
    (st : Finset SymAddr × List SymEv) :
    recomputeScanRevAll ml events st = recomputeScanRev ml events.flatten.reverse st := by
  induction events using List.reverseRecOn generalizing st with
  | nil => rfl
  | append_singleton events sym ih =>
      simp only [recomputeScanRevAll, List.reverse_append, List.reverse_cons, List.reverse_nil,
        List.nil_append, List.singleton_append, List.foldlM_cons, List.flatten_append,
        List.flatten_singleton, recomputeScanRev_append, Option.bind_eq_bind]
      cases recomputeScanRev ml sym.reverse st with
      | none => rfl
      | some st' => exact ih st'

/-! ## Applying the slice -/

theorem foldlM_set {ml : SymAddrSize} {p : SymEv} (hp : p.Recorded) {addr : SymAddrSize}
    (haddr : p.storeAddr? = some addr) {as : List SymAddr} (has : ∀ a ∈ as, addr.includes a = true)
    (d : Memory) :
    as.foldlM (fun data a => (p.dataAt addr a).bind (SymData.set data a)) ⟨ml, d⟩ =
      if ∀ a ∈ as, ml.includes a = true then
        some ⟨ml, fun a => if a ∈ as then executeRecorded p d a else d a⟩
      else none := by
  induction as generalizing d with
  | nil => simp
  | cons b as ih =>
      have has' : ∀ a ∈ as, addr.includes a = true := fun a ha => has a (List.mem_cons_of_mem b ha)
      rw [List.foldlM_cons, dataAt_eq_some hp haddr (has b List.mem_cons_self) d, Option.bind_some]
      by_cases hb : ml.includes b = true
      · have hset : SymData.set ⟨ml, d⟩ b (executeRecorded p d b) =
            some ⟨ml, Function.update d b (executeRecorded p d b)⟩ := by
          simp [SymData.set, hb]
        rw [hset, Option.bind_eq_bind, Option.bind_some, ih has']
        by_cases hall : ∀ a ∈ as, ml.includes a = true
        · rw [if_pos hall, if_pos (by simpa [hb] using hall)]
          simp only [Option.some.injEq, SymData.mk.injEq, true_and]
          funext a
          by_cases hab : a = b
          · subst hab
            by_cases ha : a ∈ as
            · have hwritten : a ∈ written p := ⟨addr, haddr, has' a ha⟩
              simp [ha, executeRecorded_congr _ d hwritten]
            · simp [ha]
          · by_cases ha : a ∈ as
            · have hwritten : a ∈ written p := ⟨addr, haddr, has' a ha⟩
              simp [ha, executeRecorded_congr _ d hwritten]
            · simp [ha, hab]
        · rw [if_neg hall, if_neg (by simpa [hb] using hall)]
      · have hset : SymData.set ⟨ml, d⟩ b (executeRecorded p d b) = none := by
          simp [SymData.set, hb]
        rw [hset, if_neg (fun h => hb (h b List.mem_cons_self))]
        rfl

theorem inside_iff {ml addr : SymAddrSize} {p : SymEv} (haddr : p.storeAddr? = some addr) :
    Inside ml p ↔ addr.subsetof ml = true := by
  constructor
  · intro h
    exact h addr haddr
  · intro h addr' haddr'
    cases haddr.symm.trans haddr'
    exact h

/-- A write of bytes fails if and only if it leaves the location. -/
theorem replay_bytes {ml addr : SymAddrSize} {p : SymEv} (hp : p.Recorded)
    (haddr : p.storeAddr? = some addr) (hwrites : (written p).Nonempty) (d : Memory) :
    (if ml.overlaps addr then
        addr.bytes.foldlM (fun data a => (p.dataAt addr a).bind (SymData.set data a)) ⟨ml, d⟩
      else none) =
      if Inside ml p then some ⟨ml, executeRecorded p d⟩ else none := by
  have hplaced := placed_of_recorded hp haddr
  have hbytes : ∀ a ∈ addr.bytes, addr.includes a = true :=
    fun a ha => (mem_bytes_iff hplaced a).mp ha
  obtain ⟨b, hb⟩ := hwrites
  have hbyte : addr.includes b = true := hbytes b ((mem_written_iff hp haddr b).mp hb)
  rw [foldlM_set hp haddr hbytes]
  by_cases hsub : addr.subsetof ml = true
  · have hoverlap := overlaps_of_includes (includes_of_subsetof hsub hbyte) hbyte
    rw [if_pos hoverlap, if_pos (fun a ha => includes_of_subsetof hsub (hbytes a ha)),
      if_pos ((inside_iff haddr).mpr hsub)]
    simp only [Option.some.injEq, SymData.mk.injEq, true_and]
    funext a
    split
    · rfl
    · rename_i ha
      exact (executeRecorded_frame d (fun hw => ha ((mem_written_iff hp haddr a).mp hw))).symm
  · have hsize : 0 < addr.size := by
      simp only [SymAddrSize.includes, Bool.and_eq_true, decide_eq_true_eq] at hbyte
      omega
    obtain ⟨a, ha, hout⟩ := exists_not_includes hsize (Bool.not_eq_true _ ▸ hsub)
    have hmem := (mem_bytes_iff hplaced a).mpr ha
    rw [if_neg (fun h : Inside ml p => hsub ((inside_iff haddr).mp h))]
    split
    · rw [if_neg]
      intro hall
      simp [hall a hmem] at hout
    · rfl

theorem replay_eq (bigEndian : Bool) {ml : SymAddrSize} {p : SymEv} (hp : p.Recorded)
    (hwrites : (written p).Nonempty) (d : Memory) :
    replay bigEndian ⟨ml, d⟩ p =
      if Inside ml p then some ⟨ml, execute bigEndian p d⟩ else none := by
  cases p with
  | rmw addr w kind operand used =>
      obtain ⟨operand, rfl⟩ := Option.isSome_iff_exists.mp hp.2.2
      simp only [replay, inside_iff (p := .rmw addr w kind (some operand) used) rfl,
        Option.map_some, execute]
  | store addr w => exact replay_bytes hp rfl hwrites d
  | unobsStore addr w => exact replay_bytes hp rfl hwrites d
  | xchgAwait addr w op operand => exact replay_bytes hp rfl hwrites d
  | cmpXhg addr w expected => exact replay_bytes hp rfl hwrites d
  | _ =>
      obtain ⟨b, addr, haddr, -⟩ := hwrites
      cases haddr

theorem recomputeReplayFwd_eq (bigEndian : Bool) (ml : SymAddrSize) {stack : List SymEv}
    (hstack : ∀ p ∈ stack, p.Recorded) (hwrites : ∀ p ∈ stack, (written p).Nonempty)
    (d : Memory) :
    recomputeReplayFwd bigEndian ⟨ml, d⟩ stack =
      if ∀ p ∈ stack, Inside ml p then some ⟨ml, content bigEndian d stack⟩ else none := by
  rw [recomputeReplayFwd]
  induction stack generalizing d with
  | nil => simp
  | cons p stack ih =>
      have hstack' : ∀ q ∈ stack, q.Recorded := fun q hq => hstack q (List.mem_cons_of_mem p hq)
      have hwrites' : ∀ q ∈ stack, (written q).Nonempty :=
        fun q hq => hwrites q (List.mem_cons_of_mem p hq)
      rw [List.foldlM_cons,
        replay_eq bigEndian (hstack p List.mem_cons_self) (hwrites p List.mem_cons_self)]
      by_cases hinside : Inside ml p
      · simp only [hinside, if_true, Option.bind_eq_bind, Option.bind_some, ih hstack' hwrites',
          List.forall_mem_cons, true_and]
        rfl
      · simp [hinside]

end Nidhugg.TsoTraceBuilder

/-! # The value that an await is checked against

The content of a location is computed as if memory was zero initially, and only from operations
that stay inside the location. -/

namespace Nidhugg.TsoTraceBuilder

/-- The operations of some events of the prefix. -/
def opsAt (pre : List (List SymEv)) (seq : List ℕ) : List SymEv := seq.flatMap (pre.getD · [])

/-- The operations that execute before the await. -/
def opsBefore (pre : List (List SymEv)) (i : ℕ) (seq : List ℕ) : List SymEv :=
  (pre.take i).flatten ++ opsAt pre seq

/-- An await is decided on the content of its location. -/
structure AwaitsExactly (bigEndian : Bool) (m : Memory) (pre : List (List SymEv)) (i : ℕ)
    (seq : List ℕ) (ml : SymAddrSize) (cond : AwaitCond ml.size) : Prop where
  satisfiedBy : awaitcondSatisfiedBy bigEndian pre i seq ml cond =
    some (cond.satisfiedBy bigEndian ((content bigEndian m (opsBefore pre i seq)).read ml))
  satisfiedBefore : awaitcondSatisfiedBefore bigEndian pre i ml cond =
    awaitcondSatisfiedBy bigEndian pre i [] ml cond

/-- The operations that the content of a location depends on do not leave it. -/
def StaysInside (bigEndian : Bool) (ml : SymAddrSize) (events : List SymEv) : Prop :=
  ∀ p ∈ (computing bigEndian).slice { a | a ∈ ml.bytes } events, Inside ml p

theorem staysInside_of_forall (bigEndian : Bool) {ml : SymAddrSize} {events : List SymEv}
    (h : ∀ p ∈ events, Inside ml p) : StaysInside bigEndian ml events :=
  fun p hp => h p (Commands.mem_of_mem_slice hp)

/-- The bytes that are read before they are written are zero initially, if `goal` is read in the
end. -/
def ReadsZeros (bigEndian : Bool) (m : Memory) (goal : Set SymAddr) (events : List SymEv) : Prop :=
  ∀ a ∈ (computing bigEndian).live goal events, m a = 0

variable {bigEndian : Bool} {pre : List (List SymEv)} {ml : SymAddrSize}

theorem ReadsZeros.content_eq {m : Memory} {goal : Set SymAddr} {events : List SymEv}
    (h : ReadsZeros bigEndian m goal events) {a : SymAddr} (ha : a ∈ goal) :
    content bigEndian (fun _ => 0) events a = content bigEndian m events a :=
  Commands.run_congr (fun b hb => (h b hb).symm) a ha

/-- The bytes of a location that operations write. -/
def writtenBytes (ml : SymAddrSize) (events : List SymEv) : Set SymAddr :=
  { a | a ∈ ml.bytes ∧ ∃ p ∈ events, a ∈ written p }

theorem ReadsZeros.read_writtenContent {m : Memory} {events : List SymEv}
    (h : ReadsZeros bigEndian m (writtenBytes ml events) events) :
    (content bigEndian (fun _ => 0) events).read ml =
      (writtenContent bigEndian m events).read ml := by
  apply read_congr
  intro a ha
  rw [writtenContent]
  split
  · rename_i hwritten
    exact h.content_eq ⟨ha, (any_includes_iff events a).mp hwritten⟩
  · rename_i hwritten
    apply Commands.run_frame
    intro p hp hw
    exact hwritten ((any_includes_iff events a).mpr ⟨p, hp, hw⟩)

theorem symsAt_eq {seq : List ℕ} (h : ∀ k ∈ seq, k < pre.length) :
    symsAt pre seq = some (seq.map (pre.getD · [])) := by
  rw [symsAt]
  induction seq with
  | nil => rfl
  | cons k seq ih =>
      have hk := h k List.mem_cons_self
      rw [List.mapM_cons, ih (fun l hl => h l (List.mem_cons_of_mem k hl)),
        List.getElem?_eq_getElem hk]
      simp [List.getD_eq_getElem?_getD, List.getElem?_eq_getElem hk]

theorem recorded_flatten (h : ∀ sym ∈ pre, ∀ p ∈ sym, p.Recorded) (i : ℕ) :
    ∀ p ∈ (pre.take i).flatten, p.Recorded := by
  intro p hp
  obtain ⟨sym, hsym, hmem⟩ := List.mem_flatten.mp hp
  exact h sym (List.mem_of_mem_take hsym) p hmem

theorem recorded_opsBefore (h : ∀ sym ∈ pre, ∀ p ∈ sym, p.Recorded) (i : ℕ) (seq : List ℕ) :
    ∀ p ∈ opsBefore pre i seq, p.Recorded := by
  intro p hp
  cases List.mem_append.mp hp with
  | inl hp => exact recorded_flatten h i p hp
  | inr hp =>
      obtain ⟨k, -, hmem⟩ := List.mem_flatMap.mp hp
      rw [List.getD_eq_getElem?_getD] at hmem
      cases hsym : pre[k]? with
      | none => simp [hsym] at hmem
      | some sym =>
          rw [hsym] at hmem
          exact h sym (List.mem_of_getElem? hsym) p hmem

/-- The two scans of an await are one scan over the operations before it. -/
theorem awaitcondSatisfiedBy_eq {i : ℕ} {seq : List ℕ} (hseq : ∀ k ∈ seq, k < pre.length)
    (cond : AwaitCond ml.size) :
    awaitcondSatisfiedBy bigEndian pre i seq ml cond =
      (recomputeScanRev ml (opsBefore pre i seq).reverse (ml.bytes.toFinset, [])).bind fun st =>
        (recomputeReplayFwd bigEndian (.zero ml) st.2).map fun data =>
          cond.satisfiedBy bigEndian (data.block.read ml) := by
  have hops : (opsBefore pre i seq).reverse =
      (seq.map (pre.getD · [])).flatten.reverse ++ (pre.take i).flatten.reverse := by
    simp [opsBefore, opsAt, List.flatMap_def]
  simp only [awaitcondSatisfiedBy, symsAt_eq hseq, recomputeScanRevAll_eq, hops,
    recomputeScanRev_append, Option.bind_eq_bind, Option.bind_some, Option.bind_assoc,
    Option.pure_def, Option.map_eq_bind]
  rfl

/-- The computation gives the content that zeroed memory has after the operations. -/
theorem awaitcondSatisfiedBy_eq_some_iff {i : ℕ} {seq : List ℕ}
    (hpre : ∀ sym ∈ pre, ∀ p ∈ sym, p.Recorded) (hml : ml.Placed)
    (hseq : ∀ k ∈ seq, k < pre.length) (cond : AwaitCond ml.size) (b : Bool) :
    awaitcondSatisfiedBy bigEndian pre i seq ml cond = some b ↔
      StaysInside bigEndian ml (opsBefore pre i seq) ∧
        cond.satisfiedBy bigEndian
          ((content bigEndian (fun _ => 0) (opsBefore pre i seq)).read ml) = b := by
  have hrecorded := recorded_opsBefore hpre i seq
  have hneeded : ∀ a ∈ ml.bytes.toFinset, ml.includes a = true :=
    fun a ha => (mem_bytes_iff hml a).mp (List.mem_toFinset.mp ha)
  have hgoal : (↑ml.bytes.toFinset : Set SymAddr) = { a | a ∈ ml.bytes } := by
    ext a
    simp
  obtain ⟨hsome, hnone⟩ := recomputeScanRev_spec bigEndian
    (fun p hp => hrecorded p (List.mem_reverse.mp hp)) hneeded []
  rw [List.reverse_reverse, hgoal] at hsome hnone
  rw [awaitcondSatisfiedBy_eq hseq]
  cases hscan : recomputeScanRev ml (opsBefore pre i seq).reverse (ml.bytes.toFinset, []) with
  | none =>
      obtain ⟨p, hp, hinside⟩ := hnone hscan
      simp only [Option.bind_none, reduceCtorEq, false_iff, not_and]
      intro hstays
      exact absurd (hstays p hp) hinside
  | some st =>
      have hst := hsome st hscan
      rw [List.append_nil] at hst
      have hslice : ∀ p ∈ st.2, p.Recorded ∧ (written p).Nonempty := by
        intro p hp
        rw [hst] at hp
        exact ⟨hrecorded p (Commands.mem_of_mem_slice hp), Commands.useful_of_mem_slice hp⟩
      have hread : (content bigEndian (fun _ => 0) st.2).read ml =
          (content bigEndian (fun _ => 0) (opsBefore pre i seq)).read ml := by
        rw [hst]
        exact read_congr (Commands.run_slice_eq fun _ _ => rfl)
      rw [Option.bind_some, SymData.zero, recomputeReplayFwd_eq bigEndian ml
        (fun p hp => (hslice p hp).1) (fun p hp => (hslice p hp).2), StaysInside, ← hst]
      split
      · rename_i hinside
        simp only [Option.map_some, hread, Option.some.injEq]
        exact (and_iff_right hinside).symm
      · rename_i hinside
        simp [hinside]

theorem awaitcondSatisfiedBefore_eq {m : Memory} {i : ℕ}
    (hpre : ∀ sym ∈ pre, ∀ p ∈ sym, p.Recorded) (hrun : Computes bigEndian m pre.flatten)
    (hml : ml.Placed) (cond : AwaitCond ml.size) :
    awaitcondSatisfiedBefore bigEndian pre i ml cond =
      some (cond.satisfiedBy bigEndian
        ((writtenContent bigEndian m (pre.take i).flatten).read ml)) := by
  have hrecorded := recorded_flatten hpre i
  have hcomputes : Computes bigEndian m (pre.take i).flatten := by
    rw [← List.take_append_drop i pre, List.flatten_append] at hrun
    exact computes_append_left hrun
  have hneeded : ∀ a ∈ ml.bytes.toFinset, ml.includes a = true :=
    fun a ha => (mem_bytes_iff hml a).mp (List.mem_toFinset.mp ha)
  obtain ⟨rest, hscan⟩ := revRecomputeData_spec
    (fun p hp => hrecorded p (List.mem_reverse.mp hp)) hneeded (fun _ => 0)
  rw [awaitcondSatisfiedBefore, revRecomputeAll_eq, SymData.zero, hscan, List.reverse_reverse,
    recordedContent_zero hrecorded hcomputes]
  simp only [Option.bind_eq_bind, Option.bind_some, Option.pure_def, Option.some.injEq]
  rw [read_congr]
  intro a ha
  simp [ha]

/-- An await is decided on the content of its location if no operation that the content depends on
leaves the location, and the bytes that are read before they are written are zero initially: by the
operations or by the await, and without `seq` by the operations alone. -/
theorem awaitsExactly_of_readsZeros {m : Memory} {i : ℕ} {seq : List ℕ}
    (hpre : ∀ sym ∈ pre, ∀ p ∈ sym, p.Recorded) (hrun : Computes bigEndian m pre.flatten)
    (hml : ml.Placed) (hseq : ∀ k ∈ seq, k < pre.length) (cond : AwaitCond ml.size)
    (hinside : StaysInside bigEndian ml (opsBefore pre i seq))
    (hzeros : ReadsZeros bigEndian m { a | a ∈ ml.bytes } (opsBefore pre i seq))
    (hinside' : StaysInside bigEndian ml (pre.take i).flatten)
    (hzeros' : ReadsZeros bigEndian m (writtenBytes ml (pre.take i).flatten)
      (pre.take i).flatten) :
    AwaitsExactly bigEndian m pre i seq ml cond := by
  have hnil : opsBefore pre i [] = (pre.take i).flatten := by simp [opsBefore, opsAt]
  constructor
  · have hread : (content bigEndian (fun _ => 0) (opsBefore pre i seq)).read ml =
        (content bigEndian m (opsBefore pre i seq)).read ml :=
      read_congr fun a ha => hzeros.content_eq ha
    apply (awaitcondSatisfiedBy_eq_some_iff hpre hml hseq cond _).mpr
    exact ⟨hinside, by rw [hread]⟩
  · rw [awaitcondSatisfiedBefore_eq hpre hrun hml cond, eq_comm]
    apply (awaitcondSatisfiedBy_eq_some_iff hpre hml (by simp) cond _).mpr
    rw [hnil]
    exact ⟨hinside', by rw [hzeros'.read_writtenContent]⟩

/-! ## Fixed runs -/

def equals (b : Byte) : AwaitCond globalByte.size := ⟨.eq, .of [b]⟩

theorem awaitsExactly_stored :
    AwaitsExactly false (fun _ => 5) [[.store globalByte (byte 6)]] 0 [0] globalByte
      (equals 6) := by
  have hpre : ∀ sym ∈ [[SymEv.store globalByte (byte 6)]], ∀ p ∈ sym, p.Recorded := by
    simp [SymEv.Recorded, byte, placed_globalByte]
  have hrun : Computes false (fun _ => 5) [[SymEv.store globalByte (byte 6)]].flatten :=
    ⟨trivial, trivial⟩
  refine awaitsExactly_of_readsZeros hpre hrun placed_globalByte (by decide) (equals 6)
    (staysInside_of_forall false (by decide)) ?_ (staysInside_of_forall false (by decide)) ?_
  · -- The only byte is written before the await reads it.
    rintro a (⟨ha, hw⟩ | ⟨ha, -⟩)
    · cases List.mem_singleton.mp ha
      exact absurd ⟨globalByte, rfl, by decide⟩ hw
    · cases ha
  · rintro a ⟨-, p, hp, -⟩
    cases hp

/-- An increment of a variable that is 5 initially leaves 6, but the await for 6 is not taken to be
satisfied by it. -/
theorem not_awaitsExactly_incremented :
    Computes false (fun _ => 5) [.rmw globalByte (byte 6) .add (byte 1) false] ∧
      awaitcondSatisfiedBy false [[.rmw globalByte (byte 6) .add (byte 1) false]] 1 []
        globalByte (equals 6) = some false ∧
      ¬AwaitsExactly false (fun _ => 5) [[.rmw globalByte (byte 6) .add (byte 1) false]] 1 []
        globalByte (equals 6) := by
  refine ⟨⟨by simp [Computed, byte]; decide, trivial⟩, by decide +kernel, ?_⟩
  intro h
  have hby := h.satisfiedBy
  revert hby
  decide +kernel

end Nidhugg.TsoTraceBuilder
