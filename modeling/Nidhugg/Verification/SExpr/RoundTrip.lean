import Nidhugg.Model.SExpr
import Mathlib.Data.List.TakeWhile

/-! # S-expressions are read back as they were printed

Reading also terminates on every stream. -/

namespace Nidhugg.SExpr

open Numerals

variable {e : SExpr} {elems : List SExpr} {is rest rest' str : List Char} {turns turns' : ℕ} {value : ℤ}
  {c : Char}

/-! ### Numbers -/

theorem isSpace_of_isDigit (h : isDigit 10 c = true) : isSpace c = false := by
  by_contra hspace
  rw [Bool.not_eq_false, isSpace, Bool.or_eq_true, decide_eq_true_eq, Bool.and_eq_true,
    decide_eq_true_eq, decide_eq_true_eq] at hspace
  have hnone : digitValue? c = none := by
    cases hspace with
    | inl heq =>
        rw [heq]
        rfl
    | inr hrange =>
        have hle : c ≤ '\r' := hrange.2
        have hdigit : ¬ '0' ≤ c := fun h => absurd (Char.le_trans h hle) (by decide)
        have hlower : ¬ 'a' ≤ c := fun h => absurd (Char.le_trans h hle) (by decide)
        have hupper : ¬ 'A' ≤ c := fun h => absurd (Char.le_trans h hle) (by decide)
        rw [digitValue?, if_neg (fun h => hdigit h.1), if_neg (fun h => hlower h.1),
          if_neg (fun h => hupper h.1)]
  rw [isDigit, hnone] at h
  cases h

theorem takeWhile_of_forall {p : Char → Bool} (h : ∀ c ∈ str, p c = true) :
    str.takeWhile p = str := by
  rw [List.takeWhile_eq_self_iff]
  exact h

theorem isDigit_numeral (n : ℕ) : ∀ c ∈ numeral 10 n, isDigit 10 c = true :=
  fun _ hc => isDigit_of_mem_numeral (by decide) (by decide) hc

theorem skipPrefix_ten (str : List Char) : skipPrefix 10 str = str := by
  rw [skipPrefix.eq_def]
  split
  · exact if_neg (by simp)
  · rfl

/-- A string that is a numeral is read completely. -/
theorem strtol_unsigned {negative : Bool} {n : ℕ}
    (h : sign (str.dropWhile isSpace) = (negative, numeral 10 n)) :
    strtol 10 str = (clampLong (if negative then -n else n), []) := by
  have hempty : (numeral 10 n).isEmpty = false :=
    List.isEmpty_eq_false_iff.mpr numeral_ne_nil
  rw [strtol, h]
  dsimp only
  rw [skipPrefix_ten, takeWhile_of_forall (isDigit_numeral n), if_neg (by rw [hempty]; decide),
    value_numeral (by decide) (by decide), List.drop_length]

theorem head_numeral (n : ℕ) : ∃ c str, numeral 10 n = c :: str ∧ isDigit 10 c = true := by
  cases hnumeral : numeral 10 n with
  | nil => exact absurd hnumeral numeral_ne_nil
  | cons c str =>
      refine ⟨c, str, rfl, isDigit_numeral n c ?_⟩
      rw [hnumeral]
      exact List.mem_cons_self

theorem sign_numeral (n : ℕ) : sign ((numeral 10 n).dropWhile isSpace) = (false, numeral 10 n) := by
  obtain ⟨c, str, hnumeral, hc⟩ := head_numeral n
  rw [hnumeral, List.dropWhile_cons_of_neg (by rw [isSpace_of_isDigit hc]; decide)]
  rw [sign.eq_def]
  split
  · rename_i heq
    rw [(List.cons.inj heq).1] at hc
    exact absurd hc (by decide)
  · rename_i heq
    rw [(List.cons.inj heq).1] at hc
    exact absurd hc (by decide)
  · rfl

/-- Whole numbers are read back. -/
theorem strtol_printInt (value : ℤ) : strtol 10 (printInt value) = (clampLong value, []) := by
  rw [printInt]
  split
  · rename_i hneg
    have hsign : sign (('-' :: numeral 10 value.natAbs).dropWhile isSpace) =
        (true, numeral 10 value.natAbs) := rfl
    rw [strtol_unsigned hsign, if_pos rfl]
    congr 2
    omega
  · rw [strtol_unsigned (sign_numeral _), if_neg Bool.false_ne_true]
    congr 2
    omega

theorem toInt_clampLong (hmin : -2 ^ 31 ≤ value) (hmax : value < 2 ^ 31) :
    toInt (clampLong value) = value := by
  have hclamp : clampLong value = value := by
    rw [clampLong]
    omega
  rw [hclamp, toInt, Int.bmod_eq_of_le]
  · omega
  · omega

/-! ### What is printed -/

/-- `strtol` would read a number at the beginning of the string. -/
def startsLikeNumber : List Char → Bool
  | c :: str => isDigit 10 c || ((c = '+' || c = '-') && str.head?.any (isDigit 10))
  | [] => false

structure TokenName (name : List Char) : Prop where
  nonempty : name ≠ []
  chars : ∀ c ∈ name, endOfTok c = false
  notNumber : startsLikeNumber name = false

/-- The S-expressions that can be read back. -/
inductive WellFormed : SExpr → Prop where
  | token {name : List Char} (h : TokenName name) : WellFormed (.token name)
  | int {value : ℤ} (hmin : -2 ^ 31 ≤ value) (hmax : value < 2 ^ 31) : WellFormed (.int value)
  | list {elems : List SExpr} (h : ∀ e ∈ elems, WellFormed e) : WellFormed (.list elems)

theorem not_space_of_not_endOfTok (h : endOfTok c = false) : isSpace c = false := by
  rw [endOfTok, Bool.or_eq_false_iff, Bool.or_eq_false_iff] at h
  exact h.1.1

theorem strtol_token {name : List Char} (h : TokenName name) : strtol 10 name = (0, name) := by
  cases hname : name with
  | nil => exact absurd hname h.nonempty
  | cons c str =>
      have hspace : isSpace c = false :=
        not_space_of_not_endOfTok (h.chars c (by rw [hname]; exact List.mem_cons_self))
      have hnumber := h.notNumber
      rw [hname, startsLikeNumber, Bool.or_eq_false_iff] at hnumber
      have hdigits : ∀ str' : List Char, str'.head?.any (isDigit 10) = false →
          str'.takeWhile (isDigit 10) = [] := by
        intro str' hhead
        cases str' with
        | nil => rfl
        | cons d str' =>
            rw [List.head?_cons, Option.any_some] at hhead
            exact List.takeWhile_cons_of_neg (by rw [hhead]; decide)
      rw [strtol, List.dropWhile_cons_of_neg (by rw [hspace]; decide)]
      dsimp only
      rw [skipPrefix_ten, hdigits, List.isEmpty_nil, if_pos rfl]
      rw [sign.eq_def]
      split
      · rename_i heq
        obtain ⟨rfl, rfl⟩ := List.cons.inj heq
        simpa using hnumber.2
      · rename_i heq
        obtain ⟨rfl, rfl⟩ := List.cons.inj heq
        simpa using hnumber.2
      · rw [List.head?_cons, Option.any_some]
        exact hnumber.1

/-! ### Atoms -/

/-- A string that ends where an atom does. -/
def Delimited (rest : List Char) : Prop := rest.head?.all endOfTok = true

theorem takeWhile_atom (hstr : ∀ c ∈ str, endOfTok c = false) (hrest : Delimited rest) :
    (str ++ rest).takeWhile (fun c => !endOfTok c) = str := by
  rw [List.takeWhile_append_of_pos]
  · cases rest with
    | nil => exact List.append_nil str
    | cons d rest =>
        have hd : endOfTok d = true := hrest
        rw [List.takeWhile_cons_of_neg (by rw [hd]; decide), List.append_nil]
  · intro c hc
    rw [hstr c hc]
    rfl

theorem readAtom_append (hstr : ∀ c ∈ str, endOfTok c = false) (hrest : Delimited rest) :
    readAtom (str ++ rest) = ((readAtom str).1, rest) := by
  have hself := takeWhile_atom hstr (show Delimited [] from rfl)
  rw [List.append_nil] at hself
  rw [readAtom, takeWhile_atom hstr hrest, readAtom, hself]
  dsimp only
  rw [List.drop_left]

theorem readAtom_token {name : List Char} (h : TokenName name) :
    (readAtom name).1 = .token name := by
  have hself := takeWhile_atom h.chars (show Delimited [] from rfl)
  rw [List.append_nil] at hself
  rw [readAtom, hself, strtol_token h]
  dsimp only
  rw [if_neg]
  rw [List.isEmpty_iff]
  exact h.nonempty

theorem endOfTok_of_isDigit (h : isDigit 10 c = true) : endOfTok c = false := by
  rw [endOfTok, isSpace_of_isDigit h, Bool.false_or, Bool.or_eq_false_iff,
    decide_eq_false_iff_not, decide_eq_false_iff_not]
  constructor
  · intro heq
    rw [heq] at h
    exact absurd h (by decide)
  · intro heq
    rw [heq] at h
    exact absurd h (by decide)

theorem endOfTok_printInt : ∀ c ∈ printInt value, endOfTok c = false := by
  intro c hc
  rw [printInt] at hc
  split at hc
  · cases List.mem_cons.mp hc with
    | inl heq =>
        rw [heq]
        rfl
    | inr hc => exact endOfTok_of_isDigit (isDigit_numeral _ c hc)
  · exact endOfTok_of_isDigit (isDigit_numeral _ c hc)

theorem readAtom_int (hmin : -2 ^ 31 ≤ value) (hmax : value < 2 ^ 31) :
    (readAtom (printInt value)).1 = .int value := by
  have hatom : ∀ c ∈ printInt value, endOfTok c = false := endOfTok_printInt
  have hself := takeWhile_atom hatom (show Delimited [] from rfl)
  rw [List.append_nil] at hself
  rw [readAtom, hself, strtol_printInt]
  dsimp only
  rw [List.isEmpty_nil, if_pos rfl, toInt_clampLong hmin hmax]

theorem printInt_ne_nil : printInt value ≠ [] := by
  rw [printInt]
  split
  · nofun
  · exact numeral_ne_nil

/-- An atom is read up to what ends it. -/
theorem read_atom (hne : str ≠ []) (hstr : ∀ c ∈ str, endOfTok c = false)
    (hrest : Delimited rest) :
    read (turns + 1) (str ++ rest) = some (.ok ((readAtom str).1, rest)) := by
  cases str with
  | nil => exact absurd rfl hne
  | cons c str =>
      have hc := hstr c List.mem_cons_self
      rw [read, List.cons_append,
        List.dropWhile_cons_of_neg (by rw [not_space_of_not_endOfTok hc]; decide)]
      split
      · rename_i heq
        cases heq
      · rename_i heq
        rw [(List.cons.inj heq).1] at hc
        exact absurd hc (by decide)
      · rename_i heq
        rw [(List.cons.inj heq).1] at hc
        exact absurd hc (by decide)
      · rw [← List.cons_append, readAtom_append hstr hrest]

/-! ### Round trip -/

/-- A stream on which reading ends where the S-expression does. -/
def EndsAt (rest : List Char) : SExpr → Prop
  | .list _ => True
  | _ => Delimited rest

/-- Enough turns to read an S-expression bring it back. -/
def Readable (e : SExpr) : Prop := ∀ turns rest, EndsAt rest e → e.print.length ≤ turns →
  read turns (e.print ++ rest) = some (.ok (e, rest))

theorem WellFormed.head_print (h : WellFormed e) :
    ∃ c str, e.print = c :: str ∧ isSpace c = false ∧ c ≠ ')' := by
  have hatom : ∀ str : List Char, str ≠ [] → (∀ c ∈ str, endOfTok c = false) →
      ∃ c str', str = c :: str' ∧ isSpace c = false ∧ c ≠ ')' := by
    intro str hne hstr
    cases str with
    | nil => exact absurd rfl hne
    | cons c str =>
        have hc := hstr c List.mem_cons_self
        refine ⟨c, str, rfl, not_space_of_not_endOfTok hc, ?_⟩
        intro heq
        rw [heq] at hc
        exact absurd hc (by decide)
  cases h with
  | token h =>
      rw [print]
      exact hatom _ h.nonempty h.chars
  | int hmin hmax =>
      rw [print]
      exact hatom _ printInt_ne_nil endOfTok_printInt
  | list h =>
      rw [print]
      exact ⟨'(', _, rfl, rfl, by decide⟩

/-- A list continues with an element. -/
theorem readElems_of_read (h : WellFormed e)
    (hread : read turns (e.print ++ is) = some (.ok (e, rest)))
    (hrest : readElems turns rest = some (.ok (elems, rest'))) :
    readElems (turns + 1) (e.print ++ is) = some (.ok (e :: elems, rest')) := by
  obtain ⟨c, str, hprint, hspace, hparen⟩ := h.head_print
  rw [hprint] at hread ⊢
  rw [readElems, List.cons_append, List.dropWhile_cons_of_neg (by rw [hspace]; decide)]
  split
  · rename_i heq
    exact absurd (List.cons.inj heq).1 hparen
  · rw [List.cons_append] at hread
    rw [hread, Option.bind_some]
    dsimp only
    rw [hrest]
    rfl

theorem delimited_printRest : Delimited (printRest elems ++ ')' :: rest) := by
  cases elems with
  | nil =>
      rw [printRest]
      rfl
  | cons e elems =>
      rw [printRest]
      rfl

theorem endsAt_of_delimited (h : Delimited rest) (e : SExpr) : EndsAt rest e := by
  cases e with
  | list elems => trivial
  | _ => exact h

theorem readElems_space : readElems turns (' ' :: is) = readElems turns is := by
  cases turns with
  | zero => rfl
  | succ turns =>
      rw [readElems, readElems, List.dropWhile_cons_of_pos (by rfl)]

theorem readElems_paren : readElems (turns + 1) (')' :: rest) = some (.ok ([], rest)) := by
  rw [readElems, List.dropWhile_cons_of_neg (by decide)]
  rfl

theorem read_paren : read (turns + 1) ('(' :: is) = (readElems turns is).map fun result =>
    result.map fun (elems, is) => (.list elems, is) := by
  rw [read, List.dropWhile_cons_of_neg (by decide)]
  rfl

/-- The elements after the first one. -/
theorem readElems_printRest (helems : ∀ e ∈ elems, WellFormed e ∧ Readable e)
    (hturns : (printRest elems).length < turns) :
    readElems turns (printRest elems ++ ')' :: rest) = some (.ok (elems, rest)) := by
  induction elems generalizing turns with
  | nil =>
      obtain ⟨turns, rfl⟩ := Nat.exists_eq_succ_of_ne_zero (Nat.ne_zero_of_lt hturns)
      rw [printRest]
      exact readElems_paren
  | cons e elems ih =>
      obtain ⟨he, hreadable⟩ := helems e List.mem_cons_self
      obtain ⟨turns, rfl⟩ := Nat.exists_eq_succ_of_ne_zero (Nat.ne_zero_of_lt hturns)
      rw [printRest, List.length_cons, List.length_append] at hturns
      have hpos : 0 < e.print.length := by
        obtain ⟨c, str, hprint, -⟩ := he.head_print
        rw [hprint]
        exact Nat.succ_pos _
      rw [printRest, List.cons_append, List.append_assoc, readElems_space]
      apply readElems_of_read he
      · exact hreadable turns _ (endsAt_of_delimited delimited_printRest e) (by omega)
      · exact ih (fun d hd => helems d (List.mem_cons_of_mem _ hd)) (by omega)

theorem readElems_printElems (helems : ∀ e ∈ elems, WellFormed e ∧ Readable e)
    (hturns : (printElems elems).length < turns) :
    readElems turns (printElems elems ++ ')' :: rest) = some (.ok (elems, rest)) := by
  cases elems with
  | nil => exact readElems_printRest helems hturns
  | cons e elems =>
      -- the text of the elements without the space in front of them
      obtain ⟨he, hreadable⟩ := helems e List.mem_cons_self
      obtain ⟨turns, rfl⟩ := Nat.exists_eq_succ_of_ne_zero (Nat.ne_zero_of_lt hturns)
      rw [printElems, List.length_append] at hturns
      have hpos : 0 < e.print.length := by
        obtain ⟨c, str, hprint, -⟩ := he.head_print
        rw [hprint]
        exact Nat.succ_pos _
      rw [printElems, List.append_assoc]
      apply readElems_of_read he
      · exact hreadable turns _ (endsAt_of_delimited delimited_printRest e) (by omega)
      · exact readElems_printRest (fun d hd => helems d (List.mem_cons_of_mem _ hd)) (by omega)

theorem WellFormed.readable (h : WellFormed e) : Readable e := by
  induction h with
  | token h =>
      intro turns rest hrest hturns
      rw [print] at hturns ⊢
      obtain ⟨turns, rfl⟩ := Nat.exists_eq_succ_of_ne_zero
        (Nat.ne_zero_of_lt (Nat.lt_of_lt_of_le (List.length_pos_of_ne_nil h.nonempty) hturns))
      rw [read_atom h.nonempty h.chars hrest, readAtom_token h]
  | int hmin hmax =>
      intro turns rest hrest hturns
      rw [print] at hturns ⊢
      obtain ⟨turns, rfl⟩ := Nat.exists_eq_succ_of_ne_zero
        (Nat.ne_zero_of_lt (Nat.lt_of_lt_of_le (List.length_pos_of_ne_nil printInt_ne_nil) hturns))
      rw [read_atom printInt_ne_nil endOfTok_printInt hrest, readAtom_int hmin hmax]
  | list h ih =>
      intro turns rest _ hturns
      rw [print, List.length_cons, List.length_append, List.length_singleton] at hturns
      obtain ⟨turns, rfl⟩ := Nat.exists_eq_succ_of_ne_zero (Nat.ne_zero_of_lt hturns)
      rw [print, List.cons_append, List.append_assoc, List.singleton_append, read_paren,
        readElems_printElems (fun e he => ⟨h e he, ih e he⟩) (by omega)]
      rfl

/-! ### Termination -/

theorem length_dropWhile_le (is : List Char) (p : Char → Bool) :
    (is.dropWhile p).length ≤ is.length :=
  (List.dropWhile_suffix p).length_le

/-- With enough turns reading ends, and it uses up some of the stream if it succeeds. -/
structure Ends (α : Type) (is : List Char)
    (result : Option (Except ParseError (α × List Char))) : Prop where
  ended : result.isSome = true
  shorter : ∀ a rest, result = some (.ok (a, rest)) → rest.length < is.length

theorem Ends.error {α : Type} {e : ParseError} : Ends α is (some (.error e)) where
  ended := rfl
  shorter := nofun

theorem Ends.ok {α : Type} {a : α} (h : rest.length < is.length) :
    Ends α is (some (.ok (a, rest))) where
  ended := rfl
  shorter := by
    intro a' rest' heq
    cases heq
    exact h

/-- What is read is part of something larger. -/
theorem Ends.map {α β : Type} {result : Option (Except ParseError (α × List Char))}
    (h : Ends α rest result) (hle : rest.length ≤ is.length) (f : α → β) :
    Ends β is (result.map fun result => result.map fun (a, is) => (f a, is)) := by
  cases result with
  | none => cases h.ended
  | some result =>
      cases result with
      | error e => exact .error
      | ok p =>
          obtain ⟨a, rest'⟩ := p
          exact .ok (Nat.lt_of_lt_of_le (h.shorter a rest' rfl) hle)

theorem readAtom_shorter (hc : endOfTok c = false) :
    (readAtom (c :: is)).2.length < (c :: is).length := by
  rw [readAtom, List.takeWhile_cons_of_pos (by rw [hc]; rfl)]
  simp only [List.length_cons, List.drop_succ_cons, List.length_drop]
  omega

/-- The bound for lists is one more, because each element is read within a turn. -/
theorem ends (turns : ℕ) : (∀ is : List Char, 2 * is.length < turns → Ends SExpr is (read turns is)) ∧
    ∀ is : List Char, 2 * is.length + 1 < turns → Ends (List SExpr) is (readElems turns is) := by
  induction turns with
  | zero => exact ⟨nofun, nofun⟩
  | succ turns ih =>
      constructor
      · intro is hturns
        have hle := length_dropWhile_le is isSpace
        rw [read]
        split
        · exact .error
        · exact .error
        · rename_i is' heq
          rw [heq, List.length_cons] at hle
          exact (ih.2 is' (by omega)).map (by omega) SExpr.list
        · rename_i hne hclose hopen
          cases hdrop : is.dropWhile isSpace with
          | nil => exact absurd hdrop hne
          | cons c is' =>
              rw [hdrop] at hle
              have hspace : isSpace c = false := by
                have hhead := List.head?_dropWhile_not isSpace is
                rw [hdrop] at hhead
                simpa using hhead
              have hc : endOfTok c = false := by
                rw [endOfTok, hspace, Bool.false_or, Bool.or_eq_false_iff,
                  decide_eq_false_iff_not, decide_eq_false_iff_not]
                refine ⟨?_, ?_⟩
                · intro heq
                  exact hclose is' (heq ▸ hdrop)
                · intro heq
                  exact hopen is' (heq ▸ hdrop)
              exact .ok (Nat.lt_of_lt_of_le (readAtom_shorter hc) hle)
      · intro is hturns
        have hle := length_dropWhile_le is isSpace
        rw [readElems]
        split
        · rename_i is' heq
          rw [heq, List.length_cons] at hle
          exact .ok (by omega)
        · have hfirst := ih.1 (is.dropWhile isSpace) (by omega)
          cases hread : read turns (is.dropWhile isSpace) with
          | none =>
              rw [hread] at hfirst
              cases hfirst.ended
          | some result =>
              cases result with
              | error e => exact .error
              | ok p =>
                  obtain ⟨e, rest⟩ := p
                  have hlt := hfirst.shorter e rest hread
                  exact (ih.2 rest (by omega)).map (by omega) (e :: ·)

/-- More turns than enough change nothing. -/
theorem read_succ (turns : ℕ) :
    (∀ is result, read turns is = some result → read (turns + 1) is = some result) ∧
      ∀ is result, readElems turns is = some result → readElems (turns + 1) is = some result := by
  induction turns with
  | zero => exact ⟨nofun, nofun⟩
  | succ turns ih =>
      constructor
      · intro is result hread
        rw [read] at hread ⊢
        split
        · rename_i heq
          simpa only [heq] using hread
        · rename_i heq
          rw [heq] at hread
          exact hread
        · rename_i heq
          rw [heq] at hread
          obtain ⟨elems, helems, hresult⟩ := Option.map_eq_some_iff.mp hread
          rw [ih.2 _ _ helems, Option.map_some, hresult]
        · rename_i hnil hclose hopen
          split at hread
          · exact absurd ‹_› hnil
          · exact absurd ‹_› (hclose _)
          · exact absurd ‹_› (hopen _)
          · exact hread
      · intro is result hread
        rw [readElems] at hread ⊢
        split
        · rename_i heq
          rw [heq] at hread
          exact hread
        · rename_i hclose
          split at hread
          · exact absurd ‹_› (hclose _)
          · obtain ⟨first, hfirst, hrest⟩ := Option.bind_eq_some_iff.mp hread
            rw [ih.1 _ _ hfirst, Option.bind_some]
            cases first with
            | error e => exact hrest
            | ok p =>
                obtain ⟨elems, helems, hresult⟩ := Option.map_eq_some_iff.mp hrest
                dsimp only
                rw [ih.2 _ _ helems, Option.map_some, hresult]

/-- Reading a stream terminates with a result: all numbers of turns from some on are enough. -/
def Reads (is : List Char) (result : Except ParseError (SExpr × List Char)) : Prop :=
  ∃ enough, ∀ turns, enough ≤ turns → read turns is = some result

theorem reads_of_read {result : Except ParseError (SExpr × List Char)}
    (h : read turns is = some result) : Reads is result := by
  refine ⟨turns, ?_⟩
  intro turns' hle
  induction turns', hle using Nat.le_induction with
  | base => exact h
  | succ turns' _ ih => exact (read_succ turns').1 _ _ ih

/-- What is printed is read back, up to its end, and reading terminates on every stream. -/
theorem reads_print_and_terminates :
    (∀ e rest, WellFormed e → EndsAt rest e → Reads (e.print ++ rest) (.ok (e, rest))) ∧
      ∀ is, ∃ result, Reads is result := by
  constructor
  · intro e rest he hrest
    exact ⟨e.print.length, fun turns hle => he.readable turns rest hrest hle⟩
  · intro is
    have hended := ((ends (2 * is.length + 1)).1 is (by omega)).ended
    obtain ⟨result, hresult⟩ := Option.isSome_iff_exists.mp hended
    exact ⟨result, reads_of_read hresult⟩

/-- An answer with a negative number, an empty list and nested lists. -/
def nestedAnswer : SExpr := .list [.list [.token ['e', '0'], .int (-12)], .list [], .token ['x']]

theorem reads_nestedAnswer : Reads nestedAnswer.print (.ok (nestedAnswer, [])) := by
  have he0 : TokenName ['e', '0'] :=
    ⟨nofun, List.forall_mem_cons.mpr ⟨rfl, List.forall_mem_singleton.mpr rfl⟩, rfl⟩
  have hx : TokenName ['x'] := ⟨nofun, List.forall_mem_singleton.mpr rfl, rfl⟩
  have hpair : WellFormed (.list [.token ['e', '0'], .int (-12)]) := by
    apply WellFormed.list
    intro e he
    cases List.mem_cons.mp he with
    | inl heq => exact heq ▸ .token he0
    | inr he => exact List.mem_singleton.mp he ▸ .int (by decide) (by decide)
  have hanswer : WellFormed nestedAnswer := by
    apply WellFormed.list
    intro e he
    rw [List.mem_cons, List.mem_cons, List.mem_singleton] at he
    rcases he with rfl | rfl | rfl
    · exact hpair
    · exact .list fun e he => absurd he List.not_mem_nil
    · exact .token hx
  have hread := reads_print_and_terminates.1 nestedAnswer [] hanswer trivial
  rwa [List.append_nil] at hread

end Nidhugg.SExpr
