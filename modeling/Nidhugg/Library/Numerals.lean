import Mathlib.Data.Nat.Digits.Lemmas

/-! # Numerals

Natural numbers as strings of digits in a base of at most sixteen. -/

namespace Nidhugg.Numerals

variable {base n k : ℕ} {c : Char} {ds : List Char}

/-- The value of a digit, where letters stand for the digits from ten on. -/
def digitValue? (c : Char) : Option ℕ :=
  if '0' ≤ c ∧ c ≤ '9' then some (c.toNat - '0'.toNat)
  else if 'a' ≤ c ∧ c ≤ 'z' then some (c.toNat - 'a'.toNat + 10)
  else if 'A' ≤ c ∧ c ≤ 'Z' then some (c.toNat - 'A'.toNat + 10)
  else none

def isDigit (base : ℕ) (c : Char) : Bool := (digitValue? c).any (· < base)

def digitValue (c : Char) : ℕ := (digitValue? c).getD 0

/-- The number that a string of digits stands for. -/
def value (base : ℕ) (ds : List Char) : ℕ := ds.foldl (fun n c => base * n + digitValue c) 0

/-- The shortest numeral of a number. -/
def numeral (base n : ℕ) : List Char :=
  if n = 0 then ['0'] else (Nat.digits base n).reverse.map Nat.digitChar

theorem digitValue?_digitChar (h : n < 16) : digitValue? (Nat.digitChar n) = some n := by
  have hall : ∀ n < 16, digitValue? (Nat.digitChar n) = some n := by decide
  exact hall n h

theorem isDigit_digitChar (hbase : base ≤ 16) (h : n < base) :
    isDigit base (Nat.digitChar n) = true := by
  rw [isDigit, digitValue?_digitChar (Nat.lt_of_lt_of_le h hbase), Option.any_some]
  exact decide_eq_true h

theorem isDigit_of_mem_numeral (hlt : 1 < base) (hbase : base ≤ 16) (hc : c ∈ numeral base n) :
    isDigit base c = true := by
  rw [numeral] at hc
  split at hc
  · rw [List.mem_singleton.mp hc]
    exact isDigit_digitChar hbase (Nat.lt_trans Nat.zero_lt_one hlt)
  · obtain ⟨d, hd, rfl⟩ := List.mem_map.mp hc
    exact isDigit_digitChar hbase (Nat.digits_lt_base hlt (List.mem_reverse.mp hd))

theorem numeral_ne_nil : numeral base n ≠ [] := by
  rw [numeral]
  split
  · nofun
  · rename_i hn
    simp [Nat.digits_ne_nil_iff_ne_zero.mpr hn]

/-! ### Values -/

theorem value_concat : value base (ds ++ [c]) = base * value base ds + digitValue c := by
  rw [value, List.foldl_append, List.foldl_cons, List.foldl_nil, value]

theorem value_zeros (k : ℕ) : value base (List.replicate k '0' ++ ds) = value base ds := by
  induction k with
  | zero => rfl
  | succ k ih =>
      rw [List.replicate_succ, List.cons_append, ← ih, value, List.foldl_cons, value]
      rfl

/-- The value of digits that are written the other way round. -/
theorem value_reverse_map {digits : List ℕ} (h : ∀ d ∈ digits, d < 16) :
    value base (digits.reverse.map Nat.digitChar) = Nat.ofDigits base digits := by
  induction digits with
  | nil => rfl
  | cons d digits ih =>
      have hd := digitValue?_digitChar (h d List.mem_cons_self)
      have hrest := ih fun e he => h e (List.mem_cons_of_mem _ he)
      rw [List.reverse_cons, List.map_append, List.map_singleton, value_concat, hrest, digitValue,
        hd, Nat.ofDigits_cons, Option.getD_some, Nat.add_comm]

theorem value_numeral (hlt : 1 < base) (hbase : base ≤ 16) : value base (numeral base n) = n := by
  rw [numeral]
  split
  · rename_i hn
    rw [hn]
    rfl
  · rw [value_reverse_map, Nat.ofDigits_digits]
    intro d hd
    exact Nat.lt_of_lt_of_le (Nat.digits_lt_base hlt hd) hbase

/-! ### Lengths -/

theorem length_numeral_le_iff (hlt : 1 < base) (hk : 0 < k) :
    (numeral base n).length ≤ k ↔ n < base ^ k := by
  rw [numeral]
  split
  · rename_i hn
    rw [hn]
    exact iff_of_true hk (Nat.pow_pos (Nat.lt_trans Nat.zero_lt_one hlt))
  · rw [List.length_map, List.length_reverse, Nat.digits_length_le_iff hlt]

end Nidhugg.Numerals
