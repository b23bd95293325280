import Mathlib

/-! Decimal numerals.

    Printing is `Nat.toDigits 10` and reading `Nat.ofDigitChars 10`; `readInt` is how the scanning
    functions of C find a number at the beginning of a text:

        blanks, sign, digits, anything                                                              -/

namespace UrlTraveler.Numerals

/-- The number at the beginning of a text. -/
def readInt (str : List Char) : Option ℤ :=
  let str := str.dropWhile Char.isWhitespace
  let negative := str.head? = some '-'
  let str := if str.head? = some '-' ∨ str.head? = some '+' then str.tail else str
  let digits := str.takeWhile Char.isDigit
  if digits = [] then none
  else some (if negative then -Nat.ofDigitChars 10 digits 0 else Nat.ofDigitChars 10 digits 0)

/-- A nonempty text of digits. -/
def IsNumeral (str : List Char) : Prop := str ≠ [] ∧ ∀ c ∈ str, c.isDigit

instance (str : List Char) : Decidable (IsNumeral str) := inferInstanceAs (Decidable (_ ∧ _))

theorem not_isWhitespace_of_isDigit {c : Char} (hc : c.isDigit) : c.isWhitespace = false := by
  rw [Char.isDigit_iff_toNat] at hc
  simp only [Char.isWhitespace, Bool.or_eq_false_iff, decide_eq_false_iff_not]
  refine ⟨⟨⟨?_, ?_⟩, ?_⟩, ?_⟩ <;> (rintro rfl; revert hc; decide)

/-- A numeral is read whole. -/
theorem readInt_numeral {str : List Char} (h : IsNumeral str) :
    readInt str = some (Nat.ofDigitChars 10 str 0 : ℤ) := by
  obtain ⟨hne, h⟩ := h
  cases str with
  | nil => exact absurd rfl hne
  | cons c cs =>
    have hc : c.isDigit := h c List.mem_cons_self
    have hblank := not_isWhitespace_of_isDigit hc
    have hminus : c ≠ '-' := by rintro rfl; revert hc; decide
    have hplus : c ≠ '+' := by rintro rfl; revert hc; decide
    have htake : (c :: cs).takeWhile Char.isDigit = c :: cs := List.takeWhile_eq_self_iff.2 h
    simp [readInt, hblank, hminus, hplus, htake]

theorem isNumeral_toDigits (n : ℕ) : IsNumeral (Nat.toDigits 10 n) :=
  ⟨Nat.toDigits_ne_nil, fun _ hc => Nat.isDigit_of_mem_toDigits (by decide) (by decide) hc⟩

theorem ofDigitChars_cons_zero (c : Char) (cs : List Char) :
    Nat.ofDigitChars 10 (c :: cs) 0 =
      (c.toNat - 48) * 10 ^ cs.length + Nat.ofDigitChars 10 cs 0 := by
  rw [Nat.ofDigitChars_cons, Nat.mul_zero, Nat.zero_add, Nat.ofDigitChars_eq_ofDigitChars_zero,
    Nat.mul_comm]
  rfl

/-- The number of digits. -/
theorem length_toDigits_ten {n : ℕ} (h : 0 < n) : (Nat.toDigits 10 n).length = Nat.log 10 n + 1 := by
  have hle : (Nat.toDigits 10 n).length ≤ Nat.log 10 n + 1 :=
    (Nat.length_toDigits_le_iff (by decide) (by omega)).2 (Nat.lt_pow_succ_log_self (by decide) n)
  have hpos : 0 < (Nat.toDigits 10 n).length := Nat.length_toDigits_pos
  have hlt : n < 10 ^ (Nat.toDigits 10 n).length :=
    (Nat.length_toDigits_le_iff (by decide) hpos).1 le_rfl
  have := (Nat.log_lt_iff_lt_pow (by decide) (by omega)).2 hlt
  omega

end UrlTraveler.Numerals
