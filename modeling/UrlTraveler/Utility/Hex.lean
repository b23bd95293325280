import Mathlib

/-! `HexToString` and `StringToHex`: bytes as pairs of hexadecimal digits.

        [0x3f, 0xa0]   ──HexToString──▶   "3fa0"
                       ◀──StringToHex──   "3fa0", "3FA0", "3Fa0", ...
        []             ◀──StringToHex──   "3fa", "3g", ...

    Printing gives lower case, reading takes both cases and gives nothing for any other text. -/

namespace UrlTraveler.Utility

/-- A `wchar_t` in the given range of codes. -/
def inRange (lo hi : ℕ) (c : UInt16) : Prop := lo ≤ c.toNat ∧ c.toNat ≤ hi

instance (lo hi : ℕ) (c : UInt16) : Decidable (inRange lo hi c) := inferInstanceAs (Decidable (_ ∧ _))

/-! ### Printing -/

/-- `%02x`. -/
def hexByte (byte : UInt8) : List UInt16 :=
  let digits := Nat.toDigits 16 byte.toNat
  (List.replicate (2 - digits.length) '0' ++ digits).map fun c => UInt16.ofNat c.toNat

/-- `HexToString`; `_snwprintf_s` writes two characters at most. -/
def hexToString (strHex : List UInt8) : List UInt16 :=
  strHex.foldl (fun str byte => str ++ (hexByte byte).take 2) []

/-! ### Reading -/

/-- The value of the first digit of a pair. -/
def highDigit (c : UInt16) : Option UInt8 :=
  if inRange 48 57 c then some (UInt8.ofNat (c.toNat - 48))
  else if inRange 65 70 c then some (UInt8.ofNat (c.toNat - 55))
  else if inRange 97 102 c then some (UInt8.ofNat (c.toNat - 87))
  else none

/-- `byValue` after the second digit. -/
def lowDigit (byValue : UInt8) (c : UInt16) : Option UInt8 :=
  if inRange 48 57 c then some (UInt8.ofNat (byValue.toNat * 16 + c.toNat - 48))
  else if inRange 65 70 c then some (UInt8.ofNat (byValue.toNat * 16 + c.toNat - 48 - 7))
  else if inRange 97 102 c then some (UInt8.ofNat (byValue.toNat * 16 + c.toNat - 87))
  else none

/-- The loop of `StringToHex`; a character that is no digit makes the result empty. -/
def stringToHexLoop : List UInt16 → List UInt8 → List UInt8
  | c :: d :: cs, strHex =>
    match highDigit c with
    | none => []
    | some byValue =>
      match lowDigit byValue d with
      | none => []
      | some byValue => stringToHexLoop cs (strHex ++ [byValue])
  | _, strHex => strHex

/-- `StringToHex`. -/
def stringToHex (strString : List UInt16) : List UInt8 :=
  if strString.length % 2 ≠ 0 then [] else stringToHexLoop strString []

/-! ### Digits -/

/-- A hexadecimal digit in either case. -/
def IsHexDigit (c : UInt16) : Prop := inRange 48 57 c ∨ inRange 65 70 c ∨ inRange 97 102 c

instance (c : UInt16) : Decidable (IsHexDigit c) := inferInstanceAs (Decidable (_ ∨ _ ∨ _))

/-- A Latin letter in lower case. -/
def lowerCase (c : UInt16) : UInt16 := if inRange 65 90 c then c + 32 else c

/-- The value of a digit. -/
def hexValue (c : UInt16) : ℕ :=
  if c.toNat ≤ 57 then c.toNat - 48 else if c.toNat ≤ 70 then c.toNat - 55 else c.toNat - 87

/-- The digit in lower case for a value below 16. -/
def hexDigit (n : ℕ) : UInt16 := UInt16.ofNat (if n < 10 then 48 + n else 87 + n)

theorem hexByte_eq (byte : UInt8) :
    hexByte byte = [hexDigit (byte.toNat / 16), hexDigit (byte.toNat % 16)] := by
  have h : ∀ n : Fin 256, hexByte (UInt8.ofNat n) = [hexDigit (n / 16), hexDigit (n % 16)] := by
    decide +kernel
  have hb := h ⟨byte.toNat, byte.toNat_lt⟩
  rwa [UInt8.ofNat_toNat] at hb

theorem isHexDigit_hexDigit : ∀ n < 16, IsHexDigit (hexDigit n) := by decide

theorem hexValue_hexDigit : ∀ n < 16, hexValue (hexDigit n) = n := by decide

theorem hexValue_lt {c : UInt16} (h : IsHexDigit c) : hexValue c < 16 := by
  simp only [IsHexDigit, inRange] at h
  simp only [hexValue]
  split <;> [skip; split] <;> omega

theorem hexValue_of_decimal {c : UInt16} (h : inRange 48 57 c) : hexValue c = c.toNat - 48 := by
  rw [hexValue, if_pos h.2]

theorem hexValue_of_upper {c : UInt16} (h : inRange 65 70 c) : hexValue c = c.toNat - 55 := by
  have := h.1
  rw [hexValue, if_neg (by omega), if_pos h.2]

theorem hexValue_of_lower {c : UInt16} (h : inRange 97 102 c) : hexValue c = c.toNat - 87 := by
  have := h.1
  rw [hexValue, if_neg (by omega), if_neg (by omega)]

theorem hexDigit_hexValue {c : UInt16} (h : IsHexDigit c) : hexDigit (hexValue c) = lowerCase c := by
  apply UInt16.toNat_inj.1
  rw [hexDigit, UInt16.toNat_ofNat', lowerCase]
  rcases h with h | h | h
  · have hlo := h.1
    have hhi := h.2
    rw [hexValue_of_decimal h, if_pos (by omega), if_neg fun h' => by have := h'.1; omega]
    omega
  · have hlo := h.1
    have hhi := h.2
    have h32 : (32 : UInt16).toNat = 32 := rfl
    rw [hexValue_of_upper h, if_neg (by omega), if_pos ⟨hlo, by omega⟩, UInt16.toNat_add, h32]
    omega
  · have hlo := h.1
    have hhi := h.2
    rw [hexValue_of_lower h, if_neg (by omega), if_neg fun h' => by have := h'.2; omega]
    omega

/-- A digit stands in exactly one of the three ranges that the source tests in turn. -/
theorem isHexDigit_upper {c : UInt16} (h : inRange 65 70 c) : ¬ inRange 48 57 c := by
  intro h'
  have := h.1
  have := h'.2
  omega

theorem isHexDigit_lower {c : UInt16} (h : inRange 97 102 c) :
    ¬ inRange 48 57 c ∧ ¬ inRange 65 70 c := by
  have := h.1
  constructor <;> (intro h'; have := h'.2; omega)

theorem highDigit_of_isHexDigit {c : UInt16} (h : IsHexDigit c) :
    highDigit c = some (UInt8.ofNat (hexValue c)) := by
  rcases h with h | h | h
  · rw [highDigit, if_pos h, hexValue_of_decimal h]
  · rw [highDigit, if_neg (isHexDigit_upper h), if_pos h, hexValue_of_upper h]
  · rw [highDigit, if_neg (isHexDigit_lower h).1, if_neg (isHexDigit_lower h).2, if_pos h,
      hexValue_of_lower h]

theorem lowDigit_of_isHexDigit (byValue : UInt8) {c : UInt16} (h : IsHexDigit c) :
    lowDigit byValue c = some (UInt8.ofNat (byValue.toNat * 16 + hexValue c)) := by
  rcases h with h | h | h
  · rw [lowDigit, if_pos h, hexValue_of_decimal h, Nat.add_sub_assoc h.1]
  · rw [lowDigit, if_neg (isHexDigit_upper h), if_pos h, hexValue_of_upper h, Nat.sub_sub,
      Nat.add_sub_assoc (le_trans (by decide) h.1)]
  · rw [lowDigit, if_neg (isHexDigit_lower h).1, if_neg (isHexDigit_lower h).2, if_pos h,
      hexValue_of_lower h, Nat.add_sub_assoc (le_trans (by decide) h.1)]

theorem highDigit_of_not {c : UInt16} (h : ¬ IsHexDigit c) : highDigit c = none := by
  simp only [IsHexDigit, not_or] at h
  rw [highDigit, if_neg h.1, if_neg h.2.1, if_neg h.2.2]

theorem lowDigit_of_not (byValue : UInt8) {c : UInt16} (h : ¬ IsHexDigit c) :
    lowDigit byValue c = none := by
  simp only [IsHexDigit, not_or] at h
  rw [lowDigit, if_neg h.1, if_neg h.2.1, if_neg h.2.2]

/-! ### Texts -/

theorem hexToString_nil : hexToString [] = [] := rfl

theorem hexToString_append (bs bs' : List UInt8) :
    hexToString (bs ++ bs') = hexToString bs ++ hexToString bs' := by
  have h : ∀ (bs : List UInt8) (str : List UInt16),
      bs.foldl (fun str byte => str ++ (hexByte byte).take 2) str = str ++ hexToString bs := by
    intro bs
    induction bs with
    | nil => simp [hexToString]
    | cons byte bs ih =>
      intro str
      rw [hexToString, List.foldl_cons, List.foldl_cons, ih, ih, List.nil_append, List.append_assoc]
  rw [hexToString, List.foldl_append, h]
  rfl

theorem hexToString_singleton (byte : UInt8) :
    hexToString [byte] = [hexDigit (byte.toNat / 16), hexDigit (byte.toNat % 16)] := by
  rw [hexToString, List.foldl_cons, hexByte_eq]
  rfl

theorem hexToString_cons (byte : UInt8) (bs : List UInt8) : hexToString (byte :: bs) =
    hexDigit (byte.toNat / 16) :: hexDigit (byte.toNat % 16) :: hexToString bs := by
  rw [← List.singleton_append, hexToString_append, hexToString_singleton]
  rfl

theorem length_hexToString (bs : List UInt8) : (hexToString bs).length = 2 * bs.length := by
  induction bs with
  | nil => rfl
  | cons byte bs ih =>
    rw [hexToString_cons, List.length_cons, List.length_cons, List.length_cons, ih]
    omega

/-- One pair of digits of the reading loop. -/
theorem stringToHexLoop_pair {c d : UInt16} (hc : IsHexDigit c) (hd : IsHexDigit d)
    (cs : List UInt16) (strHex : List UInt8) : stringToHexLoop (c :: d :: cs) strHex =
      stringToHexLoop cs (strHex ++ [UInt8.ofNat (hexValue c * 16 + hexValue d)]) := by
  have hsmall : (UInt8.ofNat (hexValue c)).toNat = hexValue c := by
    rw [UInt8.toNat_ofNat']
    exact Nat.mod_eq_of_lt (by have := hexValue_lt hc; omega)
  rw [stringToHexLoop, highDigit_of_isHexDigit hc]
  simp only
  rw [lowDigit_of_isHexDigit _ hd, hsmall]

/-- Bytes that were printed are read. -/
theorem stringToHexLoop_hexToString (bs strHex : List UInt8) :
    stringToHexLoop (hexToString bs) strHex = strHex ++ bs := by
  induction bs generalizing strHex with
  | nil => simp [hexToString_nil, stringToHexLoop]
  | cons byte bs ih =>
    have hb : byte.toNat < 256 := byte.toNat_lt
    have h1 : byte.toNat / 16 < 16 := by omega
    have h2 : byte.toNat % 16 < 16 := by omega
    rw [hexToString_cons, stringToHexLoop_pair (isHexDigit_hexDigit _ h1) (isHexDigit_hexDigit _ h2),
      hexValue_hexDigit _ h1, hexValue_hexDigit _ h2, Nat.div_add_mod', UInt8.ofNat_toNat, ih]
    simp

/-- Digits that were read are printed in lower case. -/
theorem hexToString_stringToHexLoop : ∀ (s : List UInt16) (strHex : List UInt8),
    s.length % 2 = 0 → (∀ c ∈ s, IsHexDigit c) →
      hexToString (stringToHexLoop s strHex) = hexToString strHex ++ s.map lowerCase
  | [], strHex, _, _ => by simp [stringToHexLoop]
  | [c], _, hlen, _ => by simp at hlen
  | c :: d :: s, strHex, hlen, hdigits => by
    have hc : IsHexDigit c := hdigits c (by simp)
    have hd : IsHexDigit d := hdigits d (by simp)
    have hrest : ∀ e ∈ s, IsHexDigit e := fun e he => hdigits e (by simp [he])
    have hvc := hexValue_lt hc
    have hvd := hexValue_lt hd
    have hbyte : (UInt8.ofNat (hexValue c * 16 + hexValue d)).toNat = hexValue c * 16 + hexValue d := by
      rw [UInt8.toNat_ofNat']
      exact Nat.mod_eq_of_lt (by omega)
    have hdiv : (hexValue c * 16 + hexValue d) / 16 = hexValue c := by omega
    have hmod : (hexValue c * 16 + hexValue d) % 16 = hexValue d := by omega
    rw [stringToHexLoop_pair hc hd, hexToString_stringToHexLoop s _ (by simp at hlen ⊢; omega) hrest,
      hexToString_append, hexToString_singleton, hbyte, hdiv, hmod, hexDigit_hexValue hc,
      hexDigit_hexValue hd]
    simp

/-- A character that is no digit empties the result. -/
theorem stringToHexLoop_other : ∀ (s : List UInt16) (strHex : List UInt8),
    s.length % 2 = 0 → (∃ c ∈ s, ¬ IsHexDigit c) → stringToHexLoop s strHex = []
  | [], _, _, h => by simp at h
  | [c], _, hlen, _ => by simp at hlen
  | c :: d :: s, strHex, hlen, h => by
    by_cases hc : IsHexDigit c
    · by_cases hd : IsHexDigit d
      · obtain ⟨e, he, hne⟩ := h
        have hmem : e ∈ s := by
          rcases List.mem_cons.1 he with rfl | he
          · exact absurd hc hne
          · rcases List.mem_cons.1 he with rfl | he
            · exact absurd hd hne
            · exact he
        rw [stringToHexLoop_pair hc hd]
        exact stringToHexLoop_other s _ (by simp at hlen ⊢; omega) ⟨e, hmem, hne⟩
      · simp [stringToHexLoop, highDigit_of_isHexDigit hc, lowDigit_of_not _ hd]
    · simp [stringToHexLoop, highDigit_of_not hc]

/-- Bytes go through the text unchanged; a text of digits goes through the bytes into lower case;
    every other text gives no bytes. -/
theorem hex_coding_exact :
    (∀ b : List UInt8, stringToHex (hexToString b) = b) ∧
    (∀ s : List UInt16, s.length % 2 = 0 → (∀ c ∈ s, IsHexDigit c) →
      hexToString (stringToHex s) = s.map lowerCase) ∧
    ∀ s : List UInt16, s ≠ [] → ¬ (s.length % 2 = 0 ∧ ∀ c ∈ s, IsHexDigit c) → stringToHex s = [] := by
  refine ⟨fun b => ?_, fun s hlen hs => ?_, fun s _ hs => ?_⟩
  · have heven : (hexToString b).length % 2 = 0 := by
      rw [length_hexToString]
      omega
    rw [stringToHex, if_neg (not_not.2 heven), stringToHexLoop_hexToString, List.nil_append]
  · rw [stringToHex, if_neg (not_not.2 hlen), hexToString_stringToHexLoop s [] hlen hs,
      hexToString_nil, List.nil_append]
  · rw [stringToHex]
    split
    · rfl
    next hlen =>
      have hlen : s.length % 2 = 0 := not_not.1 hlen
      refine stringToHexLoop_other s [] hlen ?_
      by_contra hall
      push Not at hall
      exact hs ⟨hlen, hall⟩

/-- The texts `4F` and `4g`. -/
theorem hex_coding_four :
    hexToString (stringToHex [52, 70]) = [52, 102] ∧ stringToHex [52, 103] = [] := by
  have hlower := hex_coding_exact.2.1 [52, 70] rfl (by simp [IsHexDigit, inRange])
  have hother := hex_coding_exact.2.2 [52, 103] (by simp) (by simp [IsHexDigit, inRange])
  exact ⟨hlower.trans (by simp [lowerCase, inRange]), hother⟩

end UrlTraveler.Utility
