import UrlTraveler.Chrome.Import
import UrlTraveler.Utility.IcuUtf

/-! `IsStringUTF8` on the bytes of a string.

        str   ──CBU8_NEXT──▶  code_point, char_index   ──IsValidCharacter──▶ ...

    It accepts the encodings of texts without noncharacters and nothing else. So the checksum, which
    asks it about the UTF-8 form of a URL, asks about the characters of the URL. -/

namespace UrlTraveler.Chrome
open Utility Icu

/-- The loop of `IsStringUTF8`; every round moves on, so the length is fuel enough. -/
def isStringUTF8Loop (str : List UInt8) : ℕ → ℕ → Option Bool
  | 0, char_index => if char_index < str.length then none else some true
  | fuel + 1, char_index =>
    if char_index < str.length then do
      let (code_point, char_index) ← cbu8Next str char_index str.length
      if isValidCharacter code_point then isStringUTF8Loop str fuel char_index else some false
    else some true

/-- `IsStringUTF8`. -/
def isBytesUTF8 (str : List UInt8) : Option Bool := isStringUTF8Loop str str.length 0

/-- `UnicodeToUtf8`. -/
def unicodeToUtf8 (s : WStr) : List UInt8 := s.flatMap String.utf8EncodeChar

/-! ### The loop -/

theorem not_valid_sentinel : isValidCharacter sentinel = false := by decide

/-- A text starts with the character its bytes start with. -/
theorem unicodeToUtf8_cons {ch : Char} {bs rest : List UInt8} (h : Encodes ch bs) {cs : WStr}
    (heq : bs ++ rest = unicodeToUtf8 cs) : ∃ cs', cs = ch :: cs' ∧ rest = unicodeToUtf8 cs' := by
  rcases cs with - | ⟨c, cs⟩
  · have hnil : bs = [] := (List.append_eq_nil_iff.mp heq).1
    exact absurd h.length_pos (by simp [hnil])
  · obtain ⟨rfl, -, hrest⟩ := h.unique (encodes_encode c) heq
    exact ⟨cs, rfl, hrest⟩

/-- From a place on the loop accepts exactly an encoded text of valid characters. -/
theorem isStringUTF8Loop_spec (str : List UInt8) : ∀ fuel i, i ≤ str.length → str.length - i ≤ fuel →
    ∃ b, isStringUTF8Loop str fuel i = some b ∧
      (b = true ↔ ∃ cs : WStr, str.drop i = unicodeToUtf8 cs ∧ ∀ c ∈ cs, isValidCharacter c.toNat = true) := by
  intro fuel
  induction fuel with
  | zero =>
    intro i hi hfuel
    refine ⟨true, if_neg (by omega), iff_of_true rfl ⟨[], ?_, by simp⟩⟩
    exact List.drop_eq_nil_of_le (by omega)
  | succ fuel ih =>
    intro i hi hfuel
    rw [isStringUTF8Loop]
    split
    next hlt =>
      rcases nextAt hlt with @⟨ch, bs, rest, hch, hdrop, hnext⟩ | @⟨j, hno, hnext, hij, hj⟩
      · have hpos := hch.length_pos
        have hlen : str.length = i + (bs.length + rest.length) := by
          have hl := congrArg List.length hdrop
          rw [List.length_drop, List.length_append] at hl
          omega
        have hrest : str.drop (i + bs.length) = rest := by
          rw [← List.drop_drop, hdrop, List.drop_left]
        obtain ⟨b, hb, hiff⟩ := ih (i + bs.length) (by omega) (by omega)
        rw [hrest] at hiff
        simp only [hnext, Option.bind_eq_bind, Option.bind_some]
        split
        next hvalid =>
          refine ⟨b, hb, hiff.trans ⟨?_, ?_⟩⟩
          · rintro ⟨cs, hcs, hall⟩
            refine ⟨ch :: cs, ?_, fun c hc => ?_⟩
            · rw [hdrop, hcs, ← hch.eq]
              rfl
            · rcases List.mem_cons.mp hc with rfl | hc
              · exact hvalid
              · exact hall c hc
          · rintro ⟨cs, hcs, hall⟩
            obtain ⟨cs', rfl, hcs'⟩ := unicodeToUtf8_cons hch (hdrop.symm.trans hcs)
            exact ⟨cs', hcs', fun c hc => hall c (List.mem_cons_of_mem ch hc)⟩
        next hinvalid =>
          refine ⟨false, rfl, iff_of_false Bool.false_ne_true ?_⟩
          rintro ⟨cs, hcs, hall⟩
          obtain ⟨cs', rfl, -⟩ := unicodeToUtf8_cons hch (hdrop.symm.trans hcs)
          exact hinvalid (hall ch List.mem_cons_self)
      · refine ⟨false, ?_, iff_of_false Bool.false_ne_true ?_⟩
        · simp only [hnext, Option.bind_eq_bind, Option.bind_some, not_valid_sentinel]
          rfl
        · rintro ⟨cs, hcs, -⟩
          rcases cs with - | ⟨c, cs⟩
          · have hle : str.length ≤ i := List.drop_eq_nil_iff.mp hcs
            omega
          · exact hno c _ _ (encodes_encode c) hcs
    next hge =>
      refine ⟨true, rfl, iff_of_true rfl ⟨[], ?_, by simp⟩⟩
      exact List.drop_eq_nil_of_le (by omega)

/-- `IsStringUTF8` ends on every string, reads nothing outside it, and accepts the UTF-8 forms of the
    texts without noncharacters. -/
theorem isBytesUTF8_spec (str : List UInt8) : ∃ b, isBytesUTF8 str = some b ∧
    (b = true ↔ ∃ cs : WStr, str = unicodeToUtf8 cs ∧ ∀ c ∈ cs, isValidCharacter c.toNat = true) := by
  obtain ⟨b, hb, hiff⟩ := isStringUTF8Loop_spec str str.length 0 (Nat.zero_le _) le_rfl
  exact ⟨b, hb, by simpa using hiff⟩

theorem unicodeToUtf8_injective : ∀ {s t : WStr}, unicodeToUtf8 s = unicodeToUtf8 t → s = t
  | [], t, h => by
    rcases t with - | ⟨c, t⟩
    · rfl
    · have hnil := (List.append_eq_nil_iff.mp h.symm).1
      exact absurd (encodes_encode c).length_pos (by simp [hnil])
  | c :: s, t, h => by
    obtain ⟨t', rfl, ht⟩ := unicodeToUtf8_cons (encodes_encode c) h
    rw [unicodeToUtf8_injective ht]

/-- On the UTF-8 form of a wide string it asks about the characters of the string. -/
theorem isBytesUTF8_unicodeToUtf8 (s : WStr) : isBytesUTF8 (unicodeToUtf8 s) = some (isStringUTF8 s) := by
  obtain ⟨b, hb, hiff⟩ := isBytesUTF8_spec (unicodeToUtf8 s)
  rw [hb, Option.some.injEq, Bool.eq_iff_iff, hiff, isStringUTF8, List.all_eq_true]
  constructor
  · rintro ⟨cs, hcs, hall⟩
    rwa [unicodeToUtf8_injective hcs]
  · exact fun hall => ⟨s, rfl, hall⟩

/-- `IsStringUTF8` ends on every string of bytes without reading outside it; it accepts the encodings of
    texts without noncharacters and nothing else, and on an encoded text it says what the characters say. -/
theorem isStringUTF8_exact :
    (∀ str, ∃ b, isBytesUTF8 str = some b ∧
      (b = true ↔ ∃ cs : WStr, str = unicodeToUtf8 cs ∧ ∀ c ∈ cs, isValidCharacter c.toNat = true)) ∧
    ∀ s : WStr, isBytesUTF8 (unicodeToUtf8 s) = some (isStringUTF8 s) :=
  ⟨isBytesUTF8_spec, isBytesUTF8_unicodeToUtf8⟩

end UrlTraveler.Chrome
