import Mathlib

/-! `icu_utf`: characters read from UTF-8 text.

        lead byte     trail bytes     code point
        0xxxxxxx      -               as it stands
        110xxxxx      1               at least 80
        1110xxxx      2               at least 800, no surrogate
        11110xxx      3               at least 10000, at most 10FFFF
        all others    -               CBU_SENTINEL

    Code points are `uint32`, so the sentinel `-1` is the largest of them. Reads of the text are
    checked. -/

namespace UrlTraveler.Utility.Icu

/-- `CBU_SENTINEL`. -/
def sentinel : ℕ := 2 ^ 32 - 1

/-- `utf8_countTrailBytes`. -/
def utf8_countTrailBytes : List ℕ :=
  List.replicate 192 0 ++ List.replicate 32 1 ++ List.replicate 16 2 ++ List.replicate 8 3 ++
    List.replicate 4 4 ++ [5, 5, 0, 0]

def utf8_minLegal : List ℕ := [0, 0x80, 0x800, 0x10000]

def utf8_errorValue : List ℕ := [0x15, 0x9f, 0xffff, 0x10ffff, 0x3ffffff, 0x7fffffff]

/-- `CBU8_COUNT_TRAIL_BYTES`. -/
def countTrailBytes (c : ℕ) : ℕ := utf8_countTrailBytes.getD (c % 256) 0

/-- `CBU8_IS_LEAD`. -/
def isLead (c : ℕ) : Bool := (c + (256 - 0xc0)) % 256 < 0x3e

/-- `CBU8_IS_TRAIL`. -/
def isTrail (c : ℕ) : Bool := c &&& 0xc0 = 0x80

/-- `CBU_IS_SURROGATE`. -/
def isSurrogate (c : ℕ) : Bool := c &&& 0xfffff800 = 0xd800

/-- `CBU_IS_UNICODE_NONCHAR`. -/
def isNonchar (c : ℕ) : Bool := 0xfdd0 ≤ c && (c ≤ 0xfdef || c &&& 0xfffe = 0xfffe) && c ≤ 0x10ffff

/-- The `switch` of `utf8_nextCharSafeBody`; every case falls through to the next one. The results
    are `i`, `c` and `illegal`. -/
def trailBytes (s : List UInt8) : ℕ → ℕ → ℕ → ℕ → Option (ℕ × ℕ × ℕ)
  | 0, i, c, illegal => some (i, c, illegal)
  | 1, i, c, illegal => do
    let trail := (← s[i]?).toNat
    trailBytes s 0 (i + 1) (c <<< 6 ||| (trail &&& 0x3f)) (illegal ||| ((trail &&& 0xc0) ^^^ 0x80))
  | 2, i, c, illegal => do
    let trail := (← s[i]?).toNat
    trailBytes s 1 (i + 1) (c <<< 6 ||| (trail &&& 0x3f)) (illegal ||| ((trail &&& 0xc0) ^^^ 0x80))
  | 3, i, c, illegal => do
    let trail := (← s[i]?).toNat
    let c := c <<< 6 ||| (trail &&& 0x3f)
    -- beyond 10FFFF the switch is left
    if c < 0x110 then trailBytes s 2 (i + 1) c (illegal ||| ((trail &&& 0xc0) ^^^ 0x80))
    else some (i + 1, c, 1)
  | _ + 4, i, c, _ => some (i, c, 1)

/-- `while (n > 0 && CBU8_IS_TRAIL(s[i]))`: the place behind at most `n` trail bytes. -/
def skipTrail (s : List UInt8) : ℕ → ℕ → Option ℕ
  | 0, i => some i
  | n + 1, i => do
    if isTrail (← s[i]?).toNat then skipTrail s n (i + 1) else some i

/-- `utf8_nextCharSafeBody`: the code point, and the place behind it. -/
def nextCharSafeBody (s : List UInt8) (pi length c : ℕ) (strict : ℤ) : Option (ℕ × ℕ) := do
  let count := countTrailBytes c
  if pi + count ≤ length then
    let c := c &&& (1 <<< (6 - count) - 1)
    if count = 0 then return (if 0 ≤ strict then 0x15 else sentinel, pi)
    let (i, c, illegal) ← trailBytes s count pi c 0
    if illegal ≠ 0 ∨ c < utf8_minLegal.getD count 0 ∨ isSurrogate c ∧ strict ≠ -2 then
      let i ← skipTrail s count pi
      return (if 0 ≤ strict then utf8_errorValue.getD (i - pi) 0 else sentinel, i)
    else if 0 < strict ∧ isNonchar c then return (utf8_errorValue.getD count 0, i)
    else return (c, i)
  else
    let i ← skipTrail s (length - pi) pi
    return (if 0 ≤ strict then utf8_errorValue.getD (i - pi) 0 else sentinel, i)

/-- `CBU8_NEXT`. -/
def cbu8Next (s : List UInt8) (i length : ℕ) : Option (ℕ × ℕ) := do
  let c := (← s[i]?).toNat
  if 0x80 ≤ c then
    if isLead c then nextCharSafeBody s (i + 1) length c (-1) else return (sentinel, i + 1)
  else return (c, i + 1)

/-! ### The characters of a text -/

/-- The text from a place on. -/
theorem getElem?_from {s t : List UInt8} {i : ℕ} (h : s.drop i = t) (k : ℕ) : s[i + k]? = t[k]? := by
  rw [← h, List.getElem?_drop]

theorem lead_cases (c : UInt8) : c.toNat < 0x80 ∨
    (0x80 ≤ c.toNat ∧ isLead c.toNat = false ∧ (c.toNat < 0xc0 ∨ 0xfe ≤ c.toNat)) ∨
    (0xc0 ≤ c.toNat ∧ c.toNat < 0xfe ∧ isLead c.toNat = true ∧
      (countTrailBytes c.toNat = if c.toNat < 0xe0 then 1 else if c.toNat < 0xf0 then 2
        else if c.toNat < 0xf8 then 3 else if c.toNat < 0xfc then 4 else 5)) := by
  have h : ∀ n < 256, n < 0x80 ∨ (0x80 ≤ n ∧ isLead n = false ∧ (n < 0xc0 ∨ 0xfe ≤ n)) ∨
      (0xc0 ≤ n ∧ n < 0xfe ∧ isLead n = true ∧ (countTrailBytes n = if n < 0xe0 then 1 else if n < 0xf0 then 2
        else if n < 0xf8 then 3 else if n < 0xfc then 4 else 5)) := by
    decide +kernel
  exact h c.toNat c.toNat_lt

theorem trail_illegal_iff (c : UInt8) :
    (c.toNat &&& 0xc0) ^^^ 0x80 = 0 ↔ 0x80 ≤ c.toNat ∧ c.toNat < 0xc0 := by
  have h : ∀ n < 256, (n &&& 0xc0) ^^^ 0x80 = 0 ↔ 0x80 ≤ n ∧ n < 0xc0 := by decide +kernel
  exact h c.toNat c.toNat_lt

theorem shift_or (c t : ℕ) : c <<< 6 ||| (t &&& 0x3f) = c * 64 + t % 64 := by
  have hmask : t &&& 0x3f = t % 64 := Nat.and_two_pow_sub_one_eq_mod t 6
  rw [hmask, ← Nat.shiftLeft_add_eq_or_of_lt (Nat.mod_lt t (by decide)), Nat.shiftLeft_eq]

theorem isSurrogate_iff {c : ℕ} (h : c < 2 ^ 32) : isSurrogate c = true ↔ 0xd800 ≤ c ∧ c < 0xe000 := by
  have hmask : c &&& 0xfffff800 = c / 2 ^ 11 * 2 ^ 11 := by
    refine Nat.eq_of_testBit_eq fun i => ?_
    rw [Nat.testBit_and, ← Nat.shiftRight_eq_div_pow, ← Nat.shiftLeft_eq, Nat.testBit_shiftLeft,
      Nat.testBit_shiftRight]
    rcases Nat.lt_or_ge i 32 with hi | hi
    · have hbit : ∀ i < 32, Nat.testBit 0xfffff800 i = decide (i ≥ 11) := by decide
      rw [hbit i hi]
      rcases Nat.lt_or_ge i 11 with h11 | h11
      · simp [Nat.not_le.mpr h11]
      · simp [h11]
    · have hbit : c.testBit i = false :=
        Nat.testBit_lt_two_pow (h.trans_le (Nat.pow_le_pow_right (by decide) hi))
      rw [hbit, Nat.add_sub_cancel' (by omega : 11 ≤ i), hbit, Bool.false_and, Bool.and_false]
  rw [isSurrogate, decide_eq_true_iff, hmask]
  omega

/-! ### The encoding of a character -/

def Trail (b : UInt8) : Prop := 0x80 ≤ b.toNat ∧ b.toNat < 0xc0

/-- The code points of sequences of two, three and four bytes. -/
def value₂ (b₀ b₁ : UInt8) : ℕ := b₀.toNat % 32 * 64 + b₁.toNat % 64
def value₃ (b₀ b₁ b₂ : UInt8) : ℕ := (b₀.toNat % 16 * 64 + b₁.toNat % 64) * 64 + b₂.toNat % 64
def value₄ (b₀ b₁ b₂ b₃ : UInt8) : ℕ :=
  ((b₀.toNat % 8 * 64 + b₁.toNat % 64) * 64 + b₂.toNat % 64) * 64 + b₃.toNat % 64

/-- The sequences that stand for a character. -/
inductive Encodes (ch : Char) : List UInt8 → Prop where
  | one {b₀ : UInt8} : b₀.toNat < 0x80 → ch.toNat = b₀.toNat → Encodes ch [b₀]
  | two {b₀ b₁ : UInt8} : 0xc0 ≤ b₀.toNat → b₀.toNat < 0xe0 → Trail b₁ → 0x80 ≤ value₂ b₀ b₁ →
      ch.toNat = value₂ b₀ b₁ → Encodes ch [b₀, b₁]
  | three {b₀ b₁ b₂ : UInt8} : 0xe0 ≤ b₀.toNat → b₀.toNat < 0xf0 → Trail b₁ → Trail b₂ →
      0x800 ≤ value₃ b₀ b₁ b₂ → ch.toNat = value₃ b₀ b₁ b₂ → Encodes ch [b₀, b₁, b₂]
  | four {b₀ b₁ b₂ b₃ : UInt8} : 0xf0 ≤ b₀.toNat → b₀.toNat < 0xf8 → Trail b₁ → Trail b₂ → Trail b₃ →
      0x10000 ≤ value₄ b₀ b₁ b₂ b₃ → ch.toNat = value₄ b₀ b₁ b₂ b₃ → Encodes ch [b₀, b₁, b₂, b₃]

theorem toNat_valid (ch : Char) : ch.toNat < 0xd800 ∨ 0xe000 ≤ ch.toNat ∧ ch.toNat < 0x110000 := by
  have h : ch.toNat < 0xd800 ∨ 0xdfff < ch.toNat ∧ ch.toNat < 0x110000 := ch.valid
  omega

theorem encodes_encode (ch : Char) : Encodes ch (String.utf8EncodeChar ch) := by
  have hle := toNat_valid ch
  have hval : ch.val.toNat = ch.toNat := rfl
  simp only [String.utf8EncodeChar, hval]
  split_ifs with h₁ h₂ h₃
  · refine .one ?_ ?_ <;> simp only [UInt8.toNat_ofNat'] <;> omega
  · refine .two ?_ ?_ ⟨?_, ?_⟩ ?_ ?_ <;> simp only [value₂, UInt8.toNat_ofNat'] <;> omega
  · refine .three ?_ ?_ ⟨?_, ?_⟩ ⟨?_, ?_⟩ ?_ ?_ <;> simp only [value₃, UInt8.toNat_ofNat'] <;> omega
  · refine .four ?_ ?_ ⟨?_, ?_⟩ ⟨?_, ?_⟩ ⟨?_, ?_⟩ ?_ ?_ <;>
      simp only [value₄, UInt8.toNat_ofNat'] <;> omega

theorem Encodes.eq {ch : Char} {bs : List UInt8} (h : Encodes ch bs) : String.utf8EncodeChar ch = bs := by
  have hval : ch.val.toNat = ch.toNat := rfl
  have hbyte : ∀ (b : UInt8) (n : ℕ), n = b.toNat → UInt8.ofNat n = b := by
    rintro b _ rfl
    exact UInt8.ofNat_toNat
  cases h with
  | one h₀ hc =>
    rw [String.utf8EncodeChar, hval, if_pos (by omega), hbyte _ _ hc]
  | @two b₀ b₁ h₀ h₀' h₁ hmin hc =>
    obtain ⟨h₁, h₁'⟩ := h₁
    simp only [value₂] at hmin hc
    rw [String.utf8EncodeChar, hval, if_neg (by omega), if_pos (by omega), hbyte b₀ _ (by omega),
      hbyte b₁ _ (by omega)]
  | @three b₀ b₁ b₂ h₀ h₀' h₁ h₂ hmin hc =>
    obtain ⟨h₁, h₁'⟩ := h₁
    obtain ⟨h₂, h₂'⟩ := h₂
    simp only [value₃] at hmin hc
    rw [String.utf8EncodeChar, hval, if_neg (by omega), if_neg (by omega), if_pos (by omega),
      hbyte b₀ _ (by omega), hbyte b₁ _ (by omega), hbyte b₂ _ (by omega)]
  | @four b₀ b₁ b₂ b₃ h₀ h₀' h₁ h₂ h₃ hmin hc =>
    obtain ⟨h₁, h₁'⟩ := h₁
    obtain ⟨h₂, h₂'⟩ := h₂
    obtain ⟨h₃, h₃'⟩ := h₃
    simp only [value₄] at hmin hc
    rw [String.utf8EncodeChar, hval, if_neg (by omega), if_neg (by omega), if_neg (by omega),
      hbyte b₀ _ (by omega), hbyte b₁ _ (by omega), hbyte b₂ _ (by omega), hbyte b₃ _ (by omega)]

/-! ### One character -/

/-- What `CBU8_NEXT` does at a place of a text: it reads a character, or it gives the sentinel and
    nothing there stands for a character. -/
inductive NextAt (s : List UInt8) (i : ℕ) : Prop where
  | char {ch : Char} {bs rest : List UInt8} : Encodes ch bs → s.drop i = bs ++ rest →
      cbu8Next s i s.length = some (ch.toNat, i + bs.length) → NextAt s i
  | illegal {j : ℕ} : (∀ ch bs rest, Encodes ch bs → s.drop i ≠ bs ++ rest) →
      cbu8Next s i s.length = some (sentinel, j) → i < j → j ≤ s.length → NextAt s i

theorem exists_skipTrail (s : List UInt8) : ∀ n i, i + n ≤ s.length →
    ∃ j, skipTrail s n i = some j ∧ i ≤ j ∧ j ≤ i + n
  | 0, i, _ => ⟨i, rfl, le_rfl, le_rfl⟩
  | n + 1, i, h => by
    obtain ⟨b, hb⟩ : ∃ b, s[i]? = some b := ⟨s[i], List.getElem?_eq_getElem (by omega)⟩
    rw [skipTrail, hb]
    simp only [Option.bind_eq_bind, Option.bind_some]
    split
    · obtain ⟨j, hj, hle, hle'⟩ := exists_skipTrail s n (i + 1) (by omega)
      exact ⟨j, hj, by omega, by omega⟩
    · exact ⟨i, rfl, le_rfl, by omega⟩

/-- A sequence that the text cuts off. -/
theorem body_short {s : List UInt8} {pi c : ℕ} (hpi : pi ≤ s.length)
    (h : s.length < pi + countTrailBytes c) :
    ∃ j, nextCharSafeBody s pi s.length c (-1) = some (sentinel, j) ∧ pi ≤ j ∧ j ≤ s.length := by
  obtain ⟨j, hj, hle, hle'⟩ := exists_skipTrail s (s.length - pi) pi (by omega)
  refine ⟨j, ?_, hle, by omega⟩
  simp only [nextCharSafeBody]
  rw [if_neg (by omega), hj]
  rfl

/-- A whole sequence is read, or the sentinel is given. -/
theorem body_long {s : List UInt8} {pi c i v illegal : ℕ} (hpos : countTrailBytes c ≠ 0)
    (hle : pi + countTrailBytes c ≤ s.length)
    (htrail : trailBytes s (countTrailBytes c) pi (c &&& (1 <<< (6 - countTrailBytes c) - 1)) 0 =
      some (i, v, illegal)) (hv : v < 2 ^ 32) :
    (illegal = 0 ∧ utf8_minLegal.getD (countTrailBytes c) 0 ≤ v ∧ (v < 0xd800 ∨ 0xe000 ≤ v) ∧
      nextCharSafeBody s pi s.length c (-1) = some (v, i)) ∨
    ((illegal ≠ 0 ∨ v < utf8_minLegal.getD (countTrailBytes c) 0 ∨ (0xd800 ≤ v ∧ v < 0xe000)) ∧
      ∃ j, nextCharSafeBody s pi s.length c (-1) = some (sentinel, j) ∧ pi ≤ j ∧ j ≤ s.length) := by
  simp only [nextCharSafeBody]
  rw [if_pos hle, if_neg hpos, htrail]
  simp only [Option.bind_eq_bind, Option.bind_some]
  by_cases hbad : illegal ≠ 0 ∨ v < utf8_minLegal.getD (countTrailBytes c) 0 ∨ (0xd800 ≤ v ∧ v < 0xe000)
  · obtain ⟨j, hj, hle₁, hle₂⟩ := exists_skipTrail s (countTrailBytes c) pi hle
    refine .inr ⟨hbad, j, ?_, hle₁, by omega⟩
    rw [if_pos (by rw [isSurrogate_iff hv]; omega), hj]
    rfl
  · refine .inl ⟨by omega, by omega, by omega, ?_⟩
    rw [if_neg (by rw [isSurrogate_iff hv]; omega), if_neg (by omega)]
    rfl

/-- A code point that is no surrogate is a character. -/
theorem exists_char {v : ℕ} (h : v < 0x110000) (h' : v < 0xd800 ∨ 0xe000 ≤ v) :
    ∃ ch : Char, ch.toNat = v := by
  have hv : v.isValidChar := by
    rw [Nat.isValidChar]
    omega
  exact ⟨Char.ofNat v, (Char.toNat_ofNat v).trans (if_pos hv)⟩

/-- The first byte of a sequence tells its length. -/
theorem Encodes.head {ch : Char} {bs rest t : List UInt8} {b₀ : UInt8} (h : Encodes ch bs)
    (heq : b₀ :: t = bs ++ rest) :
    (b₀.toNat < 0x80 ∧ bs = [b₀]) ∨
    (0xc0 ≤ b₀.toNat ∧ b₀.toNat < 0xe0 ∧ ∃ b₁, bs = [b₀, b₁] ∧ t = b₁ :: rest) ∨
    (0xe0 ≤ b₀.toNat ∧ b₀.toNat < 0xf0 ∧ ∃ b₁ b₂, bs = [b₀, b₁, b₂] ∧ t = b₁ :: b₂ :: rest) ∨
    (0xf0 ≤ b₀.toNat ∧ b₀.toNat < 0xf8 ∧
      ∃ b₁ b₂ b₃, bs = [b₀, b₁, b₂, b₃] ∧ t = b₁ :: b₂ :: b₃ :: rest) := by
  cases h with
  | one h₀ hc =>
    obtain ⟨rfl, rfl⟩ := List.cons.inj heq
    exact .inl ⟨h₀, rfl⟩
  | two h₀ h₀' =>
    obtain ⟨rfl, rfl⟩ := List.cons.inj heq
    exact .inr (.inl ⟨h₀, h₀', _, rfl, rfl⟩)
  | three h₀ h₀' =>
    obtain ⟨rfl, rfl⟩ := List.cons.inj heq
    exact .inr (.inr (.inl ⟨h₀, h₀', _, _, rfl, rfl⟩))
  | four h₀ h₀' =>
    obtain ⟨rfl, rfl⟩ := List.cons.inj heq
    exact .inr (.inr (.inr ⟨h₀, h₀', _, _, _, rfl, rfl⟩))

theorem Encodes.of_two {ch : Char} {b₀ b₁ : UInt8} (h : Encodes ch [b₀, b₁]) :
    Trail b₁ ∧ 0x80 ≤ value₂ b₀ b₁ ∧ ch.toNat = value₂ b₀ b₁ := by
  cases h with
  | two _ _ h₁ hmin hc => exact ⟨h₁, hmin, hc⟩

theorem Encodes.of_three {ch : Char} {b₀ b₁ b₂ : UInt8} (h : Encodes ch [b₀, b₁, b₂]) :
    Trail b₁ ∧ Trail b₂ ∧ 0x800 ≤ value₃ b₀ b₁ b₂ ∧ ch.toNat = value₃ b₀ b₁ b₂ := by
  cases h with
  | three _ _ h₁ h₂ hmin hc => exact ⟨h₁, h₂, hmin, hc⟩

theorem Encodes.of_four {ch : Char} {b₀ b₁ b₂ b₃ : UInt8} (h : Encodes ch [b₀, b₁, b₂, b₃]) :
    Trail b₁ ∧ Trail b₂ ∧ Trail b₃ ∧ 0x10000 ≤ value₄ b₀ b₁ b₂ b₃ ∧ ch.toNat = value₄ b₀ b₁ b₂ b₃ := by
  cases h with
  | four _ _ h₁ h₂ h₃ hmin hc => exact ⟨h₁, h₂, h₃, hmin, hc⟩

theorem Encodes.length_pos {ch : Char} {bs : List UInt8} (h : Encodes ch bs) : 0 < bs.length := by
  cases h <;> exact Nat.zero_lt_succ _

theorem Encodes.char_unique {ch ch' : Char} {bs : List UInt8} (h : Encodes ch bs)
    (h' : Encodes ch' bs) : ch = ch' := by
  refine Char.toNat_inj.mp ?_
  cases h with
  | one _ hc => cases h' with | one _ hc' => rw [hc, hc']
  | two _ _ _ _ hc => rw [hc, h'.of_two.2.2]
  | three _ _ _ _ _ hc => rw [hc, h'.of_three.2.2.2]
  | four _ _ _ _ _ _ hc => rw [hc, h'.of_four.2.2.2.2]

/-- No sequence is the beginning of another one. -/
theorem Encodes.unique {ch ch' : Char} {bs bs' rest rest' : List UInt8} (h : Encodes ch bs)
    (h' : Encodes ch' bs') (heq : bs ++ rest = bs' ++ rest') : ch = ch' ∧ bs = bs' ∧ rest = rest' := by
  obtain ⟨b₀, t, rfl⟩ : ∃ b₀ t, bs = b₀ :: t := List.exists_cons_of_ne_nil (List.length_pos_iff.mp h.length_pos)
  have hlen : (b₀ :: t).length = bs'.length := by
    rcases h.head (List.append_nil (b₀ :: t)).symm with ⟨h₁, hb⟩ | ⟨h₁, h₂, _, hb, -⟩ |
      ⟨h₁, h₂, _, _, hb, -⟩ | ⟨h₁, h₂, _, _, _, hb, -⟩ <;>
    rcases h'.head heq with ⟨h₃, hb'⟩ | ⟨h₃, h₄, _, hb', -⟩ | ⟨h₃, h₄, _, _, hb', -⟩ |
      ⟨h₃, h₄, _, _, _, hb', -⟩ <;> first
        | omega
        | exact (congrArg List.length hb).trans (congrArg List.length hb').symm
  obtain ⟨rfl, rfl⟩ := List.append_inj heq hlen
  exact ⟨h.char_unique h', rfl, rfl⟩

section Lead

variable {s t : List UInt8} {i : ℕ} {b₀ : UInt8}

/-- A lead byte is left to `utf8_nextCharSafeBody`. -/
theorem cbu8Next_lead (ht : s.drop i = b₀ :: t) (h : 0xc0 ≤ b₀.toNat) (hlead : isLead b₀.toNat = true) :
    cbu8Next s i s.length = nextCharSafeBody s (i + 1) s.length b₀.toNat (-1) := by
  have h0 : s[i]? = some b₀ := getElem?_from ht 0
  rw [cbu8Next, h0]
  simp only [Option.bind_eq_bind, Option.bind_some]
  rw [if_pos (by omega), if_pos hlead]

theorem length_from (ht : s.drop i = b₀ :: t) : s.length = i + 1 + t.length := by
  have hl := congrArg List.length ht
  rw [List.length_drop, List.length_cons] at hl
  omega

variable (ht : s.drop i = b₀ :: t) (h : 0xc0 ≤ b₀.toNat) (hlead : isLead b₀.toNat = true)
include ht h hlead

/-- The sentinel, where nothing stands for a character. -/
theorem nextAt_illegal (hno : ∀ ch bs rest, Encodes ch bs → b₀ :: t ≠ bs ++ rest)
    (hbody : ∃ j, nextCharSafeBody s (i + 1) s.length b₀.toNat (-1) = some (sentinel, j) ∧
      i + 1 ≤ j ∧ j ≤ s.length) : NextAt s i := by
  obtain ⟨j, hj, hle, hle'⟩ := hbody
  exact .illegal (fun ch bs rest hch heq => hno ch bs rest hch (ht.symm.trans heq))
    ((cbu8Next_lead ht h hlead).trans hj) hle hle'

theorem nextAt_short (hcount : countTrailBytes b₀.toNat =
      if b₀.toNat < 0xe0 then 1 else if b₀.toNat < 0xf0 then 2 else if b₀.toNat < 0xf8 then 3
        else if b₀.toNat < 0xfc then 4 else 5)
    (hshort : t.length < countTrailBytes b₀.toNat) : NextAt s i := by
  have hlen := length_from ht
  refine nextAt_illegal ht h hlead (fun ch bs rest hch heq => ?_)
    (body_short (by omega) (by omega))
  rw [hcount] at hshort
  rcases hch.head heq with ⟨h₀, -⟩ | ⟨-, h₁, b₁, -, rfl⟩ | ⟨h₁, h₂, b₁, b₂, -, rfl⟩ |
    ⟨h₁, h₂, b₁, b₂, b₃, -, rfl⟩
  · omega
  · rw [if_pos h₁, List.length_cons] at hshort
    omega
  · rw [if_neg (by omega), if_pos h₂, List.length_cons, List.length_cons] at hshort
    omega
  · rw [if_neg (by omega), if_neg (by omega), if_pos h₂, List.length_cons, List.length_cons,
      List.length_cons] at hshort
    omega

theorem nextAt_two {b₁ : UInt8} {rest : List UInt8} (hrest : t = b₁ :: rest) (h' : b₀.toNat < 0xe0)
    (hcount : countTrailBytes b₀.toNat = 1) : NextAt s i := by
  subst hrest
  have hlen := length_from ht
  have h1 : s[i + 1]? = some b₁ := getElem?_from ht 1
  have hmask : b₀.toNat &&& (1 <<< (6 - 1) - 1) = b₀.toNat % 32 := Nat.and_two_pow_sub_one_eq_mod _ 5
  have htrail : trailBytes s (countTrailBytes b₀.toNat) (i + 1)
      (b₀.toNat &&& (1 <<< (6 - countTrailBytes b₀.toNat) - 1)) 0 =
      some (i + 2, value₂ b₀ b₁, (b₁.toNat &&& 0xc0) ^^^ 0x80) := by
    rw [hcount, hmask, trailBytes, h1]
    simp only [Option.bind_eq_bind, Option.bind_some, trailBytes, shift_or, Nat.zero_or, value₂]
  have hv : value₂ b₀ b₁ < 0x800 := by
    rw [value₂]
    omega
  rcases body_long (by rw [hcount]; decide) (by rw [hcount, hlen, List.length_cons]; omega) htrail
    (by omega) with ⟨hill, hmin, hsur, hbody⟩ | ⟨hbad, hbody⟩
  · rw [hcount] at hmin
    obtain ⟨ch, hch⟩ := exists_char (by omega) hsur
    refine .char (.two h h' ((trail_illegal_iff b₁).mp hill) hmin hch) ht ?_
    rw [cbu8Next_lead ht h hlead, hbody, hch]
    rfl
  · refine nextAt_illegal ht h hlead (fun ch bs rest' hch heq => ?_) hbody
    rw [hcount, Ne, trail_illegal_iff] at hbad
    rcases hch.head heq with ⟨h₀, -⟩ | ⟨-, -, b₁, rfl, ht'⟩ | ⟨h₀, -⟩ | ⟨h₀, -⟩
    · omega
    · obtain ⟨rfl, rfl⟩ := List.cons.inj ht'
      obtain ⟨hb₁, hmin, hc⟩ := hch.of_two
      have hval := toNat_valid ch
      rcases hbad with hbad | hbad | hbad
      · exact hbad hb₁
      · exact absurd hmin (Nat.not_le.mpr hbad)
      · omega
    · omega
    · omega

theorem nextAt_three {b₁ b₂ : UInt8} {rest : List UInt8} (hrest : t = b₁ :: b₂ :: rest)
    (h₀ : 0xe0 ≤ b₀.toNat) (h' : b₀.toNat < 0xf0) (hcount : countTrailBytes b₀.toNat = 2) :
    NextAt s i := by
  subst hrest
  have hlen := length_from ht
  have h1 : s[i + 1]? = some b₁ := getElem?_from ht 1
  have h2 : s[i + 2]? = some b₂ := getElem?_from ht 2
  have hmask : b₀.toNat &&& (1 <<< (6 - 2) - 1) = b₀.toNat % 16 := Nat.and_two_pow_sub_one_eq_mod _ 4
  have htrail : trailBytes s (countTrailBytes b₀.toNat) (i + 1)
      (b₀.toNat &&& (1 <<< (6 - countTrailBytes b₀.toNat) - 1)) 0 =
      some (i + 3, value₃ b₀ b₁ b₂, ((b₁.toNat &&& 0xc0) ^^^ 0x80) ||| ((b₂.toNat &&& 0xc0) ^^^ 0x80)) := by
    rw [hcount, hmask, trailBytes, h1]
    simp only [Option.bind_eq_bind, Option.bind_some, trailBytes, h2, shift_or, Nat.zero_or, value₃]
  have hv : value₃ b₀ b₁ b₂ < 0x10000 := by
    rw [value₃]
    omega
  rcases body_long (by rw [hcount]; decide) (by rw [hcount, hlen]; simp) htrail
    (by omega) with ⟨hill, hmin, hsur, hbody⟩ | ⟨hbad, hbody⟩
  · rw [hcount] at hmin
    obtain ⟨ch, hch⟩ := exists_char (by omega) hsur
    rw [Nat.or_eq_zero_iff, trail_illegal_iff, trail_illegal_iff] at hill
    refine .char (.three h₀ h' hill.1 hill.2 hmin hch) ht ?_
    rw [cbu8Next_lead ht h hlead, hbody, hch]
    rfl
  · refine nextAt_illegal ht h hlead (fun ch bs rest' hch heq => ?_) hbody
    rw [hcount, Ne, Nat.or_eq_zero_iff, trail_illegal_iff, trail_illegal_iff] at hbad
    rcases hch.head heq with ⟨h₁, -⟩ | ⟨-, h₁, -⟩ | ⟨-, -, b₁, b₂, rfl, ht'⟩ | ⟨h₁, -⟩
    · omega
    · omega
    · simp only [List.cons.injEq] at ht'
      obtain ⟨rfl, rfl, rfl⟩ := ht'
      obtain ⟨hb₁, hb₂, hmin, hc⟩ := hch.of_three
      have hval := toNat_valid ch
      rcases hbad with hbad | hbad | hbad
      · exact hbad ⟨hb₁, hb₂⟩
      · exact absurd hmin (Nat.not_le.mpr hbad)
      · omega
    · omega

theorem nextAt_four {b₁ b₂ b₃ : UInt8} {rest : List UInt8} (hrest : t = b₁ :: b₂ :: b₃ :: rest)
    (h₀ : 0xf0 ≤ b₀.toNat) (h' : b₀.toNat < 0xf8) (hcount : countTrailBytes b₀.toNat = 3) :
    NextAt s i := by
  subst hrest
  have hlen := length_from ht
  have h1 : s[i + 1]? = some b₁ := getElem?_from ht 1
  have h2 : s[i + 2]? = some b₂ := getElem?_from ht 2
  have h3 : s[i + 3]? = some b₃ := getElem?_from ht 3
  have hmask : b₀.toNat &&& (1 <<< (6 - 3) - 1) = b₀.toNat % 8 := Nat.and_two_pow_sub_one_eq_mod _ 3
  have hpos : countTrailBytes b₀.toNat ≠ 0 := by rw [hcount]; decide
  have hle : i + 1 + countTrailBytes b₀.toNat ≤ s.length := by rw [hcount, hlen]; simp
  -- the first two bytes tell whether the code point is beyond 10FFFF
  by_cases hbig : b₀.toNat % 8 * 64 + b₁.toNat % 64 < 0x110
  · have htrail : trailBytes s (countTrailBytes b₀.toNat) (i + 1)
        (b₀.toNat &&& (1 <<< (6 - countTrailBytes b₀.toNat) - 1)) 0 =
        some (i + 4, value₄ b₀ b₁ b₂ b₃, ((b₁.toNat &&& 0xc0) ^^^ 0x80) |||
          ((b₂.toNat &&& 0xc0) ^^^ 0x80) ||| ((b₃.toNat &&& 0xc0) ^^^ 0x80)) := by
      rw [hcount, hmask, trailBytes, h1]
      simp only [Option.bind_eq_bind, Option.bind_some, trailBytes, h2, h3, shift_or, Nat.zero_or, value₄,
        if_pos hbig]
    have hv : value₄ b₀ b₁ b₂ b₃ < 0x110000 := by
      rw [value₄]
      omega
    rcases body_long hpos hle htrail (by omega) with ⟨hill, hmin, hsur, hbody⟩ | ⟨hbad, hbody⟩
    · rw [hcount] at hmin
      obtain ⟨ch, hch⟩ := exists_char hv hsur
      rw [Nat.or_eq_zero_iff, Nat.or_eq_zero_iff, trail_illegal_iff, trail_illegal_iff,
        trail_illegal_iff] at hill
      refine .char (.four h₀ h' hill.1.1 hill.1.2 hill.2 hmin hch) ht ?_
      rw [cbu8Next_lead ht h hlead, hbody, hch]
      rfl
    · refine nextAt_illegal ht h hlead (fun ch bs rest' hch heq => ?_) hbody
      rw [hcount, Ne, Nat.or_eq_zero_iff, Nat.or_eq_zero_iff, trail_illegal_iff, trail_illegal_iff,
        trail_illegal_iff] at hbad
      rcases hch.head heq with ⟨h₁, -⟩ | ⟨-, h₁, -⟩ | ⟨-, h₁, -⟩ | ⟨-, -, b₁, b₂, b₃, rfl, ht'⟩
      · omega
      · omega
      · omega
      · simp only [List.cons.injEq] at ht'
        obtain ⟨rfl, rfl, rfl, rfl⟩ := ht'
        obtain ⟨hb₁, hb₂, hb₃, hmin, hc⟩ := hch.of_four
        have hval := toNat_valid ch
        rcases hbad with hbad | hbad | hbad
        · exact hbad ⟨⟨hb₁, hb₂⟩, hb₃⟩
        · exact absurd hmin (Nat.not_le.mpr hbad)
        · omega
  · have htrail : trailBytes s (countTrailBytes b₀.toNat) (i + 1)
        (b₀.toNat &&& (1 <<< (6 - countTrailBytes b₀.toNat) - 1)) 0 =
        some (i + 2, b₀.toNat % 8 * 64 + b₁.toNat % 64, 1) := by
      rw [hcount, hmask, trailBytes, h1]
      simp only [Option.bind_eq_bind, Option.bind_some, shift_or, if_neg hbig]
    rcases body_long hpos hle htrail (by omega) with ⟨hill, -⟩ | ⟨-, hbody⟩
    · exact absurd hill one_ne_zero
    · refine nextAt_illegal ht h hlead (fun ch bs rest' hch heq => ?_) hbody
      rcases hch.head heq with ⟨h₁, -⟩ | ⟨-, h₁, -⟩ | ⟨-, h₁, -⟩ | ⟨-, -, b₁, b₂, b₃, rfl, ht'⟩
      · omega
      · omega
      · omega
      · simp only [List.cons.injEq] at ht'
        obtain ⟨rfl, rfl, rfl, rfl⟩ := ht'
        obtain ⟨-, -, -, -, hc⟩ := hch.of_four
        have hval := toNat_valid ch
        rw [value₄] at hc
        omega

theorem nextAt_more (h₀ : 0xf8 ≤ b₀.toNat) (hle : i + 1 + countTrailBytes b₀.toNat ≤ s.length)
    (hcount : 4 ≤ countTrailBytes b₀.toNat) : NextAt s i := by
  obtain ⟨k, hk⟩ : ∃ k, countTrailBytes b₀.toNat = k + 4 := ⟨_, (Nat.sub_add_cancel hcount).symm⟩
  have hmask : b₀.toNat &&& (1 <<< (6 - countTrailBytes b₀.toNat) - 1) ≤ b₀.toNat := Nat.and_le_left
  have hbyte := b₀.toNat_lt
  have htrail : trailBytes s (countTrailBytes b₀.toNat) (i + 1)
      (b₀.toNat &&& (1 <<< (6 - countTrailBytes b₀.toNat) - 1)) 0 =
      some (i + 1, b₀.toNat &&& (1 <<< (6 - countTrailBytes b₀.toNat) - 1), 1) := by
    rw [hk, trailBytes]
  rcases body_long (by omega) hle htrail (by omega) with ⟨hill, -⟩ | ⟨-, hbody⟩
  · exact absurd hill one_ne_zero
  · refine nextAt_illegal ht h hlead (fun ch bs rest' hch heq => ?_) hbody
    rcases hch.head heq with ⟨h₁, -⟩ | ⟨-, h₁, -⟩ | ⟨-, h₁, -⟩ | ⟨-, h₁, -⟩ <;> omega

end Lead

/-- At every place of a text a character is read exactly where one stands. -/
theorem nextAt {s : List UInt8} {i : ℕ} (hi : i < s.length) : NextAt s i := by
  obtain ⟨b₀, t, ht⟩ : ∃ b₀ t, s.drop i = b₀ :: t := List.exists_cons_of_ne_nil (by simpa using hi)
  have hlen := length_from ht
  have h0 : s[i]? = some b₀ := getElem?_from ht 0
  rcases lead_cases b₀ with h | ⟨h, hlead, hrange⟩ | ⟨h, hfe, hlead, hcount⟩
  · obtain ⟨ch, hch⟩ := exists_char (v := b₀.toNat) (by omega) (by omega)
    refine .char (.one h hch) ht ?_
    rw [cbu8Next, h0]
    simp only [Option.bind_eq_bind, Option.bind_some]
    rw [if_neg (by omega), hch]
    rfl
  · refine .illegal (j := i + 1) (fun ch bs rest hch heq => ?_) ?_ (by omega) (by omega)
    · rcases hch.head (ht.symm.trans heq) with ⟨h₁, -⟩ | ⟨h₁, h₂, -⟩ | ⟨h₁, h₂, -⟩ | ⟨h₁, h₂, -⟩ <;> omega
    · rw [cbu8Next, h0]
      simp only [Option.bind_eq_bind, Option.bind_some]
      rw [if_pos h, hlead]
      rfl
  · by_cases hshort : t.length < countTrailBytes b₀.toNat
    · exact nextAt_short ht h hlead hcount hshort
    · by_cases h₁ : b₀.toNat < 0xe0
      · rw [if_pos h₁] at hcount
        rcases t with - | ⟨b₁, rest⟩
        · simp [hcount] at hshort
        · exact nextAt_two ht h hlead rfl h₁ hcount
      · by_cases h₂ : b₀.toNat < 0xf0
        · rw [if_neg h₁, if_pos h₂] at hcount
          rcases t with - | ⟨b₁, - | ⟨b₂, rest⟩⟩
          · simp [hcount] at hshort
          · simp [hcount] at hshort
          · exact nextAt_three ht h hlead rfl (by omega) h₂ hcount
        · by_cases h₃ : b₀.toNat < 0xf8
          · rw [if_neg h₁, if_neg h₂, if_pos h₃] at hcount
            rcases t with - | ⟨b₁, - | ⟨b₂, - | ⟨b₃, rest⟩⟩⟩
            · simp [hcount] at hshort
            · simp [hcount] at hshort
            · simp [hcount] at hshort
            · exact nextAt_four ht h hlead rfl (by omega) h₃ hcount
          · refine nextAt_more ht h hlead (by omega) (by omega) ?_
            rw [hcount, if_neg h₁, if_neg h₂, if_neg h₃]
            split <;> decide

end UrlTraveler.Utility.Icu
