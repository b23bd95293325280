import UrlTraveler.Chrome.Export
import UrlTraveler.Schemes.Numerals

/-! The time fields of a bookmark as decimal texts.

    `Int64ToString` prints the digits of a time and `StringToInt64` reads them back into the
    caller's variable. The first digit is added to what is there, and every later one is added
    after a multiplication by ten:

        old, "123"   ──▶   old + 1   ──▶   (old + 1) * 10 + 2   ──▶   old * 100 + 123

    so the old content comes back multiplied by a power of ten, and it is gone only where that
    product is a multiple of `2 ^ 64`. -/

namespace UrlTraveler.Chrome
open Numerals

/-! ### The reading loop -/

/-- The loop of `StringToInt64`; `begin` is `it == strTime.begin()`. -/
def stringToInt64Loop : Bool → List Char → ℤ → Bool × ℤ
  | _, [], nTime => (true, nTime)
  | begin, c :: cs, nTime =>
    if c.isDigit then
      let nTime := if begin then nTime else wrap64 (nTime * 10)
      stringToInt64Loop false cs (wrap64 (nTime + (c.toNat - 48 : ℕ)))
    else (false, nTime)

/-- `StringToInt64`: what it returns, and the variable afterwards. -/
def stringToInt64Call (strTime : List Char) (nTime : ℤ) : Bool × ℤ :=
  stringToInt64Loop true strTime nTime

/-! ### Wrapping around -/

theorem wrap64_eq_iff (a b : ℤ) : wrap64 a = wrap64 b ↔ (2 ^ 64 : ℤ) ∣ a - b := by
  simp only [wrap64]
  omega

theorem wrap64_of_mem {n : ℤ} (h : -2 ^ 63 ≤ n) (h' : n < 2 ^ 63) : wrap64 n = n := by
  simp only [wrap64]
  omega

theorem wrap64_mul_add (a k : ℤ) : wrap64 (wrap64 (wrap64 a * 10) + k) = wrap64 (a * 10 + k) := by
  simp only [wrap64]
  omega

theorem stringToInt64Loop_snd : ∀ (cs : List Char) (t : ℤ),
    (stringToInt64Loop false cs (wrap64 t)).2 =
      (cs.takeWhile Char.isDigit).foldl (fun t c => wrap64 (t * 10 + (c.toNat - 48 : ℕ))) (wrap64 t)
  | [], t => by simp [stringToInt64Loop]
  | c :: cs, t => by
    rw [stringToInt64Loop]
    split
    case isTrue hc =>
      simp only [Bool.false_eq_true, if_false, List.takeWhile_cons, hc, if_true, List.foldl_cons]
      rw [wrap64_mul_add, stringToInt64Loop_snd cs]
      congr 1
      simp only [wrap64]
      omega
    case isFalse hc => simp [hc]

/-- The time fields of a record are filled with what the call leaves in the variable. -/
theorem stringToInt64Call_snd (strTime : List Char) (nTime : ℤ) :
    (stringToInt64Call strTime nTime).2 = stringToInt64 strTime nTime := by
  rw [stringToInt64Call, stringToInt64]
  cases strTime with
  | nil => rfl
  | cons c cs =>
    rw [stringToInt64Loop, List.takeWhile_cons]
    split
    case isTrue hc =>
      simp only [if_true]
      exact stringToInt64Loop_snd cs _
    case isFalse hc => rfl

/-! ### Digits -/

/-- Digits after the first one: the value so far moves up, the digits come below it. -/
theorem stringToInt64Loop_digits : ∀ (cs : List Char) (t : ℤ), (∀ c ∈ cs, c.isDigit) →
    stringToInt64Loop false cs (wrap64 t) =
      (true, wrap64 (t * 10 ^ cs.length + Nat.ofDigitChars 10 cs 0))
  | [], t, _ => by simp [stringToInt64Loop]
  | c :: cs, t, h => by
    have hc : c.isDigit := h c List.mem_cons_self
    rw [stringToInt64Loop, if_pos hc]
    simp only [Bool.false_eq_true, if_false]
    rw [wrap64_mul_add, stringToInt64Loop_digits cs _ fun d hd => h d (List.mem_cons_of_mem c hd),
      ofDigitChars_cons_zero]
    congr 2
    simp only [List.length_cons]
    push_cast
    ring

/-- A numeral into a variable that holds `t`. -/
theorem stringToInt64Call_numeral {cs : List Char} (hcs : IsNumeral cs) (t : ℤ) :
    stringToInt64Call cs t =
      (true, wrap64 (t * 10 ^ (cs.length - 1) + Nat.ofDigitChars 10 cs 0)) := by
  obtain ⟨hne, h⟩ := hcs
  cases cs with
  | nil => exact absurd rfl hne
  | cons c cs =>
    have hc : c.isDigit := h c List.mem_cons_self
    rw [stringToInt64Call, stringToInt64Loop, if_pos hc]
    simp only [if_true]
    rw [stringToInt64Loop_digits cs _ fun d hd => h d (List.mem_cons_of_mem c hd),
      ofDigitChars_cons_zero]
    congr 2
    simp only [List.length_cons, Nat.add_sub_cancel]
    push_cast
    ring

/-- The printing loop appends the digits with the lowest first. -/
theorem int64Loop_toDigits : ∀ (fuel n : ℕ) (s : List Char), 0 < n → n < 10 ^ fuel →
    int64Loop fuel n s = s ++ (Nat.toDigits 10 n).reverse
  | 0, n, s, h, h' => by simp at h'; omega
  | fuel + 1, n, s, h, h' => by
    have hdiv : ((n : ℤ).tdiv 10) = ((n / 10 : ℕ) : ℤ) := by
      rw [Int.tdiv_eq_ediv_of_nonneg (by omega)]; rfl
    have hmod : digitText ((n : ℤ).tmod 10) = [Nat.digitChar (n % 10)] := by
      rw [Int.tmod_eq_emod_of_nonneg (by omega), digitText, if_neg (by omega)]
      rfl
    rw [int64Loop, if_neg (by omega), hdiv, hmod]
    by_cases hn : n < 10
    · rw [Nat.toDigits_of_lt_base hn, Nat.div_eq_of_lt hn, Nat.mod_eq_of_lt hn]
      cases fuel <;> simp [int64Loop]
    · have hlt : n / 10 < 10 ^ fuel := by rw [pow_succ] at h'; omega
      rw [int64Loop_toDigits fuel (n / 10) _ (by omega) hlt,
        Nat.toDigits_of_base_le (n := n) (by decide) (by omega)]
      simp

theorem int64ToString_of_pos {n : ℕ} (h : 0 < n) (h' : n < 2 ^ 63) :
    int64ToString n = Nat.toDigits 10 n := by
  rw [int64ToString, int64Loop_toDigits 19 n [] h (by omega), List.nil_append, List.reverse_reverse]

/-! ### Print and read -/

/-- What a printed time leaves in a variable that held `old`. -/
theorem stringToInt64Call_int64ToString {n : ℕ} (h' : n < 2 ^ 63) {old : ℤ}
    (hold : -2 ^ 63 ≤ old ∧ old < 2 ^ 63) :
    stringToInt64Call (int64ToString n) old = (true, wrap64 (old * 10 ^ Nat.log 10 n + n)) := by
  rcases Nat.eq_zero_or_pos n with rfl | h
  · have : wrap64 old = old := wrap64_of_mem hold.1 hold.2
    simp [stringToInt64Call, stringToInt64Loop, int64ToString, int64Loop, this]
  · rw [int64ToString_of_pos h h', stringToInt64Call_numeral (isNumeral_toDigits n),
      Nat.ofDigitChars_ten_toDigits, length_toDigits_ten h, Nat.add_sub_cancel]

/-- A power of two divides a multiple of a power of ten. -/
theorem two_pow_dvd_mul_ten_pow {k : ℕ} (hk : k ≤ 64) (a : ℤ) :
    (2 ^ 64 : ℤ) ∣ a * 10 ^ k ↔ (2 ^ (64 - k) : ℤ) ∣ a := by
  have hten : a * (10 : ℤ) ^ k = a * 2 ^ k * 5 ^ k := by
    rw [mul_assoc, ← mul_pow]; norm_num
  have hco : IsCoprime ((2 : ℤ) ^ 64) (5 ^ k) :=
    IsCoprime.pow (Int.isCoprime_iff_gcd_eq_one.2 (by decide))
  have hsplit : (2 : ℤ) ^ 64 = 2 ^ (64 - k) * 2 ^ k := by rw [← pow_add, Nat.sub_add_cancel hk]
  constructor
  · intro h
    have h2 : (2 ^ 64 : ℤ) ∣ a * 2 ^ k := hco.dvd_of_dvd_mul_right (hten ▸ h)
    rw [hsplit] at h2
    exact (mul_dvd_mul_iff_right (by positivity)).1 h2
  · intro h
    rw [hten, hsplit]
    exact (mul_dvd_mul_right h _).mul_right _

theorem log_ten_lt {n : ℕ} (h : n < 2 ^ 63) : Nat.log 10 n < 19 :=
  Nat.log_lt_of_lt_pow' (by decide) (by omega)

/-- A time is read back exactly when the old content of the variable is a multiple of
    `2 ^ (64 - k)`, for a time of `k + 1` digits. -/
theorem stringToInt64_reads_int64ToString_iff (n old : ℤ) (hn : 0 ≤ n ∧ n < 2 ^ 63)
    (hold : -2 ^ 63 ≤ old ∧ old < 2 ^ 63) :
    stringToInt64Call (int64ToString n) old = (true, n) ↔
      (2 ^ (64 - Nat.log 10 n.toNat) : ℤ) ∣ old := by
  obtain ⟨m, rfl⟩ := Int.eq_ofNat_of_zero_le hn.1
  have hm : m < 2 ^ 63 := by have := hn.2; omega
  have hself : wrap64 m = m := wrap64_of_mem (by omega) hn.2
  rw [stringToInt64Call_int64ToString hm hold, Int.toNat_natCast, Prod.mk.injEq, eq_self_iff_true,
    true_and]
  calc wrap64 (old * 10 ^ Nat.log 10 m + m) = m
      ↔ wrap64 (old * 10 ^ Nat.log 10 m + m) = wrap64 m := by rw [hself]
    _ ↔ (2 ^ 64 : ℤ) ∣ old * 10 ^ Nat.log 10 m := by rw [wrap64_eq_iff, add_sub_cancel_right]
    _ ↔ (2 ^ (64 - Nat.log 10 m) : ℤ) ∣ old :=
        two_pow_dvd_mul_ten_pow (by have := log_ten_lt hm; omega) old

/-- The time 12 into a field that holds 1, and into a cleared one. -/
theorem stringToInt64_reads_twelve :
    ¬ stringToInt64Call (int64ToString 12) 1 = (true, 12) ∧
      stringToInt64Call (int64ToString 12) 0 = (true, 12) :=
  ⟨fun h => absurd ((stringToInt64_reads_int64ToString_iff 12 1 (by decide) (by decide)).1 h)
      (by simp [show Nat.log 10 12 = 1 by decide]),
    (stringToInt64_reads_int64ToString_iff 12 0 (by decide) (by decide)).2 (dvd_zero _)⟩

/-- A new record holds the present time, and reading adds to it. -/
theorem stringToInt64_old_content_stays :
    ¬ ∀ n old : ℤ, 0 ≤ n → n < 2 ^ 63 → -2 ^ 63 ≤ old → old < 2 ^ 63 →
      stringToInt64Call (int64ToString n) old = (true, n) := by
  intro h
  have := h 12 1 (by decide) (by decide) (by decide) (by decide)
  revert this
  decide

end UrlTraveler.Chrome
