import UrlTraveler.Favorite
import UrlTraveler.Schemes.Numerals
import UrlTraveler.Schemes.Words

/-! Times as texts of the form `YYmmDDHHMM`.

    `GetStrTime2` prints five fields with two digits each, `GetTimeFromStr2` scans the ten digits as
    one `int` and takes it apart by division:

        2013-05-27 18:04   ──▶   "1305271804"   ──▶   1305271804
                                                         │ / 100000000, / 1000000, ...
                                                         ▼
                                                       13 | 05 | 27 | 18 | 04

    The `int` holds the numbers below `2 ^ 31 = 2147483648`, so the texts of 2021 are the last ones
    that are taken apart correctly. -/

namespace UrlTraveler.Utility
open Numerals Words

/-- `SYSTEMTIME`. -/
structure SystemTime where
  wYear : ℕ := 0
  wMonth : ℕ := 0
  wDayOfWeek : ℕ := 0
  wDay : ℕ := 0
  wHour : ℕ := 0
  wMinute : ℕ := 0
  wSecond : ℕ := 0
  wMilliseconds : ℕ := 0
  deriving DecidableEq

/-! ### The two functions -/

/-- `swprintf` with `%d`, and with `0%d` when the text is shorter than two characters. -/
def twoDigits (n : ℕ) : WStr :=
  let strTmp := Nat.toDigits 10 n
  if strTmp.length < 2 then '0' :: Nat.toDigits 10 n else strTmp

/-- `GetStrTime2`. -/
def getStrTime2 (time : SystemTime) : WStr :=
  twoDigits (time.wYear % 100) ++ twoDigits time.wMonth ++ twoDigits time.wDay ++
    twoDigits time.wHour ++ twoDigits time.wMinute

/-- `swscanf` with `%d`: the number is read into 32 bits. -/
def scanInt (str : WStr) : Option ℤ := (readInt str).map int32

/-- `GetTimeFromStr2`; the other fields of the static variable stay 0. -/
def getTimeFromStr2 (strTime : WStr) : SystemTime :=
  let iValue := (scanInt strTime).getD 0
  let wYear := word (word (iValue.tdiv 100000000) + 2000)
  let iValue := iValue.tmod 100000000
  let wMonth := word (iValue.tdiv 1000000)
  let iValue := iValue.tmod 1000000
  let wDay := word (iValue.tdiv 10000)
  let iValue := iValue.tmod 10000
  let wHour := word (iValue.tdiv 100)
  let iValue := iValue.tmod 100
  { wYear, wMonth, wDay, wHour, wMinute := word iValue }

/-! ### Dates -/

def isLeapYear (year : ℕ) : Bool := year % 4 = 0 ∧ (year % 100 ≠ 0 ∨ year % 400 = 0)

def daysInMonth (year month : ℕ) : ℕ :=
  if month = 2 then if isLeapYear year then 29 else 28
  else if month = 4 ∨ month = 6 ∨ month = 9 ∨ month = 11 then 30 else 31

/-- A date and time of the calendar. -/
structure SystemTime.Valid (t : SystemTime) : Prop where
  month : 1 ≤ t.wMonth ∧ t.wMonth ≤ 12
  day : 1 ≤ t.wDay ∧ t.wDay ≤ daysInMonth t.wYear t.wMonth
  hour : t.wHour < 24
  minute : t.wMinute < 60

/-- The two times agree down to the minute. -/
def SameMinute (s t : SystemTime) : Prop :=
  s.wYear = t.wYear ∧ s.wMonth = t.wMonth ∧ s.wDay = t.wDay ∧ s.wHour = t.wHour ∧ s.wMinute = t.wMinute

instance (s t : SystemTime) : Decidable (SameMinute s t) :=
  inferInstanceAs (Decidable (_ ∧ _ ∧ _ ∧ _ ∧ _))

theorem daysInMonth_le (year month : ℕ) : daysInMonth year month ≤ 31 := by
  rw [daysInMonth]
  split_ifs <;> decide

/-! ### The number in the text -/

/-- The ten digits as one number. -/
def packed (t : SystemTime) : ℕ :=
  ((((t.wYear % 100) * 100 + t.wMonth) * 100 + t.wDay) * 100 + t.wHour) * 100 + t.wMinute

theorem twoDigits_eq : ∀ n < 100, twoDigits n = [Nat.digitChar (n / 10), Nat.digitChar (n % 10)] := by
  decide

theorem ofDigitChars_twoDigits {n : ℕ} (h : n < 100) (acc : ℕ) :
    Nat.ofDigitChars 10 (twoDigits n) acc = acc * 100 + n := by
  rw [twoDigits_eq n h, Nat.ofDigitChars_cons_digitChar_of_lt_ten (by omega),
    Nat.ofDigitChars_cons_digitChar_of_lt_ten (by omega), Nat.ofDigitChars_nil]
  omega

theorem isDigit_of_mem_twoDigits {n : ℕ} {c : Char} (hc : c ∈ twoDigits n) : c.isDigit := by
  have hdigit : ∀ d ∈ Nat.toDigits 10 n, d.isDigit :=
    fun d hd => Nat.isDigit_of_mem_toDigits (by decide) (by decide) hd
  rw [twoDigits] at hc
  split at hc
  · rcases List.mem_cons.1 hc with rfl | hc
    · rfl
    · exact hdigit c hc
  · exact hdigit c hc

theorem isDigit_of_mem_getStrTime2 {t : SystemTime} : ∀ c ∈ getStrTime2 t, c.isDigit := by
  intro c hc
  simp only [getStrTime2, List.mem_append] at hc
  rcases hc with (((hc | hc) | hc) | hc) | hc <;> exact isDigit_of_mem_twoDigits hc

theorem scanInt_getStrTime2 {t : SystemTime} (ht : t.Valid) :
    scanInt (getStrTime2 t) = some (int32 (packed t)) := by
  have hmonth := ht.month
  have hday := ht.day
  have hdays := daysInMonth_le t.wYear t.wMonth
  have hhour := ht.hour
  have hminute := ht.minute
  have hne : getStrTime2 t ≠ [] := by
    rw [getStrTime2, twoDigits_eq _ (Nat.mod_lt _ (by decide))]
    simp
  rw [scanInt, readInt_numeral ⟨hne, isDigit_of_mem_getStrTime2⟩, Option.map_some, getStrTime2]
  simp only [Nat.ofDigitChars_append]
  rw [ofDigitChars_twoDigits (Nat.mod_lt _ (by decide)), ofDigitChars_twoDigits (by omega),
    ofDigitChars_twoDigits (by omega), ofDigitChars_twoDigits (by omega),
    ofDigitChars_twoDigits (by omega), Nat.zero_mul, Nat.zero_add]
  rfl

/-! ### Taking the number apart -/

theorem scanInt_mem (str : WStr) : -2 ^ 31 ≤ (scanInt str).getD 0 ∧ (scanInt str).getD 0 < 2 ^ 31 := by
  rw [scanInt]
  cases readInt str with
  | none => decide
  | some n => exact ⟨neg_le_int32 n, int32_lt n⟩

/-- The quotient that the year is made from. -/
theorem tdiv_year_mem {v : ℤ} (h : -2 ^ 31 ≤ v) (h' : v < 2 ^ 31) :
    -21 ≤ v.tdiv 100000000 ∧ v.tdiv 100000000 ≤ 21 := by
  rcases le_total 0 v with hv | hv
  · rw [Int.tdiv_eq_ediv_of_nonneg hv]
    omega
  · rw [← neg_neg v, Int.neg_tdiv, Int.tdiv_eq_ediv_of_nonneg (by omega)]
    omega

/-- Whatever is scanned, the year is 2021 at the latest. -/
theorem getTimeFromStr2_wYear_le (strTime : WStr) : (getTimeFromStr2 strTime).wYear ≤ 2021 := by
  obtain ⟨hlo, hhi⟩ := scanInt_mem strTime
  have hdiv := tdiv_year_mem hlo hhi
  simp only [getTimeFromStr2, word]
  omega

/-- Fields of two digits each, the first one apart, as the divisions find them. -/
theorem fields_of_digits (y : ℤ) {m d h n : ℤ} (hm : 0 ≤ m ∧ m < 100) (hd : 0 ≤ d ∧ d < 100)
    (hh : 0 ≤ h ∧ h < 100) (hn : 0 ≤ n ∧ n < 100) {v : ℤ}
    (hv : v = (((y * 100 + m) * 100 + d) * 100 + h) * 100 + n) :
    v / 100000000 = y ∧ v % 100000000 / 1000000 = m ∧ v % 100000000 % 1000000 / 10000 = d ∧
      v % 100000000 % 1000000 % 10000 / 100 = h ∧ v % 100000000 % 1000000 % 10000 % 100 = n := by
  have h₁ : v % 100000000 = ((m * 100 + d) * 100 + h) * 100 + n := by omega
  have h₂ : v % 100000000 % 1000000 = (d * 100 + h) * 100 + n := by rw [h₁]; omega
  have h₃ : v % 100000000 % 1000000 % 10000 = h * 100 + n := by rw [h₂]; omega
  have hy : v / 100000000 = y := by omega
  rw [h₃, h₂, h₁]
  clear h₁ h₂ h₃ hv
  exact ⟨hy, by omega, by omega, by omega, by omega⟩

/-- A number that fits is taken apart into its fields. -/
theorem getTimeFromStr2_of_lt {t : SystemTime} (ht : t.Valid) (hyear : 2000 ≤ t.wYear)
    (hlast : t.wYear ≤ 2021) : SameMinute (getTimeFromStr2 (getStrTime2 t)) t := by
  have hmonth := ht.month
  have hday := ht.day
  have hdays := daysInMonth_le t.wYear t.wMonth
  have hhour := ht.hour
  have hminute := ht.minute
  have hfits : (packed t : ℤ) < 2 ^ 31 := by simp only [packed]; omega
  rw [getTimeFromStr2, scanInt_getStrTime2 ht, int32_of_mem (by omega) hfits]
  have hpacked : (packed t : ℤ) = ((((t.wYear % 100 : ℕ) * 100 + t.wMonth) * 100 + t.wDay) * 100 +
      t.wHour) * 100 + t.wMinute := by simp [packed]
  obtain ⟨hy, hm, hd, hh, hn⟩ := fields_of_digits (t.wYear % 100 : ℕ) (m := t.wMonth)
    (d := t.wDay) (h := t.wHour) (n := t.wMinute) (by omega) (by omega) (by omega) (by omega) hpacked
  simp (disch := omega) only [SameMinute, Option.getD_some, Int.tdiv_eq_ediv_of_nonneg,
    Int.tmod_eq_emod_of_nonneg, hy, hm, hd, hh, hn]
  have hcentury : word (word (t.wYear % 100 : ℕ) + 2000) = t.wYear := by
    simp only [word]
    omega
  exact ⟨hcentury, word_natCast (by omega), word_natCast (by omega), word_natCast (by omega),
    word_natCast (by omega)⟩

/-- The text of a date from 2000 on is read back exactly when its year is 2021 or earlier. -/
theorem getTimeFromStr2_getStrTime2_iff (t : SystemTime) (ht : t.Valid) (hyear : 2000 ≤ t.wYear) :
    SameMinute (getTimeFromStr2 (getStrTime2 t)) t ↔ t.wYear ≤ 2021 := by
  constructor
  · intro h
    rw [← h.1]
    exact getTimeFromStr2_wYear_le _
  · exact getTimeFromStr2_of_lt ht hyear

/-- The last minute of 2021 is read back. -/
theorem getTimeFromStr2_last_minute : SameMinute
    (getTimeFromStr2 (getStrTime2 ⟨2021, 12, 5, 31, 23, 59, 0, 0⟩)) ⟨2021, 12, 5, 31, 23, 59, 0, 0⟩ :=
  (getTimeFromStr2_getStrTime2_iff ⟨2021, 12, 5, 31, 23, 59, 0, 0⟩
    ⟨by decide, by decide, by decide, by decide⟩ (by decide)).2 (by decide)

/-- The first minute of 2022 comes back in the year 1980. -/
theorem getTimeFromStr2_next_minute :
    ¬ ∀ t : SystemTime, t.Valid → 2000 ≤ t.wYear → t.wYear ≤ 2099 →
      SameMinute (getTimeFromStr2 (getStrTime2 t)) t := by
  intro h
  have hyear := (h ⟨2022, 1, 6, 1, 0, 0, 0, 0⟩ ⟨by decide, by decide, by decide, by decide⟩ (by decide)
    (by decide)).1
  have hle := getTimeFromStr2_wYear_le (getStrTime2 ⟨2022, 1, 6, 1, 0, 0, 0, 0⟩)
  rw [hyear] at hle
  exact absurd hle (by decide)

end UrlTraveler.Utility
