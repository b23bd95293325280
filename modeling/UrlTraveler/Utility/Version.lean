import UrlTraveler.Favorite
import UrlTraveler.Schemes.Numerals
import UrlTraveler.Schemes.Words
import UrlTraveler.Utility.Split

/-! Version numbers: four components in one `int`, and their text.

        0x01020003   ──GetStringFromVersion──▶   "1.2.0.3."  ──Trim──▶  "1.2.0.3"
                     ◀──GetVersionFromString──   "1.2.0.3", "01.2.0.3"
        0x01020000   ◀──GetVersionFromString──   "1.2", "1.2.0", "1.2.0.0"

    An update compares the numbers; they stand in the order of the components, where components that
    are missing count as 0. -/

namespace UrlTraveler.Utility
open Numerals Words

/-! ### From the text to the number -/

/-- `ConvertToInt`: `atol`, which stops at the ends of a `long`. -/
def convertToInt (in_str : List Char) : ℤ :=
  max (-2 ^ 31) (min (2 ^ 31 - 1) ((readInt in_str).getD 0))

/-- `IsNumberic`. -/
def isNumberic (num : List Char) : Bool := num.all fun c => c.isDigit || c = '.'

/-- `GetVersionFromString`; nothing reads the number `i` of components that pass `IsNumberic`. -/
def getVersionFromString (pszVersion : Option (List Char)) : ℤ :=
  match pszVersion with
  | none => 0
  | some pszVersion =>
    let vecResutl := split pszVersion '.'
    let vecResutl := if vecResutl.length = 0 then vecResutl ++ [pszVersion] else vecResutl
    let nNum := if vecResutl.length > 4 then 4 else vecResutl.length
    let _i := ((vecResutl.take nNum).takeWhile isNumberic).length
    (vecResutl.take nNum).zipIdx.foldl (fun nVersion sub =>
      int32 (nVersion + int32 (convertToInt sub.1 * 2 ^ ((3 - sub.2) * 8)))) 0

/-! ### From the number to the text -/

/-- `String::ValueOf(int)`: `_itot`. -/
def valueOf (nValue : ℤ) : WStr :=
  if nValue < 0 then '-' :: Nat.toDigits 10 nValue.natAbs else Nat.toDigits 10 nValue.natAbs

/-- What `Trim` removes; for a blank also the other blanks. -/
def trimSet (ch : Char) : List Char := if ch = ' ' then [' ', '\r', '\n', '\t'] else [ch]

/-- `String::TrimLeft`: `erase` up to the first character that stays. -/
def trimLeft (ch : Char) (str : WStr) : WStr := str.dropWhile (· ∈ trimSet ch)

/-- `String::TrimRight`: `erase` of `length() - 1` characters behind the last that stays. -/
def trimRight (ch : Char) (str : WStr) : WStr :=
  if str = [] then str
  else
    let pos := (str.reverse.dropWhile (· ∈ trimSet ch)).length
    str.take pos ++ str.drop (pos + (str.length - 1))

/-- `String::Trim`. -/
def trim (ch : Char) (str : WStr) : WStr := trimRight ch (trimLeft ch str)

/-- One round of `GetStringFromVersion`: what is left of the number, and the text so far. -/
def versionRound (st : ℤ × WStr) (i : ℕ) : ℤ × WStr :=
  let n := st.1.tdiv (2 ^ ((3 - i) * 8))
  (st.1.tmod (2 ^ ((3 - i) * 8)), st.2 ++ valueOf n ++ ['.'])

/-- `GetStringFromVersion`; the result `NULL` is `none`. -/
def getStringFromVersion (nVersion : ℤ) : Option WStr :=
  if nVersion ≤ 0 then none
  else some (trim '.' ((List.range 4).foldl versionRound (nVersion, [])).2)

/-! ### Components -/

/-- The value of a numeral. -/
def component (p : List Char) : ℕ := Nat.ofDigitChars 10 p 0

/-- One to four numerals that a version may consist of. -/
structure IsVersion (ps : List (List Char)) : Prop where
  length : 1 ≤ ps.length ∧ ps.length ≤ 4
  numeral : ∀ p ∈ ps, IsNumeral p
  byte : ∀ p ∈ ps, component p ≤ 255
  first : ∀ p ∈ ps.head?, component p ≤ 127

/-- The text of a version. -/
def versionText (ps : List (List Char)) : List Char := ['.'].intercalate ps

/-- The components with zeros for the missing ones. -/
def padded (ps : List (List Char)) : List ℕ := ps.map component ++ List.replicate (4 - ps.length) 0

theorem dot_not_mem {p : List Char} (h : IsNumeral p) : '.' ∉ p := by
  intro hmem
  have := h.2 '.' hmem
  revert this
  decide

theorem convertToInt_numeral {p : List Char} (h : IsNumeral p) (hp : component p ≤ 255) :
    convertToInt p = component p := by
  rw [convertToInt, readInt_numeral h, Option.getD_some]
  rw [component] at hp ⊢
  omega

/-- The components that are read are those of the text. -/
theorem split_versionText {ps : List (List Char)} (hps : IsVersion ps) :
    (if (split (versionText ps) '.').length = 0 then split (versionText ps) '.' ++ [versionText ps]
      else split (versionText ps) '.') = ps := by
  have hdots : ∀ p ∈ ps, '.' ∉ p := fun p hp => dot_not_mem (hps.numeral p hp)
  match ps with
  | [] => exact absurd hps.length.1 (by decide)
  | [p] =>
    have hp : '.' ∉ versionText [p] := by
      rw [versionText, List.intercalate_singleton]
      exact hdots p List.mem_cons_self
    rw [split_of_not_mem hp, versionText, List.intercalate_singleton]
    rfl
  | p :: q :: ps =>
    rw [versionText, split_intercalate hdots]
    rfl

/-- Components from the place `j` on, each at its byte. -/
def placed : ℕ → List ℕ → ℕ
  | _, [] => 0
  | j, v :: vs => v * 2 ^ ((3 - j) * 8) + placed (j + 1) vs

theorem placed_append_zeros (k : ℕ) : ∀ (j : ℕ) (vs : List ℕ),
    placed j (vs ++ List.replicate k 0) = placed j vs
  | j, [] => by
    induction k generalizing j with
    | zero => rfl
    | succ k ih =>
      rw [List.nil_append, List.replicate_succ]
      simp only [placed, Nat.zero_mul, Nat.zero_add]
      exact ih (j + 1)
  | j, v :: vs => by rw [List.cons_append, placed, placed_append_zeros k (j + 1) vs, placed]

/-- The loop adds the components up as long as the sum fits. -/
theorem foldl_eq_placed : ∀ (vs : List ℕ) (j : ℕ) (nVersion : ℕ), nVersion + placed j vs < 2 ^ 31 →
    (vs.zipIdx j).foldl (fun (t : ℤ) sub => int32 (t + int32 (sub.1 * 2 ^ ((3 - sub.2) * 8)))) nVersion =
      (nVersion + placed j vs : ℕ)
  | [], _, _, _ => rfl
  | v :: vs, j, nVersion, h => by
    rw [placed] at h
    have hone : int32 (v * 2 ^ ((3 - j) * 8)) = (v * 2 ^ ((3 - j) * 8) : ℕ) := by
      rw [← int32_natCast (by omega : v * 2 ^ ((3 - j) * 8) < 2 ^ 31)]
      push_cast
      rfl
    have hsum : int32 (nVersion + (v * 2 ^ ((3 - j) * 8) : ℕ)) =
        (nVersion + v * 2 ^ ((3 - j) * 8) : ℕ) := by
      rw [← Nat.cast_add, int32_natCast (by omega)]
    rw [List.zipIdx_cons, List.foldl_cons, hone, hsum, foldl_eq_placed vs (j + 1) _ (by omega), placed,
      Nat.add_assoc]

theorem getVersionFromString_versionText {ps : List (List Char)} (hps : IsVersion ps)
    (hfits : placed 0 (ps.map component) < 2 ^ 31) :
    getVersionFromString (some (versionText ps)) = placed 0 (ps.map component) := by
  have hfour : ¬ ps.length > 4 := not_lt.2 hps.length.2
  have hsum := foldl_eq_placed (ps.map component) 0 0 (by omega)
  rw [List.zipIdx_map, List.foldl_map, Nat.zero_add] at hsum
  simp only [getVersionFromString, split_versionText hps, if_neg hfour, List.take_length]
  rw [← hsum]
  refine List.foldl_ext _ _ _ fun nVersion sub hsub => ?_
  have hmem : sub.1 ∈ ps := (List.mem_zipIdx' hsub).2 ▸ List.getElem_mem _
  simp only [Prod.map_fst, Prod.map_snd, id, convertToInt_numeral (hps.numeral _ hmem) (hps.byte _ hmem)]

/-- The number of a version, with its four components. -/
theorem getVersionFromString_eq {ps : List (List Char)} (hps : IsVersion ps) :
    ∃ a b c d : ℕ, padded ps = [a, b, c, d] ∧ a ≤ 127 ∧ b ≤ 255 ∧ c ≤ 255 ∧ d ≤ 255 ∧
      getVersionFromString (some (versionText ps)) =
        (a * 2 ^ 24 + b * 2 ^ 16 + c * 2 ^ 8 + d : ℕ) := by
  have hlen : (padded ps).length = 4 := by
    rw [padded, List.length_append, List.length_map, List.length_replicate]
    have := hps.length.2
    omega
  have hbyte : ∀ v ∈ padded ps, v ≤ 255 := by
    intro v hv
    rcases List.mem_append.1 hv with hv | hv
    · obtain ⟨p, hp, rfl⟩ := List.mem_map.1 hv
      exact hps.byte p hp
    · rw [List.eq_of_mem_replicate hv]
      exact Nat.zero_le _
  have hfirst : ∀ v ∈ (padded ps).head?, v ≤ 127 := by
    match ps, hps with
    | [], hps => exact absurd hps.length.1 (by decide)
    | p :: ps, hps => simpa [padded] using hps.first p rfl
  have hplaced := placed_append_zeros (4 - ps.length) 0 (ps.map component)
  change placed 0 (padded ps) = _ at hplaced
  have hnumber := getVersionFromString_versionText hps
  rw [← hplaced] at hnumber
  obtain ⟨a, b, c, d, heq⟩ := List.length_eq_four.1 hlen
  rw [heq] at hbyte hfirst hnumber ⊢
  simp only [List.mem_cons, List.not_mem_nil, or_false, forall_eq_or_imp, forall_eq] at hbyte
  have ha : a ≤ 127 := hfirst a rfl
  obtain ⟨-, hb, hc, hd⟩ := hbyte
  refine ⟨a, b, c, d, rfl, ha, hb, hc, hd, ?_⟩
  have hvalue : placed 0 [a, b, c, d] = a * 2 ^ 24 + b * 2 ^ 16 + c * 2 ^ 8 + d := by
    simp only [placed]
    omega
  rw [hnumber (by omega), hvalue]

/-! ### The text of a number -/

/-- The four components of a number. -/
def components (n : ℕ) : List ℕ := [n / 2 ^ 24, n % 2 ^ 24 / 2 ^ 16, n % 2 ^ 16 / 2 ^ 8, n % 2 ^ 8]

theorem valueOf_natCast (n : ℕ) : valueOf n = Nat.toDigits 10 n := by
  rw [valueOf, if_neg (by omega), Int.natAbs_natCast]

theorem versionRound_natCast (n : ℕ) (str : WStr) (i : ℕ) : versionRound (n, str) i =
    (((n % 2 ^ ((3 - i) * 8) : ℕ) : ℤ), str ++ Nat.toDigits 10 (n / 2 ^ ((3 - i) * 8)) ++ ['.']) := by
  have hquot : (n : ℤ).tdiv (2 ^ ((3 - i) * 8)) = (n / 2 ^ ((3 - i) * 8) : ℕ) := by
    rw [Int.tdiv_eq_ediv_of_nonneg (Int.natCast_nonneg n)]
    push_cast
    rfl
  have hrest : (n : ℤ).tmod (2 ^ ((3 - i) * 8)) = (n % 2 ^ ((3 - i) * 8) : ℕ) := by
    rw [Int.tmod_eq_emod_of_nonneg (Int.natCast_nonneg n)]
    push_cast
    rfl
  rw [versionRound, hquot, hrest, valueOf_natCast]

/-- The text before it is trimmed. -/
theorem versionRounds (n : ℕ) : ((List.range 4).foldl versionRound (n, [])).2 =
    versionText ((components n).map (Nat.toDigits 10)) ++ ['.'] := by
  have hrange : List.range 4 = [0, 1, 2, 3] := rfl
  have h1 : n % 2 ^ 24 % 2 ^ 16 = n % 2 ^ 16 := by omega
  have h2 : n % 2 ^ 16 % 2 ^ 8 = n % 2 ^ 8 := by omega
  rw [hrange]
  simp only [List.foldl_cons, List.foldl_nil, versionRound_natCast, Nat.sub_zero, Nat.reduceSub,
    Nat.reduceMul, h1, h2]
  simp [components, versionText, List.intercalate_cons_cons]

/-- A text that neither starts nor ends with the character loses one such character behind it. -/
theorem trim_concat {ch : Char} {str : WStr} (hch : ch ≠ ' ') (hne : str ≠ [])
    (hfirst : str.head hne ≠ ch) (hlast : str.getLast hne ≠ ch) : trim ch (str ++ [ch]) = str := by
  have hset : trimSet ch = [ch] := if_neg hch
  have hleft : trimLeft ch (str ++ [ch]) = str ++ [ch] := by
    cases str with
    | nil => exact absurd rfl hne
    | cons c str =>
      have hc : c ≠ ch := hfirst
      simp [trimLeft, hset, hc]
  have hright : (str ++ [ch]).reverse.dropWhile (· ∈ trimSet ch) = str.reverse := by
    obtain ⟨init, last, rfl⟩ : ∃ init last, str = init ++ [last] :=
      ⟨_, _, (List.dropLast_append_getLast hne).symm⟩
    rw [List.getLast_append_singleton] at hlast
    simp [hset, hlast]
  have hdrop : (str ++ [ch]).drop (str.length + ((str ++ [ch]).length - 1)) = [] := by
    have := List.length_pos_of_ne_nil hne
    rw [List.drop_eq_nil_iff, List.length_append, List.length_singleton]
    omega
  rw [trim, hleft, trimRight, if_neg (by simp), hright]
  simp only [List.length_reverse, hdrop, List.take_left, List.append_nil]

/-! ### Round trip and order -/

theorem component_toDigits (n : ℕ) : component (Nat.toDigits 10 n) = n := Nat.ofDigitChars_ten_toDigits

/-- The components of a number are a version. -/
theorem isVersion_components {n : ℕ} (h : n < 2 ^ 31) :
    IsVersion ((components n).map (Nat.toDigits 10)) where
  length := by simp [components]
  numeral p hp := by
    obtain ⟨m, -, rfl⟩ := List.mem_map.1 hp
    exact isNumeral_toDigits m
  byte p hp := by
    obtain ⟨m, hm, rfl⟩ := List.mem_map.1 hp
    rw [component_toDigits]
    simp only [components, List.mem_cons, List.not_mem_nil, or_false] at hm
    omega
  first p hp := by
    obtain rfl : Nat.toDigits 10 (n / 2 ^ 24) = p := by simpa [components] using hp
    rw [component_toDigits]
    omega

theorem padded_components (n : ℕ) : padded ((components n).map (Nat.toDigits 10)) = components n := by
  simp [padded, components, component_toDigits]

theorem getStringFromVersion_eq {n : ℕ} (h : 0 < n) : getStringFromVersion n =
    some (versionText ((components n).map (Nat.toDigits 10))) := by
  have hdigit : ∀ m, ∀ c ∈ Nat.toDigits 10 m, c ≠ '.' := by
    rintro m _ hc rfl
    exact dot_not_mem (isNumeral_toDigits m) hc
  have htext : versionText ((components n).map (Nat.toDigits 10)) =
      Nat.toDigits 10 (n / 2 ^ 24) ++ (['.'] ++ Nat.toDigits 10 (n % 2 ^ 24 / 2 ^ 16) ++ ['.'] ++
        Nat.toDigits 10 (n % 2 ^ 16 / 2 ^ 8) ++ ['.']) ++ Nat.toDigits 10 (n % 2 ^ 8) := by
    simp [versionText, components, List.intercalate_cons_cons]
  have hlast : Nat.toDigits 10 (n % 2 ^ 8) ≠ [] := Nat.toDigits_ne_nil
  have hfirst : Nat.toDigits 10 (n / 2 ^ 24) ≠ [] := Nat.toDigits_ne_nil
  rw [getStringFromVersion, if_neg (by omega), versionRounds, htext, trim_concat (by decide) (by simp)]
  · rw [List.head_append_of_ne_nil (by simp), List.head_append_of_ne_nil hfirst]
    exact hdigit _ _ (List.head_mem hfirst)
  · rw [List.getLast_append_of_ne_nil _ hlast]
    exact hdigit _ _ (List.getLast_mem hlast)

theorem getVersionFromString_getStringFromVersion {n : ℕ} (h : n < 2 ^ 31) :
    getVersionFromString (some (versionText ((components n).map (Nat.toDigits 10)))) = n := by
  obtain ⟨a, b, c, d, hpadded, -, -, -, -, hnumber⟩ := getVersionFromString_eq (isVersion_components h)
  rw [padded_components, components] at hpadded
  simp only [List.cons.injEq, and_true] at hpadded
  obtain ⟨rfl, rfl, rfl, rfl⟩ := hpadded
  rw [hnumber, Nat.cast_inj]
  omega

/-- Numbers of four bytes stand in the order of the bytes. -/
theorem bytes_lt_iff {a b c d a' b' c' d' : ℕ} (hb : b ≤ 255) (hc : c ≤ 255) (hd : d ≤ 255)
    (hb' : b' ≤ 255) (hc' : c' ≤ 255) (hd' : d' ≤ 255) :
    a * 2 ^ 24 + b * 2 ^ 16 + c * 2 ^ 8 + d < a' * 2 ^ 24 + b' * 2 ^ 16 + c' * 2 ^ 8 + d' ↔
      [a, b, c, d] < [a', b', c', d'] := by
  simp only [List.cons_lt_cons_iff, List.not_lt_nil, and_false, or_false]
  omega

/-- Numbers and texts of versions go over into each other, and the numbers stand in the
    lexicographic order of the components. -/
theorem version_numbers_agree :
    (∀ n : ℤ, 0 < n → n < 2 ^ 31 →
      ∃ str, getStringFromVersion n = some str ∧ getVersionFromString (some str) = n) ∧
    ∀ ps qs : List (List Char), IsVersion ps → IsVersion qs →
      (getVersionFromString (some (versionText ps)) < getVersionFromString (some (versionText qs)) ↔
        padded ps < padded qs) ∧
      (getVersionFromString (some (versionText ps)) = getVersionFromString (some (versionText qs)) ↔
        padded ps = padded qs) := by
  refine ⟨fun n hpos hlt => ?_, fun ps qs hps hqs => ?_⟩
  · obtain ⟨m, rfl⟩ := Int.eq_ofNat_of_zero_le hpos.le
    have hm : m < 2 ^ 31 := by omega
    exact ⟨_, getStringFromVersion_eq (by omega), getVersionFromString_getStringFromVersion hm⟩
  · obtain ⟨a, b, c, d, hpad, -, hb, hc, hd, hnum⟩ := getVersionFromString_eq hps
    obtain ⟨a', b', c', d', hpad', -, hb', hc', hd', hnum'⟩ := getVersionFromString_eq hqs
    rw [hpad, hpad', hnum, hnum', Nat.cast_lt, Nat.cast_inj]
    refine ⟨bytes_lt_iff hb hc hd hb' hc' hd', ?_⟩
    simp only [List.cons.injEq, and_true]
    omega

/-- Version 1.2.0.3, and the order of `1.2` and `1.10`. -/
theorem version_numbers_agree_examples :
    (∃ str, getStringFromVersion 0x01020003 = some str ∧
      getVersionFromString (some str) = 0x01020003) ∧
    getVersionFromString (some (versionText [['1'], ['2']])) <
      getVersionFromString (some (versionText [['1'], ['1', '0']])) :=
  ⟨version_numbers_agree.1 0x01020003 (by decide) (by decide),
    (version_numbers_agree.2 [['1'], ['2']] [['1'], ['1', '0']]
      ⟨by decide, by simp [IsNumeral], by decide, by decide⟩
      ⟨by decide, by simp [IsNumeral], by decide, by decide⟩).1.2 (by decide)⟩

end UrlTraveler.Utility
