import Mathlib

/-! The three helpers that replace a pattern, and where they replace every occurrence.

        src "aa", pattern "a", replacement "bc"

        string_replace          aa ──▶ bca ──▶ bcbc      searches the text it edits
        StringHelper::Replace   aa ──▶ bca               searches "aa" from 2: nothing
        String::Replace         aa ──▶ bca ──▶ bcbc      any character of the pattern, from 0

    `replaceAll` says what they are for. Only `string_replace` always does it; the other two do for
    a text that is cut up into pattern and characters that are not of the pattern, with one pattern
    or a replacement as long as the pattern. -/

namespace UrlTraveler.Utility

variable {α : Type*} [DecidableEq α]

/-! ### `basic_string` -/

/-- The first occurrence of `pat`. -/
def findIn (pat : List α) : List α → Option ℕ
  | [] => if pat = [] then some 0 else none
  | c :: str => if pat <+: c :: str then some 0 else (findIn pat str).map (· + 1)

/-- `find(pat, pos)`; `npos` is `none`. -/
def find (str pat : List α) (pos : ℕ) : Option ℕ :=
  if pos ≤ str.length then (findIn pat (str.drop pos)).map (pos + ·) else none

/-- `find_first_of(psz)`: the first character that is one of `psz`. -/
def findFirstCharOf (str psz : List α) : Option ℕ := str.findIdx? (· ∈ psz)

/-- `replace(pos, n, rep)`; behind the end it throws `out_of_range`, `none`. -/
def replaceAt (str : List α) (pos n : ℕ) (rep : List α) : Option (List α) :=
  if pos ≤ str.length then some (str.take pos ++ rep ++ str.drop (pos + n)) else none

/-! ### The helpers -/

/-- How a loop stands after a number of rounds; one that never ends stays `running`. -/
inductive Outcome (α : Type*) where
  | running
  | thrown
  | returned (str : List α)
  deriving DecidableEq

/-- The loop of `StringHelper::Replace`: `find` in `strSrc`, `replace` in `strResult`. -/
def stringHelperLoop (strSrc strReplaced strReplacing : List α) :
    ℕ → List α → ℕ → Outcome α
  | 0, _, _ => .running
  | fuel + 1, strResult, pos =>
    match find strSrc strReplaced pos with
    | none => .returned strResult
    | some pos =>
      match replaceAt strResult pos strReplaced.length strReplacing with
      | none => .thrown
      | some strResult =>
        stringHelperLoop strSrc strReplaced strReplacing fuel strResult
          (pos + strReplacing.length)

/-- `StringHelper::Replace`, `fuel` rounds of it. -/
def stringHelperReplace (strSrc strReplaced strReplacing : List α) (fuel : ℕ) : Outcome α :=
  stringHelperLoop strSrc strReplaced strReplacing fuel strSrc 0

/-- `String::Replace(pszBefore, pszAfter)` on `m_strString`, `fuel` rounds of it. -/
def stringReplace (pszBefore pszAfter : List α) : ℕ → List α → Outcome α
  | 0, _ => .running
  | fuel + 1, m_strString =>
    match findFirstCharOf m_strString pszBefore with
    | none => .returned m_strString
    | some nIndex =>
      match replaceAt m_strString nIndex pszBefore.length pszAfter with
      | none => .thrown
      | some m_strString => stringReplace pszBefore pszAfter fuel m_strString

/-- The loop of `string_replace`: `find` and `replace` in `strBig`. -/
def string_replaceLoop (strsrc strdst : List α) : ℕ → List α → ℕ → Outcome α
  | 0, _, _ => .running
  | fuel + 1, strBig, pos =>
    match find strBig strsrc pos with
    | none => .returned strBig
    | some pos =>
      match replaceAt strBig pos strsrc.length strdst with
      | none => .thrown
      | some strBig => string_replaceLoop strsrc strdst fuel strBig (pos + strdst.length)

/-- `string_replace`, `fuel` rounds of it. -/
def string_replace (strBig strsrc strdst : List α) (fuel : ℕ) : Outcome α :=
  string_replaceLoop strsrc strdst fuel strBig 0

/-- A loop ends after some number of rounds and returns `r`. -/
def Returns (run : ℕ → Outcome α) (r : List α) : Prop := ∃ fuel, run fuel = .returned r

/-! ### Replacing all -/

/-- Left to right, every occurrence of `pat` gives `rep` and the text goes on behind it; the number
    counts the characters of an occurrence that are still to be passed over. -/
def replaceFrom (pat rep : List α) : ℕ → List α → List α
  | _, [] => []
  | skip + 1, _ :: str => replaceFrom pat rep skip str
  | 0, c :: str =>
    if pat <+: c :: str then rep ++ replaceFrom pat rep (pat.length - 1) str
    else c :: replaceFrom pat rep 0 str

/-- The text with its leftmost non-overlapping occurrences of `pat` replaced. -/
def replaceAll (pat rep str : List α) : List α := replaceFrom pat rep 0 str

theorem replaceFrom_eq_drop (pat rep : List α) (skip : ℕ) (str : List α) :
    replaceFrom pat rep skip str = replaceAll pat rep (str.drop skip) := by
  induction str generalizing skip with
  | nil => simp [replaceAll, replaceFrom]
  | cons c str ih =>
    cases skip with
    | zero => rfl
    | succ skip => exact ih skip

@[simp] theorem replaceAll_nil (pat rep : List α) : replaceAll pat rep [] = [] := rfl

theorem replaceAll_append {pat : List α} (hpat : pat ≠ []) (rep str : List α) :
    replaceAll pat rep (pat ++ str) = rep ++ replaceAll pat rep str := by
  obtain ⟨p, pat, rfl⟩ := List.exists_cons_of_ne_nil hpat
  rw [List.cons_append, replaceAll, replaceFrom, ← List.cons_append,
    if_pos (List.prefix_append _ _), replaceFrom_eq_drop, List.length_cons, Nat.add_sub_cancel,
    List.drop_left]

theorem replaceAll_cons {pat : List α} {c : α} {str : List α} (h : ¬ pat <+: c :: str)
    (rep : List α) : replaceAll pat rep (c :: str) = c :: replaceAll pat rep str := by
  rw [replaceAll, replaceFrom, if_neg h]
  rfl

/-- A text is passed occurrence by occurrence, and character by character between them. -/
theorem occurrence_induction {pat : List α} (hpat : pat ≠ []) {motive : List α → Prop}
    (nil : motive []) (occurrence : ∀ str, motive str → motive (pat ++ str))
    (char : ∀ c str, ¬ pat <+: c :: str → motive str → motive (c :: str)) (str : List α) :
    motive str := by
  induction hn : str.length using Nat.strong_induction_on generalizing str with
  | _ n ih =>
    cases str with
    | nil => exact nil
    | cons c str =>
      by_cases h : pat <+: c :: str
      · obtain ⟨rest, hrest⟩ := h
        have hlen : rest.length < n := by
          have hpos := List.length_pos_iff.2 hpat
          have := congrArg List.length hrest
          rw [List.length_append] at this
          omega
        rw [← hrest]
        exact occurrence rest (ih _ hlen rest rfl)
      · exact char c str h (ih str.length (by simp [← hn]) str rfl)

/-! ### What `find` finds -/

theorem findIn_cases {pat : List α} (hpat : pat ≠ []) (rep str : List α) :
    (findIn pat str = none ∧ replaceAll pat rep str = str) ∨
      ∃ v t, str = v ++ (pat ++ t) ∧ findIn pat str = some v.length ∧
        replaceAll pat rep str = v ++ (rep ++ replaceAll pat rep t) := by
  induction str with
  | nil => exact .inl ⟨if_neg hpat, rfl⟩
  | cons c str ih =>
    by_cases h : pat <+: c :: str
    · obtain ⟨t, ht⟩ := h
      refine .inr ⟨[], t, ht.symm, by simp [findIn, ← ht], ?_⟩
      rw [← ht, replaceAll_append hpat, List.nil_append]
    · rw [findIn, if_neg h, replaceAll_cons h]
      rcases ih with ⟨hnone, hall⟩ | ⟨v, t, hstr, hsome, hall⟩
      · exact .inl ⟨by rw [hnone]; rfl, by rw [hall]⟩
      · exact .inr ⟨c :: v, t, by rw [hstr]; rfl, by rw [hsome]; rfl, by rw [hall]; rfl⟩

theorem findIn_eq_some {pat str : List α} {i : ℕ} (h : findIn pat str = some i) :
    pat <+: str.drop i ∧ ∀ j < i, ¬ pat <+: str.drop j := by
  induction str generalizing i with
  | nil =>
    obtain ⟨rfl, rfl⟩ : pat = [] ∧ i = 0 := by simpa [findIn, eq_comm] using h
    simp
  | cons c str ih =>
    rw [findIn] at h
    split at h
    · next hpre =>
      obtain rfl : 0 = i := by simpa using h
      exact ⟨hpre, fun j hj => absurd hj (Nat.not_lt_zero j)⟩
    · next hpre =>
      obtain ⟨k, hk, rfl⟩ := Option.map_eq_some_iff.1 h
      refine ⟨(ih hk).1, fun j hj => ?_⟩
      cases j with
      | zero => exact hpre
      | succ j => exact (ih hk).2 j (by omega)

theorem findIn_eq_none {pat str : List α} (h : findIn pat str = none) (j : ℕ) :
    ¬ pat <+: str.drop j := by
  induction str generalizing j with
  | nil =>
    intro hpre
    simp [findIn, List.prefix_nil.1 (by simpa using hpre)] at h
  | cons c str ih =>
    rw [findIn] at h
    split at h
    · cases h
    · next hpre =>
      cases j with
      | zero => exact hpre
      | succ j => exact ih (Option.map_eq_none_iff.1 h) j

/-- `find` gives the first occurrence at `pos` or behind it. -/
theorem find_eq_some {str pat : List α} {pos p : ℕ} (h : find str pat pos = some p) :
    pos ≤ p ∧ pat <+: str.drop p ∧ ∀ i, pos ≤ i → i < p → ¬ pat <+: str.drop i := by
  rw [find] at h
  split at h
  · obtain ⟨k, hk, rfl⟩ := Option.map_eq_some_iff.1 h
    obtain ⟨hpre, hmin⟩ := findIn_eq_some hk
    rw [List.drop_drop] at hpre
    refine ⟨Nat.le_add_right pos k, hpre, fun i hi hik => ?_⟩
    have := hmin (i - pos) (by omega)
    rwa [List.drop_drop, Nat.add_sub_cancel' hi] at this
  · cases h

theorem find_eq_none {str pat : List α} (hpat : pat ≠ []) {pos : ℕ} (h : find str pat pos = none)
    {i : ℕ} (hi : pos ≤ i) : ¬ pat <+: str.drop i := by
  rw [find] at h
  split at h
  · have := findIn_eq_none (Option.map_eq_none_iff.1 h) (i - pos)
    rwa [List.drop_drop, Nat.add_sub_cancel' hi] at this
  · rw [List.drop_eq_nil_of_le (by omega), List.prefix_nil]
    exact hpat

theorem find_of_first {str pat : List α} (hpat : pat ≠ []) {pos p : ℕ} (hpos : pos ≤ p)
    (hpre : pat <+: str.drop p) (hmin : ∀ i, pos ≤ i → i < p → ¬ pat <+: str.drop i) :
    find str pat pos = some p := by
  cases h : find str pat pos with
  | none => exact absurd hpre (find_eq_none hpat h hpos)
  | some q =>
    obtain ⟨hq, hqpre, hqmin⟩ := find_eq_some h
    rcases Nat.lt_trichotomy p q with hlt | rfl | hlt
    · exact absurd hpre (hqmin p hpos hlt)
    · rfl
    · exact absurd hqpre (hmin q hq hlt)

theorem find_of_none {str pat : List α} {pos : ℕ}
    (hnone : ∀ i, pos ≤ i → ¬ pat <+: str.drop i) : find str pat pos = none := by
  cases h : find str pat pos with
  | none => rfl
  | some q => exact absurd (find_eq_some h).2.1 (hnone q (find_eq_some h).1)

theorem find_append {pat : List α} (u rest : List α) :
    find (u ++ rest) pat u.length = (findIn pat rest).map (u.length + ·) := by
  rw [find, if_pos (by simp), List.drop_left]

omit [DecidableEq α] in
/-- An occurrence covers characters of the pattern only. -/
theorem occurrence_getElem? {pat str : List α} {p k : ℕ} (h : pat <+: str.drop p) (hk : p ≤ k)
    (hlt : k < p + pat.length) : ∃ c ∈ pat, str[k]? = some c := by
  obtain ⟨t, ht⟩ := h
  obtain ⟨d, rfl⟩ := Nat.exists_eq_add_of_le hk
  have hd : d < pat.length := by omega
  refine ⟨pat[d], List.getElem_mem hd, ?_⟩
  rw [← List.getElem?_drop, ← ht, List.getElem?_append_left hd, List.getElem?_eq_getElem hd]

omit [DecidableEq α] in
theorem occurrence_le_length {pat str : List α} {p : ℕ} (hpat : pat ≠ [])
    (h : pat <+: str.drop p) : p + pat.length ≤ str.length := by
  have hlen := h.length_le
  have hpos := List.length_pos_iff.2 hpat
  rw [List.length_drop] at hlen
  omega

omit [DecidableEq α] in
theorem replaceAt_append (u pat t rep : List α) :
    replaceAt (u ++ (pat ++ t)) u.length pat.length rep = some (u ++ rep ++ t) := by
  rw [replaceAt, if_pos (by simp), List.take_left, ← List.drop_drop, List.drop_left,
    List.drop_left]

/-! ### `string_replace` -/

/-- The loop over a text that is done up to `pos`: each round shortens the rest. -/
theorem string_replaceLoop_eq {pat : List α} (hpat : pat ≠ []) (rep : List α) :
    ∀ (fuel : ℕ) (before rest : List α), rest.length < fuel →
      string_replaceLoop pat rep fuel (before ++ rest) before.length =
        .returned (before ++ replaceAll pat rep rest) := by
  intro fuel
  induction fuel with
  | zero => exact fun _ _ hfuel => absurd hfuel (Nat.not_lt_zero _)
  | succ fuel ih =>
    intro before rest hfuel
    rcases findIn_cases hpat rep rest with ⟨hnone, hall⟩ | ⟨v, t, rfl, hsome, hall⟩
    · simp [string_replaceLoop, find_append, hnone, hall]
    · have hlt : t.length < fuel := by
        have := List.length_pos_iff.2 hpat
        simp only [List.length_append] at hfuel
        omega
      have hrun := ih (before ++ v ++ rep) t hlt
      have hedit := replaceAt_append (before ++ v) pat t rep
      rw [List.append_assoc, List.length_append] at hedit
      simp only [string_replaceLoop, find_append, hsome, Option.map_some, hedit]
      simpa [hall, Nat.add_assoc] using hrun

theorem string_replace_eq {pat : List α} (hpat : pat ≠ []) (rep : List α) {str : List α}
    {fuel : ℕ} (hfuel : str.length < fuel) :
    string_replace str pat rep fuel = .returned (replaceAll pat rep str) :=
  string_replaceLoop_eq hpat rep fuel [] str hfuel

/-- `string_replace` replaces all. -/
theorem string_replace_returns {pat : List α} (hpat : pat ≠ []) (rep str : List α) :
    Returns (string_replace str pat rep) (replaceAll pat rep str) :=
  ⟨str.length + 1, string_replace_eq hpat rep (Nat.lt_succ_self _)⟩

/-! ### Texts that are cut up into pattern and other characters -/

/-- No character of the pattern. -/
def Free (pat str : List α) : Prop := ∀ c ∈ str, c ∉ pat

/-- Whole patterns, and between them no character of the pattern. -/
inductive Blocks (pat : List α) : List α → Prop
  | nil : Blocks pat []
  | char {c : α} {str : List α} : c ∉ pat → Blocks pat str → Blocks pat (c :: str)
  | block {str : List α} : Blocks pat str → Blocks pat (pat ++ str)

omit [DecidableEq α] in
@[simp] theorem free_nil (pat : List α) : Free pat [] := by simp [Free]

omit [DecidableEq α] in
theorem free_append {pat u v : List α} : Free pat (u ++ v) ↔ Free pat u ∧ Free pat v := by
  simp only [Free, List.mem_append]
  grind

omit [DecidableEq α] in
theorem free_cons {pat str : List α} {c : α} :
    Free pat (c :: str) ↔ c ∉ pat ∧ Free pat str := by
  simp [Free]

omit [DecidableEq α] in
theorem not_prefix_of_not_mem {pat : List α} (hpat : pat ≠ []) {c : α} (hc : c ∉ pat)
    (str : List α) : ¬ pat <+: c :: str := by
  obtain ⟨p, pat, rfl⟩ := List.exists_cons_of_ne_nil hpat
  rintro ⟨t, ht⟩
  rw [List.cons_append] at ht
  exact hc ((List.cons.inj ht).1 ▸ List.mem_cons_self)

theorem replaceAll_of_free {pat : List α} (hpat : pat ≠ []) (rep : List α) {str : List α}
    (h : Free pat str) : replaceAll pat rep str = str := by
  induction str with
  | nil => rfl
  | cons c str ih =>
    rw [free_cons] at h
    rw [replaceAll_cons (not_prefix_of_not_mem hpat h.1 str), ih h.2]

theorem replaceAll_free_append {pat : List α} (hpat : pat ≠ []) (rep : List α) {u : List α}
    (h : Free pat u) (str : List α) :
    replaceAll pat rep (u ++ str) = u ++ replaceAll pat rep str := by
  induction u with
  | nil => rfl
  | cons c u ih =>
    rw [free_cons] at h
    rw [List.cons_append, replaceAll_cons (not_prefix_of_not_mem hpat h.1 _), ih h.2]
    rfl

/-- All replaced leaves a character of the pattern, unless the text is cut up so. -/
theorem blocks_of_free_replaceAll {pat : List α} (hpat : pat ≠ []) {rep : List α} (str : List α)
    (h : Free pat (replaceAll pat rep str)) : Blocks pat str := by
  induction str using occurrence_induction hpat with
  | nil => exact .nil
  | occurrence str ih =>
    rw [replaceAll_append hpat, free_append] at h
    exact .block (ih h.2)
  | char c str hpre ih =>
    rw [replaceAll_cons hpre, free_cons] at h
    exact .char h.1 (ih h.2)

theorem Blocks.free_replaceAll {pat rep str : List α} (hpat : pat ≠ []) (hrep : Free pat rep)
    (h : Blocks pat str) : Free pat (replaceAll pat rep str) := by
  induction h with
  | nil => exact free_nil pat
  | char hc _ ih =>
    rw [replaceAll_cons (not_prefix_of_not_mem hpat hc _), free_cons]
    exact ⟨hc, ih⟩
  | block _ ih =>
    rw [replaceAll_append hpat, free_append]
    exact ⟨hrep, ih⟩

omit [DecidableEq α] in
/-- The characters before the first block. -/
theorem Blocks.cases_first {pat str : List α} (h : Blocks pat str) :
    Free pat str ∨ ∃ u t, str = u ++ (pat ++ t) ∧ Free pat u ∧ Blocks pat t := by
  induction h with
  | nil => exact .inl (free_nil pat)
  | @char c str hc h ih =>
    rcases ih with hfree | ⟨u, t, rfl, hu, ht⟩
    · exact .inl (free_cons.2 ⟨hc, hfree⟩)
    · exact .inr ⟨c :: u, t, rfl, free_cons.2 ⟨hc, hu⟩, ht⟩
  | @block str h ih => exact .inr ⟨[], str, rfl, free_nil pat, h⟩

/-! ### `String::Replace` -/

theorem findFirstCharOf_of_free {pat str : List α} (h : Free pat str) :
    findFirstCharOf str pat = none := by
  simpa [findFirstCharOf, Free] using h

theorem free_of_findFirstCharOf {pat str : List α} (h : findFirstCharOf str pat = none) :
    Free pat str := by
  simpa [findFirstCharOf, Free] using h

theorem findFirstCharOf_append {pat u : List α} (hpat : pat ≠ []) (hu : Free pat u)
    (t : List α) : findFirstCharOf (u ++ (pat ++ t)) pat = some u.length := by
  obtain ⟨p, pat, rfl⟩ := List.exists_cons_of_ne_nil hpat
  rw [findFirstCharOf, List.findIdx?_append, List.findIdx?_eq_none_iff.2 (by simpa [Free] using hu),
    List.cons_append, List.findIdx?_cons]
  simp

/-- A round that goes on has put the replacement in. -/
theorem stringReplace_succ {pat rep : List α} {fuel : ℕ} {str r : List α}
    (h : stringReplace pat rep (fuel + 1) str = .returned r) :
    (Free pat str ∧ r = str) ∨
      ∃ u v, ¬ Free pat str ∧ stringReplace pat rep fuel (u ++ rep ++ v) = .returned r := by
  rw [stringReplace] at h
  split at h
  · next hnone => exact .inl ⟨free_of_findFirstCharOf hnone, by simpa [eq_comm] using h⟩
  · next nIndex hsome =>
    have hfree : ¬ Free pat str := fun hfree => by
      simp [findFirstCharOf_of_free hfree] at hsome
    rw [replaceAt] at h
    split at h
    · cases h
    · next hedit =>
      split at hedit
      · cases hedit
        exact .inr ⟨_, _, hfree, h⟩
      · cases hedit

theorem stringReplace_free {pat rep : List α} {fuel : ℕ} {str r : List α}
    (h : stringReplace pat rep fuel str = .returned r) : Free pat r := by
  induction fuel generalizing str with
  | zero => cases h
  | succ fuel ih =>
    rcases stringReplace_succ h with ⟨hfree, rfl⟩ | ⟨u, v, -, hrun⟩
    · exact hfree
    · exact ih hrun

/-- With a character of the pattern in the replacement there is always one more round. -/
theorem stringReplace_ne_returned {pat rep : List α} (hrep : ¬ Free pat rep) {fuel : ℕ}
    {str : List α} (hstr : ¬ Free pat str) (r : List α) :
    stringReplace pat rep fuel str ≠ .returned r := by
  intro h
  induction fuel generalizing str with
  | zero => cases h
  | succ fuel ih =>
    rcases stringReplace_succ h with ⟨hfree, -⟩ | ⟨u, v, -, hrun⟩
    · exact hstr hfree
    · exact ih (fun hfree => hrep (free_append.1 (free_append.1 hfree).1).2) hrun

/-- The blocks of the text fall one after the other. -/
theorem Blocks.stringReplace_returns {pat rep : List α} (hpat : pat ≠ []) (hrep : Free pat rep)
    {rest : List α} (h : Blocks pat rest) : ∀ {before : List α}, Free pat before →
      Returns (fun fuel => stringReplace pat rep fuel (before ++ rest))
        (before ++ replaceAll pat rep rest) := by
  induction h with
  | nil =>
    intro before hbefore
    refine ⟨1, ?_⟩
    simp [stringReplace, findFirstCharOf_of_free hbefore]
  | @char c str hc h ih =>
    intro before hbefore
    have := ih (free_append.2 ⟨hbefore, free_cons.2 ⟨hc, free_nil pat⟩⟩)
    rwa [replaceAll_cons (not_prefix_of_not_mem hpat hc str), List.append_cons before c str,
      List.append_cons before c (replaceAll pat rep str)]
  | @block str h ih =>
    intro before hbefore
    obtain ⟨fuel, hfuel⟩ := ih (free_append.2 ⟨hbefore, hrep⟩)
    refine ⟨fuel + 1, ?_⟩
    simp only [stringReplace, findFirstCharOf_append hpat hbefore str, replaceAt_append, hfuel]
    rw [replaceAll_append hpat, List.append_assoc]

/-- `String::Replace` replaces all of a text without characters of the pattern, and of blocks when
    the replacement has none. -/
theorem stringReplace_returns_iff {pat : List α} (hpat : pat ≠ []) (rep str : List α) :
    Returns (fun fuel => stringReplace pat rep fuel str) (replaceAll pat rep str) ↔
      Free pat str ∨ (Free pat rep ∧ Blocks pat str) := by
  constructor
  · rintro ⟨fuel, hfuel⟩
    by_cases hstr : Free pat str
    · exact .inl hstr
    · by_cases hrep : Free pat rep
      · exact .inr ⟨hrep, blocks_of_free_replaceAll hpat str (stringReplace_free hfuel)⟩
      · exact absurd hfuel (stringReplace_ne_returned hrep hstr _)
  · rintro (hstr | ⟨hrep, hblocks⟩)
    · refine ⟨1, ?_⟩
      simp [stringReplace, findFirstCharOf_of_free hstr, replaceAll_of_free hpat rep hstr]
    · exact hblocks.stringReplace_returns hpat hrep (free_nil pat)

/-! ### `StringHelper::Replace` -/

/-- `strResult` after an occurrence at `p` of `strSrc`. -/
def edited (pat rep strResult : List α) (p : ℕ) : List α :=
  strResult.take p ++ rep ++ strResult.drop (p + pat.length)

theorem stringHelperLoop_succ {src pat rep : List α} {fuel : ℕ} {strResult r : List α} {pos : ℕ}
    (h : stringHelperLoop src pat rep (fuel + 1) strResult pos = .returned r) :
    (find src pat pos = none ∧ r = strResult) ∨
      ∃ p, find src pat pos = some p ∧ p ≤ strResult.length ∧
        stringHelperLoop src pat rep fuel (edited pat rep strResult p) (p + rep.length) =
          .returned r := by
  rw [stringHelperLoop] at h
  split at h
  · next hnone => exact .inl ⟨hnone, by simpa [eq_comm] using h⟩
  · next p hsome =>
    rw [replaceAt] at h
    split at h
    · cases h
    · next hedit =>
      split at hedit
      · next hp =>
        cases hedit
        exact .inr ⟨p, hsome, hp, h⟩
      · cases hedit

/-- What an edit keeps holds at the end of the loop. -/
theorem stringHelperLoop_invariant {src pat rep : List α} (Inv : List α → ℕ → Prop)
    (hstep : ∀ strResult pos p, Inv strResult pos → find src pat pos = some p →
      p ≤ strResult.length → Inv (edited pat rep strResult p) (p + rep.length))
    {fuel : ℕ} {strResult r : List α} {pos : ℕ} (hinv : Inv strResult pos)
    (h : stringHelperLoop src pat rep fuel strResult pos = .returned r) :
    ∃ last, Inv r last ∧ find src pat last = none := by
  induction fuel generalizing strResult pos with
  | zero => cases h
  | succ fuel ih =>
    rcases stringHelperLoop_succ h with ⟨hnone, rfl⟩ | ⟨p, hsome, hp, hrun⟩
    · exact ⟨pos, hinv, hnone⟩
    · exact ih (hstep strResult pos p hinv hsome hp) hrun

omit [DecidableEq α] in
theorem edited_take (pat rep : List α) {strResult : List α} {p : ℕ} (hp : p ≤ strResult.length) :
    (edited pat rep strResult p).take p = strResult.take p := by
  rw [edited, List.append_assoc, List.take_left']
  rw [List.length_take, Nat.min_eq_left hp]

omit [DecidableEq α] in
theorem edited_drop (pat rep : List α) {strResult : List α} {p : ℕ} (hp : p ≤ strResult.length) :
    (edited pat rep strResult p).drop (p + rep.length) = strResult.drop (p + pat.length) := by
  rw [edited, List.drop_left']
  rw [List.length_append, List.length_take, Nat.min_eq_left hp]

omit [DecidableEq α] in
theorem edited_length (pat rep : List α) {strResult : List α} {p : ℕ} (hp : p ≤ strResult.length) :
    p + rep.length ≤ (edited pat rep strResult p).length := by
  simp only [edited, List.length_append, List.length_take, List.length_drop]
  omega

/-- What stands before the position stays. -/
theorem stringHelperLoop_take {src pat rep : List α} {fuel : ℕ} {strResult r : List α} {pos : ℕ}
    (hpos : pos ≤ strResult.length)
    (h : stringHelperLoop src pat rep fuel strResult pos = .returned r) :
    r.take pos = strResult.take pos := by
  let Inv (str : List α) (q : ℕ) : Prop :=
    pos ≤ q ∧ pos ≤ str.length ∧ str.take pos = strResult.take pos
  have hstep : ∀ str q p, Inv str q → find src pat q = some p → p ≤ str.length →
      Inv (edited pat rep str p) (p + rep.length) := by
    rintro str q p ⟨hq, hlen, htake⟩ hfind hp
    have hqp : q ≤ p := (find_eq_some hfind).1
    have hpp : pos ≤ p := hq.trans hqp
    refine ⟨by omega, ?_, ?_⟩
    · have := edited_length pat rep hp
      omega
    · have := congrArg (List.take pos) (edited_take pat rep hp)
      rw [List.take_take, List.take_take, Nat.min_eq_left hpp] at this
      rw [this, htake]
  obtain ⟨last, ⟨-, -, htake⟩, -⟩ := stringHelperLoop_invariant Inv hstep ⟨le_refl pos, hpos, rfl⟩ h
  exact htake

omit [DecidableEq α] in
/-- No occurrence begins in characters that are not of the pattern. -/
theorem not_occurrence_before {pat u : List α} (hpat : pat ≠ []) (hu : Free pat u) (v : List α)
    {i : ℕ} (hi : i < u.length) : ¬ pat <+: (u ++ v).drop i := by
  intro hpre
  have hpos := List.length_pos_iff.2 hpat
  obtain ⟨c, hc, hget⟩ := occurrence_getElem? hpre (le_refl i) (by omega)
  rw [List.getElem?_append_left hi] at hget
  exact hu c (List.mem_of_getElem? hget) hc

omit [DecidableEq α] in
/-- No occurrence begins behind the start of the last block: it would reach past that block. -/
theorem not_occurrence_after {pat t : List α} (hpat : pat ≠ []) (ht : Free pat t) (u : List α)
    {i : ℕ} (hi : u.length < i) : ¬ pat <+: (u ++ (pat ++ t)).drop i := by
  intro hpre
  have hpos := List.length_pos_iff.2 hpat
  obtain ⟨c, hc, hget⟩ := occurrence_getElem? hpre (le_max_left i (u.length + pat.length))
    (by omega)
  rw [List.getElem?_append_right (by omega), List.getElem?_append_right (by omega)] at hget
  exact ht c (List.mem_of_getElem? hget) hc

theorem find_first_block {pat u : List α} (hpat : pat ≠ []) (hu : Free pat u) (t : List α)
    {pos : ℕ} (hpos : pos ≤ u.length) : find (u ++ (pat ++ t)) pat pos = some u.length :=
  find_of_first hpat hpos (by rw [List.drop_left]; exact List.prefix_append pat t)
    fun _ _ hi => not_occurrence_before hpat hu _ hi

omit [DecidableEq α] in
theorem edited_append (u pat t rep : List α) : edited pat rep (u ++ (pat ++ t)) u.length =
    u ++ rep ++ t := by
  rw [edited, List.take_left, ← List.drop_drop, List.drop_left, List.drop_left]

/-- The first round puts the replacement in the place of the first block. -/
theorem stringHelperReplace_first {pat u t rep : List α} (hpat : pat ≠ []) (hu : Free pat u)
    {fuel : ℕ} {r : List α}
    (h : stringHelperReplace (u ++ (pat ++ t)) pat rep fuel = .returned r) :
    ∃ fuel, stringHelperLoop (u ++ (pat ++ t)) pat rep fuel (u ++ rep ++ t)
      (u.length + rep.length) = .returned r := by
  cases fuel with
  | zero => cases h
  | succ fuel =>
    have hfirst := find_first_block hpat hu t (Nat.zero_le u.length)
    rcases stringHelperLoop_succ h with ⟨hnone, -⟩ | ⟨p, hsome, -, hrun⟩
    · rw [hfirst] at hnone
      cases hnone
    · obtain rfl : u.length = p := by simpa [hfirst] using hsome
      exact ⟨fuel, by rwa [edited_append] at hrun⟩

/-- With an empty replacement the position stays at the first block for good. -/
theorem stringHelperReplace_ne_returned {pat u : List α} (hpat : pat ≠ []) (hu : Free pat u)
    (t : List α) (fuel : ℕ) (r : List α) :
    stringHelperReplace (u ++ (pat ++ t)) pat [] fuel ≠ .returned r := by
  intro h
  have hfirst := find_first_block hpat hu t (le_refl u.length)
  obtain ⟨fuel, hrun⟩ := stringHelperReplace_first hpat hu h
  obtain ⟨last, rfl, hnone⟩ := stringHelperLoop_invariant (fun _ pos => pos = u.length)
    (by
      rintro str pos p rfl hfind -
      simpa [hfirst, eq_comm] using hfind) rfl hrun
  rw [hfirst] at hnone
  cases hnone

/-- A longer replacement moves the text behind it away from its positions in `strSrc`: the last
    character of every later occurrence stays. -/
theorem free_of_longer {pat u t rep : List α} (hpat : pat ≠ []) (hu : Free pat u)
    (hlen : pat.length < rep.length) {fuel : ℕ} {r : List α}
    (h : stringHelperReplace (u ++ (pat ++ t)) pat rep fuel = .returned r) (hr : Free pat r) :
    Free pat t := by
  by_contra ht
  have hpos := List.length_pos_iff.2 hpat
  obtain ⟨fuel, hrun⟩ := stringHelperReplace_first hpat hu h
  set src := u ++ (pat ++ t) with hsrc
  let Inv (str : List α) (pos : ℕ) : Prop :=
    ∃ a, 1 ≤ a ∧ a ≤ pos ∧ str.drop pos = src.drop (pos - a) ∧ ¬ Free pat (str.drop pos)
  have hstep : ∀ str pos p, Inv str pos → find src pat pos = some p → p ≤ str.length →
      Inv (edited pat rep str p) (p + rep.length) := by
    rintro str pos p ⟨a, ha, hapos, hdrop, -⟩ hfind hp
    obtain ⟨hle, hpre, -⟩ := find_eq_some hfind
    have hrest : (edited pat rep str p).drop (p + rep.length) =
        src.drop (p + pat.length - a) := by
      rw [edited_drop pat rep hp, show p + pat.length = pos + (p + pat.length - pos) by omega,
        ← List.drop_drop, hdrop, List.drop_drop]
      congr 1
      omega
    refine ⟨a + (rep.length - pat.length), by omega, by omega, ?_, fun hfree => ?_⟩
    · rw [hrest]
      congr 1
      omega
    · obtain ⟨c, hc, hget⟩ := occurrence_getElem? (k := p + pat.length - 1) hpre (by omega)
        (by omega)
      rw [hrest] at hfree
      refine hfree c (List.mem_of_getElem? (i := a - 1) ?_) hc
      rw [List.getElem?_drop, ← hget]
      congr 1
      omega
  have hinit : Inv (u ++ rep ++ t) (u.length + rep.length) := by
    have hdrop : (u ++ rep ++ t).drop (u.length + rep.length) = t := by
      rw [← List.length_append, List.drop_left]
    refine ⟨rep.length - pat.length, by omega, by omega, ?_, by rwa [hdrop]⟩
    rw [hdrop, hsrc, show u.length + rep.length - (rep.length - pat.length) =
      u.length + pat.length by omega, ← List.drop_drop, List.drop_left, List.drop_left]
  obtain ⟨last, ⟨-, -, -, -, hfree⟩, -⟩ := stringHelperLoop_invariant Inv hstep hinit hrun
  exact hfree fun c hc => hr c (List.mem_of_mem_drop hc)

omit [DecidableEq α] in
/-- An occurrence `d` characters into a block reaches into a further block. -/
theorem Blocks.rotate_eq {pat t : List α} (ht : Blocks pat t) {d : ℕ} (hd : 0 < d)
    (hlt : d < pat.length) (hpre : pat <+: pat.drop d ++ t) : pat.rotate d = pat := by
  obtain ⟨w, hw⟩ := hpre
  obtain ⟨e, he, rfl⟩ : ∃ e, pat = pat.drop d ++ e ∧ t = e ++ w := by
    rcases List.append_eq_append_iff.1 hw with ⟨e, he, -⟩ | ⟨e, he, ht⟩
    · have := congrArg List.length he
      simp only [List.length_append, List.length_drop] at this
      omega
    · exact ⟨e, he, ht⟩
  have hlen : e.length = d := by
    have := congrArg List.length he
    simp only [List.length_append, List.length_drop] at this
    omega
  have hmem : ∀ c ∈ e, c ∈ pat := fun c hc => by
    rw [he]
    exact List.mem_append_right _ hc
  rw [List.rotate_eq_drop_append_take hlt.le]
  suffices pat.take d = e by rw [this, ← he]
  generalize hstr : e ++ w = str at ht
  cases ht with
  | nil =>
    rw [(List.append_eq_nil_iff.1 hstr).1, List.length_nil] at hlen
    omega
  | @char c str hc _ =>
    obtain ⟨x, e, rfl⟩ := List.exists_cons_of_length_pos (hlen ▸ hd)
    obtain rfl : x = c := (List.cons.inj hstr).1
    exact absurd (hmem x List.mem_cons_self) hc
  | @block str _ =>
    have := congrArg (List.take d) hstr
    rwa [← hlen, List.take_left, hlen, List.take_append_of_le_length hlt.le, eq_comm] at this

/-- A shorter replacement draws the text behind it before its position in `strSrc`: the second
    occurrence must overlap the first, or it is found too late. -/
theorem overlaps_of_shorter {pat u t rep : List α} (hpat : pat ≠ []) (hu : Free pat u)
    (hlen : rep.length < pat.length) (hrep : rep ≠ []) (ht : Blocks pat t) (hfree : ¬ Free pat t)
    {fuel : ℕ} {r : List α}
    (h : stringHelperReplace (u ++ (pat ++ t)) pat rep fuel = .returned r) (hr : Free pat r) :
    pat.rotate rep.length = pat := by
  have hrpos := List.length_pos_iff.2 hrep
  obtain ⟨fuel, hrun⟩ := stringHelperReplace_first hpat hu h
  cases fuel with
  | zero => cases hrun
  | succ fuel =>
    rcases stringHelperLoop_succ hrun with ⟨-, rfl⟩ | ⟨p, hsome, hp, hrest⟩
    · exact absurd (free_append.1 hr).2 hfree
    · obtain ⟨hle, hpre, -⟩ := find_eq_some hsome
      -- What the second round leaves before `p` stays, so it has no character of the pattern.
      have hstay : r.take p = (u ++ rep ++ t).take p := by
        have hlast := stringHelperLoop_take (edited_length pat rep hp) hrest
        have := congrArg (List.take p) hlast
        rwa [List.take_take, List.take_take, Nat.min_eq_left (Nat.le_add_right p _),
          edited_take pat rep hp] at this
      have hp : p = u.length + rep.length := by
        by_contra hne
        obtain ⟨k, hk⟩ : ∃ k, k = max (u.length + rep.length) (p - (pat.length - rep.length)) :=
          ⟨_, rfl⟩
        obtain ⟨c, hc, hget⟩ := occurrence_getElem? (k := k + (pat.length - rep.length)) hpre
          (by omega) (by omega)
        rw [List.getElem?_append_right (by omega), List.getElem?_append_right (by omega)] at hget
        refine hr c (List.mem_of_mem_take (i := p) ?_) hc
        rw [hstay]
        refine List.mem_of_getElem? (i := k) ?_
        rw [List.getElem?_take_of_lt (by omega), List.getElem?_append_right (by simp; omega),
          ← hget]
        congr 1
        simp only [List.length_append]
        omega
      subst hp
      rw [← List.drop_drop, List.drop_left, List.drop_append_of_le_length hlen.le] at hpre
      exact ht.rotate_eq hrpos hlen hpre

/-- A replacement as long as the pattern moves nothing: `strSrc` is as good as the text. -/
theorem stringHelperLoop_eq {src pat rep : List α} (hpat : pat ≠ [])
    (hlen : rep.length = pat.length) (fuel : ℕ) : ∀ {strResult : List α} {pos : ℕ},
      strResult.length = src.length → strResult.drop pos = src.drop pos →
      stringHelperLoop src pat rep fuel strResult pos =
        string_replaceLoop pat rep fuel strResult pos := by
  induction fuel with
  | zero => intros; rfl
  | succ fuel ih =>
    intro strResult pos hsame hdrop
    have hfind : find strResult pat pos = find src pat pos := by rw [find, find, hsame, hdrop]
    rw [stringHelperLoop, string_replaceLoop, hfind]
    cases h : find src pat pos with
    | none => rfl
    | some p =>
      obtain ⟨hle, hpre, -⟩ := find_eq_some h
      have hp := occurrence_le_length hpat hpre
      have hedit : replaceAt strResult p pat.length rep = some (edited pat rep strResult p) :=
        if_pos (by omega)
      simp only [hedit]
      refine ih ?_ ?_
      · simp only [edited, List.length_append, List.length_take, List.length_drop]
        omega
      · rw [edited_drop pat rep (by omega), hlen]
        have := congrArg (List.drop (p + pat.length - pos)) hdrop
        rwa [List.drop_drop, List.drop_drop, Nat.add_sub_cancel' (by omega)] at this

theorem stringHelperReplace_of_free {pat src : List α} (hpat : pat ≠ []) (h : Free pat src)
    (rep : List α) : Returns (stringHelperReplace src pat rep) src := by
  have hnone : find src pat 0 = none := find_of_none fun i _ hpre => by
    rcases Nat.lt_or_ge i src.length with hi | hi
    · exact not_occurrence_before hpat h [] hi (by rwa [List.append_nil])
    · rw [List.drop_eq_nil_of_le hi, List.prefix_nil] at hpre
      exact hpat hpre
  exact ⟨1, by simp [stringHelperReplace, stringHelperLoop, hnone]⟩

/-- One block is replaced, and behind its replacement nothing is found. -/
theorem stringHelperReplace_of_one {pat u t rep : List α} (hpat : pat ≠ []) (hu : Free pat u)
    (ht : Free pat t) (hrep : rep ≠ []) :
    Returns (stringHelperReplace (u ++ (pat ++ t)) pat rep) (u ++ rep ++ t) := by
  have hpos := List.length_pos_iff.2 hrep
  have hnone : find (u ++ (pat ++ t)) pat (u.length + rep.length) = none :=
    find_of_none fun i hi => not_occurrence_after hpat ht u (by omega)
  refine ⟨2, ?_⟩
  simp only [stringHelperReplace, stringHelperLoop, find_first_block hpat hu t (Nat.zero_le _),
    replaceAt_append, hnone]

/-! ### Where the helpers replace all -/

/-- The two helpers return the text with all replaced, as `string_replace` does. -/
structure ReplaceAll (pat rep str : List α) : Prop where
  stringHelper : Returns (stringHelperReplace str pat rep) (replaceAll pat rep str)
  string : Returns (fun fuel => stringReplace pat rep fuel str) (replaceAll pat rep str)
  path : Returns (string_replace str pat rep) (replaceAll pat rep str)

/-- One block and around it no character of the pattern. -/
def OneBlock (pat str : List α) : Prop :=
  ∃ u t, str = u ++ (pat ++ t) ∧ Free pat u ∧ Free pat t

/-- Nothing to replace; or blocks and a replacement without characters of the pattern that is as
    long as the pattern, or that is not empty and meets a single block. -/
def Replaceable (pat rep str : List α) : Prop :=
  Free pat str ∨
    Free pat rep ∧ Blocks pat str ∧ (rep.length = pat.length ∨ rep ≠ [] ∧ OneBlock pat str)

/-- A shorter replacement after whose length the pattern meets itself: what `StringHelper::Replace`
    finds are then occurrences that overlap. -/
def SelfOverlap (pat rep : List α) : Prop :=
  0 < rep.length ∧ rep.length < pat.length ∧ pat.rotate rep.length = pat

theorem Replaceable.replaceAll {pat rep str : List α} (hpat : pat ≠ [])
    (h : Replaceable pat rep str) : ReplaceAll pat rep str := by
  refine ⟨?_, (stringReplace_returns_iff hpat rep str).2 ?_, string_replace_returns hpat rep str⟩
  · rcases h with hfree | ⟨-, -, hlen | ⟨hrep, u, t, rfl, hu, ht⟩⟩
    · rw [replaceAll_of_free hpat rep hfree]
      exact stringHelperReplace_of_free hpat hfree rep
    · obtain ⟨fuel, hfuel⟩ := string_replace_returns hpat rep str
      exact ⟨fuel, (stringHelperLoop_eq hpat hlen fuel rfl rfl).trans hfuel⟩
    · have hall : Utility.replaceAll pat rep (u ++ (pat ++ t)) = u ++ rep ++ t := by
        rw [replaceAll_free_append hpat rep hu, replaceAll_append hpat,
          replaceAll_of_free hpat rep ht, List.append_assoc]
      rw [hall]
      exact stringHelperReplace_of_one hpat hu ht hrep
  · rcases h with hfree | ⟨hrep, hblocks, -⟩
    · exact .inl hfree
    · exact .inr ⟨hrep, hblocks⟩

theorem ReplaceAll.replaceable {pat rep str : List α} (hpat : pat ≠ [])
    (hoverlap : ¬ SelfOverlap pat rep) (h : ReplaceAll pat rep str) : Replaceable pat rep str := by
  rcases (stringReplace_returns_iff hpat rep str).1 h.string with hfree | ⟨hrep, hblocks⟩
  · exact .inl hfree
  rcases hblocks.cases_first with hfree | ⟨u, t, rfl, hu, ht⟩
  · exact .inl hfree
  · obtain ⟨fuel, hrun⟩ := h.stringHelper
    have hr := hblocks.free_replaceAll hpat hrep
    have hne : rep ≠ [] := fun hnil => by
      subst hnil
      exact stringHelperReplace_ne_returned hpat hu t fuel _ hrun
    refine .inr ⟨hrep, hblocks, ?_⟩
    rcases Nat.lt_trichotomy rep.length pat.length with hlt | heq | hlt
    · refine .inr ⟨hne, u, t, rfl, hu, by_contra fun hfree => hoverlap ?_⟩
      exact ⟨List.length_pos_iff.2 hne, hlt, overlaps_of_shorter hpat hu hlt hne ht hfree hrun hr⟩
    · exact .inl heq
    · exact .inr ⟨hne, u, t, rfl, hu, free_of_longer hpat hu hlt hrun hr⟩

end UrlTraveler.Utility
