import Mathlib

/-! `StringHelper::Split` and `String::Split`: a text cut at a separator.

        "a.bc..d"    i = 1, 4, 5, -1          ["a", "bc", "", "d"]
        "abc"        i = -1                    []

    The loop of `StringHelper` pushes the piece before each separator and the rest is pushed behind
    it; a text without the separator gives no piece at all.

        "a.b."       i = 0, 1    "b."    i = 0, 1    ""       ["a", "b"]

    The loop of `String` shortens its text and starts again; an empty text ends it, so an empty last
    piece is lost, and what it cuts out is counted in 16 bits. -/

namespace UrlTraveler.Utility

/-- `find(_Ch, pos)`; -1 is `none`. -/
def findFrom (str : List Char) (ch : Char) (pos : ℕ) : Option ℕ :=
  ((str.drop pos).idxOf? ch).map (pos + ·)

/-- The loop of `Split`: `nLastPos` and the pieces. Every round moves `nLastPos` behind a separator,
    so there are at most as many rounds as characters. -/
def splitLoop (strOri : List Char) (ch : Char) :
    ℕ → Option ℕ → ℕ → List (List Char) → ℕ × List (List Char)
  | fuel + 1, some i, nLastPos, vecResutl =>
    let strSub := (strOri.drop nLastPos).take (i - nLastPos)
    let nLastPos := i + 1
    splitLoop strOri ch fuel (findFrom strOri ch nLastPos) nLastPos (vecResutl ++ [strSub])
  | _, _, nLastPos, vecResutl => (nLastPos, vecResutl)

/-- `StringHelper::Split`. -/
def split (strOri : List Char) (ch : Char) : List (List Char) :=
  let (nLastPos, vecResutl) := splitLoop strOri ch strOri.length (findFrom strOri ch 0) 0 []
  if nLastPos ≠ 0 then
    vecResutl ++ [(strOri.drop nLastPos).take (strOri.length - nLastPos)]
  else vecResutl

/-! ### Pieces -/

theorem idxOf?_append_cons {piece : List Char} {ch : Char} (h : ch ∉ piece) (rest : List Char) :
    (piece ++ ch :: rest).idxOf? ch = some piece.length := by
  induction piece with
  | nil => simp [List.idxOf?_cons]
  | cons c piece ih =>
    have hne : c ≠ ch := fun heq => h (heq ▸ List.mem_cons_self)
    have hmem : ch ∉ piece := fun hmem => h (List.mem_cons_of_mem c hmem)
    rw [List.cons_append, List.idxOf?_cons, ih hmem, if_neg (by simpa using hne)]
    rfl

theorem length_le_length_intercalate (ch : Char) (p : List Char) : ∀ ps : List (List Char),
    ps.length ≤ ([ch].intercalate (p :: ps)).length
  | [] => Nat.zero_le _
  | q :: ps => by
    have := length_le_length_intercalate ch q ps
    rw [List.intercalate_cons_cons, List.length_append, List.length_append, List.length_cons,
      List.length_singleton]
    omega

/-- The loop over a text whose rest, from `nLastPos` on, is `p :: ps` joined. -/
theorem splitLoop_intercalate {str : List Char} {ch : Char} : ∀ (ps : List (List Char))
    (p : List Char) (fuel nLastPos : ℕ) (vec : List (List Char)), (∀ q ∈ p :: ps, ch ∉ q) →
      ps.length ≤ fuel → str.drop nLastPos = [ch].intercalate (p :: ps) → ∃ last,
        splitLoop str ch fuel (findFrom str ch nLastPos) nLastPos vec =
          (last, vec ++ (p :: ps).dropLast) ∧
        str.drop last = (p :: ps).getLast (List.cons_ne_nil p ps) ∧
        (ps = [] → last = nLastPos) ∧ (ps ≠ [] → last ≠ 0)
  | [], p, fuel, nLastPos, vec, hps, _, hstr => by
    rw [List.intercalate_singleton] at hstr
    have hnone : findFrom str ch nLastPos = none := by
      rw [findFrom, hstr, List.idxOf?_eq_none_iff.2 (hps p List.mem_cons_self)]
      rfl
    refine ⟨nLastPos, ?_, hstr, fun _ => rfl, fun h => absurd rfl h⟩
    rw [hnone]
    cases fuel <;> simp [splitLoop]
  | q :: ps, p, 0, _, _, _, hfuel, _ => by simp at hfuel
  | q :: ps, p, fuel + 1, nLastPos, vec, hps, hfuel, hstr => by
    rw [List.intercalate_cons_cons, List.append_assoc, List.singleton_append] at hstr
    have hsome : findFrom str ch nLastPos = some (nLastPos + p.length) := by
      rw [findFrom, hstr, idxOf?_append_cons (hps p List.mem_cons_self)]
      rfl
    have hpiece : (str.drop nLastPos).take (nLastPos + p.length - nLastPos) = p := by
      rw [hstr, Nat.add_sub_cancel_left, List.take_left]
    have hrest : str.drop (nLastPos + p.length + 1) = [ch].intercalate (q :: ps) := by
      rw [Nat.add_assoc, ← List.drop_drop, hstr, ← List.drop_drop, List.drop_left, List.drop_one,
        List.tail_cons]
    obtain ⟨last, hloop, hlast, hsame, hmoved⟩ := splitLoop_intercalate ps q fuel
      (nLastPos + p.length + 1) (vec ++ [p]) (fun r hr => hps r (List.mem_cons_of_mem p hr))
      (by simpa using hfuel) hrest
    refine ⟨last, ?_, ?_, fun h => absurd h (List.cons_ne_nil q ps), fun _ => ?_⟩
    · rw [hsome, splitLoop]
      simp only [hpiece]
      rw [hloop, List.dropLast_cons_cons, List.append_assoc, List.singleton_append]
    · rw [hlast, List.getLast_cons (List.cons_ne_nil q ps)]
    · cases ps with
      | nil =>
        rw [hsame rfl]
        omega
      | cons r ps => exact hmoved (List.cons_ne_nil r ps)

/-- Two pieces or more that are joined come apart again. -/
theorem split_intercalate {ch : Char} {p q : List Char} {ps : List (List Char)}
    (hps : ∀ r ∈ p :: q :: ps, ch ∉ r) :
    split ([ch].intercalate (p :: q :: ps)) ch = p :: q :: ps := by
  obtain ⟨last, hloop, hlast, -, hmoved⟩ := splitLoop_intercalate (q :: ps) p
    ([ch].intercalate (p :: q :: ps)).length 0 [] hps (length_le_length_intercalate ch p (q :: ps))
    List.drop_zero
  rw [split, hloop]
  simp only [hmoved (List.cons_ne_nil q ps), ne_eq, not_false_eq_true, if_true, List.nil_append]
  rw [← List.length_drop, List.take_length, hlast, List.dropLast_concat_getLast]

/-- A text without the separator gives no piece. -/
theorem split_of_not_mem {ch : Char} {str : List Char} (h : ch ∉ str) : split str ch = [] := by
  have hstr : str.drop 0 = [ch].intercalate [str] := by simp
  obtain ⟨last, hloop, -, hsame, -⟩ := splitLoop_intercalate [] str str.length 0 []
    (by simpa using h) (Nat.zero_le _) hstr
  rw [split, hloop, hsame rfl]
  rfl

/-! ### `String::Split` -/

/-- A text as a C string: up to the first null character. -/
def cStr (str : List Char) : List Char := str.takeWhile (· ≠ '\x00')

/-- `String::SubStr`; both numbers are `uint16`. -/
def subStr (str : List Char) (nBegin nNumber : ℕ) : List Char :=
  cStr ((str.drop (nBegin % 2 ^ 16)).take (nNumber % 2 ^ 16))

theorem length_subStr_le (str : List Char) (nBegin nNumber : ℕ) :
    (subStr str nBegin nNumber).length ≤ min nNumber (str.length - nBegin % 2 ^ 16) := by
  have h := (List.takeWhile_sublist (· ≠ '\x00')
    (l := (str.drop (nBegin % 2 ^ 16)).take (nNumber % 2 ^ 16))).length_le
  have hmod := Nat.mod_le nNumber (2 ^ 16)
  rw [List.length_take, List.length_drop] at h
  rw [subStr, cStr]
  omega

theorem length_subStr_lt {str : List Char} {i : ℕ} (hi : i < str.length) :
    (subStr str (i + 1) (str.length - i)).length < str.length := by
  have h := length_subStr_le str (i + 1) (str.length - i)
  cases i with
  | zero =>
    rw [Nat.mod_eq_of_lt (by decide)] at h
    omega
  | succ i => omega

/-- The loop of `String::Split` at index `i`. -/
def stringSplitLoop (chSplit : Char) (i : ℕ) (strSrc : List Char) (vResult : List (List Char)) :
    List (List Char) :=
  if h : i < strSrc.length then
    if strSrc[i] = chSplit then
      -- `i = -1`, and the loop counts on
      have := length_subStr_lt h
      stringSplitLoop chSplit 0 (subStr strSrc (i + 1) (strSrc.length - i))
        (vResult ++ [subStr strSrc 0 i])
    else if i = strSrc.length - 1 then vResult ++ [subStr strSrc 0 strSrc.length]
    else stringSplitLoop chSplit (i + 1) strSrc vResult
  else vResult
termination_by (strSrc.length, strSrc.length - i)

/-- `String::Split`: what is written to `pString`, and `nNum`. -/
def stringSplit (m_strString : List Char) (chSplit : Char) : List (List Char) × ℕ :=
  let vResult := stringSplitLoop chSplit 0 (cStr m_strString) []
  (vResult, vResult.length % 2 ^ 16)

theorem cStr_of_not_mem {str : List Char} (h : '\x00' ∉ str) : cStr str = str := by
  rw [cStr, List.takeWhile_eq_self_iff]
  intro c hc
  simpa using fun heq : c = '\x00' => h (heq ▸ hc)

theorem mem_of_mem_cStr {str : List Char} {c : Char} (h : c ∈ cStr str) : c ∈ str :=
  (List.takeWhile_sublist _).subset h

theorem null_not_mem_cStr (str : List Char) : '\x00' ∉ cStr str := fun h => by
  simpa using List.mem_takeWhile_imp h

theorem mem_of_mem_subStr {str : List Char} {nBegin nNumber : ℕ} {c : Char}
    (h : c ∈ subStr str nBegin nNumber) : c ∈ str :=
  List.mem_of_mem_drop (List.mem_of_mem_take (mem_of_mem_cStr h))

theorem subStr_eq {str : List Char} (h : '\x00' ∉ str) (nBegin nNumber : ℕ) :
    subStr str nBegin nNumber = (str.drop (nBegin % 2 ^ 16)).take (nNumber % 2 ^ 16) :=
  cStr_of_not_mem fun hmem => h (List.mem_of_mem_drop (List.mem_of_mem_take hmem))

/-- From an index before the first separator the loop comes to that separator. -/
theorem stringSplitLoop_found {ch : Char} {p : List Char} (hp : ch ∉ p) (rest : List Char)
    (v : List (List Char)) {i : ℕ} (hi : i ≤ p.length) :
    stringSplitLoop ch i (p ++ ch :: rest) v =
      stringSplitLoop ch 0 (subStr (p ++ ch :: rest) (p.length + 1) (rest.length + 1))
        (v ++ [subStr (p ++ ch :: rest) 0 p.length]) := by
  obtain ⟨d, hd⟩ := Nat.exists_eq_add_of_le hi
  induction d generalizing i with
  | zero =>
    obtain rfl : i = p.length := by omega
    have hlen : (p ++ ch :: rest).length - p.length = rest.length + 1 := by simp
    rw [stringSplitLoop, dif_pos (by simp), if_pos (by simp), hlen]
  | succ d ih =>
    have hlt : i < p.length := by omega
    have hi : i < (p ++ ch :: rest).length := by
      rw [List.length_append]
      omega
    have hne : (p ++ ch :: rest)[i] ≠ ch := by
      rw [List.getElem_append_left hlt]
      exact fun heq => hp (heq ▸ List.getElem_mem hlt)
    rw [stringSplitLoop, dif_pos hi, if_neg hne, if_neg (by simp; omega),
      ih (by omega) (by omega)]

/-- A text without the separator is one piece, unless it is empty. -/
theorem stringSplitLoop_last {ch : Char} {str : List Char} (hstr : ch ∉ str)
    (v : List (List Char)) {i : ℕ} (hi : i < str.length) :
    stringSplitLoop ch i str v = v ++ [subStr str 0 str.length] := by
  obtain ⟨d, hd⟩ := Nat.exists_eq_add_of_lt hi
  induction d generalizing i with
  | zero =>
    have hne : str[i] ≠ ch := fun heq => hstr (heq ▸ List.getElem_mem hi)
    rw [stringSplitLoop, dif_pos hi, if_neg hne, if_pos (by omega)]
  | succ d ih =>
    have hne : str[i] ≠ ch := fun heq => hstr (heq ▸ List.getElem_mem hi)
    rw [stringSplitLoop, dif_pos hi, if_neg hne, if_neg (by omega), ih (by omega) (by omega)]

theorem stringSplitLoop_nil (ch : Char) (v : List (List Char)) : stringSplitLoop ch 0 [] v = v := by
  rw [stringSplitLoop, dif_neg (by simp)]

theorem subStr_piece {p rest : List Char} (h : '\x00' ∉ p ++ rest) :
    subStr (p ++ rest) 0 p.length = p.take (p.length % 2 ^ 16) := by
  rw [subStr_eq h, Nat.zero_mod, List.drop_zero,
    List.take_append_of_le_length (Nat.mod_le p.length (2 ^ 16))]

theorem subStr_rest {p rest : List Char} {ch : Char} (h : '\x00' ∉ p ++ ch :: rest)
    (hp : p.length + 1 < 2 ^ 16) : subStr (p ++ ch :: rest) (p.length + 1) (rest.length + 1) =
      rest.take ((rest.length + 1) % 2 ^ 16) := by
  rw [subStr_eq h, Nat.mod_eq_of_lt hp, ← List.drop_drop, List.drop_left, List.drop_one,
    List.tail_cons]

/-- Where the lengths fit into 16 bits, the piece before the separator is cut off. -/
theorem stringSplitLoop_next {ch : Char} {p rest : List Char} (hp : ch ∉ p)
    (hnull : '\x00' ∉ p ++ ch :: rest) (hpiece : p.length + 1 < 2 ^ 16)
    (hrest : rest.length + 1 < 2 ^ 16) (v : List (List Char)) :
    stringSplitLoop ch 0 (p ++ ch :: rest) v = stringSplitLoop ch 0 rest (v ++ [p]) := by
  rw [stringSplitLoop_found hp _ _ (Nat.zero_le _), subStr_piece hnull, subStr_rest hnull hpiece,
    Nat.mod_eq_of_lt hrest, Nat.mod_eq_of_lt (Nat.lt_of_succ_lt hpiece), List.take_length,
    List.take_of_length_le (Nat.le_succ _)]

/-- The pieces without an empty last one. -/
def dropEmptyLast (ps : List (List Char)) : List (List Char) :=
  if ps.getLast? = some [] then ps.dropLast else ps

/-- Short texts, by induction on the pieces. -/
theorem stringSplitLoop_intercalate {ch : Char} (ps : List (List Char)) :
    ∀ (p : List Char) (v : List (List Char)), (∀ q ∈ p :: ps, ch ∉ q) →
      '\x00' ∉ [ch].intercalate (p :: ps) → ([ch].intercalate (p :: ps)).length < 2 ^ 16 →
      stringSplitLoop ch 0 ([ch].intercalate (p :: ps)) v = v ++ dropEmptyLast (p :: ps) := by
  induction ps with
  | nil =>
    intro p v hps hnull hlen
    rw [List.intercalate_singleton] at hnull hlen ⊢
    by_cases hne : p = []
    · rw [hne, stringSplitLoop_nil]
      simp [dropEmptyLast]
    · rw [← List.append_nil p] at hnull
      have hpiece := subStr_piece hnull
      rw [List.append_nil, Nat.mod_eq_of_lt hlen, List.take_length] at hpiece
      rw [stringSplitLoop_last (hps p List.mem_cons_self) v (List.length_pos_iff.2 hne), hpiece]
      simp [dropEmptyLast, hne]
  | cons q ps ih =>
    intro p v hps hnull hlen
    rw [List.intercalate_cons_cons, List.append_assoc, List.singleton_append] at hnull hlen ⊢
    have hlen' : p.length + (([ch].intercalate (q :: ps)).length + 1) < 2 ^ 16 := by
      simpa using hlen
    rw [stringSplitLoop_next (hps p List.mem_cons_self) hnull (by omega) (by omega),
      ih q _ (fun r hr => hps r (List.mem_cons_of_mem p hr))
        (fun h => hnull (List.mem_append_right _ (List.mem_cons_of_mem ch h))) (by omega)]
    simp [dropEmptyLast]
    split <;> rfl

/-! ### Where the two split back -/

/-- Both helpers give the pieces of the joined text back. -/
structure SplitsBack (ch : Char) (ps : List (List Char)) : Prop where
  stringHelper : split ([ch].intercalate ps) ch = ps
  string : stringSplit ([ch].intercalate ps) ch = (ps, ps.length)

/-- No null character, no empty piece at the end, and the first piece and the text behind it short
    enough for 16 bits. -/
structure Splittable (ch : Char) (p : List Char) (ps : List (List Char)) : Prop where
  null : '\x00' ∉ [ch].intercalate (p :: ps)
  last : ps.getLast? ≠ some []
  piece : p.length + 1 < 2 ^ 16
  rest : ([ch].intercalate ps).length + 1 < 2 ^ 16

theorem stringSplitLoop_append (ch : Char) (i : ℕ) (str : List Char) (w v : List (List Char)) :
    stringSplitLoop ch i str (w ++ v) = w ++ stringSplitLoop ch i str v := by
  fun_induction stringSplitLoop ch i str v with
  | case1 i str v hi hch _ ih =>
    rw [stringSplitLoop, dif_pos hi, if_pos hch, List.append_assoc]
    exact ih
  | case2 str v hi hch =>
    rw [stringSplitLoop, dif_pos hi, if_neg hch, if_pos rfl, List.append_assoc]
  | case3 i str v hi hch hlast ih =>
    rw [stringSplitLoop, dif_pos hi, if_neg hch, if_neg hlast]
    exact ih
  | case4 i str v hi => rw [stringSplitLoop, dif_neg hi]

/-- What is cut out is made of characters of the text. -/
theorem mem_stringSplitLoop {ch : Char} {i : ℕ} {str : List Char} {v : List (List Char)}
    {r : List Char} (h : r ∈ stringSplitLoop ch i str v) : r ∈ v ∨ ∀ c ∈ r, c ∈ str := by
  fun_induction stringSplitLoop ch i str v with
  | case1 i str v hi hch _ ih =>
    rcases ih h with hv | hr
    · rcases List.mem_append.1 hv with hv | hr
      · exact .inl hv
      · obtain rfl := List.mem_singleton.1 hr
        exact .inr fun c hc => mem_of_mem_subStr hc
    · exact .inr fun c hc => mem_of_mem_subStr (hr c hc)
  | case2 str v hi hch =>
    rcases List.mem_append.1 h with hv | hr
    · exact .inl hv
    · obtain rfl := List.mem_singleton.1 hr
      exact .inr fun c hc => mem_of_mem_subStr hc
  | case3 i str v hi hch hlast ih => exact ih h
  | case4 i str v hi => exact .inl h

theorem exists_intercalate (ch : Char) (str : List Char) : ∃ p ps,
    str = [ch].intercalate (p :: ps) ∧ ∀ q ∈ p :: ps, ch ∉ q := by
  induction str with
  | nil => exact ⟨[], [], rfl, by simp⟩
  | cons c str ih =>
    obtain ⟨p, ps, rfl, hps⟩ := ih
    by_cases hc : c = ch
    · refine ⟨[], p :: ps, ?_, ?_⟩
      · rw [List.intercalate_cons_cons, hc]
        rfl
      · rintro q (_ | ⟨_, hq⟩)
        · exact List.not_mem_nil
        · exact hps q hq
    · refine ⟨c :: p, ps, ?_, ?_⟩
      · cases ps <;> simp [List.intercalate_cons_cons]
      · rintro q (_ | ⟨_, hq⟩)
        · rw [List.mem_cons, not_or]
          exact ⟨Ne.symm hc, hps p List.mem_cons_self⟩
        · exact hps q (List.mem_cons_of_mem p hq)

theorem intercalate_concat_nil (ch : Char) (ps : List (List Char)) : ∀ p : List Char,
    [ch].intercalate (p :: ps ++ [[]]) = [ch].intercalate (p :: ps) ++ [ch] := by
  induction ps with
  | nil =>
    intro p
    simp [List.intercalate_cons_cons]
  | cons q ps ih =>
    intro p
    rw [List.cons_append, List.cons_append, List.intercalate_cons_cons, ← List.cons_append, ih q,
      List.intercalate_cons_cons]
    simp

/-- Without the separator there is one piece at most. -/
theorem length_stringSplitLoop_le_one {ch : Char} {str : List Char} (h : ch ∉ str) :
    (stringSplitLoop ch 0 str []).length ≤ 1 := by
  by_cases hne : str = []
  · rw [hne, stringSplitLoop_nil]
    exact Nat.zero_le 1
  · rw [stringSplitLoop_last h [] (List.length_pos_iff.2 hne)]
    exact le_refl 1

/-- A short text cannot give the pieces of a longer one. -/
theorem stringSplitLoop_ne {ch : Char} {str : List Char} (hnull : '\x00' ∉ str)
    (hshort : str.length < 2 ^ 16) {p : List Char} {ps : List (List Char)}
    (hlen : str.length < ([ch].intercalate (p :: ps)).length) :
    stringSplitLoop ch 0 str [] ≠ p :: ps := by
  obtain ⟨q, qs, rfl, hqs⟩ := exists_intercalate ch str
  rw [stringSplitLoop_intercalate qs q [] hqs hnull hshort, List.nil_append, dropEmptyLast]
  split
  · next hlast =>
    intro heq
    have hcut := List.dropLast_append_getLast? [] hlast
    rw [heq] at hcut
    rw [← hcut, intercalate_concat_nil, List.length_append, List.length_singleton] at hlen
    omega
  · next hlast =>
    intro heq
    rw [heq] at hlen
    exact absurd hlen (lt_irrefl _)

theorem length_le_of_getLast (ch : Char) {q : List Char} {ps : List (List Char)}
    (hlast : (q :: ps).getLast? ≠ some []) :
    (q :: ps).length ≤ ([ch].intercalate (q :: ps)).length := by
  induction ps generalizing q with
  | nil =>
    have hq : q ≠ [] := fun hq => hlast (by rw [hq]; rfl)
    simpa [Nat.one_le_iff_ne_zero] using hq
  | cons r ps ih =>
    have := ih (q := r) (by simpa using hlast)
    rw [List.intercalate_cons_cons, List.length_append, List.length_append, List.length_cons,
      List.length_singleton]
    omega

theorem dropEmptyLast_eq_self_iff {ps : List (List Char)} (hne : ps ≠ []) :
    dropEmptyLast ps = ps ↔ ps.getLast? ≠ some [] := by
  rw [dropEmptyLast]
  split
  · next hlast =>
    refine iff_of_false (fun heq => ?_) (not_not.2 hlast)
    have hlen := congrArg List.length heq
    have hpos := List.length_pos_iff.2 hne
    rw [List.length_dropLast] at hlen
    omega
  · next hlast => exact iff_of_true rfl hlast

theorem Splittable.stringSplit {ch : Char} {p q : List Char} {ps : List (List Char)}
    (hps : ∀ r ∈ p :: q :: ps, ch ∉ r) (h : Splittable ch p (q :: ps)) :
    stringSplit ([ch].intercalate (p :: q :: ps)) ch =
      (p :: q :: ps, (p :: q :: ps).length) := by
  have hrest := h.rest
  have hlen : (p :: q :: ps).length < 2 ^ 16 := by
    have := length_le_of_getLast ch h.last
    rw [List.length_cons]
    omega
  have hloop : stringSplitLoop ch 0 ([ch].intercalate (p :: q :: ps)) [] = p :: q :: ps := by
    have hnull := h.null
    rw [List.intercalate_cons_cons, List.append_assoc, List.singleton_append] at hnull ⊢
    rw [stringSplitLoop_next (hps p List.mem_cons_self) hnull h.piece hrest,
      stringSplitLoop_intercalate ps q _ (fun r hr => hps r (List.mem_cons_of_mem p hr))
        (fun hmem => hnull (List.mem_append_right _ (List.mem_cons_of_mem ch hmem))) (by omega),
      (dropEmptyLast_eq_self_iff (List.cons_ne_nil q ps)).2 h.last]
    rfl
  rw [Utility.stringSplit, cStr_of_not_mem h.null, hloop, Nat.mod_eq_of_lt hlen]

theorem mem_intercalate {ch c : Char} {ps : List (List Char)} : ∀ {p : List Char},
    c ∈ [ch].intercalate (p :: ps) → c = ch ∨ ∃ q ∈ p :: ps, c ∈ q := by
  induction ps with
  | nil =>
    intro p h
    rw [List.intercalate_singleton] at h
    exact .inr ⟨p, List.mem_cons_self, h⟩
  | cons q ps ih =>
    intro p h
    rw [List.intercalate_cons_cons, List.append_assoc, List.singleton_append] at h
    rcases List.mem_append.1 h with hc | hc
    · exact .inr ⟨p, List.mem_cons_self, hc⟩
    · rcases List.mem_cons.1 hc with rfl | hc
      · exact .inl rfl
      · rcases ih hc with rfl | ⟨r, hr, hc⟩
        · exact .inl rfl
        · exact .inr ⟨r, List.mem_cons_of_mem p hr, hc⟩

/-- A null character in the joined text is lost with what stands behind it. -/
theorem null_not_mem_of_stringSplit {ch : Char} {p q : List Char} {ps : List (List Char)}
    (hp : ch ∉ p)
    (h : stringSplitLoop ch 0 (cStr ([ch].intercalate (p :: q :: ps))) [] = p :: q :: ps) :
    '\x00' ∉ [ch].intercalate (p :: q :: ps) := by
  intro hnull
  have hpieces : ∀ r ∈ p :: q :: ps, '\x00' ∉ r := fun r hr hmem => by
    rw [← h] at hr
    rcases mem_stringSplitLoop hr with hnil | hchars
    · cases hnil
    · exact null_not_mem_cStr _ (hchars _ hmem)
  -- So the separator is the null character, and only the first piece is read.
  obtain rfl : '\x00' = ch := by
    rcases mem_intercalate hnull with heq | ⟨r, hr, hmem⟩
    · exact heq
    · exact absurd hmem (hpieces r hr)
  have hfirst : cStr (['\x00'].intercalate (p :: q :: ps)) = p := by
    rw [List.intercalate_cons_cons, List.append_assoc, List.singleton_append, cStr,
      List.takeWhile_append_of_pos, List.takeWhile_cons_of_neg (by simp), List.append_nil]
    intro c hc
    simpa using fun heq : c = '\x00' => hp (heq ▸ hc)
  rw [hfirst] at h
  have hlen := length_stringSplitLoop_le_one hp
  rw [h] at hlen
  simp at hlen

/-- Behind a piece of 65535 characters the text is cut at 0, so the piece itself comes again. -/
theorem stringSplitLoop_wrapped {ch : Char} {p q : List Char} {ps : List (List Char)}
    (hp : ch ∉ p) (hnull : '\x00' ∉ p ++ ch :: [ch].intercalate (q :: ps))
    (hlen : p.length + 1 = 2 ^ 16) :
    stringSplitLoop ch 0 (subStr (p ++ ch :: [ch].intercalate (q :: ps)) (p.length + 1)
      (([ch].intercalate (q :: ps)).length + 1)) [] ≠ q :: ps := by
  obtain ⟨m, hm⟩ : ∃ m, m = (([ch].intercalate (q :: ps)).length + 1) % 2 ^ 16 := ⟨_, rfl⟩
  have hmlt : m < 2 ^ 16 := by omega
  rw [subStr_eq hnull, hlen, Nat.mod_self, List.drop_zero, ← hm,
    List.take_append_of_le_length (by omega)]
  have hch : ch ∉ p.take m := fun hmem => hp (List.mem_of_mem_take hmem)
  have htake : (p.take m).length = m := by
    rw [List.length_take]
    omega
  intro h
  cases ps with
  | cons r ps =>
    have hle := length_stringSplitLoop_le_one hch
    rw [h] at hle
    simp at hle
  | nil =>
    have hloop := stringSplitLoop_intercalate [] (p.take m) [] (by simpa using hch)
      (by simpa using fun hmem => hnull (List.mem_append_left _ (List.mem_of_mem_take hmem)))
      (by rwa [List.intercalate_singleton, htake])
    rw [List.intercalate_singleton, h, List.nil_append, dropEmptyLast] at hloop
    split at hloop
    · cases hloop
    · obtain rfl := (List.cons.inj hloop).1
      rw [List.intercalate_singleton, htake] at hm
      omega

/-- What `String::Split` gives back was splittable. -/
theorem splittable_of_stringSplit {ch : Char} {p q : List Char} {ps : List (List Char)}
    (hps : ∀ r ∈ p :: q :: ps, ch ∉ r)
    (h : (stringSplit ([ch].intercalate (p :: q :: ps)) ch).1 = p :: q :: ps) :
    Splittable ch p (q :: ps) := by
  have hp : ch ∉ p := hps p List.mem_cons_self
  have hqs : ∀ r ∈ q :: ps, ch ∉ r := fun r hr => hps r (List.mem_cons_of_mem p hr)
  have hnull := null_not_mem_of_stringSplit hp h
  rw [stringSplit, cStr_of_not_mem hnull] at h
  have hnull' := hnull
  rw [List.intercalate_cons_cons, List.append_assoc, List.singleton_append] at h hnull'
  have hnullp : '\x00' ∉ p := fun hmem => hnull' (List.mem_append_left _ hmem)
  have hnullq : '\x00' ∉ [ch].intercalate (q :: ps) := fun hmem =>
    hnull' (List.mem_append_right _ (List.mem_cons_of_mem ch hmem))
  rw [stringSplitLoop_found hp _ _ (Nat.zero_le _), subStr_piece hnull',
    ← List.append_nil ([] ++ _), stringSplitLoop_append] at h
  obtain ⟨hfirst, htail⟩ := List.cons.inj h
  have hplen : p.length < 2 ^ 16 := by
    have := congrArg List.length hfirst
    rw [List.length_take] at this
    omega
  have hpiece : p.length + 1 < 2 ^ 16 := by
    by_contra hlong
    exact stringSplitLoop_wrapped hp hnull' (by omega) htail
  rw [subStr_rest hnull' hpiece] at htail
  have hrest : ([ch].intercalate (q :: ps)).length + 1 < 2 ^ 16 := by
    by_contra hlong
    refine stringSplitLoop_ne (fun hmem => hnullq (List.mem_of_mem_take hmem)) ?_ ?_ htail
    · rw [List.length_take]
      omega
    · rw [List.length_take]
      omega
  rw [Nat.mod_eq_of_lt hrest, List.take_of_length_le (by omega),
    stringSplitLoop_intercalate ps q [] hqs hnullq (by omega)] at htail
  exact ⟨hnull, (dropEmptyLast_eq_self_iff (List.cons_ne_nil q ps)).1 htail, hpiece, hrest⟩

/-- Two pieces or more come back from both helpers exactly when they are splittable. -/
theorem splitsBack_iff {ch : Char} {p q : List Char} {ps : List (List Char)}
    (hps : ∀ r ∈ p :: q :: ps, ch ∉ r) :
    SplitsBack ch (p :: q :: ps) ↔ Splittable ch p (q :: ps) := by
  constructor
  · exact fun h => splittable_of_stringSplit hps (congrArg Prod.fst h.string)
  · exact fun h => ⟨split_intercalate hps, h.stringSplit hps⟩

/-- "a,b" comes back. -/
theorem splitsBack_iff_ab : SplitsBack ',' [['a'], ['b']] := by
  refine (splitsBack_iff (by simp)).2 ⟨?_, ?_, ?_, ?_⟩
  · simp [List.intercalate_cons_cons]
  · simp
  · simp
  · simp

/-- "a," loses its last piece in `String::Split`. -/
theorem stringSplit_trailing : ¬ SplitsBack ',' [['a'], []] := fun h => by
  have hlast := (splittable_of_stringSplit (by simp) (congrArg Prod.fst h.string)).last
  simp at hlast

end UrlTraveler.Utility
