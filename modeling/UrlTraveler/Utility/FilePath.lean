import UrlTraveler.PlugIn.IEPlugIn
import UrlTraveler.Utility.Replace
import UrlTraveler.Utility.Split

/-! `CFilePath`: a path made uniform, and its parts.

        a//b\/c.txt    /  to \      a\\b\\c.txt
                       \\ to \      a\b\c.txt         as often as a pair is left

        m_strFilePath  a\b\         m_strFileName  c.txt

    A pass over a run of separators leaves half of it, so the rounds end; what they leave has one
    separator for each run. The getters hand out C strings. -/

namespace UrlTraveler.Utility
open IE

/-! ### AdjustPath -/

/-- The loop of `AdjustPath`; `inner` bounds the rounds of `string_replace`. -/
def adjustLoop (inner : ℕ) : ℕ → WStr → Outcome Char
  | 0, _ => .running
  | fuel + 1, strPath =>
    match string_replace strPath ['\\', '\\'] ['\\'] inner with
    | .returned strPath =>
      match find strPath ['\\', '\\'] 0 with
      | none => .returned strPath
      | some _ => adjustLoop inner fuel strPath
    | out => out

/-- `CFilePath::AdjustPath`, `fuel` rounds of each loop. -/
def adjustPath (fuel : ℕ) (strPath : WStr) : Outcome Char :=
  match string_replace strPath ['/'] ['\\'] fuel with
  | .returned strPath => adjustLoop fuel fuel strPath
  | out => out

/-! ### CFilePath -/

/-- `find_first_of(ch)` as an `int`; `npos` is -1. -/
def findFirstOf (str : WStr) (ch : Char) : ℤ := (str.idxOf? ch).elim (-1) fun i => i

/-- `find_last_of(ch)` as an `int`; `npos` is -1. -/
def findLastOf (str : WStr) (ch : Char) : ℤ := str.length - 1 - str.reverse.findIdx (· = ch)

/-- `substr(pos, n)`; a negative count is a very large one. -/
def substr (str : WStr) (pos : ℕ) (n : ℤ) : WStr :=
  if n < 0 then str.drop pos else (str.drop pos).take n.toNat

structure CFilePath where
  (m_strFileFullPath m_strRootPath m_strFilePath m_strFileName m_strFileTitle
    m_strFileExtName : WStr)

/-- The parts of `strPath`. -/
def CFilePath.parts (strFullFilePath strPath : WStr) : CFilePath :=
  let nFirst := findFirstOf strPath '\\'
  let nLast := findLastOf strPath '\\'
  let m_strFileName := substr strPath (nLast + 1).toNat strPath.length
  let nIndex := findLastOf m_strFileName '.'
  { m_strFileFullPath := strFullFilePath
    m_strRootPath := substr strPath 0 (nFirst + 1)
    m_strFilePath := substr strPath 0 (nLast + 1)
    m_strFileName := m_strFileName
    m_strFileTitle := substr m_strFileName 0 nIndex
    m_strFileExtName := substr m_strFileName (nIndex + 1).toNat m_strFileName.length }

/-- The constructor, `fuel` rounds of each loop; `none` is no end or an exception. -/
def cFilePath (fuel : ℕ) (strFullFilePath : WStr) : Option CFilePath :=
  match string_replace strFullFilePath ['/'] ['\\'] fuel with
  | .returned strPath =>
    match adjustPath fuel strPath with
    | .returned strPath => some (.parts strFullFilePath strPath)
    | _ => none
  | _ => none

/-- `GetFilePath`: `wcsdup` of `c_str()`. -/
def CFilePath.getFilePath (path : CFilePath) : WStr := cStr path.m_strFilePath

/-- `GetFileName`. -/
def CFilePath.getFileName (path : CFilePath) : WStr := cStr path.m_strFileName

/-! ### The passes -/

theorem replaceAll_slash (s : WStr) : replaceAll ['/'] ['\\'] s = unifySlashes s := by
  induction s with
  | nil => rfl
  | cons c s ih =>
    by_cases hc : c = '/'
    · rw [hc]
      exact (replaceAll_append (List.cons_ne_nil '/' []) ['\\'] s).trans (by rw [ih]; rfl)
    · rw [replaceAll_cons (by simpa using Ne.symm hc), ih, unifySlashes, unifySlashes,
        List.map_cons, if_neg hc]

theorem replaceAll_doubled (s : WStr) :
    replaceAll ['\\', '\\'] ['\\'] s = replaceDoubled s := by
  fun_induction replaceDoubled s with
  | case1 s ih =>
    exact (replaceAll_append (List.cons_ne_nil '\\' ['\\']) ['\\'] s).trans (by rw [ih]; rfl)
  | case2 c s hnot ih =>
    rw [replaceAll_cons, ih]
    rintro ⟨t, ht⟩
    obtain ⟨rfl, hs⟩ := List.cons.inj ht
    exact hnot t rfl hs.symm
  | case3 => rfl

theorem findIn_doubled (s : WStr) :
    findIn ['\\', '\\'] s = none ↔ hasDoubled s = false := by
  fun_induction hasDoubled s with
  | case1 s => simp [findIn]
  | case2 c s hnot ih =>
    rw [findIn, if_neg, Option.map_eq_none_iff, ih]
    rintro ⟨t, ht⟩
    obtain ⟨rfl, hs⟩ := List.cons.inj ht
    exact hnot t rfl hs.symm
  | case3 => simp [findIn]

theorem find_doubled (s : WStr) :
    find s ['\\', '\\'] 0 = none ↔ hasDoubled s = false := by
  rw [find, if_pos (Nat.zero_le _), List.drop_zero, Option.map_eq_none_iff, findIn_doubled]

/-- Each round that goes on has shortened the path. -/
theorem adjustLoop_eq {inner : ℕ} : ∀ (fuel : ℕ) (s : WStr), s.length < fuel →
    s.length < inner → adjustLoop inner fuel s = .returned (squeeze s)
  | 0, _, hfuel, _ => absurd hfuel (Nat.not_lt_zero _)
  | fuel + 1, s, hfuel, hinner => by
    have hpass := string_replace_eq (List.cons_ne_nil '\\' ['\\']) ['\\'] hinner
    rw [replaceAll_doubled] at hpass
    rw [adjustLoop, hpass]
    cases hnext : hasDoubled (replaceDoubled s) with
    | false =>
      simp only [(find_doubled _).2 hnext]
      rw [← squeeze_replaceDoubled, squeeze_of_not_doubled hnext]
    | true =>
      have hs : hasDoubled s = true := by
        by_contra hs
        rw [replaceDoubled_of_not_doubled (by simpa using hs)] at hnext
        exact hs hnext
      have hlt := length_replaceDoubled_lt hs
      obtain ⟨i, hi⟩ : ∃ i, find (replaceDoubled s) ['\\', '\\'] 0 = some i := by
        refine Option.ne_none_iff_exists'.1 fun hnone => ?_
        rw [(find_doubled _).1 hnone] at hnext
        cases hnext
      simp only [hi]
      rw [adjustLoop_eq fuel _ (by omega) (by omega), squeeze_replaceDoubled]

/-- `AdjustPath` ends, and gives what the model of the plug-in takes it to give. -/
theorem adjustPath_returned {fuel : ℕ} {s : WStr} (hfuel : s.length < fuel) :
    adjustPath fuel s = .returned (IE.adjustPath s) := by
  have hlen : (unifySlashes s).length < fuel := by rwa [unifySlashes, List.length_map]
  rw [adjustPath, string_replace_eq (List.cons_ne_nil '/' []) ['\\'] hfuel, replaceAll_slash,
    adjustPath_eq]
  exact adjustLoop_eq fuel _ hlen hlen

/-! ### Runs of separators -/

def IsSeparator (c : Char) : Prop := c = '/' ∨ c = '\\'

/-- Every maximal run of separators is turned into one backslash. -/
inductive Collapsed : WStr → WStr → Prop
  | nil : Collapsed [] []
  | char {c : Char} {s t : WStr} : ¬ IsSeparator c → Collapsed s t → Collapsed (c :: s) (c :: t)
  | run {r s t : WStr} : r ≠ [] → (∀ c ∈ r, IsSeparator c) → (∀ c ∈ s.head?, ¬ IsSeparator c) →
      Collapsed s t → Collapsed (r ++ s) ('\\' :: t)

/-- A separator before a run makes the run longer. -/
theorem Collapsed.cons_run {c : Char} {s t : WStr} (hc : IsSeparator c) (h : Collapsed s t)
    (hhead : t.head? = some '\\') : Collapsed (c :: s) t := by
  cases h with
  | nil => cases hhead
  | char hchar _ =>
    obtain rfl := Option.some.inj hhead
    exact absurd (.inr rfl) hchar
  | @run r s t hr hsep hnext h =>
    rw [← List.cons_append]
    refine .run (List.cons_ne_nil c r) ?_ hnext h
    rintro d (_ | ⟨_, hd⟩)
    · exact hc
    · exact hsep d hd

theorem collapsed_adjustPath (p : WStr) : Collapsed p (IE.adjustPath p) := by
  rw [adjustPath_eq]
  induction p with
  | nil => exact .nil
  | cons c p ih =>
    have hcons : unifySlashes (c :: p) =
        (if c = '/' then '\\' else c) :: unifySlashes p := rfl
    by_cases hc : IsSeparator c
    · have hslash : unifySlashes (c :: p) = '\\' :: unifySlashes p := by
        rcases hc with rfl | rfl <;> rw [hcons] <;> rfl
      rw [hslash, squeeze]
      split
      · next h => exact ih.cons_run hc h.2
      · next h =>
        refine .run (List.cons_ne_nil c []) (by simpa using hc) ?_ ih
        intro d hd hsep
        have hhead : (unifySlashes p).head? = some '\\' := by
          rw [unifySlashes, List.head?_map, hd]
          rcases hsep with rfl | rfl <;> rfl
        exact h ⟨rfl, by rw [head?_squeeze, hhead]⟩
    · have hne : ¬ (c = '/') := fun h => hc (.inl h)
      have hne' : c ≠ '\\' := fun h => hc (.inr h)
      rw [hcons, if_neg hne, squeeze, if_neg fun h => hne' h.1]
      exact .char hc ih

theorem Collapsed.mem {p r : WStr} (h : Collapsed p r) {c : Char} (hc : c ∈ r) :
    c = '\\' ∨ c ∈ p ∧ ¬ IsSeparator c := by
  induction h with
  | nil => cases hc
  | char hchar _ ih =>
    rcases List.mem_cons.1 hc with rfl | hc
    · exact .inr ⟨List.mem_cons_self, hchar⟩
    · exact (ih hc).imp_right fun h => ⟨List.mem_cons_of_mem _ h.1, h.2⟩
  | run _ _ _ _ ih =>
    rcases List.mem_cons.1 hc with rfl | hc
    · exact .inl rfl
    · exact (ih hc).imp_right fun h => ⟨List.mem_append_right _ h.1, h.2⟩

/-- Behind a run no separator stands. -/
theorem Collapsed.head? {p r : WStr} (h : Collapsed p r)
    (hp : ∀ c ∈ p.head?, ¬ IsSeparator c) : r.head? ≠ some '\\' := by
  cases h with
  | nil => simp
  | char hchar _ =>
    intro hhead
    obtain rfl := Option.some.inj hhead
    exact hchar (.inr rfl)
  | @run r s t hr hsep _ _ =>
    obtain ⟨c, r, rfl⟩ := List.exists_cons_of_ne_nil hr
    exact absurd (hsep c List.mem_cons_self) (hp c rfl)

theorem Collapsed.not_doubled {p r : WStr} (h : Collapsed p r) : hasDoubled r = false := by
  induction h with
  | nil => rfl
  | @char c s t hchar _ ih =>
    rw [hasDoubled, ih]
    rintro t rfl rfl
    exact hchar (.inr rfl)
  | @run r s t _ _ hnext h ih =>
    rw [hasDoubled, ih]
    rintro t - rfl
    exact h.head? hnext rfl

theorem not_infix_of_not_doubled {r : WStr} (h : hasDoubled r = false) :
    ¬ ['\\', '\\'] <:+: r := by
  rintro ⟨u, v, rfl⟩
  refine findIn_eq_none ((findIn_doubled _).2 h) u.length ?_
  rw [List.append_assoc, List.drop_left]
  exact List.prefix_append _ v

/-! ### The parts of a path -/

/-- The last separator parts a text. -/
theorem findLastOf_parts (str : WStr) (ch : Char) : ∃ k, k ≤ str.length ∧
    findLastOf str ch + 1 = k ∧ ch ∉ str.drop k := by
  have hle : str.reverse.findIdx (· = ch) ≤ str.length := by
    rw [← List.length_reverse]
    exact List.findIdx_le_length
  refine ⟨str.length - str.reverse.findIdx (· = ch), Nat.sub_le _ _, ?_, fun hmem => ?_⟩
  · rw [findLastOf]
    omega
  · rw [← List.mem_reverse, List.reverse_drop, Nat.sub_sub_self hle] at hmem
    obtain ⟨i, hi, hget⟩ := List.mem_take_iff_getElem.1 hmem
    have hnot := List.not_of_lt_findIdx (lt_of_lt_of_le hi (Nat.min_le_left _ _))
    rw [decide_eq_false_iff_not] at hnot
    exact hnot hget

theorem parts_append (strFullFilePath strPath : WStr) :
    (CFilePath.parts strFullFilePath strPath).m_strFilePath ++
      (CFilePath.parts strFullFilePath strPath).m_strFileName = strPath ∧
    '\\' ∉ (CFilePath.parts strFullFilePath strPath).m_strFileName := by
  obtain ⟨k, hk, hlast, hmem⟩ := findLastOf_parts strPath '\\'
  have hpath : (CFilePath.parts strFullFilePath strPath).m_strFilePath = strPath.take k := by
    simp [CFilePath.parts, substr, hlast]
  have hname : (CFilePath.parts strFullFilePath strPath).m_strFileName = strPath.drop k := by
    simp [CFilePath.parts, substr, hlast]
  rw [hpath, hname]
  exact ⟨List.take_append_drop k strPath, hmem⟩

theorem unifySlashes_idem (s : WStr) : unifySlashes (unifySlashes s) = unifySlashes s := by
  rw [unifySlashes, unifySlashes, List.map_map]
  refine List.map_congr_left fun c _ => ?_
  by_cases hc : c = '/' <;> simp [hc]

/-- The constructor takes apart the adjusted path. -/
theorem cFilePath_eq {fuel : ℕ} {p : WStr} (hfuel : p.length < fuel) :
    cFilePath fuel p = some (.parts p (IE.adjustPath p)) := by
  have hlen : (unifySlashes p).length < fuel := by rwa [unifySlashes, List.length_map]
  rw [cFilePath, string_replace_eq (List.cons_ne_nil '/' []) ['\\'] hfuel, replaceAll_slash]
  simp only [adjustPath_returned hlen]
  rw [adjustPath_eq, adjustPath_eq, unifySlashes_idem]

theorem slash_not_mem_adjustPath (p : WStr) : '/' ∉ IE.adjustPath p := fun hmem => by
  rcases (collapsed_adjustPath p).mem hmem with heq | ⟨-, hsep⟩
  · exact absurd heq (by decide)
  · exact hsep (.inl rfl)

theorem null_not_mem_adjustPath {p : WStr} (h : '\x00' ∉ p) : '\x00' ∉ IE.adjustPath p :=
  fun hmem => by
    rcases (collapsed_adjustPath p).mem hmem with heq | ⟨hp, -⟩
    · exact absurd heq (by decide)
    · exact h hp

theorem adjustPath_idem (p : WStr) : IE.adjustPath (IE.adjustPath p) = IE.adjustPath p := by
  have hslash : unifySlashes (IE.adjustPath p) = IE.adjustPath p := by
    have hid : ∀ c ∈ IE.adjustPath p, (if c = '/' then '\\' else c) = id c := fun c hc =>
      if_neg fun heq : c = '/' => slash_not_mem_adjustPath p (heq ▸ hc)
    rw [unifySlashes, List.map_congr_left hid, List.map_id]
  rw [adjustPath_eq (IE.adjustPath p), hslash,
    squeeze_of_not_doubled (collapsed_adjustPath p).not_doubled]

/-- What `AdjustPath` makes of `p`, and the file path and the file name of the path built from
    `p`; a null character cuts what the getters hand out. -/
structure Normalised (p r : WStr) : Prop where
  terminates : Returns (fun fuel => adjustPath fuel p) r
  slash : '/' ∉ r
  doubled : ¬ ['\\', '\\'] <:+: r
  again : Returns (fun fuel => adjustPath fuel r) r
  runs : Collapsed p r
  built : ∃ fuel path, cFilePath fuel p = some path ∧ '\\' ∉ path.getFileName ∧
    (path.getFilePath ++ path.getFileName = r ∨ '\x00' ∈ p)

/-- Path normalisation. -/
theorem exists_normalised (p : WStr) : ∃ r, Normalised p r := by
  refine ⟨IE.adjustPath p, ⟨p.length + 1, adjustPath_returned (Nat.lt_succ_self _)⟩,
    slash_not_mem_adjustPath p, not_infix_of_not_doubled (collapsed_adjustPath p).not_doubled,
    ⟨(IE.adjustPath p).length + 1, ?_⟩, collapsed_adjustPath p, p.length + 1,
    .parts p (IE.adjustPath p), cFilePath_eq (Nat.lt_succ_self _), ?_, ?_⟩
  · simp only [adjustPath_returned (Nat.lt_succ_self _), adjustPath_idem]
  · exact fun hmem => (parts_append p (IE.adjustPath p)).2 (mem_of_mem_cStr hmem)
  · by_cases hnull : '\x00' ∈ p
    · exact .inr hnull
    · have hparts := (parts_append p (IE.adjustPath p)).1
      have hr := null_not_mem_adjustPath hnull
      rw [← hparts, List.mem_append, not_or] at hr
      rw [CFilePath.getFilePath, CFilePath.getFileName, cStr_of_not_mem hr.1,
        cStr_of_not_mem hr.2]
      exact .inl hparts

/-- The path "a\0b" is handed out as "a". -/
theorem getFileName_null : ¬ ∀ p : WStr, ∃ r fuel path, Returns (fun fuel => adjustPath fuel p) r ∧
    cFilePath fuel p = some path ∧ path.getFilePath ++ path.getFileName = r := by
  intro h
  obtain ⟨r, fuel, path, ⟨rounds, hr⟩, hpath, heq⟩ := h ['a', '\x00', 'b']
  have hadjust : ∀ n, adjustPath (n + 1) ['a', '\x00', 'b'] = .returned ['a', '\x00', 'b'] :=
    fun _ => rfl
  have hbuilt : ∀ n, cFilePath (n + 1) ['a', '\x00', 'b'] =
      some (.parts ['a', '\x00', 'b'] ['a', '\x00', 'b']) := fun _ => rfl
  cases rounds with
  | zero => cases hr
  | succ n =>
    cases fuel with
    | zero => cases hpath
    | succ m =>
      obtain rfl := Option.some.inj ((hbuilt m).symm.trans hpath)
      rw [← heq] at hr
      have hcut := (hadjust n).symm.trans hr
      revert hcut
      decide

end UrlTraveler.Utility
