import UrlTraveler.Favorite
import UrlTraveler.Schemes.Forest

/-! `IEPlugIn::ImportFavoriteData`: bookmarks as .url files in a tree of folders.

    The path of a record is made of raw titles, and only what stands behind its last separator is
    rid of characters that file names cannot have:

        titles        x    y    a:b
        path          fav\x\y\a:b           + .url
        adjusted      / becomes \ , and several \ one
        split         fav\x\y\  |  a:b.url
        file name     fav\x\y\     ab.url

    So titles that differ in such characters only share a file, and the later bookmark is the one
    that is kept. Folders are equal up to the adjustment. -/

namespace UrlTraveler.IE
open Forest

/-! ### GetNodeAbsolutePath -/

/-- The record at an index; null pointers and indices outside the array are undefined behaviour. -/
def nodeAt (ppData : PPData) (nIndex : ℤ) : Option FavoriteLineData :=
  if 0 ≤ nIndex then recAt ppData nIndex.toNat else none

/-- `vecNodeTitle`: the titles on the way up. -/
def vecNodeTitle (ppData : PPData) : ℕ → ℤ → Option (List WStr)
  | 0, _ => none
  | fuel + 1, nCurrNodeIndex =>
    (nodeAt ppData nCurrNodeIndex).bind fun r =>
      if r.nPid ≠ 0 then (vecNodeTitle ppData fuel (r.nPid - 1)).map (r.szTitle :: ·)
      else some [r.szTitle]

/-- The folder, and every title behind a separator, the top one first. -/
def joinPath (favoriteDataPath : WStr) (titles : List WStr) : WStr :=
  favoriteDataPath ++ titles.flatMap fun title => '\\' :: title

def getNodeAbsolutePath (fuel : ℕ) (favoriteDataPath : WStr) (ppData : PPData) (nIndex : ℤ) :
    Option WStr :=
  (vecNodeTitle ppData fuel nIndex).map fun titles => joinPath favoriteDataPath titles.reverse

/-! ### CFilePath -/

def unifySlashes (s : WStr) : WStr := s.map fun c => if c = '/' then '\\' else c

/-- `string_replace(strPath, L"\\\\", L"\\")`: one pass. -/
def replaceDoubled : WStr → WStr
  | '\\' :: '\\' :: s => '\\' :: replaceDoubled s
  | c :: s => c :: replaceDoubled s
  | [] => []

def hasDoubled : WStr → Bool
  | '\\' :: '\\' :: _ => true
  | _ :: s => hasDoubled s
  | [] => false

/-- Passes until nothing is doubled. -/
def replaceLoop : ℕ → WStr → WStr
  | 0, s => s
  | fuel + 1, s =>
    let s := replaceDoubled s
    if hasDoubled s then replaceLoop fuel s else s

def adjustPath (strPath : WStr) : WStr := replaceLoop (strPath.length + 1) (unifySlashes strPath)

/-- The part up to the last separator. -/
def getFilePath (strPath : WStr) : WStr := (adjustPath strPath).rdropWhile (· ≠ '\\')

def getFileName (strPath : WStr) : WStr := (adjustPath strPath).rtakeWhile (· ≠ '\\')

/-! ### ImportFavoriteData -/

/-- `String::Replace` of a character by nothing: the first one is erased while there is one. -/
def eraseLoop : ℕ → WStr → Char → WStr
  | 0, s, _ => s
  | fuel + 1, s, c => if c ∈ s then eraseLoop fuel (s.erase c) c else s

def replaceByNothing (s : WStr) (c : Char) : WStr := eraseLoop s.length s c

/-- The characters that are taken out of file names. -/
def stripped : List Char := [':', '\\', '/', '*', '?', '<', '>', '|']

def stripName (strFileName : WStr) : WStr := stripped.foldl replaceByNothing strFileName

def urlExt : WStr := ['.', 'u', 'r', 'l']

/-- The file of a bookmark; a path that does not fit the buffers ends the program. -/
def urlFileName (pszCurrNodePath : WStr) : Option WStr :=
  if 1022 < pszCurrNodePath.length ∨ 1023 < (pszCurrNodePath ++ urlExt).length then none
  else
    let szCurrFileName := pszCurrNodePath ++ urlExt
    some (getFilePath szCurrFileName ++ stripName (getFileName szCurrFileName))

/-- What the function does on the disk; `i` is the index of the record. -/
inductive DiskAct
  | createDirectory (i : ℕ) (path : WStr)
  | writeUrl (i : ℕ) (strName : WStr) (szUrl : WStr)
  deriving DecidableEq

/-- What it returns, unless the program ends. -/
inductive ImportRet
  | invalidParam
  | createFavoriteFold
  | ok (nDataNum : ℕ)
  | ends
  deriving DecidableEq

section Import
variable (shCreateDirectory : WStr → Bool) (favoriteDataPath : WStr)

/-- The loop over the records; `shCreateDirectory` says whether a folder can be made or is there. -/
def importLoop (ppData : PPData) : List (Option FavoriteLineData × ℕ) → ℕ → List DiskAct →
    List DiskAct × ImportRet
  | [], nRealNum, acts => (acts, .ok nRealNum)
  | (none, _) :: rest, nRealNum, acts => importLoop ppData rest nRealNum acts
  | (some r, i) :: rest, nRealNum, acts =>
    if r.bDelete then importLoop ppData rest nRealNum acts
    else
      match getNodeAbsolutePath ppData.length favoriteDataPath ppData i with
      | none => (acts, .ends)
      | some pszCurrNodePath =>
        if r.bFolder then
          if shCreateDirectory pszCurrNodePath then
            importLoop ppData rest (nRealNum + 1) (acts ++ [.createDirectory i pszCurrNodePath])
          else (acts, .createFavoriteFold)
        else
          match urlFileName pszCurrNodePath with
          | none => (acts, .ends)
          | some strName =>
            importLoop ppData rest (nRealNum + 1) (acts ++ [.writeUrl i strName r.szUrl])

def importFavoriteData (ppData : PPData) : List DiskAct × ImportRet :=
  if ppData = [] then ([], .invalidParam)
  else importLoop shCreateDirectory favoriteDataPath ppData ppData.zipIdx 0 []

end Import

/-! ### Paths of records -/

/-- The records as rows of a table, named by their titles. -/
def rows (d : PPData) : Table ℕ ℤ WStr := fun i =>
  (recAt d i).map fun r => { key := r.nId, par := r.nPid, lab := r.szTitle }

/-- Ids are positions, parents are there, none is its own ancestor, and what is not deleted hangs
    below what is not deleted. -/
structure Rearranged (d : PPData) : Prop where
  indexed : ∀ i r, recAt d i = some r → r.nId = (i : ℤ) + 1
  closed : Closed (rows d)
  acyclic : Acyclic (rows d)
  live : ∀ i r, recAt d i = some r → r.bDelete = false → r.nPid ≠ 0 →
    ∃ q, nodeAt d (r.nPid - 1) = some q ∧ q.bDelete = false

section Paths
variable {d : PPData}

theorem rows_some {i : ℕ} {row : Row ℤ WStr} (h : rows d i = some row) :
    ∃ r, recAt d i = some r ∧ row = ⟨r.nId, r.nPid, r.szTitle⟩ := by
  obtain ⟨r, hr, rfl⟩ := Option.map_eq_some_iff.mp h
  exact ⟨r, hr, rfl⟩

theorem Rearranged.keyed (h : Rearranged d) : Keyed (rows d) where
  nonzero hi := by
    obtain ⟨r, hr, rfl⟩ := rows_some hi
    have hid := h.indexed _ r hr
    simp only [hid]
    omega
  inj hi hj hkey := by
    obtain ⟨r, hr, rfl⟩ := rows_some hi
    obtain ⟨q, hq, rfl⟩ := rows_some hj
    have hr' := h.indexed _ r hr
    have hq' := h.indexed _ q hq
    simp only at hkey
    omega

theorem nodeAt_self {i : ℕ} : nodeAt d i = recAt d i := by simp [nodeAt]

/-- The loop follows the path of a record, given as many rounds as it is long. -/
theorem vecNodeTitle_path (h : Rearranged d) {x : ℤ} {titles : List WStr}
    (hpath : PathOf (rows d) x titles) : ∀ fuel ≥ titles.length, x ≠ 0 →
    vecNodeTitle d fuel (x - 1) = some titles := by
  induction hpath with
  | root => exact fun _ _ hx => absurd rfl hx
  | @up i row titles hi hup ih =>
    obtain ⟨r, hr, rfl⟩ := rows_some hi
    intro fuel hfuel _
    cases fuel with
    | zero => cases hfuel
    | succ fuel =>
      have hnode : nodeAt d (r.nId - 1) = some r := by
        rw [h.indexed i r hr, Int.add_sub_cancel, nodeAt_self, hr]
      rw [vecNodeTitle, hnode, Option.bind_some]
      by_cases hpid : r.nPid = 0
      · rw [if_neg (not_not_intro hpid)]
        simp only [hpid] at hup
        rw [hup.zero h.keyed]
      · rw [if_pos hpid, ih fuel (Nat.le_of_succ_le_succ hfuel) hpid]
        rfl

theorem Rearranged.path (h : Rearranged d) {i : ℕ} {r : FavoriteLineData}
    (hr : recAt d i = some r) :
    ∃ titles, PathOf (rows d) r.nId titles ∧ titles.length ≤ d.length := by
  have hrow : rows d i = some ⟨r.nId, r.nPid, r.szTitle⟩ := by rw [rows, hr]; rfl
  have hslots : ∀ j row, rows d j = some row → j ∈ Finset.range d.length := by
    intro j row hj
    obtain ⟨q, hq, -⟩ := rows_some hj
    exact Finset.mem_range.mpr (recAt_lt hq)
  obtain ⟨titles, htitles⟩ := rooted_of_acyclic hslots h.closed h.acyclic hrow
  refine ⟨titles, htitles, ?_⟩
  have hle := htitles.length_le h.keyed hslots
  rwa [Finset.card_range] at hle

/-- The loop ends, and gives the folder and the titles from the top down. -/
theorem getNodeAbsolutePath_eq (h : Rearranged d) (favoriteDataPath : WStr) {i : ℕ}
    {r : FavoriteLineData} (hr : recAt d i = some r) {titles : List WStr}
    (hpath : PathOf (rows d) r.nId titles) {fuel : ℕ} (hfuel : titles.length ≤ fuel) :
    getNodeAbsolutePath fuel favoriteDataPath d i = some (joinPath favoriteDataPath titles.reverse) := by
  have hid := h.indexed i r hr
  have htitles := vecNodeTitle_path h hpath fuel hfuel (by omega)
  rw [hid, Int.add_sub_cancel] at htitles
  rw [getNodeAbsolutePath, htitles]
  rfl

end Paths

/-! ### Adjusted paths -/

/-- Every run of separators as one. -/
def squeeze : WStr → WStr
  | [] => []
  | c :: s => if c = '\\' ∧ (squeeze s).head? = some '\\' then squeeze s else c :: squeeze s

theorem head?_squeeze (s : WStr) : (squeeze s).head? = s.head? := by
  cases s with
  | nil => rfl
  | cons c s =>
    rw [squeeze]
    split
    next h => rw [h.2, h.1, List.head?_cons]
    next => rfl

theorem squeeze_doubled (s : WStr) : squeeze ('\\' :: '\\' :: s) = squeeze ('\\' :: s) := by
  rw [squeeze, if_pos ⟨rfl, by rw [head?_squeeze, List.head?_cons]⟩]

theorem squeeze_replaceDoubled (s : WStr) : squeeze (replaceDoubled s) = squeeze s := by
  fun_induction replaceDoubled s with
  | case1 s ih => rw [squeeze_doubled, squeeze, squeeze, ih]
  | case2 c s hnot ih => rw [squeeze, squeeze, ih]
  | case3 => rfl

theorem squeeze_of_not_doubled {s : WStr} (h : hasDoubled s = false) : squeeze s = s := by
  fun_induction hasDoubled s with
  | case1 s => cases h
  | case2 c s hnot ih =>
    rw [squeeze, if_neg, ih h]
    rintro ⟨rfl, hhead⟩
    rw [head?_squeeze] at hhead
    obtain ⟨rest, rfl⟩ := List.head?_eq_some_iff.mp hhead
    exact hnot rest rfl rfl
  | case3 => rfl

theorem replaceDoubled_cons {c : Char} {s : WStr} (hnot : ∀ rest, c = '\\' → s = '\\' :: rest → False) :
    replaceDoubled (c :: s) = c :: replaceDoubled s := by
  rw [replaceDoubled]
  exact hnot

theorem replaceDoubled_of_not_doubled {s : WStr} (h : hasDoubled s = false) :
    replaceDoubled s = s := by
  fun_induction hasDoubled s with
  | case1 s => cases h
  | case2 c s hnot ih =>
    rw [replaceDoubled_cons hnot, ih h]
  | case3 => rfl

theorem length_replaceDoubled (s : WStr) : (replaceDoubled s).length ≤ s.length := by
  fun_induction replaceDoubled s with
  | case1 s ih =>
    simp only [List.length_cons]
    omega
  | case2 c s hnot ih =>
    simp only [List.length_cons]
    omega
  | case3 => rfl

theorem length_replaceDoubled_lt {s : WStr} (h : hasDoubled s = true) :
    (replaceDoubled s).length < s.length := by
  fun_induction hasDoubled s with
  | case1 s =>
    have hle := length_replaceDoubled s
    rw [replaceDoubled, List.length_cons, List.length_cons, List.length_cons]
    omega
  | case2 c s hnot ih =>
    have hlt := ih h
    rw [replaceDoubled_cons hnot, List.length_cons, List.length_cons]
    omega
  | case3 => cases h

/-- Each pass that leaves something doubled has taken something away. -/
theorem replaceLoop_eq : ∀ (fuel : ℕ) (s : WStr), s.length < fuel → replaceLoop fuel s = squeeze s
  | 0, _, h => by cases h
  | fuel + 1, s, h => by
    rw [replaceLoop]
    cases hs : hasDoubled s with
    | false =>
      rw [replaceDoubled_of_not_doubled hs, hs, squeeze_of_not_doubled hs]
      rfl
    | true =>
      have hlt := length_replaceDoubled_lt hs
      split
      next => rw [replaceLoop_eq fuel _ (by omega), squeeze_replaceDoubled]
      next hnot => rw [← squeeze_replaceDoubled, squeeze_of_not_doubled (by simpa using hnot)]

theorem adjustPath_eq (s : WStr) : adjustPath s = squeeze (unifySlashes s) := by
  refine replaceLoop_eq _ _ ?_
  rw [unifySlashes, List.length_map]
  exact Nat.lt_succ_self _

theorem squeeze_eq_self {t : WStr} (ht : '\\' ∉ t) : squeeze t = t := by
  induction t with
  | nil => rfl
  | cons c t ih =>
    rw [List.mem_cons, not_or] at ht
    rw [squeeze, if_neg fun h => ht.1 h.1.symm, ih ht.2]

theorem squeeze_append {t : WStr} (ht : '\\' ∉ t) (s : WStr) : squeeze (s ++ t) = squeeze s ++ t := by
  induction s with
  | nil => exact squeeze_eq_self ht
  | cons c s ih =>
    have hhead : (squeeze s ++ t).head? = some '\\' ↔ (squeeze s).head? = some '\\' := by
      cases hs : squeeze s with
      | nil =>
        refine iff_of_false (fun h => ht ?_) (by simp)
        exact List.mem_of_mem_head? h
      | cons a q => simp
    rw [List.cons_append, squeeze, squeeze, ih]
    by_cases h : c = '\\' ∧ (squeeze s).head? = some '\\'
    · rw [if_pos h, if_pos ⟨h.1, hhead.mpr h.2⟩]
    · rw [if_neg h, if_neg fun h' => h ⟨h'.1, hhead.mp h'.2⟩]
      rfl

theorem squeeze_separator (s : WStr) : ∃ q, squeeze (s ++ ['\\']) = q ++ ['\\'] := by
  induction s with
  | nil => exact ⟨[], rfl⟩
  | cons c s ih =>
    obtain ⟨q, hq⟩ := ih
    rw [List.cons_append, squeeze, hq]
    split
    · exact ⟨q, rfl⟩
    · exact ⟨c :: q, rfl⟩

/-! ### File names -/

def NoSlash (title : WStr) : Prop := '\\' ∉ title ∧ '/' ∉ title

instance (title : WStr) : Decidable (NoSlash title) := inferInstanceAs (Decidable (_ ∧ _))

theorem NoSlash.append {s t : WStr} (hs : NoSlash s) (ht : NoSlash t) : NoSlash (s ++ t) := by
  rw [NoSlash, List.mem_append, List.mem_append, not_or, not_or]
  exact ⟨⟨hs.1, ht.1⟩, hs.2, ht.2⟩

theorem noSlash_urlExt : NoSlash urlExt := by decide

/-- A folder as it stands in front of file names. -/
def folderName (path : WStr) : WStr := adjustPath (path ++ ['\\'])

theorem unifySlashes_append {t : WStr} (ht : '/' ∉ t) (s : WStr) :
    unifySlashes (s ++ t) = unifySlashes s ++ t := by
  rw [unifySlashes, unifySlashes, List.map_append]
  congr 1
  refine (List.map_congr_left fun c hc => ?_).trans (List.map_id t)
  have hne : c ≠ '/' := fun h => ht (h ▸ hc)
  exact if_neg hne

theorem adjustPath_append {t : WStr} (ht : NoSlash t) (path : WStr) :
    adjustPath (path ++ '\\' :: t) = folderName path ++ t := by
  rw [folderName, adjustPath_eq, adjustPath_eq, ← squeeze_append ht.1, ← unifySlashes_append ht.2,
    List.append_assoc, List.singleton_append]

theorem folderName_separator (path : WStr) : ∃ q, folderName path = q ++ ['\\'] := by
  obtain ⟨q, hq⟩ := squeeze_separator (unifySlashes path)
  refine ⟨q, ?_⟩
  rw [folderName, adjustPath_eq, unifySlashes, List.map_append]
  exact hq

/-- A text splits behind its last separator. -/
theorem split_last {q t : WStr} (ht : '\\' ∉ t) :
    (q ++ ['\\'] ++ t).rdropWhile (· ≠ '\\') = q ++ ['\\'] ∧
      (q ++ ['\\'] ++ t).rtakeWhile (· ≠ '\\') = t := by
  have hall : ∀ c ∈ t.reverse, decide (c ≠ '\\') = true := by
    intro c hc
    refine decide_eq_true fun h => ht ?_
    rwa [← h, ← List.mem_reverse]
  constructor
  · rw [List.rdropWhile, List.reverse_append, List.dropWhile_append_of_pos hall, List.reverse_append]
    simp
  · rw [List.rtakeWhile, List.reverse_append, List.takeWhile_append_of_pos hall, List.reverse_append]
    simp

theorem filter_erase (s : WStr) (c : Char) : (s.erase c).filter (· ≠ c) = s.filter (· ≠ c) := by
  induction s with
  | nil => rfl
  | cons a s ih =>
    by_cases ha : a = c
    · rw [ha, List.erase_cons_head, List.filter_cons_of_neg (by simp)]
    · rw [List.erase_cons_tail (by simpa using ha), List.filter_cons, List.filter_cons, ih]

theorem eraseLoop_eq (c : Char) : ∀ (fuel : ℕ) (s : WStr), s.length ≤ fuel →
    eraseLoop fuel s c = s.filter (· ≠ c)
  | 0, s, h => by
    rw [List.length_eq_zero_iff.mp (Nat.le_zero.mp h)]
    rfl
  | fuel + 1, s, h => by
    rw [eraseLoop]
    split
    next hc =>
      have hlen := List.length_erase_of_mem hc
      rw [eraseLoop_eq c fuel _ (by omega), filter_erase]
    next hc =>
      refine (List.filter_eq_self.mpr fun a ha => ?_).symm
      exact decide_eq_true fun hac => hc (hac ▸ ha)

theorem foldl_replaceByNothing (cs : List Char) (s : WStr) :
    cs.foldl replaceByNothing s = s.filter (· ∉ cs) := by
  induction cs generalizing s with
  | nil => simp
  | cons c cs ih =>
    rw [List.foldl_cons, ih, replaceByNothing, eraseLoop_eq c _ s le_rfl, List.filter_filter]
    refine List.filter_congr fun a _ => ?_
    simp [Bool.and_comm]

theorem stripName_append (s t : WStr) : stripName (s ++ t) = stripName s ++ stripName t := by
  rw [stripName, stripName, stripName, foldl_replaceByNothing, foldl_replaceByNothing,
    foldl_replaceByNothing, List.filter_append]

theorem noSlash_stripName (s : WStr) : NoSlash (stripName s) := by
  rw [stripName, foldl_replaceByNothing, NoSlash, List.mem_filter, List.mem_filter]
  constructor
  · rintro ⟨-, h⟩
    exact absurd h (by decide)
  · rintro ⟨-, h⟩
    exact absurd h (by decide)

/-- The name of a bookmark's file, from the folder it is in and its title. -/
theorem urlFileName_eq {path title name : WStr} (ht : NoSlash title)
    (h : urlFileName (path ++ '\\' :: title) = some name) :
    name = folderName path ++ (stripName title ++ urlExt) := by
  have hext : NoSlash (title ++ urlExt) := ht.append noSlash_urlExt
  obtain ⟨q, hq⟩ := folderName_separator path
  obtain ⟨hpath, hname⟩ := split_last (q := q) hext.1
  rw [urlFileName] at h
  split at h
  · cases h
  · cases h
    rw [List.append_assoc, List.cons_append, getFilePath, getFileName, adjustPath_append hext, hq, hpath,
      hname, stripName_append]
    rfl

/-- Folders end with a separator, and names have none. -/
theorem fileName_inj {path path' title title' : WStr}
    (h : folderName path ++ (stripName title ++ urlExt) =
      folderName path' ++ (stripName title' ++ urlExt)) :
    folderName path = folderName path' ∧ stripName title = stripName title' := by
  obtain ⟨q, hq⟩ := folderName_separator path
  obtain ⟨q', hq'⟩ := folderName_separator path'
  rw [hq, hq'] at h ⊢
  have hsplit := split_last (q := q) ((noSlash_stripName title).append noSlash_urlExt).1
  have hsplit' := split_last (q := q') ((noSlash_stripName title').append noSlash_urlExt).1
  rw [h] at hsplit
  refine ⟨hsplit.1.symm.trans hsplit'.1, ?_⟩
  exact List.append_cancel_right (hsplit.2.symm.trans hsplit'.2)

/-! ### What the import writes -/

/-- The path of the folder a record is in. -/
def parentPath (favoriteDataPath : WStr) (d : PPData) (r : FavoriteLineData) : Option WStr :=
  if r.nPid = 0 then some favoriteDataPath
  else getNodeAbsolutePath d.length favoriteDataPath d (r.nPid - 1)

/-- A path is the path of the folder, a separator and the title. -/
theorem path_split {d : PPData} (h : Rearranged d) (favoriteDataPath : WStr) {i : ℕ}
    {r : FavoriteLineData} (hr : recAt d i = some r) :
    ∃ parent, parentPath favoriteDataPath d r = some parent ∧
      getNodeAbsolutePath d.length favoriteDataPath d i = some (parent ++ '\\' :: r.szTitle) := by
  have hrow : rows d i = some ⟨r.nId, r.nPid, r.szTitle⟩ := by rw [rows, hr]; rfl
  obtain ⟨titles, hpath, hlen⟩ := h.path hr
  obtain ⟨up, rfl, hup⟩ := hpath.inv h.keyed hrow
  refine ⟨joinPath favoriteDataPath up.reverse, ?_, ?_⟩
  · rw [parentPath]
    split
    next hpid =>
      simp only [hpid] at hup
      rw [hup.zero h.keyed]
      simp [joinPath]
    next hpid =>
      rw [getNodeAbsolutePath, vecNodeTitle_path h hup d.length (Nat.le_of_succ_le hlen) hpid]
      rfl
  · rw [getNodeAbsolutePath_eq h favoriteDataPath hr hpath hlen]
    simp [joinPath]

/-- The file of an undeleted bookmark among some of the records. -/
def IsFileOf (favoriteDataPath : WStr) (d : PPData) (l : List (Option FavoriteLineData × ℕ)) (i : ℕ)
    (name : WStr) : Prop :=
  ∃ r path, (some r, i) ∈ l ∧ r.bDelete = false ∧ r.bFolder = false ∧
    getNodeAbsolutePath d.length favoriteDataPath d i = some path ∧ urlFileName path = some name

theorem importLoop_writes {shCreateDirectory : WStr → Bool} {favoriteDataPath : WStr} {d : PPData}
    {i : ℕ} {name szUrl : WStr} (l : List (Option FavoriteLineData × ℕ)) :
    ∀ {nRealNum : ℕ} {acts : List DiskAct}, .writeUrl i name szUrl ∈
      (importLoop shCreateDirectory favoriteDataPath d l nRealNum acts).1 →
    .writeUrl i name szUrl ∈ acts ∨ IsFileOf favoriteDataPath d l i name := by
  induction l with
  | nil => exact fun hmem => .inl hmem
  | cons e l ih =>
    intro nRealNum acts hmem
    have hlater : IsFileOf favoriteDataPath d l i name → IsFileOf favoriteDataPath d (e :: l) i name :=
      fun ⟨r, path, hr, hrest⟩ => ⟨r, path, List.mem_cons_of_mem _ hr, hrest⟩
    obtain ⟨o, k⟩ := e
    cases o with
    | none => exact (ih hmem).imp_right hlater
    | some r =>
      rw [importLoop] at hmem
      split at hmem
      next => exact (ih hmem).imp_right hlater
      next hlive =>
        split at hmem
        next => exact .inl hmem
        next path hpath =>
          split at hmem
          next =>
            split at hmem
            · rcases ih hmem with hacts | hfile
              · exact .inl (by simpa using hacts)
              · exact .inr (hlater hfile)
            · exact .inl hmem
          next hfolder =>
            split at hmem
            next => exact .inl hmem
            next strName hname =>
              rcases ih hmem with hacts | hfile
              · rcases List.mem_append.mp hacts with hacts | hacts
                · exact .inl hacts
                · cases List.mem_singleton.mp hacts
                  exact .inr ⟨r, path, List.mem_cons_self, by simpa using hlive,
                    by simpa using hfolder, hpath, hname⟩
              · exact .inr (hlater hfile)

theorem importFavoriteData_writes {shCreateDirectory : WStr → Bool} {favoriteDataPath : WStr}
    {d : PPData} (h : Rearranged d) {i : ℕ} {name szUrl : WStr}
    (hmem : .writeUrl i name szUrl ∈ (importFavoriteData shCreateDirectory favoriteDataPath d).1)
    {r : FavoriteLineData} (hr : recAt d i = some r) (ht : NoSlash r.szTitle) :
    ∃ parent, parentPath favoriteDataPath d r = some parent ∧
      name = folderName parent ++ (stripName r.szTitle ++ urlExt) := by
  rw [importFavoriteData] at hmem
  split at hmem
  · cases hmem
  · rcases importLoop_writes _ hmem with hnil | ⟨_, path, _, _, _, hpath, hname⟩
    · cases hnil
    · obtain ⟨parent, hparent, hsplit⟩ := path_split h favoriteDataPath hr
      rw [hsplit] at hpath
      cases hpath
      exact ⟨parent, hparent, urlFileName_eq ht hname⟩

/-- The paths are the favorites folder and the titles from the top down; and bookmarks whose folders
    or whose titles differ, up to the adjustment of folders and the characters taken out of titles,
    get different files. -/
theorem import_files_differ (shCreateDirectory : WStr → Bool) (favoriteDataPath : WStr) (d : PPData)
    (h : Rearranged d) :
    (∀ i r, recAt d i = some r → ∃ titles, PathOf (rows d) r.nId titles ∧ ∀ fuel ≥ d.length,
      getNodeAbsolutePath fuel favoriteDataPath d i =
        some (joinPath favoriteDataPath titles.reverse)) ∧
    ∀ i j r q name name' szUrl szUrl',
      .writeUrl i name szUrl ∈ (importFavoriteData shCreateDirectory favoriteDataPath d).1 →
      .writeUrl j name' szUrl' ∈ (importFavoriteData shCreateDirectory favoriteDataPath d).1 →
      recAt d i = some r → recAt d j = some q → NoSlash r.szTitle → NoSlash q.szTitle →
      (parentPath favoriteDataPath d r).map folderName ≠
          (parentPath favoriteDataPath d q).map folderName ∨
        stripName r.szTitle ≠ stripName q.szTitle →
      name ≠ name' := by
  constructor
  · intro i r hr
    obtain ⟨titles, hpath, hlen⟩ := h.path hr
    exact ⟨titles, hpath, fun fuel hfuel =>
      getNodeAbsolutePath_eq h favoriteDataPath hr hpath (hlen.trans hfuel)⟩
  · intro i j r q name name' szUrl szUrl' hi hj hr hq htr htq hdiff hname
    obtain ⟨parent, hparent, rfl⟩ := importFavoriteData_writes h hi hr htr
    obtain ⟨parent', hparent', rfl⟩ := importFavoriteData_writes h hj hq htq
    obtain ⟨hfolder, htitle⟩ := fileName_inj hname
    rcases hdiff with hdiff | hdiff
    · exact hdiff (by rw [hparent, hparent', Option.map_some, Option.map_some, hfolder])
    · exact hdiff htitle

/-! ### Two bookmarks in a folder -/

theorem rearranged_of_check {d : PPData} (h : ∀ e ∈ d.zipIdx, ∀ r ∈ e.1, r.nId = (e.2 : ℤ) + 1 ∧
    r.nPid < r.nId ∧ (r.nPid = 0 ∨ (nodeAt d (r.nPid - 1)).any (·.bDelete = false))) :
    Rearranged d := by
  have hrec : ∀ i r, recAt d i = some r → r.nId = (i : ℤ) + 1 ∧ r.nPid < r.nId ∧
      (r.nPid = 0 ∨ (nodeAt d (r.nPid - 1)).any (·.bDelete = false)) := by
    intro i r hr
    have hmem : (some r, i) ∈ d.zipIdx := by
      rw [List.mem_zipIdx_iff_getElem?]
      exact Option.join_eq_some_iff.mp hr
    exact h _ hmem r rfl
  have hparent : ∀ i r, recAt d i = some r → r.nPid ≠ 0 →
      ∃ q, nodeAt d (r.nPid - 1) = some q ∧ q.bDelete = false := by
    intro i r hr hpid
    have hany := (hrec i r hr).2.2.resolve_left hpid
    cases hnode : nodeAt d (r.nPid - 1) with
    | none => simp [hnode] at hany
    | some q => exact ⟨q, rfl, by simpa [hnode] using hany⟩
  refine ⟨fun i r hr => (hrec i r hr).1, fun i row hi => ?_, acyclic_of_lt fun i row hi => ?_,
    fun i r hr _ hpid => hparent i r hr hpid⟩
  · obtain ⟨r, hr, rfl⟩ := rows_some hi
    by_cases hpid : r.nPid = 0
    · exact .inl hpid
    · obtain ⟨q, hq, -⟩ := hparent i r hr hpid
      rw [nodeAt] at hq
      split at hq
      next hnonneg =>
        refine .inr ⟨_, ⟨q.nId, q.nPid, q.szTitle⟩, by rw [rows, hq]; rfl, ?_⟩
        have hid := (hrec _ q hq).1
        simp only
        omega
      next => cases hq
  · obtain ⟨r, hr, rfl⟩ := rows_some hi
    exact (hrec i r hr).2.1

/-- A folder with two bookmarks. -/
def twoBookmarks (szTitle szTitle' : WStr) : PPData :=
  [some { nId := 1, bFolder := true, szTitle := ['f'] },
   some { nId := 2, nPid := 1, szTitle, szUrl := ['u'] },
   some { nId := 3, nPid := 1, szTitle := szTitle', szUrl := ['v'] }]

/-- The file of a title in the folder. -/
def fileInFolder (title : WStr) : WStr := ['c', '\\', 'f', '\\'] ++ title ++ urlExt

theorem import_files_differ_twoBookmarks :
    Rearranged (twoBookmarks ['a', ':'] ['b', ':']) ∧
      .writeUrl 1 (fileInFolder ['a']) ['u'] ∈
        (importFavoriteData (fun _ => true) ['c'] (twoBookmarks ['a', ':'] ['b', ':'])).1 ∧
      .writeUrl 2 (fileInFolder ['b']) ['v'] ∈
        (importFavoriteData (fun _ => true) ['c'] (twoBookmarks ['a', ':'] ['b', ':'])).1 ∧
      fileInFolder ['a'] ≠ fileInFolder ['b'] := by
  have h : Rearranged (twoBookmarks ['a', ':'] ['b', ':']) := rearranged_of_check (by decide)
  refine ⟨h, by decide, by decide, ?_⟩
  exact (import_files_differ (fun _ => true) ['c'] _ h).2 1 2 _ _ _ _ ['u'] ['v'] (by decide)
    (by decide) rfl rfl (by decide) (by decide) (.inr (by decide))

/-- Titles that differ in a colon: one file for both. -/
theorem import_files_clash :
    Rearranged (twoBookmarks ['a'] ['a', ':']) ∧
      .writeUrl 1 (fileInFolder ['a']) ['u'] ∈
        (importFavoriteData (fun _ => true) ['c'] (twoBookmarks ['a'] ['a', ':'])).1 ∧
      .writeUrl 2 (fileInFolder ['a']) ['v'] ∈
        (importFavoriteData (fun _ => true) ['c'] (twoBookmarks ['a'] ['a', ':'])).1 :=
  ⟨rearranged_of_check (by decide), by decide, by decide⟩

end UrlTraveler.IE
