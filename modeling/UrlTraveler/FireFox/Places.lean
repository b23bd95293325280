import UrlTraveler.Chrome.Export

/-! `FireFox3PlugIn`: counting and exporting the bookmarks of `places.sqlite`.

    Both walk down from the rows 2, 3, 4 and 5 of `moz_bookmarks` with the same `where` clause, which
    leaves out separators and the folders Firefox makes itself:

        parent = 2   Bookmarks menu       less type 3 and nine titles
        parent = 3   Bookmarks toolbar    less type 3 and seven titles
        other        everything

    So they visit the same rows (`exportBelow_counts`). But the function the export starts with sets
    the pointers of the caller's array to null before it looks at the first one, and then it returns
    FALSE: nothing is ever exported. -/

namespace UrlTraveler.FireFox
open Chrome

/-- A row of `moz_bookmarks`; a title can be NULL. -/
structure Bookmark where
  id : ℤ
  parent : ℤ
  type : ℤ := 1
  title : Option WStr := none
  position : ℤ := 0
  dateAdded : ℤ := 0
  lastModified : ℤ := 0
  fk : Option ℤ := none
  deriving DecidableEq

/-- A row of `moz_places`. -/
structure Place where
  id : ℤ
  url : WStr
  title : WStr := []
  deriving DecidableEq

structure Database where
  moz_bookmarks : List Bookmark
  moz_places : List Place
  deriving DecidableEq

def bookmarksMenu : ℤ := 2
def bookmarksToolsbar : ℤ := 3
def idValueFireFoxBegin : ℤ := 0x8000

/-- The titles of `BOOKMARKS_MENU_EXCLUED_SQL`. -/
def menuExcluded : List WStr :=
  ["最近使用的书签".toList, "最近使用的标签".toList, "Mozilla Firefox".toList, "最近加入的書籤".toList,
   "最近新增的標籤".toList, "获取书签附加组件".toList, "取得書籤類附加元件".toList,
   "Recently Bookmarked".toList, "Recent Tags".toList]

/-- The titles of `BOOKMARKS_TOOLSBAR_EXCLUED_SQL`. -/
def toolsbarExcluded : List WStr :=
  ["访问最多".toList, "最新头条".toList, "最常瀏覽".toList, "即時新聞".toList, "新手上路".toList,
   "Most Visited".toList, "Latest Headlines".toList]

/-- `type <> 3 and title <> ..`; no comparison with NULL is true. -/
def notExcluded (titles : List WStr) (row : Bookmark) : Bool :=
  row.type ≠ 3 && row.title.any (· ∉ titles)

/-- `select * from moz_bookmarks where parent = nParentId ..`. -/
def selectBelow (db : Database) (nParentId : ℤ) : List Bookmark :=
  db.moz_bookmarks.filter fun row => row.parent = nParentId &&
    (if nParentId = bookmarksMenu then notExcluded menuExcluded row
     else if nParentId = bookmarksToolsbar then notExcluded toolsbarExcluded row
     else true)

/-- `id in (2,3,4,5)`. -/
def isRoot (id : ℤ) : Bool := id = 2 || id = 3 || id = 4 || id = 5

def selectRoots (db : Database) : List Bookmark := db.moz_bookmarks.filter fun row => isRoot row.id

/-! ### Counting -/

/-- `GetFavoriteCount(nParentId)`; `none` is a recursion deeper than the fuel. -/
def getFavoriteCountBelow (db : Database) : ℕ → ℤ → Option ℕ
  | 0, _ => none
  | fuel + 1, nParentId => (selectBelow db nParentId).foldlM
      (fun nCount row => (getFavoriteCountBelow db fuel row.id).map (nCount + ·))
      (selectBelow db nParentId).length

def getFavoriteCount (db : Database) (fuel : ℕ) : Option ℕ :=
  (selectRoots db).foldlM
    (fun nTotalNumber row => (getFavoriteCountBelow db fuel row.id).map (nTotalNumber + ·)) 0

/-! ### Exporting -/

variable (crc : WStr → ℕ) (db : Database)

/-- `select place.url .. where marks.id = nId and marks.fk = place.id`, its first row. -/
def urlOf (row : Bookmark) : Option WStr :=
  (db.moz_places.find? fun place => row.fk = some place.id).map (·.url)

/-- What one row writes over the record it finds. A NULL title ends the program. -/
def exportRow (nParentId : ℤ) (row : Bookmark) (old : FavoriteLineData) :
    Option FavoriteLineData := do
  let title ← row.title.bind wcscpy
  let url ← (urlOf db row).elim (some old.szUrl) wcscpy
  let nPid := if isRoot nParentId then 0 else row.parent
  return { old with
    nId := row.id + idValueFireFoxBegin
    nPid := if nPid ≠ 0 then nPid + idValueFireFoxBegin else 0
    bFolder := row.type = 2
    szTitle := title
    nOrder := row.position
    nAddTimes := row.dateAdded
    nLastModifyTime := row.lastModified
    nHashId := crc title
    bDelete := false
    szUrl := url }

/-- The array and `nCurrentIndex`. -/
abbrev Cursor := PPData × ℕ

/-- A record is written through its pointer: there is one, inside the array. -/
def writeRow (nParentId : ℤ) (c : Cursor) (row : Bookmark) : Option Cursor := do
  let old ← recAt c.1 c.2
  let r ← exportRow crc db nParentId row old
  return (c.1.set c.2 (some r), c.2 + 1)

/-- `ExportFavoriteData(nParentId, ppData, nCurrentIndex)`. -/
def exportBelow : ℕ → ℤ → Cursor → Option Cursor
  | 0, _, _ => none
  | fuel + 1, nParentId, c => (selectBelow db nParentId).foldlM
      (fun c row => (writeRow crc db nParentId c row).bind (exportBelow fuel row.id)) c

/-- `ExportFavoriteData(ppData, nDataNum)`: its return value, the array and `nDataNum`. -/
def exportFavoriteData (fuel : ℕ) (ppData : PPData) (nDataNum : ℕ) : Option (Bool × PPData × ℕ) :=
  -- memset(ppData, 0x0, nDataNum * sizeof(PFAVORITELINEDATA))
  let ppData := List.replicate nDataNum none ++ ppData.drop nDataNum
  if recAt ppData 0 = none ∨ nDataNum = 0 then some (false, ppData, nDataNum)
  else ((selectRoots db).foldlM (fun c row => exportBelow crc db fuel row.id c) (ppData, 0)).map
    fun c => (true, c.1, c.2)

/-! ### Both visit the same rows -/

variable {crc db}

/-- The slots from `i` on hold `n` records. -/
def Room (ppData : PPData) (i n : ℕ) : Prop := ∀ j < n, ∃ r, recAt ppData (i + j) = some r

theorem Room.set {ppData : PPData} {i n : ℕ} (h : Room ppData i n) (k : ℕ) (r : FavoriteLineData) :
    Room (ppData.set k (some r)) i n := by
  intro j hj
  obtain ⟨s, hs⟩ := h j hj
  by_cases hk : k = i + j
  · subst hk
    refine ⟨r, ?_⟩
    rw [recAt, List.getElem?_set_self (recAt_lt hs)]
    rfl
  · exact ⟨s, by rwa [recAt, List.getElem?_set_ne hk]⟩

theorem Room.drop {ppData : PPData} {i n : ℕ} (h : Room ppData i n) {a m : ℕ} (hle : a + m ≤ n) :
    Room ppData (i + a) m := by
  intro j hj
  obtain ⟨r, hr⟩ := h (a + j) (by omega)
  exact ⟨r, by rwa [← Nat.add_assoc] at hr⟩

/-- The texts of all rows fit into a record. -/
def TextsFit (db : Database) : Prop :=
  (∀ row ∈ db.moz_bookmarks, ∃ title, row.title = some title ∧ wcslen title < 1023) ∧
    ∀ place ∈ db.moz_places, wcslen place.url < 1023

variable (crc) in
theorem exportRow_isSome (h : TextsFit db) {row : Bookmark} (hrow : row ∈ db.moz_bookmarks)
    (nParentId : ℤ) (old : FavoriteLineData) : ∃ r, exportRow crc db nParentId row old = some r := by
  obtain ⟨title, ht, hlen⟩ := h.1 row hrow
  have hurl : ∃ url, (urlOf db row).elim (some old.szUrl) wcscpy = some url := by
    cases hu : urlOf db row with
    | none => exact ⟨old.szUrl, rfl⟩
    | some url =>
      obtain ⟨place, hp, rfl⟩ := Option.map_eq_some_iff.mp hu
      exact ⟨place.url, by simp [wcscpy, h.2 place (List.mem_of_find?_eq_some hp)]⟩
  obtain ⟨url, hurl⟩ := hurl
  exact ⟨_, by simp only [exportRow, ht, Option.bind_some, wcscpy, if_pos hlen, hurl,
    Option.bind_eq_bind, Option.pure_def]; rfl⟩

variable (crc) in
theorem writeRow_isSome (h : TextsFit db) {row : Bookmark} (hrow : row ∈ db.moz_bookmarks)
    (nParentId : ℤ) {ppData : PPData} {i n : ℕ} (hroom : Room ppData i (n + 1)) :
    ∃ ppData', writeRow crc db nParentId (ppData, i) row = some (ppData', i + 1) ∧
      ppData'.length = ppData.length ∧ ∀ k m, Room ppData k m → Room ppData' k m := by
  obtain ⟨old, hold⟩ := hroom 0 (Nat.succ_pos n)
  rw [Nat.add_zero] at hold
  obtain ⟨r, hr⟩ := exportRow_isSome crc h hrow nParentId old
  refine ⟨ppData.set i (some r), ?_, List.length_set, fun k m hkm => hkm.set i r⟩
  simp [writeRow, hold, hr]

/-- AGREEMENT: where `GetFavoriteCount(nParentId)` counts `n`, an array with room for `n` more
    records is enough for `ExportFavoriteData(nParentId, ..)`, and it writes `n`. -/
theorem exportBelow_counts (h : TextsFit db) : ∀ (fuel : ℕ) (nParentId : ℤ) (n : ℕ),
    getFavoriteCountBelow db fuel nParentId = some n → ∀ (ppData : PPData) (i : ℕ),
    Room ppData i n → ∃ ppData', exportBelow crc db fuel nParentId (ppData, i) = some (ppData', i + n) ∧
      ppData'.length = ppData.length ∧ ∀ k m, Room ppData k m → Room ppData' k m := by
  intro fuel
  induction fuel with
  | zero =>
    intro nParentId n hn
    cases hn
  | succ fuel ih =>
    intro nParentId n hn
    -- over any part of the rows, what is added to the count is what is written below them
    have hloop : ∀ (l : List Bookmark), (∀ row ∈ l, row ∈ db.moz_bookmarks) → ∀ (c n : ℕ),
        l.foldlM (fun nCount row => (getFavoriteCountBelow db fuel row.id).map (nCount + ·)) c =
          some n → c ≤ n ∧ ∀ (ppData : PPData) (i : ℕ), Room ppData i (l.length + (n - c)) →
        ∃ ppData', l.foldlM (fun c row => (writeRow crc db nParentId c row).bind
            (exportBelow crc db fuel row.id)) (ppData, i) = some (ppData', i + (l.length + (n - c))) ∧
          ppData'.length = ppData.length ∧ ∀ k m, Room ppData k m → Room ppData' k m := by
      intro l
      induction l with
      | nil =>
        intro _ c n hn
        cases hn
        exact ⟨le_rfl, fun ppData i _ => ⟨ppData, by simp, rfl, fun _ _ h => h⟩⟩
      | cons row l ihl =>
        intro hl c n hn
        obtain ⟨hrow, hl⟩ := List.forall_mem_cons.mp hl
        rw [List.foldlM_cons, Option.bind_eq_bind, Option.bind_eq_some_iff] at hn
        obtain ⟨c', hc', hn⟩ := hn
        obtain ⟨s, hs, rfl⟩ := Option.map_eq_some_iff.mp hc'
        obtain ⟨hle, hrest⟩ := ihl hl (c + s) n hn
        refine ⟨by omega, fun ppData i hroom => ?_⟩
        rw [List.length_cons] at hroom ⊢
        have hroom₀ : Room ppData i (0 + 1) := fun j hj => hroom j (by omega)
        obtain ⟨d₁, h₁, hlen₁, hr₁⟩ := writeRow_isSome crc h hrow nParentId hroom₀
        have hroom₁ : Room d₁ (i + 1) s := (hr₁ i _ hroom).drop (by omega)
        obtain ⟨d₂, h₂, hlen₂, hr₂⟩ := ih row.id s hs d₁ (i + 1) hroom₁
        have hroom₂ : Room d₂ (i + (1 + s)) (l.length + (n - (c + s))) :=
          (hr₂ i _ (hr₁ i _ hroom)).drop (by omega)
        rw [← Nat.add_assoc] at hroom₂
        obtain ⟨d₃, h₃, hlen₃, hr₃⟩ := hrest d₂ (i + 1 + s) hroom₂
        refine ⟨d₃, ?_, by rw [hlen₃, hlen₂, hlen₁], fun k m hkm => hr₃ k m (hr₂ k m (hr₁ k m hkm))⟩
        rw [List.foldlM_cons, h₁, Option.bind_some, h₂, Option.bind_eq_bind, Option.bind_some, h₃]
        have he : i + 1 + s + (l.length + (n - (c + s))) = i + (l.length + 1 + (n - c)) := by omega
        rw [he]
    have hrows : ∀ row ∈ selectBelow db nParentId, row ∈ db.moz_bookmarks := fun row hrow =>
      (List.mem_filter.mp hrow).1
    obtain ⟨hle, hrun⟩ := hloop _ hrows _ n hn
    intro ppData i hroom
    have he : (selectBelow db nParentId).length + (n - (selectBelow db nParentId).length) = n := by
      omega
    rw [he] at hrun
    exact hrun ppData i hroom

/-! ### The export -/

/-- The rows below the roots, less the excluded ones. -/
inductive Listed (db : Database) : Bookmark → Prop
  | top {root row : Bookmark} : root ∈ selectRoots db → row ∈ selectBelow db root.id → Listed db row
  | inner {parent row : Bookmark} : Listed db parent → row ∈ selectBelow db parent.id → Listed db row

/-- TRUE was returned, `nDataNum` is what was counted, and the array holds one record for each
    listed row, with the id of its parent's record, or 0 right below a root. -/
structure Complete (db : Database) (nCount : ℕ) (out : Bool × PPData × ℕ) : Prop where
  bRet : out.1 = true
  nDataNum : out.2.2 = nCount
  records : ∃ rows : List Bookmark, rows.Nodup ∧ (∀ row, row ∈ rows ↔ Listed db row) ∧
    List.Forall₂ (fun slot row => ∃ r : FavoriteLineData, slot = some r ∧
      r.nId = row.id + idValueFireFoxBegin ∧
      r.nPid = if isRoot row.parent then 0 else row.parent + idValueFireFoxBegin) out.2.1 rows

theorem exportFavoriteData_eq (fuel : ℕ) (ppData : PPData) (nDataNum : ℕ) :
    exportFavoriteData crc db fuel ppData nDataNum =
      some (false, List.replicate nDataNum none ++ ppData.drop nDataNum, nDataNum) := by
  rw [exportFavoriteData]
  refine if_pos ?_
  cases nDataNum with
  | zero => exact .inr rfl
  | succ n => exact .inl (by simp [recAt, List.replicate_succ])

/-- NOTHING IS EXPORTED: on every database and for every array the export returns FALSE. -/
theorem exportFavoriteData_never_complete (crc : WStr → ℕ) (db : Database) (fuel : ℕ)
    (ppData : PPData) (nCount : ℕ) :
    ¬ ∃ out, exportFavoriteData crc db fuel ppData nCount = some out ∧ Complete db nCount out := by
  rintro ⟨out, hout, hc⟩
  rw [exportFavoriteData_eq, Option.some.injEq] at hout
  have hret := hc.bRet
  rw [← hout] at hret
  cases hret

/-- A toolbar with one bookmark. -/
def oneBookmark : Database :=
  ⟨[{ id := 1, parent := 0, type := 2, title := some [] },
    { id := 3, parent := 1, type := 2, title := some ['b'] },
    { id := 10, parent := 3, title := some ['a'], fk := some 1 }],
   [{ id := 1, url := ['u'] }]⟩

/-- One bookmark is counted, one pointer is passed, FALSE and a null pointer come back. -/
theorem exportFavoriteData_oneBookmark : (oneBookmark.moz_bookmarks.map (·.id)).Nodup ∧
    (∀ row ∈ oneBookmark.moz_bookmarks, row.parent < row.id) ∧
    getFavoriteCount oneBookmark 3 = some 1 ∧
    exportFavoriteData (fun _ => 0) oneBookmark 3 [some {}] 1 = some (false, [none], 1) ∧
    ¬ Complete oneBookmark 1 (false, [none], 1) := by
  refine ⟨by decide, by decide, by decide +kernel, by decide +kernel, fun h => ?_⟩
  have hret := h.bRet
  cases hret

end UrlTraveler.FireFox
