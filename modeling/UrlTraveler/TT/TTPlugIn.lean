import UrlTraveler.PlugIn.Export
import UrlTraveler.Chrome.Tree
import UrlTraveler.Schemes.Tables

/-! `TTPlugIn`: what the export reads back after an import.

    Bookmarks are rows of `favtable`, and their URLs rows of `urltable`, which the import keeps and
    extends. A folder is a row whose `iUrlIndex` is 0:

        record    1 f/     2 a ↦ u     3 b ↦ u         (2 and 3 in folder 1)
        favtable  1 0 0    2 1 7       3 1 7           iIndex, iPIndex, iUrlIndex
        urltable           7 u

    Count and export both walk down from the rows below 0. On the rows of a forest that walk meets
    every row once (`Walk.preorder_perm`), so what comes out is what went in, less the URLs of
    folders, for which there is no column. -/

namespace UrlTraveler.TT
open DataCenter Import Export Chrome Tables Walk Forest Cycles

/-- A row of `favtable`. -/
structure FavRow where
  iIndex : ℤ
  iPIndex : ℤ
  iUrlIndex : ℤ
  iPos : ℤ
  strTitle : WStr
  iCreateTime : ℤ
  iLastModifyTime : ℤ
  deriving DecidableEq

/-- A row of `urltable`, less its columns for visits. -/
structure UrlRow where
  iIndex : ℤ
  strUrl : WStr
  strTitle : WStr
  deriving DecidableEq

/-- `favtable` is missing before the first bookmark. -/
structure Database where
  favtable : Option (List FavRow)
  urltable : List UrlRow
  deriving DecidableEq

/-! ### Importing -/

/-- `GetIndexByUrl`: the key of the first row with the URL, or of a new one. -/
def getIndexByUrl (urltable : List UrlRow) (szTitle szUrl : WStr) : List UrlRow × ℤ :=
  findOrInsert (·.iIndex) urltable (·.strUrl = szUrl) fun iIndex => ⟨iIndex, szUrl, szTitle⟩

/-- `insert into favtable ..`; a second row with the same primary key is an exception, which the
    loop swallows. -/
def insertRow (favtable : List FavRow) (row : FavRow) : List FavRow :=
  if favtable.any (·.iIndex = row.iIndex) then favtable else favtable ++ [row]

/-- The tables, the records as the loop leaves them, and `nRealNum`. -/
structure Importing where
  favtable : List FavRow
  urltable : List UrlRow
  ppData : PPData := []
  nRealNum : ℕ := 0

/-- The row of a record; `now` is what the two `%d` for `time(NULL)` print. -/
def rowOf (now : ℤ × ℤ) (iUrlIndex : ℤ) (r : FavoriteLineData) : FavRow :=
  ⟨r.nId, r.nPid, iUrlIndex, r.nOrder, r.szTitle, now.1, now.2⟩

/-- The body of the loop. The buffer for the SQL text has room for two texts of a record. -/
def importStep (now : ℤ × ℤ) (st : Importing) : Option FavoriteLineData → Importing
  | none => { st with ppData := st.ppData ++ [none] }
  | some r =>
    if r.bDelete then { st with ppData := st.ppData ++ [some r] }
    else
      let r := requote r
      let (urltable, iUrlIndex) :=
        if r.bFolder then (st.urltable, 0) else getIndexByUrl st.urltable r.szTitle r.szUrl
      { favtable := insertRow st.favtable (rowOf now iUrlIndex r)
        urltable := urltable
        ppData := st.ppData ++ [some r]
        nRealNum := st.nRealNum + 1 }

/-- `ImportFavoriteData(ppData, nDataNum)`: its return value, the database, the records and
    `nDataNum`; `created` is what `CREATE TABLE` returns. -/
def importFavoriteData (now : ℤ × ℤ) (created : SqliteCode) (db : Database) (ppData : PPData) :
    Code × Database × PPData × ℕ :=
  if ppData = [] then (.invalidParam, db, ppData, 0)
  else if db.favtable = none ∧ created ≠ .ok then (.cannotCreateDB, db, ppData, ppData.length)
  else
    -- created, or "delete from favtable"
    let st := ppData.foldl (importStep now) { favtable := [], urltable := db.urltable }
    (.ok, ⟨some st.favtable, st.urltable⟩, st.ppData, st.nRealNum)

/-! ### Counting -/

/-- `select * from favtable where iPIndex = nParentId`. -/
def selectBelow (favtable : List FavRow) (nParentId : ℤ) : List FavRow :=
  favtable.filter fun row => row.iPIndex = nParentId

/-- `GetFavoriteCount(nParentId)`; `none` is a recursion deeper than the fuel. -/
def getFavoriteCountBelow (favtable : List FavRow) : ℕ → ℤ → Option ℕ
  | 0, _ => none
  | fuel + 1, nParentId => (selectBelow favtable nParentId).foldlM
      (fun nCount row => (getFavoriteCountBelow favtable fuel row.iIndex).map (nCount + ·))
      (selectBelow favtable nParentId).length

def getFavoriteCount (db : Database) (fuel : ℕ) : Option ℕ :=
  match db.favtable with
  | none => some 0
  | some favtable => (selectBelow favtable 0).foldlM
      (fun nTotalNumber row =>
        (getFavoriteCountBelow favtable fuel row.iIndex).map (nTotalNumber + 1 + ·)) 0

/-! ### Exporting -/

variable (crc : WStr → ℕ)

/-- `select url.strUrl from urltable as url, favtable as fav where fav.iUrlIndex = nUrlIndex and
    url.iIndex = fav.iUrlIndex`, its first row. -/
def urlOf (favtable : List FavRow) (urltable : List UrlRow) (nUrlIndex : ℤ) : Option WStr :=
  (urltable.find? fun url =>
    favtable.any fun fav => fav.iUrlIndex = nUrlIndex && url.iIndex = fav.iUrlIndex).map (·.strUrl)

/-- `WriteQueryDataIntoData`, for a pointer that is not null. A text that is too long for
    `wcscpy_s` ends the program; without a URL the record keeps the one it has. -/
def writeQueryDataIntoData (favtable : List FavRow) (urltable : List UrlRow) (row : FavRow)
    (old : FavoriteLineData) : Option FavoriteLineData := do
  let title ← wcscpy row.strTitle
  let url ← (urlOf favtable urltable row.iUrlIndex).elim (some old.szUrl) wcscpy
  return { old with
    nId := row.iIndex + idValueTTBegin
    nPid := if row.iPIndex ≠ 0 then row.iPIndex + idValueTTBegin else 0
    bFolder := row.iUrlIndex = 0
    szTitle := title
    nOrder := row.iPos
    nAddTimes := row.iCreateTime
    nLastModifyTime := row.iLastModifyTime
    nHashId := crc title
    bDelete := false
    szUrl := url }

/-- The array and `nCurrentIndex`. -/
abbrev Cursor := PPData × ℕ

/-- The next slot of the array; a null pointer is passed over. -/
def writeRow (favtable : List FavRow) (urltable : List UrlRow) (c : Cursor) (row : FavRow) :
    Option Cursor :=
  match c.1[c.2]? with
  | none => none
  | some none => some (c.1, c.2 + 1)
  | some (some old) => (writeQueryDataIntoData crc favtable urltable row old).map
      fun r => (c.1.set c.2 (some r), c.2 + 1)

/-- `ExportFavoriteData(nParentId, ppData, nCurrentIndex)`. -/
def exportBelow (favtable : List FavRow) (urltable : List UrlRow) : ℕ → ℤ → Cursor → Option Cursor
  | 0, _, _ => none
  | fuel + 1, nParentId, c => (selectBelow favtable nParentId).foldlM
      (fun c row => (writeRow crc favtable urltable c row).bind
        (exportBelow favtable urltable fuel row.iIndex)) c

/-- `ExportFavoriteData(ppData, nDataNum)`: its return value, the array and `nDataNum`. Without
    `favtable` the query is an exception that nobody catches. -/
def exportFavoriteData (db : Database) (fuel : ℕ) (ppData : PPData) (nDataNum : ℕ) :
    Option (Bool × PPData × ℕ) :=
  if nDataNum = 0 then some (false, ppData, nDataNum)
  else db.favtable.bind fun favtable =>
    ((selectBelow favtable 0).foldlM (fun c row => (writeRow crc favtable db.urltable c row).bind
      (exportBelow crc favtable db.urltable fuel row.iIndex)) (ppData, 0)).map fun c => (true, c.1, c.2)

/-! ### What the import stores -/

/-- The row of a record; the URL is found in `urltable`. -/
structure RowFor (urltable : List UrlRow) (r : FavoriteLineData) (row : FavRow) : Prop where
  iIndex : row.iIndex = r.nId
  iPIndex : row.iPIndex = r.nPid
  strTitle : row.strTitle = r.szTitle
  folder : r.bFolder = true → row.iUrlIndex = 0
  url : r.bFolder = false → ∃ url ∈ urltable, url.iIndex = row.iUrlIndex ∧ url.strUrl = r.szUrl

theorem RowFor.mono {urltable urltable' : List UrlRow} {r : FavoriteLineData} {row : FavRow}
    (h : RowFor urltable r row) (hle : urltable <+: urltable') : RowFor urltable' r row where
  iIndex := h.iIndex
  iPIndex := h.iPIndex
  strTitle := h.strTitle
  folder := h.folder
  url hr := by
    obtain ⟨url, hmem, hurl⟩ := h.url hr
    exact ⟨url, hle.subset hmem, hurl⟩

/-- The tables hold the records `rs`, in this order. -/
structure Stored (rs : List FavoriteLineData) (favtable : List FavRow) (urltable : List UrlRow) :
    Prop where
  rows : List.Forall₂ (RowFor urltable) rs favtable
  keys : GoodKeys (urltable.map (·.iIndex))

variable {rs : List FavoriteLineData} {favtable : List FavRow} {urltable : List UrlRow}

theorem Stored.ids (h : Stored rs favtable urltable) :
    favtable.map (·.iIndex) = rs.map (·.nId) := by
  have hrows := h.rows
  clear h
  induction hrows with
  | nil => rfl
  | cons hrow _ ih => rw [List.map_cons, List.map_cons, ih, hrow.iIndex]

/-- A live record whose id is new gets its row. -/
theorem importStep_stored (now : ℤ × ℤ) {st : Importing} (h : Stored rs st.favtable st.urltable)
    {r : FavoriteLineData} (hlive : r.bDelete = false) (hnew : r.nId ∉ rs.map (·.nId)) :
    Stored (rs ++ [requote r]) (importStep now st (some r)).favtable
      (importStep now st (some r)).urltable := by
  have hfresh : ∀ row : FavRow, row.iIndex = r.nId → insertRow st.favtable row = st.favtable ++ [row] := by
    intro row hrow
    refine if_neg fun hany => hnew ?_
    obtain ⟨old, hold, he⟩ := List.any_eq_true.mp hany
    rw [← h.ids, ← hrow, ← of_decide_eq_true he]
    exact List.mem_map_of_mem hold
  cases hf : r.bFolder with
  | true =>
    have hf' : (requote r).bFolder = true := hf
    simp only [importStep, hlive, Bool.false_eq_true, if_false, hf', if_true]
    rw [hfresh _ rfl]
    refine ⟨List.rel_append h.rows (.cons ⟨rfl, rfl, rfl, fun _ => rfl, fun hn => ?_⟩ .nil), h.keys⟩
    rw [hf'] at hn
    cases hn
  | false =>
    have hf' : (requote r).bFolder = false := hf
    simp only [importStep, hlive, Bool.false_eq_true, if_false, hf']
    rw [hfresh _ rfl]
    obtain ⟨hle, hkeys, url, hurl, hid, hstr⟩ := findOrInsert_spec (fun row : UrlRow => row.iIndex)
      (fun row => row.strUrl = (requote r).szUrl)
      (fun iIndex => ⟨iIndex, (requote r).szUrl, (requote r).szTitle⟩) (fun _ => rfl)
      (fun _ => decide_eq_true rfl) h.keys
    have hold := h.rows.imp fun _ _ hrow => RowFor.mono hrow hle
    refine ⟨List.rel_append hold (.cons ⟨rfl, rfl, rfl, fun hn => ?_, fun _ => ?_⟩ .nil), hkeys⟩
    · rw [hf'] at hn
      cases hn
    · exact ⟨url, hurl, hid, of_decide_eq_true hstr⟩

/-- The live records. -/
def live (v : Favorites) : Favorites := v.filter fun r => !r.bDelete

theorem mem_live {v : Favorites} {r : FavoriteLineData} :
    r ∈ live v ↔ r ∈ v ∧ r.bDelete = false := by
  simp [live]

/-- STORED: after the loop the tables hold the live records. -/
theorem foldl_importStep_stored (now : ℤ × ℤ) : ∀ (v : Favorites) {rs : List FavoriteLineData}
    (st : Importing), Stored rs st.favtable st.urltable → (rs.map (·.nId) ++ v.map (·.nId)).Nodup →
    Stored (rs ++ (live v).map requote) ((v.map some).foldl (importStep now) st).favtable
      ((v.map some).foldl (importStep now) st).urltable := by
  intro v
  induction v with
  | nil =>
    intro rs st h _
    simpa [live] using h
  | cons r v ih =>
    intro rs st h hnd
    rw [List.map_cons, List.foldl_cons]
    cases hd : r.bDelete with
    | true =>
      have hlive : live (r :: v) = live v := by simp [live, hd]
      have hstep : importStep now st (some r) = { st with ppData := st.ppData ++ [some r] } := by
        simp [importStep, hd]
      rw [hlive, hstep]
      refine ih _ h (hnd.sublist ?_)
      exact List.Sublist.append_left (List.sublist_cons_self _ _) _
    | false =>
      have hlive : live (r :: v) = r :: live v := by simp [live, hd]
      have hnew : r.nId ∉ rs.map (·.nId) := fun hmem =>
        (List.nodup_append.mp hnd).2.2 _ hmem _ List.mem_cons_self rfl
      have hrest := ih _ (importStep_stored now h hd hnew) (by simpa [requote] using hnd)
      rw [hlive]
      simpa using hrest

/-- The records that are left, and how many of them got a row. -/
theorem foldl_importStep_records (now : ℤ × ℤ) : ∀ (v : Favorites) (st : Importing),
    ((v.map some).foldl (importStep now) st).ppData =
        st.ppData ++ v.map (fun r => some (if r.bDelete then r else requote r)) ∧
      ((v.map some).foldl (importStep now) st).nRealNum = st.nRealNum + (live v).length := by
  intro v
  induction v with
  | nil => simp [live]
  | cons r v ih =>
    intro st
    rw [List.map_cons, List.foldl_cons]
    obtain ⟨hdata, hnum⟩ := ih (importStep now st (some r))
    rw [hdata, hnum]
    cases hd : r.bDelete with
    | true => simp [importStep, live, hd]
    | false =>
      simp only [importStep, live, hd, Bool.false_eq_true, if_false]
      simp [hd, Nat.add_assoc, Nat.add_comm 1]

/-- `Import.importFavoriteData`, which looks at the records only, returns the same and leaves the
    same records. -/
theorem importFavoriteData_import (now : ℤ × ℤ) {s : Import.Store} {db : Database}
    (hs : s.tableExists = db.favtable.isSome) (v : Favorites) :
    (importFavoriteData now s.created db (v.map some)).1 = (Import.importFavoriteData .tt s v).1 ∧
      (importFavoriteData now s.created db (v.map some)).2.2.1 =
        (Import.importFavoriteData .tt s v).2.records.map some := by
  have htable : db.favtable = none ↔ s.tableExists = false := by
    rw [hs, Option.isSome_eq_false_iff, Option.isNone_iff_eq_none]
  rw [importFavoriteData, Import.importFavoriteData.eq_def]
  by_cases hne : v = []
  · simp [hne]
  · by_cases hcreate : s.tableExists = false ∧ s.created ≠ .ok
    · simp [hne, htable, hcreate]
    · have hrecords := (foldl_importStep_records now v { favtable := [], urltable := db.urltable }).1
      simp only [hne, htable, hcreate, List.map_eq_nil_iff, false_and, if_false]
      rw [if_neg (by simpa using hcreate)]
      refine ⟨rfl, ?_⟩
      rw [hrecords, foldl_insertRecord, requoteAll, List.nil_append, List.nil_append, List.map_map]
      exact List.map_congr_left fun r _ => rfl

/-! ### The walk over the rows -/

/-- How rows of `favtable` point to each other; every row is asked for the rows below it. -/
def links : Links FavRow ℤ := ⟨fun row => row.iIndex, fun row => row.iPIndex, fun _ => true⟩

/-- The rows in the order of both recursions. -/
def walk (favtable : List FavRow) (fuel : ℕ) (nParentId : ℤ) : List FavRow :=
  preorder links favtable fuel nParentId

theorem walk_succ (favtable : List FavRow) (fuel : ℕ) (nParentId : ℤ) :
    walk favtable (fuel + 1) nParentId =
      (selectBelow favtable nParentId).flatMap fun row => row :: walk favtable fuel row.iIndex := by
  rw [selectBelow, flatMap_filtered]
  refine List.flatMap_congr fun row _ => ?_
  simp [links, walk]

theorem selectBelow_path {p : ℤ} {π : List ℤ} (hp : PathOf (rows links favtable) p π) {row : FavRow}
    (hrow : row ∈ selectBelow favtable p) :
    PathOf (rows links favtable) row.iIndex (row.iIndex :: π) := by
  obtain ⟨hmem, hpar⟩ := List.mem_filter.mp hrow
  have hpar : links.par row = p := of_decide_eq_true hpar
  exact path_up (L := links) hmem rfl (hpar ▸ hp)

/-- A loop that adds up. -/
theorem foldlM_add {α : Type} {c : α → Option ℕ} {g : α → ℕ} : ∀ {l : List α},
    (∀ a ∈ l, c a = some (g a)) → ∀ n : ℕ,
    l.foldlM (fun n a => (c a).map (n + ·)) n = some (n + (l.map g).sum) := by
  intro l
  induction l with
  | nil => exact fun _ n => by simp
  | cons a l ih =>
    intro h n
    obtain ⟨ha, hl⟩ := List.forall_mem_cons.mp h
    simp [ha, ih hl, Nat.add_assoc]

section Walking
variable (hv : Distinct links favtable)
include hv

/-- `GetFavoriteCount(nParentId)` counts the rows of the walk. -/
theorem getFavoriteCountBelow_eq {fuel : ℕ} {p : ℤ} {π : List ℤ}
    (hp : PathOf (rows links favtable) p π) (hfuel : favtable.length < fuel + π.length) :
    getFavoriteCountBelow favtable fuel p = some (walk favtable fuel p).length := by
  induction fuel generalizing p π with
  | zero =>
    have := path_length_le hv hp
    omega
  | succ fuel ih =>
    rw [getFavoriteCountBelow]
    have hrows : ∀ row ∈ selectBelow favtable p,
        getFavoriteCountBelow favtable fuel row.iIndex =
          some (walk favtable fuel row.iIndex).length := by
      intro row hrow
      exact ih (selectBelow_path hp hrow) (by simp only [List.length_cons]; omega)
    rw [foldlM_add hrows, walk_succ, List.length_flatMap]
    simp [List.sum_map_add, Nat.add_comm]

theorem getFavoriteCount_eq {urltable : List UrlRow} {fuel : ℕ} (hfuel : favtable.length ≤ fuel) :
    getFavoriteCount ⟨some favtable, urltable⟩ fuel = some (walk favtable (fuel + 1) 0).length := by
  have hrows : ∀ row ∈ selectBelow favtable 0,
      (getFavoriteCountBelow favtable fuel row.iIndex).map (1 + ·) =
        some (1 + (walk favtable fuel row.iIndex).length) := by
    intro row hrow
    have hlt : favtable.length < fuel + [row.iIndex].length := by simpa using Nat.lt_succ_of_le hfuel
    rw [getFavoriteCountBelow_eq hv (selectBelow_path .root hrow) hlt, Option.map_some]
  have hloop := foldlM_add hrows 0
  simp only [Option.map_map, Function.comp_def, ← Nat.add_assoc] at hloop
  rw [walk_succ, List.length_flatMap]
  refine hloop.trans ?_
  simp [Nat.add_comm]

/-- The export is a loop over the rows of the walk. -/
theorem exportFavoriteData_eq {urltable : List UrlRow} {fuel : ℕ} (hfuel : favtable.length ≤ fuel)
    (ppData : PPData) {nDataNum : ℕ} (hn : nDataNum ≠ 0) :
    exportFavoriteData crc ⟨some favtable, urltable⟩ fuel ppData nDataNum =
      ((walk favtable (fuel + 1) 0).foldlM (writeRow crc favtable urltable) (ppData, 0)).map
        fun c => (true, c.1, c.2) := by
  have hbelow : ∀ (fuel : ℕ) (p : ℤ), exportBelow crc favtable urltable fuel p =
      visit links favtable (writeRow crc favtable urltable) fuel p := by
    intro fuel
    induction fuel with
    | zero => exact fun p => rfl
    | succ fuel ih =>
      intro p
      funext c
      rw [exportBelow, visit]
      simp only [ih]
      rfl
  rw [exportFavoriteData, if_neg hn, Option.bind_some, walk,
    ← visit_eq hv (fun _ _ => rfl) _ .root (by simp only [List.length_nil]; omega), visit]
  simp only [hbelow]
  rfl

end Walking

/-! ### What the export writes -/

/-- Id, parent, title, URL and folder flag. -/
abbrev Entry := ℤ × ℤ × WStr × WStr × Bool

def entry (r : FavoriteLineData) : Entry := (r.nId, r.nPid, r.szTitle, r.szUrl, r.bFolder)

/-- An id as the export shifts it. -/
def shift (n : ℤ) : ℤ := if n ≠ 0 then n + idValueTTBegin else 0

/-- The entry of a row, in a record that had no URL. -/
def rowEntry (favtable : List FavRow) (urltable : List UrlRow) (row : FavRow) : Entry :=
  (row.iIndex + idValueTTBegin, shift row.iPIndex, row.strTitle,
    (urlOf favtable urltable row.iUrlIndex).getD [], row.iUrlIndex = 0)

/-- The texts of a row fit into a record. -/
def Fits (favtable : List FavRow) (urltable : List UrlRow) (row : FavRow) : Prop :=
  wcslen row.strTitle < 1023 ∧ wcslen ((urlOf favtable urltable row.iUrlIndex).getD []) < 1023

theorem writeQueryDataIntoData_entry {row : FavRow} (hfit : Fits favtable urltable row)
    {old : FavoriteLineData} (hold : old.szUrl = []) :
    ∃ r, writeQueryDataIntoData crc favtable urltable row old = some r ∧
      entry r = rowEntry favtable urltable row := by
  have hurl : (urlOf favtable urltable row.iUrlIndex).elim (some old.szUrl) wcscpy =
      some ((urlOf favtable urltable row.iUrlIndex).getD []) := by
    have hlen := hfit.2
    cases hu : urlOf favtable urltable row.iUrlIndex with
    | none => simp [hold]
    | some url =>
      rw [hu, Option.getD_some] at hlen
      simp [wcscpy, hlen]
  refine ⟨_, by simp only [writeQueryDataIntoData, wcscpy, if_pos hfit.1, Option.bind_eq_bind,
    Option.bind_some, hurl, Option.pure_def]; rfl, rfl⟩

/-- The loop fills the slots one after the other. -/
theorem foldlM_writeRow : ∀ (l : List FavRow), (∀ row ∈ l, Fits favtable urltable row) →
    ∀ (done olds : List FavoriteLineData), olds.length = l.length → (∀ r ∈ olds, r.szUrl = []) →
    ∃ out, l.foldlM (writeRow crc favtable urltable) ((done ++ olds).map some, done.length) =
        some ((done ++ out).map some, done.length + l.length) ∧
      out.map entry = l.map (rowEntry favtable urltable) := by
  intro l
  induction l with
  | nil =>
    intro _ done olds hlen _
    obtain rfl := List.eq_nil_of_length_eq_zero hlen
    exact ⟨[], by simp, rfl⟩
  | cons row l ih =>
    intro hl done olds hlen hurl
    obtain ⟨hrow, hl⟩ := List.forall_mem_cons.mp hl
    obtain ⟨old, olds, rfl⟩ := List.exists_cons_of_length_eq_add_one hlen
    obtain ⟨hold, hurl⟩ := List.forall_mem_cons.mp hurl
    obtain ⟨r, hr, hentry⟩ := writeQueryDataIntoData_entry crc hrow hold
    have hwrite : writeRow crc favtable urltable ((done ++ old :: olds).map some, done.length) row =
        some (((done ++ [r]) ++ olds).map some, (done ++ [r]).length) := by
      simp [writeRow, hr]
    obtain ⟨out, hout, hentries⟩ := ih hl (done ++ [r]) olds (by simpa using hlen) hurl
    refine ⟨r :: out, ?_, by rw [List.map_cons, List.map_cons, hentry, hentries]⟩
    rw [List.foldlM_cons, hwrite, Option.bind_eq_bind, Option.bind_some, hout]
    simp [Nat.add_comm, Nat.add_left_comm]

/-! ### Back again -/

theorem exists_of_forall₂ {α β : Type} {R : α → β → Prop} {l : List α} {u : List β}
    (h : List.Forall₂ R l u) {b : β} (hb : b ∈ u) : ∃ a ∈ l, R a b := by
  induction h with
  | nil => cases hb
  | cons hab _ ih =>
    rcases List.mem_cons.mp hb with rfl | hb
    · exact ⟨_, List.mem_cons_self, hab⟩
    · obtain ⟨a, ha, hab⟩ := ih hb
      exact ⟨a, List.mem_cons_of_mem _ ha, hab⟩

/-- What comes back of a record: the ids are shifted, and a folder has no URL. -/
def exported (r : FavoriteLineData) : Entry :=
  (r.nId + idValueTTBegin, shift r.nPid, r.szTitle, if r.bFolder then [] else r.szUrl, r.bFolder)

/-- A key of `urltable` names one row. -/
theorem urlOf_eq (hkeys : GoodKeys (urltable.map (·.iIndex))) {row : FavRow} (hrow : row ∈ favtable)
    {url : UrlRow} (hurl : url ∈ urltable) (hid : url.iIndex = row.iUrlIndex) :
    urlOf favtable urltable row.iUrlIndex = some url.strUrl := by
  have hfound : (urltable.find? fun url => favtable.any fun fav =>
      fav.iUrlIndex = row.iUrlIndex && url.iIndex = fav.iUrlIndex).isSome := by
    rw [List.find?_isSome]
    exact ⟨url, hurl, List.any_eq_true.mpr ⟨row, hrow, by simp [hid]⟩⟩
  obtain ⟨found, hfind⟩ := Option.isSome_iff_exists.mp hfound
  have hjoin := List.find?_some hfind
  obtain ⟨fav, _, hfav⟩ := List.any_eq_true.mp hjoin
  simp only [Bool.and_eq_true, decide_eq_true_eq] at hfav
  have he : found = url := List.inj_on_of_nodup_map hkeys.nodup (List.mem_of_find?_eq_some hfind)
    hurl (by rw [hid, hfav.2, hfav.1])
  rw [urlOf, hfind, he, Option.map_some]

/-- No row of `urltable` has the key 0. -/
theorem urlOf_zero (hkeys : GoodKeys (urltable.map (·.iIndex))) :
    urlOf favtable urltable 0 = none := by
  rw [urlOf, Option.map_eq_none_iff, List.find?_eq_none]
  intro url hurl hany
  obtain ⟨fav, _, hfav⟩ := List.any_eq_true.mp hany
  simp only [Bool.and_eq_true, decide_eq_true_eq] at hfav
  have := hkeys.pos _ (List.mem_map_of_mem hurl)
  omega

theorem RowFor.entry (hkeys : GoodKeys (urltable.map (·.iIndex))) {r : FavoriteLineData}
    {row : FavRow} (h : RowFor urltable r row) (hrow : row ∈ favtable) :
    rowEntry favtable urltable row = exported r := by
  rw [rowEntry, exported, h.iIndex, h.iPIndex, h.strTitle]
  cases hf : r.bFolder with
  | true => simp [h.folder hf, urlOf_zero hkeys]
  | false =>
    obtain ⟨url, hurl, hid, hstr⟩ := h.url hf
    have hpos := hkeys.pos _ (List.mem_map_of_mem hurl)
    have hne : row.iUrlIndex ≠ 0 := by omega
    simp [urlOf_eq hkeys hrow hurl hid, hstr, hne]

/-- The rows, read back, are the records. -/
theorem Stored.entries (h : Stored rs favtable urltable) :
    favtable.map (rowEntry favtable urltable) = rs.map exported := by
  obtain ⟨hlen, hrows⟩ := List.forall₂_iff_get.mp h.rows
  refine List.ext_getElem (by simp [hlen]) fun i hi hj => ?_
  rw [List.getElem_map, List.getElem_map]
  rw [List.length_map] at hi hj
  exact (hrows i hj hi).entry h.keys (List.getElem_mem hi)

theorem Stored.fits (h : Stored rs favtable urltable)
    (hlen : ∀ r ∈ rs, wcslen r.szTitle ≤ 1022 ∧ wcslen r.szUrl ≤ 1022) {row : FavRow}
    (hrow : row ∈ favtable) : Fits favtable urltable row := by
  obtain ⟨r, hr, hof⟩ := exists_of_forall₂ h.rows hrow
  have he := hof.entry h.keys hrow
  simp only [rowEntry, exported, Prod.mk.injEq] at he
  obtain ⟨ht, hu⟩ := hlen r hr
  refine ⟨by rw [hof.strTitle]; omega, ?_⟩
  rw [he.2.2.2.1]
  split
  · simp [wcslen]
  · omega

/-- Ids are positions, live records hang at the root or below a live folder, and no live record is
    its own ancestor. -/
structure IsForest (v : Favorites) : Prop where
  indexed : Indexed v
  parent : ∀ r ∈ v, r.bDelete = false →
    r.nPid = 0 ∨ ∃ f ∈ v, f.bDelete = false ∧ f.bFolder = true ∧ f.nId = r.nPid
  acyclic : NoCycle (LiveUp v)

section Forests
variable {v : Favorites} (hv : IsForest v)
include hv

theorem IsForest.nodup : (v.map (·.nId)).Nodup :=
  List.pairwise_map.mpr (hv.indexed.pairwise.imp fun h => h.ne)

variable (h : Stored (live v) favtable urltable)
include h

theorem IsForest.distinct : Distinct links favtable where
  nodup := by
    change (favtable.map (·.iIndex)).Nodup
    rw [h.ids]
    exact hv.nodup.sublist (List.filter_sublist.map _)
  nonzero row hrow := by
    obtain ⟨r, hr, hof⟩ := exists_of_forall₂ h.rows hrow
    obtain ⟨k, hk⟩ := List.mem_iff_getElem?.mp (mem_live.mp hr).1
    have hid : links.key row = k + 1 := hof.iIndex.trans (hv.indexed k r hk)
    omega

/-- The way up from a row ends at 0. -/
theorem IsForest.path : ∀ row ∈ favtable, ∃ q, PathOf (rows links favtable) (links.par row) q := by
  have hclosed : Closed (rows links favtable) := by
    intro i x hx
    obtain ⟨row, hrow, _, rfl⟩ := rows_inv hx
    obtain ⟨r, hr, hof⟩ := exists_of_forall₂ h.rows (List.mem_of_getElem? hrow)
    obtain ⟨hr, hlive⟩ := mem_live.mp hr
    rcases hv.parent r hr hlive with h0 | ⟨f, hf, hflive, _, hid⟩
    · exact .inl (hof.iPIndex.trans h0)
    · obtain ⟨above, habove, hof'⟩ := exists_of_forall₂ h.rows.flip (mem_live.mpr ⟨hf, hflive⟩)
      obtain ⟨j, hj⟩ := rows_some (L := links) habove rfl
      exact .inr ⟨j, _, hj, (hof'.iIndex.trans hid).trans hof.iPIndex.symm⟩
  have hacyclic : Acyclic (rows links favtable) := by
    refine hv.acyclic.mono ?_
    rintro _ _ ⟨i, x, hx, rfl, rfl⟩
    obtain ⟨row, hrow, _, rfl⟩ := rows_inv hx
    obtain ⟨r, hr, hof⟩ := exists_of_forall₂ h.rows (List.mem_of_getElem? hrow)
    obtain ⟨hr, hlive⟩ := mem_live.mp hr
    exact ⟨r, hr, hlive, hof.iIndex.symm, hof.iPIndex.symm⟩
  have hslots : ∀ i x, rows links favtable i = some x → i ∈ Finset.range favtable.length := by
    intro i x hx
    obtain ⟨row, hrow, _⟩ := rows_inv hx
    exact Finset.mem_range.mpr (List.getElem?_eq_some_iff.mp hrow).1
  intro row hrow
  obtain ⟨i, hi⟩ := rows_some (L := links) hrow rfl
  obtain ⟨p, hp⟩ := rooted_of_acyclic hslots hclosed hacyclic hi
  obtain ⟨q, _, hq⟩ := path_key (hv.distinct h) hrow hp
  exact ⟨q, hq⟩

theorem IsForest.walk_perm {fuel : ℕ} (hfuel : v.length ≤ fuel) : favtable.length ≤ fuel ∧
    (walk favtable (fuel + 1) 0).Perm favtable := by
  have hlen : favtable.length ≤ fuel := by
    rw [← h.rows.length_eq]
    exact (List.length_filter_le _ _).trans hfuel
  exact ⟨hlen, preorder_perm (hv.distinct h) (hv.path h) (Nat.lt_succ_of_le hlen)⟩

theorem IsForest.getFavoriteCount {fuel : ℕ} (hfuel : v.length ≤ fuel) :
    TT.getFavoriteCount ⟨some favtable, urltable⟩ fuel = some (live v).length := by
  obtain ⟨hlen, hperm⟩ := hv.walk_perm h hfuel
  rw [getFavoriteCount_eq (hv.distinct h) hlen, hperm.length_eq, h.rows.length_eq]

theorem IsForest.exportFavoriteData (crc : WStr → ℕ)
    (hlen : ∀ r ∈ live v, wcslen r.szTitle ≤ 1022 ∧ wcslen r.szUrl ≤ 1022) {fuel : ℕ}
    (hfuel : v.length ≤ fuel) {olds : Favorites} (holds : olds.length = (live v).length)
    (hurl : ∀ r ∈ olds, r.szUrl = []) :
    ∃ out : Favorites,
      TT.exportFavoriteData crc ⟨some favtable, urltable⟩ fuel (olds.map some) (live v).length =
        some ((live v).length != 0, out.map some, (live v).length) ∧
      (out.map entry).Perm ((live v).map exported) := by
  rcases Nat.eq_zero_or_pos (live v).length with hzero | hpos
  · -- nothing to export: FALSE is returned, and nothing is missing
    refine ⟨olds, by simp [TT.exportFavoriteData, hzero], ?_⟩
    rw [List.eq_nil_of_length_eq_zero hzero, List.eq_nil_of_length_eq_zero (holds.trans hzero)]
    exact .nil
  · obtain ⟨hle, hperm⟩ := hv.walk_perm h hfuel
    have hnum : (walk favtable (fuel + 1) 0).length = (live v).length := by
      rw [hperm.length_eq, h.rows.length_eq]
    have hfits : ∀ row ∈ walk favtable (fuel + 1) 0, Fits favtable urltable row := fun row hrow =>
      h.fits hlen (hperm.mem_iff.mp hrow)
    obtain ⟨out, hout, hmap⟩ := foldlM_writeRow crc _ hfits [] olds (holds.trans hnum.symm) hurl
    simp only [List.nil_append, List.length_nil, Nat.zero_add] at hout
    refine ⟨out, ?_, ?_⟩
    · rw [exportFavoriteData_eq crc (hv.distinct h) hle _ hpos.ne', hout, hnum, Option.map_some,
        bne_iff_ne.mpr hpos.ne']
    · rw [hmap, ← h.entries]
      exact hperm.map _

end Forests

/-- The import of records without single quotes changes none of them. -/
theorem importFavoriteData_stored (now : ℤ × ℤ) {created : SqliteCode} {db : Database}
    {v : Favorites} (hne : v ≠ []) (hcreate : db.favtable = none → created = .ok)
    (hkeys : GoodKeys (db.urltable.map (·.iIndex))) (hnd : (v.map (·.nId)).Nodup)
    (hquote : ∀ r ∈ v, r.bDelete = false → '\x27' ∉ r.szTitle ∧ '\x27' ∉ r.szUrl) :
    ∃ favtable urltable, importFavoriteData now created db (v.map some) =
        (.ok, ⟨some favtable, urltable⟩, v.map some, (live v).length) ∧
      Stored (live v) favtable urltable := by
  have hsame : ∀ r ∈ v, r.bDelete = false → requote r = r := by
    intro r hr hlive
    obtain ⟨ht, hu⟩ := hquote r hr hlive
    rw [requote, replaceSingleQuote_eq_self.mpr ht, replaceSingleQuote_eq_self.mpr hu]
  have hlive : (live v).map requote = live v := by
    refine (List.map_congr_left fun r hr => ?_).trans (List.map_id _)
    exact hsame r (mem_live.mp hr).1 (mem_live.mp hr).2
  have hrecords : v.map (fun r => some (if r.bDelete then r else requote r)) = v.map some := by
    refine List.map_congr_left fun r hr => ?_
    cases hd : r.bDelete with
    | true => simp
    | false => simp [hsame r hr hd]
  obtain ⟨hdata, hnum⟩ := foldl_importStep_records now v { favtable := [], urltable := db.urltable }
  have hstored := foldl_importStep_stored now v { favtable := [], urltable := db.urltable }
    ⟨.nil, hkeys⟩ hnd
  rw [List.nil_append, hlive] at hstored
  refine ⟨_, _, ?_, hstored⟩
  have hcreated : ¬ (db.favtable = none ∧ created ≠ .ok) := fun hn => hn.2 (hcreate hn.1)
  simp only [importFavoriteData, List.map_eq_nil_iff, hne, if_false, if_neg hcreated, hdata, hnum,
    hrecords, List.nil_append, Nat.zero_add]

/-- ROUND TRIP: after the import of a forest the count is the number of live records, and the
    export writes them all, each once. -/
theorem export_after_import (crc : WStr → ℕ) (now : ℤ × ℤ) (created : SqliteCode) (db : Database)
    (v : Favorites) (hne : v ≠ []) (hcreate : db.favtable = none → created = .ok)
    (hkeys : GoodKeys (db.urltable.map (·.iIndex))) (hv : IsForest v)
    (hquote : ∀ r ∈ v, r.bDelete = false → '\x27' ∉ r.szTitle ∧ '\x27' ∉ r.szUrl)
    (hlen : ∀ r ∈ v, r.bDelete = false → wcslen r.szTitle ≤ 1022 ∧ wcslen r.szUrl ≤ 1022)
    {fuel : ℕ} (hfuel : v.length ≤ fuel) :
    ∃ db', importFavoriteData now created db (v.map some) = (.ok, db', v.map some, (live v).length) ∧
      getFavoriteCount db' fuel = some (live v).length ∧
      ∀ olds : Favorites, olds.length = (live v).length → (∀ r ∈ olds, r.szUrl = []) →
        ∃ out : Favorites,
          exportFavoriteData crc db' fuel (olds.map some) (live v).length =
            some ((live v).length != 0, out.map some, (live v).length) ∧
          (out.map entry).Perm ((live v).map exported) := by
  obtain ⟨favtable, urltable, himport, hstored⟩ :=
    importFavoriteData_stored now hne hcreate hkeys hv.nodup hquote
  have hlen' : ∀ r ∈ live v, wcslen r.szTitle ≤ 1022 ∧ wcslen r.szUrl ≤ 1022 := fun r hr =>
    hlen r (mem_live.mp hr).1 (mem_live.mp hr).2
  exact ⟨_, himport, hv.getFavoriteCount hstored hfuel, fun olds holds hurl =>
    hv.exportFavoriteData hstored crc hlen' hfuel holds hurl⟩

/-- Tables with a bookmark in them. -/
def leftOver : Database := ⟨some [⟨1, 0, 7, 0, ['o'], 0, 0⟩], [⟨7, ['u'], ['o']⟩]⟩

/-- A folder with a bookmark whose URL `urltable` has, and a deleted record. -/
def oneInFolder : Favorites :=
  [{ nId := 1, szTitle := ['f'], bFolder := true },
   { nId := 2, nPid := 1, szTitle := ['a'], szUrl := ['u'] },
   { nId := 3, szTitle := ['x'], szUrl := ['x'], bDelete := true }]

/-- Parents before their children. -/
theorem isForest_of_lt {v : Favorites} (hv : Indexed v) (hlt : ∀ r ∈ v, r.nPid < r.nId)
    (hp : ∀ r ∈ v, r.bDelete = false →
      r.nPid = 0 ∨ ∃ f ∈ v, f.bDelete = false ∧ f.bFolder = true ∧ f.nId = r.nPid) : IsForest v where
  indexed := hv
  parent := hp
  acyclic := by
    refine noCycle_of_lt ?_
    rintro _ _ ⟨r, hr, _, rfl, rfl⟩
    exact hlt r hr

theorem isForest_oneInFolder : IsForest oneInFolder := by
  refine isForest_of_lt (fun k r h => ?_) (by decide) (by decide)
  match k with
  | 0 => cases h; rfl
  | 1 => cases h; rfl
  | 2 => cases h; rfl
  | k + 3 => cases h

theorem export_after_import_oneInFolder : ∃ db',
    importFavoriteData (0, 0) .ok leftOver (oneInFolder.map some) =
      (.ok, db', oneInFolder.map some, 2) ∧
    getFavoriteCount db' 3 = some 2 ∧
    ∃ out : Favorites, exportFavoriteData (fun _ => 0) db' 3 [some {}, some {}] 2 =
        some (true, out.map some, 2) ∧
      (out.map entry).Perm [(0xA001, 0, ['f'], [], true), (0xA002, 0xA001, ['a'], ['u'], false)] := by
  have hkeys : GoodKeys (leftOver.urltable.map (·.iIndex)) := ⟨by decide, by decide⟩
  obtain ⟨db', himport, hcount, hexport⟩ := export_after_import (fun _ => 0) (0, 0) .ok leftOver
    oneInFolder (by decide) (fun _ => rfl) hkeys isForest_oneInFolder (by decide) (by decide) le_rfl
  exact ⟨db', himport, hcount, hexport [{}, {}] rfl (by decide)⟩

def folderWithUrl : Favorites := [{ nId := 1, szTitle := ['f'], bFolder := true, szUrl := ['u'] }]

def longTitle : Favorites := [{ nId := 1, szTitle := List.replicate 1023 'a', szUrl := ['u'] }]

/-- The database after an import into `leftOver`. -/
def imported (v : Favorites) : Database :=
  (importFavoriteData (0, 0) .ok leftOver (v.map some)).2.1

/-- A folder loses its URL, an empty list leaves the old bookmarks, and a title that fills its
    record ends the export. -/
theorem export_after_import_fails :
    (IsForest folderWithUrl ∧ getFavoriteCount (imported folderWithUrl) 1 = some 1 ∧
      ∃ r, exportFavoriteData (fun _ => 0) (imported folderWithUrl) 1 [some {}] 1 =
          some (true, [some r], 1) ∧ entry r = (0xA001, 0, ['f'], [], true)) ∧
    (IsForest [] ∧ getFavoriteCount (imported []) 1 = some 1) ∧
    (IsForest longTitle ∧ getFavoriteCount (imported longTitle) 1 = some 1 ∧
      exportFavoriteData (fun _ => 0) (imported longTitle) 1 [some {}] 1 = none) := by
  have hone : ∀ r : FavoriteLineData, r.nId = 1 → Indexed [r] := by
    intro r hr k s h
    match k with
    | 0 => cases h; exact hr
    | k + 1 => cases h
  refine ⟨⟨?_, by decide, _, rfl, by decide⟩, ⟨?_, by decide⟩, ⟨?_, by decide +kernel, by decide +kernel⟩⟩
  · exact isForest_of_lt (hone _ rfl) (by decide) (by decide)
  · exact isForest_of_lt (fun k r h => by cases h) (by decide) (by decide)
  · exact isForest_of_lt (hone _ rfl) (by decide) (by decide)

end UrlTraveler.TT
