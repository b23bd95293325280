import UrlTraveler.FireFox.Places
import UrlTraveler.PlugIn.Import
import UrlTraveler.Schemes.Tables

/-! `FireFox3PlugIn::InsertIntoDB`: the rows an import appends to `moz_bookmarks`.

    The row of a parent is not looked up. With M the greatest id before, the record with id k is
    expected in row M + k, and every deleted record that the loop has passed takes one off:

        record    1  2  3  4  5           deleted: 2
        row       1  -  2  3  4           (+ M)
        parent 1, seen from 4:   1 - 1 = 0     wrong
        parent 3, seen from 4:   3 - 1 = 2     right

    So a parent is found exactly when no deleted record lies between it and its child. -/

namespace UrlTraveler.FireFox
open DataCenter Import Tables

/-- The place of a URL: the row that has it, or a new one. -/
def placeOf (moz_places : List Place) (szUrl szTitle : WStr) : List Place × ℤ :=
  findOrInsert (·.id) moz_places (·.url = szUrl) fun id => ⟨id, szUrl, szTitle⟩

/-- The database, `nBeginId`, and the records as the loop leaves them. -/
structure Inserting where
  db : Database
  nBeginId : ℤ
  records : Favorites

/-- The body of the loop. -/
def insertStep (nRootId now : ℤ) (st : Inserting) (r : FavoriteLineData) : Inserting :=
  if r.bDelete then { st with nBeginId := st.nBeginId - 1, records := st.records ++ [r] }
  else
    let r := requote r
    let (places, nFk) := if r.szUrl ≠ [] then placeOf st.db.moz_places r.szUrl r.szTitle
      else (st.db.moz_places, -1)
    let row : Bookmark :=
      { id := newKey (st.db.moz_bookmarks.map (·.id))
        parent := if r.nPid = 0 then nRootId else r.nPid + st.nBeginId
        type := if r.bFolder then 2 else 1
        title := some r.szTitle
        position := r.nOrder
        dateAdded := now
        lastModified := now
        fk := if nFk ≠ -1 then some nFk else none }
    { st with db := ⟨st.db.moz_bookmarks ++ [row], places⟩, records := st.records ++ [r] }

/-- `InsertIntoDB(nRootId, ppData, nDataNum)`. -/
def insertIntoDB (nRootId now : ℤ) (db : Database) (v : Favorites) : Inserting :=
  v.foldl (insertStep nRootId now) ⟨db, maxKey (db.moz_bookmarks.map (·.id)), []⟩

/-! ### The appended rows -/

/-- How many live records come before index `i`. -/
def rowIndex (v : Favorites) (i : ℕ) : ℕ := (v.take i).countP fun r => !r.bDelete

/-- How many deleted records come before index `i`. -/
def passed (v : Favorites) (i : ℕ) : ℕ := (v.take i).countP (·.bDelete)

/-- The row of record `r`, `k` rows and `d` deleted records after the start. -/
structure RowOf (nRootId m b : ℤ) (k d : ℕ) (r : FavoriteLineData) (row : Bookmark) : Prop where
  id : row.id = m + 1 + k
  title : row.title = some (replaceSingleQuoteToDoubleQuote r.szTitle)
  type : row.type = if r.bFolder then 2 else 1
  position : row.position = r.nOrder
  parent : row.parent = if r.nPid = 0 then nRootId else r.nPid + (b - d)

/-- A deleted record only lowers `nBeginId`. -/
theorem insertStep_deleted (nRootId now : ℤ) (st : Inserting) {r : FavoriteLineData}
    (hd : r.bDelete = true) : (insertStep nRootId now st r).db = st.db ∧
      (insertStep nRootId now st r).nBeginId = st.nBeginId - 1 := by
  simp [insertStep, hd]

/-- A live one appends its row. -/
theorem insertStep_live (nRootId now : ℤ) (st : Inserting) {r : FavoriteLineData}
    (hd : r.bDelete = false) : (insertStep nRootId now st r).nBeginId = st.nBeginId ∧
      ∃ row, (insertStep nRootId now st r).db.moz_bookmarks = st.db.moz_bookmarks ++ [row] ∧
        row.id = newKey (st.db.moz_bookmarks.map (·.id)) ∧
        RowOf nRootId (maxKey (st.db.moz_bookmarks.map (·.id))) st.nBeginId 0 0 r row := by
  simp only [insertStep, hd, Bool.false_eq_true, if_false]
  refine ⟨trivial, _, rfl, rfl, ?_⟩
  exact ⟨by simp [newKey], rfl, rfl, rfl, by rw [Nat.cast_zero, sub_zero]; rfl⟩

/-- ROWS: the loop appends a row for every live record, in order. -/
theorem foldl_insertStep (nRootId now : ℤ) : ∀ (v : Favorites) (st : Inserting),
    ∃ inserted, (v.foldl (insertStep nRootId now) st).db.moz_bookmarks =
        st.db.moz_bookmarks ++ inserted ∧
      ∀ (i : ℕ) (r : FavoriteLineData), v[i]? = some r → r.bDelete = false →
        ∃ row, inserted[rowIndex v i]? = some row ∧
          RowOf nRootId (maxKey (st.db.moz_bookmarks.map (·.id))) st.nBeginId (rowIndex v i)
            (passed v i) r row := by
  intro v
  induction v with
  | nil => exact fun st => ⟨[], by simp, fun i r hr => by simp at hr⟩
  | cons s v ih =>
    intro st
    rw [List.foldl_cons]
    obtain ⟨inserted, hdb, hrows⟩ := ih (insertStep nRootId now st s)
    cases hd : s.bDelete with
    | true =>
      obtain ⟨hsame, hbegin⟩ := insertStep_deleted nRootId now st hd
      rw [hsame] at hdb hrows
      refine ⟨inserted, hdb, fun i r hr hlive => ?_⟩
      cases i with
      | zero =>
        obtain rfl : s = r := by simpa using hr
        rw [hd] at hlive
        cases hlive
      | succ i =>
        obtain ⟨row, hrow, h⟩ := hrows i r (by simpa using hr) hlive
        have hk : rowIndex (s :: v) (i + 1) = rowIndex v i := by simp [rowIndex, hd]
        have hp : passed (s :: v) (i + 1) = passed v i + 1 := by simp [passed, hd]
        rw [hk, hp]
        refine ⟨row, hrow, h.id, h.title, h.type, h.position, ?_⟩
        rw [h.parent, hbegin]
        push_cast
        split <;> omega
    | false =>
      obtain ⟨hbegin, first, hnew, hid, hfirst⟩ := insertStep_live nRootId now st hd
      have hmax : maxKey ((insertStep nRootId now st s).db.moz_bookmarks.map (·.id)) =
          maxKey (st.db.moz_bookmarks.map (·.id)) + 1 := by
        rw [hnew, List.map_append, List.map_singleton, hid, maxKey_concat]
        rfl
      rw [hmax, hbegin] at hrows
      refine ⟨first :: inserted, by rw [hdb, hnew, List.append_assoc]; rfl, fun i r hr hlive => ?_⟩
      cases i with
      | zero =>
        obtain rfl : s = r := by simpa using hr
        exact ⟨first, by simp [rowIndex], by simpa [rowIndex, passed] using hfirst⟩
      | succ i =>
        obtain ⟨row, hrow, h⟩ := hrows i r (by simpa using hr) hlive
        have hk : rowIndex (s :: v) (i + 1) = rowIndex v i + 1 := by simp [rowIndex, hd]
        have hp : passed (s :: v) (i + 1) = passed v i := by simp [passed, hd]
        rw [hk, hp]
        refine ⟨row, by simpa using hrow, ?_, h.title, h.type, h.position, h.parent⟩
        rw [h.id]
        push_cast
        omega

/-! ### Deleted records between parent and child -/

theorem rowIndex_add_passed : ∀ (v : Favorites) {i : ℕ}, i ≤ v.length →
    rowIndex v i + passed v i = i := by
  intro v
  induction v with
  | nil => simp [rowIndex, passed]
  | cons s v ih =>
    intro i hi
    cases i with
    | zero => simp [rowIndex, passed]
    | succ i =>
      have h := ih (i := i) (by simpa using hi)
      cases hd : s.bDelete <;> simp [rowIndex, passed, hd] at h ⊢ <;> omega

/-- No record with an index in `[i, j)` is deleted. -/
theorem passed_eq_iff (v : Favorites) {i j : ℕ} (hij : i ≤ j) :
    passed v i = passed v j ↔
      ∀ k, i ≤ k → k < j → ∀ t, v[k]? = some t → t.bDelete = false := by
  have hsplit : passed v j = passed v i + ((v.take j).drop i).countP (·.bDelete) := by
    have htake := List.take_append_drop i (v.take j)
    rw [List.take_take, Nat.min_eq_left hij] at htake
    rw [passed, passed, ← List.countP_append, htake]
  have hzero : passed v i = passed v j ↔ ((v.take j).drop i).countP (·.bDelete) = 0 := by omega
  rw [hzero, List.countP_eq_zero]
  constructor
  · intro h k hik hkj t ht
    have hmem : t ∈ (v.take j).drop i := by
      refine List.mem_of_getElem? (i := k - i) ?_
      rw [List.getElem?_drop, List.getElem?_take_of_lt (by omega), ← ht]
      congr 1
      omega
    simpa using h t hmem
  · intro h t ht
    obtain ⟨k, hk⟩ := List.mem_iff_getElem?.mp ht
    rw [List.getElem?_drop] at hk
    have hlt : i + k < j := by
      by_contra hge
      rw [List.getElem?_take_eq_none (by omega)] at hk
      cases hk
    rw [List.getElem?_take_of_lt hlt] at hk
    simpa using h (i + k) (by omega) hlt t hk

/-- The parent of a live record is the root, or a live folder. -/
def ParentsLive (v : Favorites) : Prop :=
  ∀ r ∈ v, r.bDelete = false → r.nPid = 0 ∨
    ∃ s ∈ v, s.nId = r.nPid ∧ s.bFolder = true ∧ s.bDelete = false

/-- No deleted record lies between a live record and its parent, on either side. -/
def NoneBetween (v : Favorites) : Prop :=
  ∀ (i j : ℕ) (r s : FavoriteLineData), v[i]? = some r → r.bDelete = false → r.nPid ≠ 0 →
    v[j]? = some s → s.nId = r.nPid →
    ∀ (k : ℕ) (t : FavoriteLineData), v[k]? = some t → i < k ∧ k < j ∨ j < k ∧ k < i →
      t.bDelete = false

/-- Every live record has its row, below `nRootId` or below the row of its parent. -/
def InFolders (nRootId : ℤ) (v : Favorites) (inserted : List Bookmark) : Prop :=
  ∀ (i : ℕ) (r : FavoriteLineData), v[i]? = some r → r.bDelete = false →
    ∃ row, inserted[rowIndex v i]? = some row ∧ (r.nPid = 0 → row.parent = nRootId) ∧
      (r.nPid ≠ 0 → ∀ (j : ℕ) (s : FavoriteLineData), v[j]? = some s → s.nId = r.nPid →
        ∃ row', inserted[rowIndex v j]? = some row' ∧ row.parent = row'.id)

/-- Seen from two live records, the same deletions lie behind when none lies between them. -/
theorem passed_eq_iff_between {v : Favorites} {i j : ℕ} {r s : FavoriteLineData}
    (hr : v[i]? = some r) (hrd : r.bDelete = false) (hs : v[j]? = some s)
    (hsd : s.bDelete = false) : passed v i = passed v j ↔
      ∀ (k : ℕ) (t : FavoriteLineData), v[k]? = some t → i < k ∧ k < j ∨ j < k ∧ k < i →
        t.bDelete = false := by
  -- the record at the lower end is live, so it does not matter whether it counts
  have hside : ∀ {i j : ℕ} {r : FavoriteLineData}, i ≤ j → v[i]? = some r → r.bDelete = false →
      (passed v i = passed v j ↔ ∀ (k : ℕ) (t : FavoriteLineData), v[k]? = some t →
        i < k ∧ k < j ∨ j < k ∧ k < i → t.bDelete = false) := by
    intro i j r hij hr hrd
    rw [passed_eq_iff v hij]
    constructor
    · intro h k t ht hk
      exact h k (by omega) (by omega) t ht
    · intro h k hik hkj t ht
      rcases Nat.eq_or_lt_of_le hik with rfl | hik
      · rw [← Option.some.inj (hr.symm.trans ht)]
        exact hrd
      · exact h k t ht (.inl ⟨hik, hkj⟩)
  rcases Nat.le_total i j with hij | hji
  · exact hside hij hr hrd
  · rw [eq_comm, hside hji hs hsd]
    exact ⟨fun h k t ht hk => h k t ht hk.symm, fun h k t ht hk => h k t ht hk.symm⟩

/-- FOLDERS: the rows are appended with consecutive ids, and each of them gets its parent exactly
    when no deleted record lies between a live record and its parent. -/
theorem insertIntoDB_inFolders (nRootId now : ℤ) (db : Database) (v : Favorites) (hv : Indexed v)
    (hp : ParentsLive v) :
    ∃ inserted, (insertIntoDB nRootId now db v).db.moz_bookmarks = db.moz_bookmarks ++ inserted ∧
      (∀ (i : ℕ) (r : FavoriteLineData), v[i]? = some r → r.bDelete = false →
        ∃ row, inserted[rowIndex v i]? = some row ∧
          row.id = maxKey (db.moz_bookmarks.map (·.id)) + 1 + rowIndex v i ∧
          row.title = some (replaceSingleQuoteToDoubleQuote r.szTitle)) ∧
      (InFolders nRootId v inserted ↔ NoneBetween v) := by
  obtain ⟨inserted, hdb, hrows⟩ := foldl_insertStep nRootId now v
    ⟨db, maxKey (db.moz_bookmarks.map (·.id)), []⟩
  -- the record a parent id names is live, since ids are positions
  have hlive : ∀ {i j : ℕ} {r s : FavoriteLineData}, v[i]? = some r → r.bDelete = false →
      r.nPid ≠ 0 → v[j]? = some s → s.nId = r.nPid → s.bDelete = false := by
    intro i j r s hr hd h0 hs hid
    obtain ⟨s', hs', hid', _, hd'⟩ := (hp r (List.mem_of_getElem? hr) hd).resolve_left h0
    obtain ⟨j', hj'⟩ := List.mem_iff_getElem?.mp hs'
    have hpos := hv j s hs
    have hpos' := hv j' s' hj'
    obtain rfl : j = j' := by omega
    rw [Option.some.inj (hs.symm.trans hj')]
    exact hd'
  -- one child and its parent
  have hlink : ∀ {i j : ℕ} {r s : FavoriteLineData} {row row' : Bookmark}, r.nPid ≠ 0 →
      v[j]? = some s → s.nId = r.nPid →
      RowOf nRootId (maxKey (db.moz_bookmarks.map (·.id))) (maxKey (db.moz_bookmarks.map (·.id)))
        (rowIndex v i) (passed v i) r row →
      RowOf nRootId (maxKey (db.moz_bookmarks.map (·.id))) (maxKey (db.moz_bookmarks.map (·.id)))
        (rowIndex v j) (passed v j) s row' → (row.parent = row'.id ↔ passed v i = passed v j) := by
    intro i j r s row row' h0 hs hid hrow hrow'
    have hpos := hv j s hs
    have hj := rowIndex_add_passed v (List.getElem?_eq_some_iff.mp hs).1.le
    rw [hrow.parent, if_neg h0, hrow'.id]
    omega
  refine ⟨inserted, hdb, fun i r hr hd => ?_, fun h => ?_, fun h => ?_⟩
  · obtain ⟨row, hrow, hof⟩ := hrows i r hr hd
    exact ⟨row, hrow, hof.id, hof.title⟩
  · intro i j r s hr hd h0 hs hid
    obtain ⟨row, hrow, hof⟩ := hrows i r hr hd
    obtain ⟨row', hrow', hof'⟩ := hrows j s hs (hlive hr hd h0 hs hid)
    obtain ⟨x, hx, _, hpar⟩ := h i r hr hd
    obtain ⟨y, hy, he⟩ := hpar h0 j s hs hid
    obtain rfl := Option.some.inj (hrow.symm.trans hx)
    obtain rfl := Option.some.inj (hrow'.symm.trans hy)
    exact (passed_eq_iff_between hr hd hs (hlive hr hd h0 hs hid)).mp
      ((hlink h0 hs hid hof hof').mp he)
  · intro i r hr hd
    obtain ⟨row, hrow, hof⟩ := hrows i r hr hd
    refine ⟨row, hrow, fun h0 => by rw [hof.parent, if_pos h0], fun h0 j s hs hid => ?_⟩
    have hsd := hlive hr hd h0 hs hid
    obtain ⟨row', hrow', hof'⟩ := hrows j s hs hsd
    exact ⟨row', hrow', (hlink h0 hs hid hof hof').mpr
      ((passed_eq_iff_between hr hd hs hsd).mpr (h i j r s hr hd h0 hs hid))⟩

/-- `Import.insertIntoDB` is the same loop without keys: it leaves the same records, and its rows
    have the same parents, titles and positions. -/
theorem insertIntoDB_import (nRootId now : ℤ) : ∀ (v : Favorites) (st : Inserting) (im : Imported),
    im.records = st.records →
    ∃ inserted rows, (v.foldl (insertStep nRootId now) st).db.moz_bookmarks =
        st.db.moz_bookmarks ++ inserted ∧
      (v.foldl (insertIntoDBStep nRootId) (im, st.nBeginId)).1.rows = im.rows ++ rows ∧
      inserted.map (fun row => (row.parent, row.title, row.position)) =
        rows.map (fun row => (row.parent, some row.title, row.order)) ∧
      (v.foldl (insertIntoDBStep nRootId) (im, st.nBeginId)).1.records =
        (v.foldl (insertStep nRootId now) st).records := by
  intro v
  induction v with
  | nil => exact fun st im h => ⟨[], [], by simp, by simp, rfl, h⟩
  | cons r v ih =>
    intro st im h
    rw [List.foldl_cons, List.foldl_cons]
    cases hd : r.bDelete with
    | true =>
      have hstep : insertStep nRootId now st r =
          { st with nBeginId := st.nBeginId - 1, records := st.records ++ [r] } := by
        simp [insertStep, hd]
      have hstep' : insertIntoDBStep nRootId (im, st.nBeginId) r =
          ({ im with records := im.records ++ [r] }, st.nBeginId - 1) := by
        simp [insertIntoDBStep, hd]
      rw [hstep, hstep']
      exact ih { st with nBeginId := st.nBeginId - 1, records := st.records ++ [r] } _ (by rw [h])
    | false =>
      obtain ⟨hbegin, first, hnew, -, hfirst⟩ := insertStep_live nRootId now st hd
      have hrec : (insertStep nRootId now st r).records = st.records ++ [requote r] := by
        simp [insertStep, hd]
      let row : Row := ⟨0, if r.nPid = 0 then nRootId else r.nPid + st.nBeginId, r.bFolder,
        (requote r).szTitle, (requote r).szUrl, r.nOrder⟩
      have hstep : insertIntoDBStep nRootId (im, st.nBeginId) r =
          (⟨im.records ++ [requote r], im.rows ++ [row]⟩, (insertStep nRootId now st r).nBeginId) := by
        rw [hbegin]
        simp only [insertIntoDBStep, hd, Bool.false_eq_true, if_false]
        rfl
      obtain ⟨inserted, rows, h₁, h₂, h₃, h₄⟩ := ih (insertStep nRootId now st r)
        ⟨im.records ++ [requote r], im.rows ++ [row]⟩ (by rw [hrec, h])
      rw [hstep]
      refine ⟨first :: inserted, row :: rows, by rw [h₁, hnew]; simp, by rw [h₂]; simp, ?_, h₄⟩
      rw [List.map_cons, List.map_cons, h₃, hfirst.parent, hfirst.title, hfirst.position]
      simp [row, requote]

/-- A folder, and behind a deleted record a bookmark in the folder. -/
def deletedBetween : Favorites :=
  [{ nId := 1, szTitle := ['f'], bFolder := true },
   { nId := 2, szTitle := ['x'], szUrl := ['x'], bDelete := true },
   { nId := 3, nPid := 1, szTitle := ['u'], szUrl := ['u'] }]

/-- The same records with the deleted one behind. -/
def deletedBehind : Favorites :=
  [{ nId := 1, szTitle := ['f'], bFolder := true },
   { nId := 2, nPid := 1, szTitle := ['u'], szUrl := ['u'] },
   { nId := 3, szTitle := ['x'], szUrl := ['x'], bDelete := true }]

theorem indexed_three {a b c : FavoriteLineData} (ha : a.nId = 1) (hb : b.nId = 2)
    (hc : c.nId = 3) : Indexed [a, b, c] := by
  intro k r h
  match k with
  | 0 => cases h; exact ha
  | 1 => cases h; exact hb
  | 2 => cases h; exact hc
  | k + 3 => cases h

theorem insertIntoDB_deletedBehind : ∃ inserted,
    (insertIntoDB 2 0 ⟨[], []⟩ deletedBehind).db.moz_bookmarks = inserted ∧
      InFolders 2 deletedBehind inserted := by
  have hp : ParentsLive deletedBehind := by
    unfold ParentsLive
    decide
  obtain ⟨inserted, hdb, -, hiff⟩ := insertIntoDB_inFolders 2 0 ⟨[], []⟩ deletedBehind
    (indexed_three rfl rfl rfl) hp
  refine ⟨inserted, hdb, hiff.mpr fun i j r s hr hd h0 hs hid k t ht hk => ?_⟩
  -- parent and child are neighbours
  have hi := (List.getElem?_eq_some_iff.mp hr).1
  have hj := (List.getElem?_eq_some_iff.mp hs).1
  have hlen : deletedBehind.length = 3 := rfl
  rw [hlen] at hi hj
  interval_cases i <;> interval_cases j <;> cases hr <;> cases hs <;> simp_all
  omega

/-- The row of the bookmark gets the parent 0, the row of the folder has the id 1. -/
theorem insertIntoDB_deletedBetween : Indexed deletedBetween ∧ ParentsLive deletedBetween ∧
    (insertIntoDB 2 0 ⟨[], []⟩ deletedBetween).db.moz_bookmarks.map (fun row => (row.id, row.parent)) =
      [(1, 2), (2, 0)] ∧
    ¬ InFolders 2 deletedBetween (insertIntoDB 2 0 ⟨[], []⟩ deletedBetween).db.moz_bookmarks := by
  refine ⟨indexed_three rfl rfl rfl, by unfold ParentsLive; decide, by decide, fun h => ?_⟩
  obtain ⟨row, hrow, -, hpar⟩ := h 2 _ rfl rfl
  obtain ⟨row', hrow', he⟩ := hpar (by decide) 0 _ rfl rfl
  cases hrow
  cases hrow'
  revert he
  decide

end UrlTraveler.FireFox
