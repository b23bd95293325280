import UrlTraveler.DataCenter.Renumber

/-! `DoImportThread`: one vector of records is handed to every plug-in in turn.

    The plug-ins get the records themselves, not copies. Those that write SQL text put titles and
    URLs between single quotes, and first turn every single quote inside them into a double quote,
    in the record:

        vector   O'Reilly   ──Sogou──▶   O"Reilly   ──Chrome──▶   O"Reilly
        seen by             O'Reilly                 O"Reilly

    So what a plug-in is given depends on the ones before it. `sameBookmarks_iff` says when it does
    not. A statement that SQLite answers with an exception ends the program; what is modelled are
    the runs in which none does. -/

namespace UrlTraveler.Import
open DataCenter

/-- The plug-ins, by class. `Maxthon3PlugIn` declares its import with another parameter type and so
    keeps the empty one of its base class. -/
inductive PlugIn
  | sogou | ie | maxthon2 | maxthon3 | se2of360 | se3of360 | chromeOf360 | chrome | fireFox3 | tt | qq
  deriving DecidableEq

/-- What a statement returned. -/
inductive SqliteCode
  | ok | busy | locked | other
  deriving DecidableEq

/-- What a plug-in finds: whether it has its database in memory and a path, whether its table is
    there, what clearing or creating the table returned, the greatest ids Firefox reports before
    each of its two passes, and what the plug-ins that write files return. -/
structure Store where
  memFavoriteDB : Bool := true
  path : Bool := true
  tableExists : Bool := true
  cleared : SqliteCode := .ok
  created : SqliteCode := .ok
  maxId : ℤ × ℤ := (0, 0)
  fileResult : ℤ := 0

/-- A row of the table a plug-in fills. -/
structure Row where
  id : ℤ
  parent : ℤ
  folder : Bool
  title : WStr
  url : WStr
  order : ℤ
  deriving DecidableEq

/-- `ReplaceSingleQuoteToDoubleQuote`. -/
def replaceSingleQuoteToDoubleQuote (s : WStr) : WStr :=
  s.map fun ch => if ch = '\x27' then '"' else ch

/-- What the loops do to a record that is not deleted. -/
def requote (r : FavoriteLineData) : FavoriteLineData :=
  { r with szTitle := replaceSingleQuoteToDoubleQuote r.szTitle,
           szUrl := replaceSingleQuoteToDoubleQuote r.szUrl }

/-- The records as they are after a loop, and the rows it inserted. -/
structure Imported where
  records : Favorites
  rows : List Row
  deriving DecidableEq

/-- The body of the loops of Sogou, 360SE3 and TT, which keeps its URLs in a table of their own. -/
def insertRecord (st : Imported) (r : FavoriteLineData) : Imported :=
  if r.bDelete then { st with records := st.records ++ [r] }
  else
    let r := requote r
    ⟨st.records ++ [r],
      st.rows ++ [⟨r.nId, r.nPid, r.bFolder, r.szTitle, r.szUrl, r.nOrder⟩]⟩

/-- The body of the loop of `InsertIntoDB`; every deleted record lowers `nBeginId` by one. -/
def insertIntoDBStep (nRootId : ℤ) (st : Imported × ℤ) (r : FavoriteLineData) : Imported × ℤ :=
  if r.bDelete then ({ st.1 with records := st.1.records ++ [r] }, st.2 - 1)
  else
    let r := requote r
    let parent := if r.nPid = 0 then nRootId else r.nPid + st.2
    (⟨st.1.records ++ [r],
      st.1.rows ++ [⟨0, parent, r.bFolder, r.szTitle, r.szUrl, r.nOrder⟩]⟩, st.2)

/-- `InsertIntoDB`; SQLite gives the rows their ids. -/
def insertIntoDB (nRootId nBeginId : ℤ) (st : Imported) : Imported :=
  (st.records.foldl (insertIntoDBStep nRootId) (⟨[], st.rows⟩, nBeginId)).1

/-- Error codes. -/
inductive Code
  | ok | invalidParam | sqliteError | sqliteBusy | favoritePathNotExist | cannotCreateDB
  | file (result : ℤ)
  deriving DecidableEq

/-- `ImportFavoriteData` of a plug-in: its return value, the records afterwards, the rows it
    inserted. The plug-ins that write files read the records only. -/
def importFavoriteData (p : PlugIn) (s : Store) (v : Favorites) : Code × Imported :=
  if v = [] ∧ p ≠ .se2of360 ∧ p ≠ .maxthon3 then (.invalidParam, ⟨v, []⟩)
  else match p with
    | .sogou =>
      if s.memFavoriteDB then (.ok, v.foldl insertRecord ⟨[], []⟩) else (.sqliteError, ⟨v, []⟩)
    | .se3of360 =>
      if !s.path then (.favoritePathNotExist, ⟨v, []⟩)
      else if s.tableExists && (s.cleared == .busy || s.cleared == .locked) then
        (.sqliteBusy, ⟨v, []⟩)
      else (.ok, v.foldl insertRecord ⟨[], []⟩)
    | .tt =>
      if !s.tableExists && s.created != .ok then (.cannotCreateDB, ⟨v, []⟩)
      else (.ok, v.foldl insertRecord ⟨[], []⟩)
    | .fireFox3 => (.ok, insertIntoDB 3 s.maxId.2 (insertIntoDB 2 s.maxId.1 ⟨v, []⟩))
    | .maxthon2 => (if s.memFavoriteDB then .ok else .sqliteError, ⟨v, []⟩)
    | .maxthon3 | .se2of360 => (.ok, ⟨v, []⟩)
    | .ie | .chromeOf360 | .chrome | .qq => (.file s.fileResult, ⟨v, []⟩)

/-- What the loop of `DoImportThread` does with one plug-in. -/
def importOne (v : Favorites) (p : PlugIn × Store) : Favorites :=
  (importFavoriteData p.1 p.2 v).2.records

/-- `DoImportThread`: the vector as each plug-in is given it, and last as it is left. -/
def doImportThread (m_vPlugIns : List (PlugIn × Store)) (v : Favorites) : List Favorites :=
  ((reArrange v).map fun w => m_vPlugIns.scanl importOne w).getD [v]

/-! ### What the plug-ins leave -/

/-- What is to be imported of a record. -/
def bookmark (r : FavoriteLineData) : WStr × WStr × Bool × Bool × ℤ × ℤ :=
  (r.szTitle, r.szUrl, r.bFolder, r.bDelete, r.nId, r.nPid)

/-- The plug-in gets to a loop that changes quotes. -/
def Rewrites : PlugIn × Store → Prop
  | (.sogou, s) => s.memFavoriteDB = true
  | (.se3of360, s) => s.path = true ∧ (s.tableExists = true → s.cleared ≠ .busy ∧ s.cleared ≠ .locked)
  | (.tt, s) => s.tableExists = true ∨ s.created = .ok
  | (.fireFox3, _) => True
  | _ => False

/-- No record that is not deleted has a single quote in its title or URL. -/
def NoQuotes (v : Favorites) : Prop :=
  ∀ r ∈ v, r.bDelete = false → '\x27' ∉ r.szTitle ∧ '\x27' ∉ r.szUrl

/-- All records that are not deleted with their quotes changed. -/
def requoteAll (v : Favorites) : Favorites := v.map fun r => if r.bDelete then r else requote r

theorem replaceSingleQuote_eq_self {s : WStr} :
    replaceSingleQuoteToDoubleQuote s = s ↔ '\x27' ∉ s := by
  induction s with
  | nil => simp [replaceSingleQuoteToDoubleQuote]
  | cons ch s ih =>
    rw [replaceSingleQuoteToDoubleQuote] at ih ⊢
    rw [List.map_cons, List.cons.injEq, ih, List.mem_cons, not_or]
    refine and_congr_left fun _ => ?_
    by_cases h : ch = '\x27'
    · simp [h]
    · simp [h, Ne.symm h]

theorem replaceSingleQuote_twice (s : WStr) : replaceSingleQuoteToDoubleQuote
    (replaceSingleQuoteToDoubleQuote s) = replaceSingleQuoteToDoubleQuote s := by
  rw [replaceSingleQuote_eq_self, replaceSingleQuoteToDoubleQuote, List.mem_map]
  rintro ⟨ch, _, h⟩
  split at h
  · exact absurd h (by decide)
  · exact ‹¬ _› h

theorem requoteAll_twice (v : Favorites) : requoteAll (requoteAll v) = requoteAll v := by
  rw [requoteAll, requoteAll, List.map_map]
  refine List.map_congr_left fun r _ => ?_
  cases hd : r.bDelete <;> simp [hd, requote, replaceSingleQuote_twice]

theorem foldl_insertRecord : ∀ (v : Favorites) (st : Imported),
    (v.foldl insertRecord st).records = st.records ++ requoteAll v
  | [], st => (List.append_nil _).symm
  | r :: v, st => by
    rw [List.foldl_cons, foldl_insertRecord v, insertRecord]
    cases hd : r.bDelete <;> simp [requoteAll, hd]

theorem foldl_insertIntoDBStep (nRootId : ℤ) : ∀ (v : Favorites) (st : Imported × ℤ),
    (v.foldl (insertIntoDBStep nRootId) st).1.records = st.1.records ++ requoteAll v
  | [], st => (List.append_nil _).symm
  | r :: v, st => by
    rw [List.foldl_cons, foldl_insertIntoDBStep nRootId v, insertIntoDBStep]
    cases hd : r.bDelete <;> simp [requoteAll, hd]

theorem insertIntoDB_records (nRootId nBeginId : ℤ) (st : Imported) :
    (insertIntoDB nRootId nBeginId st).records = requoteAll st.records := by
  rw [insertIntoDB, foldl_insertIntoDBStep]
  rfl

/-- A plug-in changes the quotes of all records, or nothing. -/
theorem importOne_cases (v : Favorites) (p : PlugIn × Store) :
    Rewrites p ∧ importOne v p = requoteAll v ∨ ¬ Rewrites p ∧ importOne v p = v := by
  obtain ⟨p, s⟩ := p
  rcases eq_or_ne v [] with rfl | hne
  · -- nothing to import, nothing to change
    have hnil : importOne [] (p, s) = [] := by
      cases p <;> simp [importOne, importFavoriteData]
    rw [hnil]
    exact (em (Rewrites (p, s))).imp (⟨·, rfl⟩) (⟨·, rfl⟩)
  have hgo : ¬ (v = [] ∧ p ≠ .se2of360 ∧ p ≠ .maxthon3) := fun h => hne h.1
  have hloop : (v.foldl insertRecord ⟨[], []⟩).records = requoteAll v := by
    rw [foldl_insertRecord, List.nil_append]
  rw [importOne, importFavoriteData.eq_def, if_neg hgo]
  cases p with
  | sogou =>
    cases hdb : s.memFavoriteDB with
    | true => exact .inl ⟨hdb, by simpa [hdb] using hloop⟩
    | false => exact .inr ⟨by simp [Rewrites, hdb], by simp⟩
  | se3of360 =>
    cases hpath : s.path with
    | false => exact .inr ⟨by simp [Rewrites, hpath], by simp⟩
    | true =>
      by_cases hbusy : s.tableExists = true ∧ (s.cleared = .busy ∨ s.cleared = .locked)
      · refine .inr ⟨fun h => ?_, by simp [hbusy]⟩
        exact hbusy.2.elim (h.2 hbusy.1).1 (h.2 hbusy.1).2
      · refine .inl ⟨⟨hpath, fun ht => ?_⟩, by simpa [hpath, hbusy] using hloop⟩
        exact not_or.mp fun h => hbusy ⟨ht, h⟩
  | tt =>
    by_cases hfail : s.tableExists = false ∧ s.created ≠ .ok
    · refine .inr ⟨fun h => ?_, by simp [hfail]⟩
      rcases h with h | h
      · exact absurd (hfail.1.symm.trans h) (by decide)
      · exact hfail.2 h
    · refine .inl ⟨?_, by simpa [hfail] using hloop⟩
      cases ht : s.tableExists with
      | true => exact .inl ht
      | false => exact .inr (by_contra fun h => hfail ⟨ht, h⟩)
  | fireFox3 =>
    refine .inl ⟨trivial, ?_⟩
    show (insertIntoDB 3 s.maxId.2 (insertIntoDB 2 s.maxId.1 ⟨v, []⟩)).records = requoteAll v
    rw [insertIntoDB_records, insertIntoDB_records, requoteAll_twice]
  | _ => exact .inr ⟨id, rfl⟩

theorem map_bookmark_requoteAll (v : Favorites) :
    (requoteAll v).map bookmark = v.map bookmark ↔ NoQuotes v := by
  rw [requoteAll, List.map_map, List.map_inj_left]
  refine forall₂_congr fun r _ => ?_
  cases hd : r.bDelete with
  | true => simp [hd]
  | false => simp [hd, bookmark, requote, replaceSingleQuote_eq_self]

theorem NoQuotes.requoteAll {v : Favorites} (h : NoQuotes v) : requoteAll v = v := by
  refine (List.map_congr_left fun r hr => ?_).trans (List.map_id v)
  cases hd : r.bDelete with
  | true => rfl
  | false =>
    obtain ⟨ht, hu⟩ := h r hr hd
    simp [requote, replaceSingleQuote_eq_self.mpr ht, replaceSingleQuote_eq_self.mpr hu]

/-! ### Along the list of plug-ins -/

/-- The plug-ins see the same bookmarks when none of them changes quotes or there are none. -/
theorem scanl_bookmark_iff {v : Favorites} : ∀ (ps : List (PlugIn × Store)),
    (∀ w ∈ ps.scanl importOne v, w.map bookmark = v.map bookmark) ↔
      NoQuotes v ∨ ∀ p ∈ ps, ¬ Rewrites p
  | [] => by simp
  | p :: ps => by
    rw [List.scanl_cons, List.forall_mem_cons, List.forall_mem_cons]
    rcases importOne_cases v p with ⟨hp, hstep⟩ | ⟨hp, hstep⟩
    · rw [hstep]
      constructor
      · intro h
        have := h.2 (requoteAll v) (by cases ps <;> simp [List.scanl])
        exact .inl ((map_bookmark_requoteAll v).mp this)
      · rintro (hq | ⟨hno, _⟩)
        · rw [hq.requoteAll]
          exact ⟨rfl, (scanl_bookmark_iff ps).mpr (.inl hq)⟩
        · exact absurd hp hno
    · rw [hstep, scanl_bookmark_iff ps]
      simp [hp]

theorem noQuotes_reArrange {v w : Favorites} (h : reArrange v = some w) : NoQuotes w ↔ NoQuotes v := by
  constructor
  · intro hw r hr hd
    obtain ⟨k, hk⟩ := List.mem_iff_getElem?.mp hr
    have hnew := hw _ ((mem_reArrange h).mpr ⟨k, r, hk, rfl⟩)
    exact hnew hd
  · intro hv r hr hd
    obtain ⟨k, r₀, hk, rfl⟩ := (mem_reArrange h).mp hr
    exact hv r₀ (List.mem_of_getElem? hk) hd

/-- SAME BOOKMARKS: every plug-in of every list is given the bookmarks as they were after
    `ReArrange`, and they are left so, exactly when no live record has a single quote or no plug-in
    of the list gets to a loop that changes quotes. -/
theorem sameBookmarks_iff (m_vPlugIns : List (PlugIn × Store)) (v : Favorites) :
    (∀ w ∈ doImportThread m_vPlugIns v, w.map bookmark = ((reArrange v).getD v).map bookmark) ↔
      NoQuotes v ∨ ∀ p ∈ m_vPlugIns, ¬ Rewrites p := by
  cases hv : reArrange v with
  | none =>
    have hnil : v = [] := by
      by_contra hne
      simp [reArrange, hne] at hv
    rw [doImportThread, hv]
    simp [hnil, NoQuotes]
  | some w =>
    rw [doImportThread, hv, Option.map_some, Option.getD_some, Option.getD_some,
      scanl_bookmark_iff m_vPlugIns, noQuotes_reArrange hv]

/-- One bookmark with a quote in its title. -/
def quoted : Favorites := [{ nId := 1, szTitle := ['O', '\x27', 'R'], szUrl := ['u'] }]

/-- Sogou before Chrome: Chrome is given another title. -/
theorem quoted_rewritten : (doImportThread [(.sogou, {}), (.chrome, {})] quoted).map
      (fun w => w.map (·.szTitle)) =
    [[['O', '\x27', 'R']], [['O', '"', 'R']], [['O', '"', 'R']]] ∧
    ¬ ∀ w ∈ doImportThread [(.sogou, {}), (.chrome, {})] quoted,
      w.map bookmark = ((reArrange quoted).getD quoted).map bookmark := by
  constructor
  · decide
  · decide

end UrlTraveler.Import
