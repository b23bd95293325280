import UrlTraveler.Favorite
import UrlTraveler.Schemes.Maps
import UrlTraveler.Schemes.Runs

/-! `DatabaseModule`: the table fav_icon, from domains to icons.

    Both operations begin with `PrepareFavoriteTable`, which says whether the table was there, and do
    nothing more when it was not:

        no table     save u d   ──▶  an empty table, d is lost
                     get u      ──▶  an empty table, no icon
        a table      save u d   ──▶  INSERT: the first row for a domain stays, `url` is UNIQUE
                     get u      ──▶  the bytes of the row, cut at 20481

    A domain is the text of a literal in the statement, in the system's code page. In pairs its quotes
    are quotes of the literal; a quote alone ends the literal, and what SQLite makes of the rest is a
    parameter. The database can be opened. -/

namespace UrlTraveler.Database
open Maps Runs

def DB_MAX_LEN_BINARY_BUFFER : ℕ := 20480 + 1

/-- The encoding of `CppSQLite3Binary`: text that is never empty and can be decoded. -/
structure Blob where
  encode : List UInt8 → List Char
  decode : List Char → List UInt8
  encode_ne_nil : ∀ d, encode d ≠ []
  decode_encode : ∀ d, decode (encode d) = d

/-- Rows by `url`. -/
abbrev Table := List (List Char × List Char)

/-- What the module takes from the system: the code page, the encoding, icons made from bytes, and
    the effect of the statements whose literal ends early. -/
structure Platform (HICON : Type) where
  unicodeToANSI : WStr → List Char
  blob : Blob
  createIconFromBuffer : List UInt8 → Option HICON
  insertOther : List Char → List Char → Table → Table
  selectOther : List Char → Table → Option (List Char)

/-- The value of the literal that `text` and a quote behind it are. -/
def literal : List Char → Option (List Char)
  | [] => some []
  | '\x27' :: '\x27' :: text => (literal text).map ('\x27' :: ·)
  | '\x27' :: _ => none
  | c :: text => (literal text).map (c :: ·)

variable {HICON : Type} (p : Platform HICON)

/-- INSERT INTO fav_icon(url, data): a row for the same url is a violated constraint. -/
def insert (table : Table) (url : WStr) (data : List Char) : Table :=
  match literal (p.unicodeToANSI url) with
  | some key => insertNew table key data
  | none => p.insertOther (p.unicodeToANSI url) data table

/-- SELECT data FROM fav_icon WHERE url. -/
def select (table : Table) (url : WStr) : Option (List Char) :=
  match literal (p.unicodeToANSI url) with
  | some key => table.lookup key
  | none => p.selectOther (p.unicodeToANSI url) table

/-- `SQLite3EncodeBlob2Buffer`. -/
def sqlite3EncodeBlob2Buffer (data : List Char) : List UInt8 :=
  let binary := p.blob.decode data
  if binary.length ≤ DB_MAX_LEN_BINARY_BUFFER then binary else binary.take DB_MAX_LEN_BINARY_BUFFER

/-- Whether the table was there; it is afterwards. -/
def prepareFavoriteTable (db : Option Table) : Table × Bool :=
  match db with
  | some table => (table, true)
  | none => ([], false)

def getFavoriteIcon (db : Option Table) (wstrFavoriteUrl : WStr) : Option Table × Option HICON :=
  match prepareFavoriteTable db with
  | (table, false) => (some table, none)
  | (table, true) =>
    (some table, (select p table wstrFavoriteUrl).bind fun data =>
      if data = [] then none else p.createIconFromBuffer (sqlite3EncodeBlob2Buffer p data))

def saveFavoriteIcon (db : Option Table) (szFavoriteUrl : WStr) (pIconData : List UInt8) :
    Option Table :=
  match prepareFavoriteTable db with
  | (table, false) => some table
  | (table, true) => some (insert p table szFavoriteUrl (p.blob.encode pIconData))

/-! ### Runs -/

inductive IconAct
  | save (u : WStr) (d : List UInt8)
  | get (u : WStr)
  deriving DecidableEq

/-- The database, the last save of each domain, and every answer beside the one that was due. -/
structure Watched (HICON : Type) where
  db : Option Table := none
  saved : List (WStr × List UInt8) := []
  answers : List (Option HICON × Option HICON) := []

/-- The icon a domain should have. -/
def Watched.due (s : Watched HICON) (u : WStr) : Option HICON :=
  (s.saved.lookup u).bind p.createIconFromBuffer

def iconStep (s : Watched HICON) : IconAct → Option (Watched HICON)
  | .save u d => some { s with db := saveFavoriteIcon p s.db u d, saved := setKey s.saved u d }
  | .get u =>
    let (db, hicon) := getFavoriteIcon p s.db u
    some { s with db, answers := s.answers ++ [(hicon, s.due p u)] }

/-- Every answer was the one that was due. -/
def Watched.Right (s : Watched HICON) : Prop := ∀ a ∈ s.answers, a.1 = a.2

/-- The key of a domain, when its quotes come in pairs. -/
def keyOf (u : WStr) : Option (List Char) := literal (p.unicodeToANSI u)

/-- A save into a table, of an icon that fits, under a key that is new or has this icon; a get of a
    domain that shares its key with no other that was saved. -/
def Careful (s : Watched HICON) : IconAct → Prop
  | .save u d => d.length ≤ DB_MAX_LEN_BINARY_BUFFER ∧ ∃ table ∈ s.db, ∃ key ∈ keyOf p u,
      table.lookup key = none ∨ table.lookup key = some (p.blob.encode d)
  | .get u => ∃ key ∈ keyOf p u, ∀ v ∈ s.saved.map (·.1), keyOf p v = some key → v = u

instance (s : Watched HICON) : DecidablePred (Careful p s)
  | .save _ _ => inferInstanceAs (Decidable (_ ∧ ∃ _ ∈ _, ∃ _ ∈ _, _))
  | .get _ => inferInstanceAs (Decidable (∃ _ ∈ _, ∀ _ ∈ _, _))

/-- The table has the last save of every domain under its key, and nothing else. -/
structure Watched.Sound (s : Watched HICON) : Prop where
  right : s.Right
  none_saved : s.db = none → s.saved = []
  row : ∀ table, s.db = some table → ∀ u d, s.saved.lookup u = some d →
    d.length ≤ DB_MAX_LEN_BINARY_BUFFER ∧
      ∃ key, keyOf p u = some key ∧ table.lookup key = some (p.blob.encode d)
  saved_of_row : ∀ table, s.db = some table → ∀ key, (table.lookup key).isSome →
    ∃ u ∈ s.saved.map (·.1), keyOf p u = some key

variable {p} {s s' : Watched HICON} {u : WStr} {d : List UInt8}

theorem select_eq {table : Table} {key : List Char} (hkey : keyOf p u = some key) :
    select p table u = table.lookup key := by
  rw [keyOf] at hkey
  rw [select, hkey]

theorem insert_eq {table : Table} {key data : List Char} (hkey : keyOf p u = some key) :
    insert p table u data = insertNew table key data := by
  rw [keyOf] at hkey
  rw [insert, hkey]

/-- What is read back of a row that fits. -/
theorem sqlite3EncodeBlob2Buffer_encode (hd : d.length ≤ DB_MAX_LEN_BINARY_BUFFER) :
    sqlite3EncodeBlob2Buffer p (p.blob.encode d) = d := by
  simp only [sqlite3EncodeBlob2Buffer, p.blob.decode_encode, hd, if_true]

/-- The answer, where there is a table. -/
theorem getFavoriteIcon_row {table : Table} {key : List Char} (hkey : keyOf p u = some key)
    (hd : d.length ≤ DB_MAX_LEN_BINARY_BUFFER)
    (hrow : table.lookup key = some (p.blob.encode d)) :
    getFavoriteIcon p (some table) u = (some table, p.createIconFromBuffer d) := by
  simp only [getFavoriteIcon, prepareFavoriteTable, select_eq hkey, hrow, Option.bind_some]
  rw [if_neg (p.blob.encode_ne_nil d), sqlite3EncodeBlob2Buffer_encode hd]

theorem getFavoriteIcon_noRow {table : Table} {key : List Char} (hkey : keyOf p u = some key)
    (hrow : table.lookup key = none) :
    getFavoriteIcon p (some table) u = (some table, none) := by
  simp only [getFavoriteIcon, prepareFavoriteTable, select_eq hkey, hrow, Option.bind_none]

theorem mem_keys_setKey {m : List (WStr × List UInt8)} {v : WStr} :
    v ∈ (setKey m u d).map (·.1) ↔ v = u ∨ v ∈ m.map (·.1) := by
  rw [mem_keys, mem_keys, lookup_setKey]
  by_cases h : v = u <;> simp [h]

/-- A row that is new, or as it was, is the last save. -/
theorem save_sound (h : s.Sound p) (hok : Careful p s (.save u d))
    (hs : iconStep p s (.save u d) = some s') : s'.Sound p := by
  obtain ⟨hd, table, hdb, key, hkey, hrow⟩ := hok
  cases hs
  have hsave : saveFavoriteIcon p s.db u d = some (insertNew table key (p.blob.encode d)) := by
    rw [Option.mem_def.mp hdb]
    simp only [saveFavoriteIcon, prepareFavoriteTable, insert_eq hkey]
  have hnew : (insertNew table key (p.blob.encode d)).lookup key = some (p.blob.encode d) := by
    rw [lookup_insertNew]
    rcases hrow with hrow | hrow <;> simp [hrow]
  have hold : ∀ k data, table.lookup k = some data →
      (insertNew table key (p.blob.encode d)).lookup k = some data := by
    intro k data hk
    rw [lookup_insertNew, hk]
    rfl
  refine ⟨h.right, fun hnone => ?_, fun t ht v e hv => ?_, fun t ht k hk => ?_⟩
  · simp [hsave] at hnone
  · cases hsave.symm.trans ht
    rw [lookup_setKey] at hv
    split at hv
    next hvu =>
      cases hv
      exact ⟨hd, key, hvu ▸ hkey, hnew⟩
    next =>
      obtain ⟨he, k, hk, hrow'⟩ := h.row table hdb v e hv
      exact ⟨he, k, hk, hold k _ hrow'⟩
  · cases hsave.symm.trans ht
    by_cases hkk : k = key
    · exact ⟨u, mem_keys_setKey.mpr (.inl rfl), hkk ▸ hkey⟩
    · rw [lookup_insertNew, if_neg hkk, Option.or_none] at hk
      obtain ⟨v, hv, hvk⟩ := h.saved_of_row table hdb k hk
      exact ⟨v, mem_keys_setKey.mpr (.inr hv), hvk⟩

/-- The empty table has every row it should have. -/
theorem Watched.Sound.prepared (h : s.Sound p) : { s with db := some (s.db.getD []) }.Sound p := by
  cases hdb : s.db with
  | none =>
    refine ⟨h.right, fun hnone => ?_, fun t _ v e hv => ?_, fun t ht k hk => ?_⟩
    · cases hnone
    · rw [h.none_saved hdb] at hv
      cases hv
    · cases ht
      cases hk
  | some table =>
    rw [Option.getD_some, ← hdb]
    exact h

theorem get_answer (h : s.Sound p) (hok : Careful p s (.get u)) :
    getFavoriteIcon p s.db u = (some (s.db.getD []), s.due p u) := by
  obtain ⟨key, hkey, honly⟩ := hok
  rw [Watched.due]
  cases hdb : s.db with
  | none =>
    rw [h.none_saved hdb]
    rfl
  | some table =>
    cases hlast : s.saved.lookup u with
    | some d =>
      obtain ⟨hd, k, hk, hrow⟩ := h.row table hdb u d hlast
      exact getFavoriteIcon_row hk hd hrow
    | none =>
      -- a row under this key was saved for this domain, so there is none
      refine getFavoriteIcon_noRow hkey (Option.not_isSome_iff_eq_none.mp fun hrow => ?_)
      obtain ⟨v, hv, hvk⟩ := h.saved_of_row table hdb key hrow
      obtain rfl := honly v hv hvk
      rw [mem_keys, hlast] at hv
      cases hv

theorem get_sound (h : s.Sound p) (hok : Careful p s (.get u))
    (hs : iconStep p s (.get u) = some s') : s'.Sound p := by
  simp only [iconStep, get_answer h hok, Option.some.injEq] at hs
  subst hs
  have hprep := h.prepared
  refine ⟨fun a ha => ?_, hprep.none_saved, hprep.row, hprep.saved_of_row⟩
  rcases List.mem_append.mp ha with ha | ha
  · exact h.right a ha
  · rw [List.mem_singleton.mp ha]

theorem start_sound : ({} : Watched HICON).Sound p where
  right a ha := by cases ha
  none_saved _ := rfl
  row _ h := by cases h
  saved_of_row _ h := by cases h

/-- In a run of careful steps every answer is the icon of the last save. -/
theorem favIcons_readAfterWrite (p : Platform HICON) (acts : List IconAct)
    (hok : Along (iconStep p) (Careful p) {} acts) :
    ∀ s ∈ states (iconStep p) {} acts, s.Right := by
  have hstep : ∀ (s : Watched HICON) (a : IconAct) (s' : Watched HICON),
      s.Sound p → Careful p s a → iconStep p s a = some s' → s'.Sound p := by
    intro s a s' h hok hs
    cases a with
    | save u d => exact save_sound h hok hs
    | get u => exact get_sound h hok hs
  exact fun s hs => (invariant hstep acts {} start_sound hok s hs).right

/-! ### A database of one icon -/

/-- What `CppSQLite3Binary` does to bytes among which 2, 3 and 41 do not occur: each less 2, behind
    the 2. -/
def sampleBlob : Blob where
  encode d := '\x02' :: d.map fun b => Char.ofNat (b - 2).toNat
  decode text := text.tail.map fun c => UInt8.ofNat c.toNat + 2
  encode_ne_nil d := List.cons_ne_nil _ _
  decode_encode d := by
    have hbyte : ∀ b : UInt8, UInt8.ofNat (Char.ofNat (b - 2).toNat).toNat + 2 = b := by
      intro b
      have hlt : (b - 2).toNat < 256 := UInt8.toNat_lt _
      rw [Char.toNat_ofNat, if_pos (.inl (by omega)), UInt8.ofNat_toNat, sub_add_cancel]
    simp [Function.comp_def, hbyte]

/-- Icons are known by the first bytes of their file. -/
def samplePlatform : Platform (List UInt8) where
  unicodeToANSI := id
  blob := sampleBlob
  createIconFromBuffer d := if d.take 4 = [0, 0, 1, 0] then some d else none
  insertOther _ _ table := table
  selectOther _ _ := none

/-- A first get makes the table; the icon is then saved twice. -/
def savedTwice : List IconAct :=
  [.get ['a'], .save ['a'] [0, 0, 1, 0], .save ['a'] [0, 0, 1, 0], .get ['a'], .get ['b']]

theorem favIcons_readAfterWrite_savedTwice :
    Along (iconStep samplePlatform) (Careful samplePlatform) {} savedTwice ∧
      ∀ s ∈ states (iconStep samplePlatform) {} savedTwice, s.Right := by
  have hok : Along (iconStep samplePlatform) (Careful samplePlatform) {} savedTwice := by
    decide
  exact ⟨hok, favIcons_readAfterWrite samplePlatform savedTwice hok⟩

/-- The first save is lost. -/
theorem favIcons_firstSave_lost :
    ¬ ∀ s ∈ states (iconStep samplePlatform) {} [.save ['a'] [0, 0, 1, 0], .get ['a']], s.Right := by
  unfold Watched.Right
  decide

end UrlTraveler.Database
