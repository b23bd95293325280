import UrlTraveler.Chrome.Tree
import UrlTraveler.Json.Reader

/-! The JSON of one bookmark node.

    `MakeFolderNode` and `MakeUrlNode` print a text into a buffer of fixed size and read it back as
    JSON. The title and the URL go into the text as they are:

        {  "date_added": "0",  "id": "2",  "name": "a"b",  "type": "url",  "url": "http://b"}

    is read up to the second quote of the name and no further. A plain title and a plain URL are
    read back unchanged. -/

namespace UrlTraveler.Chrome
open Json

/-! ### Names -/

namespace Key

def children : List Char := ['c', 'h', 'i', 'l', 'd', 'r', 'e', 'n']
def dateAdded : List Char := ['d', 'a', 't', 'e', '_', 'a', 'd', 'd', 'e', 'd']
def dateModified : List Char := ['d', 'a', 't', 'e', '_', 'm', 'o', 'd', 'i', 'f', 'i', 'e', 'd']
def id : List Char := ['i', 'd']
def name : List Char := ['n', 'a', 'm', 'e']
def type : List Char := ['t', 'y', 'p', 'e']
def url : List Char := ['u', 'r', 'l']
def folder : List Char := ['f', 'o', 'l', 'd', 'e', 'r']

end Key

/-! ### The texts -/

/-- `wcslen`: characters outside the basic plane are two units. -/
def wcslen (s : WStr) : ℕ := (s.map fun c => if c.toNat < 0x10000 then 1 else 2).sum

/-- `_i64toa_s` on a remainder modulo 10. -/
def digitText (nMod : ℤ) : List Char :=
  if nMod < 0 then ['-', Nat.digitChar nMod.natAbs] else [Nat.digitChar nMod.natAbs]

/-- The loop of `Int64ToString`; an `int64` has at most 19 digits. -/
def int64Loop : ℕ → ℤ → List Char → List Char
  | 0, _, strTime => strTime
  | fuel + 1, nQuot, strTime =>
    if nQuot = 0 then strTime else int64Loop fuel (nQuot.tdiv 10) (strTime ++ digitText (nQuot.tmod 10))

/-- `Int64ToString`. -/
def int64ToString (nTime : ℤ) : List Char := (int64Loop 19 nTime []).reverse

/-- `%u`. -/
def decimal (n : ℕ) : List Char := Nat.toDigits 10 n

/-- What the continuation lines of the format strings start with. -/
def indent : List Char := ['\t', '\t', '\t', '\t', '\t', ' ', ' ']

def folderFields (strAddTime strModifyTime : List Char) (nIndex : ℕ) (szTitle : WStr) :
    List (List Char × List Char) :=
  [(Key.dateAdded, strAddTime), (Key.dateModified, strModifyTime),
   (Key.id, decimal nIndex), (Key.name, szTitle), (Key.type, Key.folder)]

/-- The text of a folder, for `MakeFolderNode` and `MakeSpecialFolderNode`. -/
def folderText (strAddTime strModifyTime : List Char) (nIndex : ℕ) (szTitle : WStr) : WStr :=
  [' ', '{', ' ', '"'] ++ (Key.children ++ (['"', ':', ' ', '[', ' ', ']', ','] ++
    (fieldsText indent (folderFields strAddTime strModifyTime nIndex szTitle) ++ [' ', '}'])))

def urlFields (strAddTime : List Char) (nIndex : ℕ) (szTitle szUrl : WStr) :
    List (List Char × List Char) :=
  [(Key.dateAdded, strAddTime), (Key.id, decimal nIndex), (Key.name, szTitle),
   (Key.type, Key.url), (Key.url, szUrl)]

def urlText (strAddTime : List Char) (nIndex : ℕ) (szTitle szUrl : WStr) : WStr :=
  [' ', '{'] ++ (fieldsText indent (urlFields strAddTime nIndex szTitle szUrl) ++ ['}'])

/-! ### The nodes -/

/-- `swprintf_s(szTmp, 2048 - 1, ...)` and `reader.parse`: a text that does not fit with its NUL
    ends the program. -/
def readNode (szTmp : WStr) : Option Value := if wcslen szTmp < 2047 then some (parse szTmp) else none

/-- `MakeFolderNode`; `nIndex` is already counted up. -/
def makeFolderNode (r : FavoriteLineData) (nIndex : ℕ) : Option Value :=
  readNode (folderText (int64ToString r.nAddTimes) (int64ToString r.nLastModifyTime) nIndex r.szTitle)

/-- `MakeUrlNode`. -/
def makeUrlNode (r : FavoriteLineData) (nIndex : ℕ) : Option Value :=
  readNode (urlText (int64ToString r.nAddTimes) nIndex r.szTitle r.szUrl)

/-- `MakeSpecialFolderNode` at the time `now`. -/
def makeSpecialFolderNode (now : ℤ) (pszName : WStr) (nIndex : ℕ) : Option Value :=
  readNode (folderText (int64ToString now) (int64ToString now) nIndex pszName)

/-- `node_obj["children"] = array_obj`. -/
def setChildren (node : Value) (children : List Value) : Value :=
  match node with
  | .object members => .object (assign members Key.children (.array children))
  | node => node

def jsonOps : NodeOps Value where
  make r nIndex := if r.bFolder then makeFolderNode r nIndex else makeUrlNode r nIndex
  setChildren := setChildren

/-- An object with these string members. -/
def strings (fs : List (List Char × List Char)) : List (List Char × Value) :=
  fs.map fun f => (f.1, .string f.2)

/-- A folder node as it is meant. -/
def folderValue (strAddTime strModifyTime : List Char) (nIndex : ℕ) (szTitle : WStr)
    (children : List Value) : Value :=
  .object ((Key.children, .array children) ::
    strings (folderFields strAddTime strModifyTime nIndex szTitle))

/-- A bookmark node as it is meant. -/
def urlValue (strAddTime : List Char) (nIndex : ℕ) (szTitle szUrl : WStr) : Value :=
  .object (strings (urlFields strAddTime nIndex szTitle szUrl))

/-! ### Plain texts are read back -/

theorem plain_digitText {n : ℤ} (h : n.natAbs < 10) : Plain (digitText n).reverse := by
  have hd : ∀ k < 10, Nat.digitChar k ≠ '"' ∧ Nat.digitChar k ≠ '\\' ∧ Nat.digitChar k ≠ '\x00' := by
    decide
  have := hd n.natAbs h
  rw [digitText]
  split <;> simp [Plain, this]

theorem plain_append {s t : List Char} (hs : Plain s) (ht : Plain t) : Plain (s ++ t) := by
  intro c hc
  rcases List.mem_append.mp hc with hc | hc
  · exact hs c hc
  · exact ht c hc

theorem plain_int64Loop : ∀ (fuel : ℕ) (n : ℤ) (s : List Char), Plain s.reverse →
    Plain (int64Loop fuel n s).reverse
  | 0, _, _, h => h
  | fuel + 1, n, s, h => by
    rw [int64Loop]
    split
    · exact h
    · refine plain_int64Loop fuel _ _ ?_
      rw [List.reverse_append]
      refine plain_append (plain_digitText ?_) h
      rw [Int.natAbs_tmod]
      exact Nat.mod_lt _ (by norm_num)

theorem plain_int64ToString (n : ℤ) : Plain (int64ToString n) :=
  plain_int64Loop 19 n [] (by simp [Plain])

theorem plain_decimal (n : ℕ) : Plain (decimal n) := by
  intro c hc
  have hd := Nat.isDigit_of_mem_toDigits (b := 10) (by decide) (by decide) hc
  refine ⟨?_, ?_, ?_⟩
  all_goals rintro rfl; exact absurd hd (by decide)

theorem blank_indent : Blank indent := by decide

/-- The keys are all different. -/
theorem nodup_folderKeys (a m : List Char) (n : ℕ) (t : WStr) :
    ([Key.children] ++ (folderFields a m n t).map (·.1)).Nodup := by
  simp only [folderFields, List.map_cons, List.map_nil]
  decide

theorem nodup_urlKeys (a : List Char) (n : ℕ) (t u : WStr) :
    ((urlFields a n t u).map (·.1)).Nodup := by
  simp only [urlFields, List.map_cons, List.map_nil]
  decide

theorem plain_folderFields {a m : List Char} (ha : Plain a) (hm : Plain m) (n : ℕ) {t : WStr}
    (ht : Plain t) : ∀ f ∈ folderFields a m n t, Plain f.1 ∧ Plain f.2 := by
  have hkeys : Plain Key.dateAdded ∧ Plain Key.dateModified ∧ Plain Key.id ∧ Plain Key.name ∧
      Plain Key.type ∧ Plain Key.folder := by decide
  obtain ⟨h₁, h₂, h₃, h₄, h₅, h₆⟩ := hkeys
  simp only [folderFields, List.forall_mem_cons, List.not_mem_nil, false_implies, implies_true]
  exact ⟨⟨h₁, ha⟩, ⟨h₂, hm⟩, ⟨h₃, plain_decimal n⟩, ⟨h₄, ht⟩, ⟨h₅, h₆⟩, trivial⟩

theorem plain_urlFields {a : List Char} (ha : Plain a) (n : ℕ) {t u : WStr} (ht : Plain t)
    (hu : Plain u) : ∀ f ∈ urlFields a n t u, Plain f.1 ∧ Plain f.2 := by
  have hkeys : Plain Key.dateAdded ∧ Plain Key.id ∧ Plain Key.name ∧ Plain Key.type ∧
      Plain Key.url := by decide
  obtain ⟨h₁, h₂, h₃, h₄, h₅⟩ := hkeys
  simp only [urlFields, List.forall_mem_cons, List.not_mem_nil, false_implies, implies_true]
  exact ⟨⟨h₁, ha⟩, ⟨h₂, plain_decimal n⟩, ⟨h₃, ht⟩, ⟨h₄, h₅⟩, ⟨h₅, hu⟩, trivial⟩

theorem readValue_object {text rest : List Char} (h : nextToken text = (.objectBegin, rest))
    (fuel : ℕ) (old : Value) : readValue (fuel + 1) old text = readObject fuel [] [] rest := by
  rw [readValue, h]

/-- The empty array of children at the start of a folder's text. -/
theorem readObject_children (fuel : ℕ) (rest : List Char) :
    readObject (fuel + 2) [] []
      ([' ', '"'] ++ (Key.children ++ (['"', ':', ' ', '[', ' ', ']', ','] ++ rest))) =
      readObject (fuel + 1) Key.children [(Key.children, .array [])] rest := by
  have hname : nextToken ([' ', '"'] ++ (Key.children ++ (['"', ':', ' ', '[', ' ', ']', ','] ++ rest))) =
      (.string Key.children, [':', ' ', '[', ' ', ']', ','] ++ rest) := nextToken_eq rfl (by simp)
  have harray : ∀ old, readValue (fuel + 1) old ([' ', '[', ' ', ']', ','] ++ rest) =
      (.array [], true, ',' :: rest) := by
    intro old
    have htok : nextToken ([' ', '[', ' ', ']', ','] ++ rest) =
        (.arrayBegin, [' ', ']', ','] ++ rest) := nextToken_eq rfl (by simp)
    rw [readValue, htok]
    rfl
  have hcolon : readToken ([':', ' ', '[', ' ', ']', ','] ++ rest) =
      (.memberSeparator, [' ', '[', ' ', ']', ','] ++ rest) := rfl
  have hcomma : readToken (',' :: rest) = (.arraySeparator, rest) := rfl
  have hplain : Plain Key.children := by decide
  rw [readObject, hname]
  simp only [decodeString_plain hplain, hcolon, harray, hcomma, cString_plain hplain]
  rfl

theorem parse_folderText {a m : List Char} (ha : Plain a) (hm : Plain m) (n : ℕ) {t : WStr}
    (ht : Plain t) : parse (folderText a m n t) = folderValue a m n t [] := by
  have hbegin : ∀ rest, nextToken ([' ', '{', ' ', '"'] ++ rest) =
      (.objectBegin, [' ', '"'] ++ rest) := fun rest => nextToken_eq rfl (by simp)
  have hlen : 4 ≤ (folderText a m n t).length := by simp [folderText]
  obtain ⟨k, hk⟩ : ∃ k, 2 * (folderText a m n t).length + 2 = k + 6 + 2 + 1 :=
    ⟨2 * (folderText a m n t).length + 2 - 9, by omega⟩
  have hblank : Blank [' '] := by simp [Blank, isSpace]
  have hfields := readObject_fields blank_indent hblank
    (folderFields a m n t) (k + 6 + 1) Key.children [(Key.children, .array [])] []
    (by simp [folderFields]) (plain_folderFields ha hm n ht) (by simp [folderFields])
  rw [parse, hk, folderText, readValue_object (hbegin _), readObject_children]
  refine (congrArg Prod.fst hfields).trans ?_
  rw [foldl_assign_new _ [(Key.children, .array [])] (nodup_folderKeys a m n t)]
  rfl

theorem parse_urlText {a : List Char} (ha : Plain a) (n : ℕ) {t u : WStr} (ht : Plain t)
    (hu : Plain u) : parse (urlText a n t u) = urlValue a n t u := by
  have hbegin : ∀ rest, nextToken ([' ', '{'] ++ rest) = (.objectBegin, rest) :=
    fun rest => nextToken_eq rfl (by simp)
  have hlen : 5 ≤ (urlText a n t u).length := by simp [urlText, urlFields, fieldsText, fieldText]; omega
  obtain ⟨k, hk⟩ : ∃ k, 2 * (urlText a n t u).length + 2 = k + 6 + 1 :=
    ⟨2 * (urlText a n t u).length + 2 - 7, by omega⟩
  have hblank : Blank [] := by simp [Blank]
  have hfields := readObject_fields blank_indent hblank
    (urlFields a n t u) (k + 6) [] [] [] (by simp [urlFields]) (plain_urlFields ha n ht hu)
    (by simp [urlFields])
  rw [parse, hk, urlText, readValue_object (hbegin _)]
  refine (congrArg Prod.fst hfields).trans ?_
  rw [foldl_assign_new _ [] (by simpa using nodup_urlKeys a n t u)]
  rfl

end UrlTraveler.Chrome
