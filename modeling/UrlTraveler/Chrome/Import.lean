import UrlTraveler.Chrome.Node

/-! `CChromePlugIn::ImportFavoriteData`, from the record list to the Bookmarks file.

        delete the old file
        bar     ← node of "Bookmarks bar"               checksum: bar
        build the tree                                   fails unless one array is left
        for the live records, in depth-first order       checksum: record, with its node's id
        other   ← node of "Other bookmarks"              checksum: other
        synced  ← node of "Synced bookmarks"             checksum: synced
        write the file

    The MD5 context is the list of items fed to it. Files are values of a type `α`: what the JSON
    writer makes of a value is one. The paths and the calls that change files are parameters. -/

namespace UrlTraveler.Chrome
open Json

/-! ### The checksum -/

/-- What is fed to the MD5 context for one node. -/
structure Item where
  id : List Char
  title : WStr
  type : List Char
  url : Option WStr := none
  deriving DecidableEq

/-- `IsValidCharacter`. -/
def isValidCharacter (code_point : ℕ) : Bool :=
  code_point < 0xD800 || (0xE000 ≤ code_point && code_point < 0xFDD0) ||
    (0xFDEF < code_point && code_point ≤ 0x10FFFF && code_point &&& 0xFFFE ≠ 0xFFFE)

/-- `IsStringUTF8` on the UTF-8 form of a wide string. -/
def isStringUTF8 (s : WStr) : Bool := s.all fun c => isValidCharacter c.toNat

def updateChecksumWithUrlNode (ctx : List Item) (id : List Char) (title url : WStr) : List Item :=
  if isStringUTF8 url then ctx ++ [{ id := id, title := title, type := Key.url, url := some url }]
  else ctx

def updateChecksumWithFolderNode (ctx : List Item) (id : List Char) (title : WStr) : List Item :=
  ctx ++ [{ id := id, title := title, type := Key.folder }]

/-- The checksum loop of `ImportFavoriteData` on one entry of the sorted array. -/
def checksumStep (m_mapIdIndexInfo : List (ℤ × ℕ)) (ctx : List Item)
    (entry : Option FavoriteLineData) : List Item :=
  match entry with
  | none => ctx
  | some r =>
    if r.bDelete then ctx
    else match m_mapIdIndexInfo.lookup r.nId with
      | none => ctx
      | some nIndex =>
        if r.bFolder then updateChecksumWithFolderNode ctx (decimal nIndex) r.szTitle
        else updateChecksumWithUrlNode ctx (decimal nIndex) r.szTitle r.szUrl

/-! ### The file -/

namespace Key

def bookmarksBar : List Char :=
  ['B', 'o', 'o', 'k', 'm', 'a', 'r', 'k', 's', ' ', 'b', 'a', 'r']
def otherBookmarks : List Char :=
  ['O', 't', 'h', 'e', 'r', ' ', 'b', 'o', 'o', 'k', 'm', 'a', 'r', 'k', 's']
def syncedBookmarks : List Char :=
  ['S', 'y', 'n', 'c', 'e', 'd', ' ', 'b', 'o', 'o', 'k', 'm', 'a', 'r', 'k', 's']
def checksum : List Char := ['c', 'h', 'e', 'c', 'k', 's', 'u', 'm']
def roots : List Char := ['r', 'o', 'o', 't', 's']
def bookmarkBar : List Char := ['b', 'o', 'o', 'k', 'm', 'a', 'r', 'k', '_', 'b', 'a', 'r']
def other : List Char := ['o', 't', 'h', 'e', 'r']
def synced : List Char := ['s', 'y', 'n', 'c', 'e', 'd']
def version : List Char := ['v', 'e', 'r', 's', 'i', 'o', 'n']

end Key

/-- What the import computes before it writes. -/
structure Written where
  bookmark_bar : Value
  other : Value
  synced : Value
  ctx : List Item
  nRealNum : ℕ
  nMaxDepth : ℤ
  nIndex : ℕ

/-- The `root` of the file; `md5` is the checksum of the items. -/
def Written.root (md5 : List Item → List Char) (w : Written) : Value :=
  .object [(Key.checksum, .string (md5 w.ctx)),
    (Key.roots, .object [(Key.bookmarkBar, w.bookmark_bar), (Key.other, w.other),
      (Key.synced, w.synced)]),
    (Key.version, .number ['1'])]

/-- `ImportFavoriteData` without the file: `none` is the end of the program, `some none` is
    `ERROR_INTERNAL_ERROR`. `now k` is the result of the `k`-th call of `time(NULL)`. -/
def importRoots (now : ℕ → ℤ) (nMaxDepth : ℤ) (nIndex : ℕ) (v : List FavoriteLineData) :
    Option (Option Written) := do
  let barId := nextIndex nIndex
  let bookmark_bar ← makeSpecialFolderNode (now 0) Key.bookmarksBar barId
  let built ← buildTree jsonOps nMaxDepth nIndex v
  match built.1.m_mapPidNodeInfo with
  | [(_, nodes)] =>
    let ctx := built.2.foldl (checksumStep built.1.m_mapIdIndexInfo)
      (updateChecksumWithFolderNode [] (decimal barId) Key.bookmarksBar)
    let otherId := nextIndex built.1.m_nIndex
    let other ← makeSpecialFolderNode (now 1) Key.otherBookmarks otherId
    let ctx := updateChecksumWithFolderNode ctx (decimal otherId) Key.otherBookmarks
    let syncedId := nextIndex otherId
    let synced ← makeSpecialFolderNode (now 2) Key.syncedBookmarks syncedId
    let ctx := updateChecksumWithFolderNode ctx (decimal syncedId) Key.syncedBookmarks
    some (some
      { bookmark_bar := setChildren bookmark_bar nodes
        other := other
        synced := synced
        ctx := ctx
        nRealNum := (built.2.filterMap id).countP fun r => !r.bDelete
        nMaxDepth := built.1.m_nMaxDepth
        nIndex := syncedId })
  | _ => some none

end UrlTraveler.Chrome
