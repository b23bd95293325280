import UrlTraveler.Favorite
import UrlTraveler.Schemes.Sorting
import UrlTraveler.Schemes.Runs

/-! `DataCenterModule`: the favorites vector and the operations that edit it.

    A record names its parent by id, and the views find a record by index, so ids should be positions:
    `ReArrange` renumbers the vector to make it so.

        before   id: 7  2  9     pid: 0  7  2
        after    id: 1  2  3     pid: 0  1  2

    The parent of a renumbered record is the last position that carried its parent's old id. New
    records get the id of the last record plus one and are sorted in by `nPid`; only the operation
    that adds a folder renumbers afterwards. Deleting sets marks. `dragEnd` is the drop handler of
    the tree in `MainFrame`, which writes into the same vector. An access outside the vector ends
    the program: the operation has no result. -/

namespace UrlTraveler.DataCenter
open Sorting Runs

/-- `m_vFavoriteLineData`. -/
abbrev Favorites := List FavoriteLineData

/-- `STRNCPY` into an array of `MAX_LENGTH = 1024` characters. -/
def strncpy (s : WStr) : WStr := s.take 1023

/-! ### Renumbering -/

/-- `pId[j].nPid` after the loops of `ReArrange`, for a record with parent id `x`: one past the
    last position that carries the id `x`, and 0 when none does. -/
def newPid (v : Favorites) (x : ℤ) : ℤ :=
  v.zipIdx.foldl (fun p ri => if x = ri.1.nId then (ri.2 : ℤ) + 1 else p) 0

/-- `OnService_ReArrangeFavorite`; it takes the address of the first element. -/
def reArrange (v : Favorites) : Option Favorites :=
  if v = [] then none
  else some (v.mapIdx fun i r => { r with nId := (i : ℤ) + 1, nPid := newPid v r.nPid })

/-! ### Adding -/

/-- The record both add operations make; both clocks read the same time. -/
def newRecord (last : FavoriteLineData) (nParentId : ℤ) (szTitle szUrl : WStr) (bFolder : Bool)
    (now : ℤ) : FavoriteLineData :=
  { nId := last.nId + 1, nPid := nParentId, szTitle := strncpy szTitle, szUrl := strncpy szUrl,
    bFolder := bFolder, nAddTimes := now, nLastModifyTime := now }

/-- `OnEvent_AddFavorite`. The call of `ReArrange` is commented out in the source. -/
def addFavorite (σ : Sorter FavoriteLineData) (now : ℤ) (v : Favorites) (nParentId : ℤ)
    (szTitle szUrl : WStr) : Option Favorites :=
  v.getLast?.map fun last =>
    σ.sort (·.nPid) (v ++ [newRecord last nParentId szTitle szUrl false now])

/-- `OnEvent_AddFavoriteFolder`. -/
def addFavoriteFolder (σ : Sorter FavoriteLineData) (now : ℤ) (v : Favorites) (nParentId : ℤ)
    (szTitle : WStr) : Option Favorites :=
  v.getLast?.bind fun last =>
    reArrange (σ.sort (·.nPid) (v ++ [newRecord last nParentId szTitle [] true now]))

/-! ### Deleting -/

def markDeleted (r : FavoriteLineData) : FavoriteLineData := { r with bDelete := true }

/-- `OnEvent_DeleteFavorite`: `nFavoriteId` is compared with the parent ids. -/
def deleteFavorite (v : Favorites) (nFavoriteId : ℤ) (szUrl : WStr) : Favorites :=
  v.map fun r => if r.nPid = nFavoriteId ∧ r.szUrl = szUrl then markDeleted r else r

/-- The body of the loop of `DeleteFavoriteFold`, with the recursive call as a parameter. -/
def deleteAt (call : Favorites → ℤ → Option Favorites) (nId : ℤ) (v : Favorites) (i : ℕ) :
    Option Favorites :=
  match v[i]? with
  | none => some v
  | some r =>
    if r.bDelete then some v
    else if r.nPid = nId then
      if r.bFolder then call (v.modify i markDeleted) r.nId else some (v.modify i markDeleted)
    else if r.nId = nId then some (v.modify i markDeleted)
    else some v

/-- `DeleteFavoriteFold`; `none` is a recursion deeper than the fuel. -/
def deleteFavoriteFold : ℕ → Favorites → ℤ → Option Favorites
  | 0, _, _ => none
  | fuel + 1, v, nId => (List.range v.length).foldlM (deleteAt (deleteFavoriteFold fuel) nId) v

/-- The loop of `OnEvent_DeleteFavoriteFolder` that looks for the previous sibling, from index
    `i - 1` down to 0: the index where it broke off, and the parent's id if it was met before. -/
def findSibling (v : Favorites) (nParentId : ℤ) : ℕ → ℤ → Option ℕ × ℤ
  | 0, nPid => (none, nPid)
  | i + 1, nPid =>
    match v[i]? with
    | none => findSibling v nParentId i nPid
    | some r =>
      if r.nPid = nParentId ∧ r.bFolder = true ∧ r.bDelete = false then (some i, nPid)
      else findSibling v nParentId i (if r.nId = nParentId then r.nId else nPid)

/-- `OnEvent_DeleteFavoriteFolder`: the vector afterwards, and the ids of the select events. -/
def deleteFavoriteFolder (v : Favorites) (nDeleteId : ℤ) : Option (Favorites × List ℤ) := do
  guard (1 ≤ nDeleteId)
  let r ← v[(nDeleteId - 1).toNat]?
  let found := findSibling v r.nPid (nDeleteId - 1).toNat 0
  let v' ← deleteFavoriteFold (v.length + 1) v nDeleteId
  match found with
  | (some i, _) => (v'[i]?).map fun r' => (v', [r'.nId])
  | (none, nPid) =>
    if nPid = 0 then (v'[0]?).map fun r' => (v', [0, r'.nId])
    else if 1 ≤ nPid then (v'[(nPid - 1).toNat]?).map fun r' => (v', [r'.nId])
    else none

/-! ### Moving a folder -/

/-- `OnEventTreeListItemDragEnd`: the dragged folder gets the drop target as its parent. -/
def dragEnd (now : ℤ) (v : Favorites) (nSrcId nDstId : ℤ) : Favorites :=
  if nDstId = nSrcId then v
  else match v.findIdx? (·.nId = nSrcId) with
    | none => v
    | some i => v.modify i fun r => { r with nPid := nDstId, nLastModifyTime := now }

/-! ### All operations as one machine -/

/-- What an operation finds besides the vector: the tie order of `std::sort` and the time. -/
structure Env where
  σ : Sorter FavoriteLineData
  now : ℤ

inductive Op
  | addFavorite (nParentId : ℤ) (szTitle szUrl : WStr)
  | addFavoriteFolder (nParentId : ℤ) (szTitle : WStr)
  | deleteFavorite (nFavoriteId : ℤ) (szUrl : WStr)
  | deleteFavoriteFolder (nDeleteId : ℤ)
  | reArrange
  | dragEnd (nSrcId nDstId : ℤ)

def step (v : Favorites) : Env × Op → Option Favorites
  | (e, .addFavorite nParentId szTitle szUrl) => addFavorite e.σ e.now v nParentId szTitle szUrl
  | (e, .addFavoriteFolder nParentId szTitle) => addFavoriteFolder e.σ e.now v nParentId szTitle
  | (_, .deleteFavorite nFavoriteId szUrl) => some (deleteFavorite v nFavoriteId szUrl)
  | (_, .deleteFavoriteFolder nDeleteId) => (deleteFavoriteFolder v nDeleteId).map (·.1)
  | (_, .reArrange) => reArrange v
  | (e, .dragEnd nSrcId nDstId) => some (dragEnd e.now v nSrcId nDstId)

end UrlTraveler.DataCenter
