import UrlTraveler.Favorite
import UrlTraveler.Schemes.Walk
import UrlTraveler.Schemes.Maps

/-! `CChromePlugIn::ImportFavoriteData`, from the record list to the node tree.

    The list is put into depth-first order, every live record gets a depth, and the tree is built
    level by level from the deepest one up: the nodes of a level are grouped by parent id, and a
    folder takes the array that the level below left for it.

        SortByDepth     A  a  b  B  c        (A, B top level; a, b in A; c in B)
        depth           0  1  1  0  1
        level 1         A ↦ [a, b]   B ↦ [c]
        level 0         0 ↦ [A ⊃ a b, B ⊃ c]

    Nodes are values of a type `ν` made from a record and an id; that a node is JSON text parsed
    back is the matter of another module. The maps are association lists: `std::map::insert` keeps
    an existing entry, and equal keys of a `std::multimap` stay in insertion order. -/

namespace UrlTraveler.Chrome
open Maps

/-! ### Depth-first order -/

/-- The loop of `SortNode`, with the recursive call as a parameter; `out` is what was written to
    `ppSortData` so far and its length is `k`. A write past the end has no result. -/
def sortLoop (call : List FavoriteLineData → ℤ → Option (List FavoriteLineData)) (nDataNum : ℕ)
    (nParentId : ℤ) : List FavoriteLineData → List FavoriteLineData → Option (List FavoriteLineData)
  | [], out => some out
  | r :: rest, out =>
    if r.nPid = nParentId then
      if nDataNum ≤ out.length then none
      else if nDataNum ≤ (out ++ [r]).length then some (out ++ [r])
      else if r.bFolder then (call (out ++ [r]) r.nId).bind (sortLoop call nDataNum nParentId rest)
      else sortLoop call nDataNum nParentId rest (out ++ [r])
    else sortLoop call nDataNum nParentId rest out

/-- `SortNode`. Every call but the first comes after a write, so the fuel `nDataNum + 1` is never
    used up. -/
def sortNode (v : List FavoriteLineData) :
    ℕ → List FavoriteLineData → ℤ → Option (List FavoriteLineData)
  | 0, _, _ => none
  | fuel + 1, out, nParentId => sortLoop (sortNode v fuel) v.length nParentId v out

/-- `SortByDepth`; entries that were not reached are null. -/
def sortByDepth (v : List FavoriteLineData) : Option PPData :=
  (sortNode v (v.length + 1) [] 0).map fun out =>
    out.map some ++ List.replicate (v.length - out.length) none

/-! ### The maps -/

/-- The members of `CChromePlugIn` that the import works on. -/
structure Members (ν : Type) where
  m_mapPidInfo : List (ℤ × ℤ) := []
  m_mapDepthInfo : List (ℤ × ℕ) := []
  m_mapPidNodeInfo : List (ℤ × List ν) := []
  m_mapIdIndexInfo : List (ℤ × ℕ) := []
  m_nMaxDepth : ℤ := 0
  m_nIndex : ℕ := 0

/-- `++nIndex` on a `uint32`. -/
def nextIndex (nIndex : ℕ) : ℕ := (nIndex + 1) % 2 ^ 32

variable {ν : Type}

/-- The body of the depth loop for a live record. -/
def depthStep (s : Members ν) (i : ℕ) (r : FavoriteLineData) : Members ν :=
  let nDepth : ℤ := match s.m_mapPidInfo.lookup r.nPid with
    | some d => d + 1
    | none => 0
  { s with
    m_nMaxDepth := if s.m_nMaxDepth < nDepth then nDepth else s.m_nMaxDepth
    m_mapPidInfo := if r.bFolder then insertNew s.m_mapPidInfo r.nId nDepth else s.m_mapPidInfo
    m_mapDepthInfo := s.m_mapDepthInfo ++ [(nDepth, i)] }

/-- Null and deleted entries are skipped. -/
def depthEntry (s : Members ν) (entry : Option FavoriteLineData × ℕ) : Members ν :=
  match entry.1 with
  | some r => if r.bDelete then s else depthStep s entry.2 r
  | none => s

/-- The loop of `ImportFavoriteData` that computes the depths. -/
def depthLoop (ppData : PPData) (s : Members ν) : Members ν := ppData.zipIdx.foldl depthEntry s

/-! ### Level by level -/

/-- How a node is made from a record and an id, and how it gets its children. Making one can end
    the program: the text buffer is of fixed size. -/
structure NodeOps (ν : Type) where
  make : FavoriteLineData → ℕ → Option ν
  setChildren : ν → List ν → ν

/-- The first loop of `TraverseNode`: `mapPidObj`, `vecPidList` and the members. -/
structure Level (ν : Type) where
  mapPidObj : List (ℤ × ℕ × ν)
  vecPidList : List ℤ
  members : Members ν

variable (ops : NodeOps ν)

def makeStep (ppData : PPData) (st : Level ν) (i : ℕ) : Option (Level ν) :=
  match recAt ppData i with
  | none => some st
  | some r => (ops.make r (nextIndex st.members.m_nIndex)).map fun node =>
    { mapPidObj := st.mapPidObj ++ [(r.nPid, i, node)]
      vecPidList := if r.nPid ∈ st.vecPidList then st.vecPidList else st.vecPidList ++ [r.nPid]
      members := { st.members with
        m_nIndex := nextIndex st.members.m_nIndex
        m_mapIdIndexInfo :=
          insertNew st.members.m_mapIdIndexInfo r.nId (nextIndex st.members.m_nIndex) } }

/-- One node of a group: a folder takes its array out of `m_mapPidNodeInfo`. -/
def attachStep (ppData : PPData) (st : List (ℤ × List ν) × List ν) (inode : ℕ × ν) :
    List (ℤ × List ν) × List ν :=
  match recAt ppData inode.1 with
  | some r =>
    if r.bFolder then
      match st.1.lookup r.nId with
      | some children => (eraseKey st.1 r.nId, st.2 ++ [ops.setChildren inode.2 children])
      | none => (st.1, st.2 ++ [inode.2])
    else (st.1, st.2 ++ [inode.2])
  | none => (st.1, st.2 ++ [inode.2])

/-- The second loop of `TraverseNode`, for one parent id. -/
def groupStep (ppData : PPData) (mapPidObj : List (ℤ × ℕ × ν)) (m : List (ℤ × List ν))
    (nPid : ℤ) : List (ℤ × List ν) :=
  let st := ((mapPidObj.filter (·.1 = nPid)).map (·.2)).foldl (attachStep ops ppData) (m, [])
  insertNew st.1 nPid st.2

/-- `TraverseNode` for one depth. -/
def traverseLevel (ppData : PPData) (nDepth : ℕ) (s : Members ν) : Option (Members ν) :=
  (((s.m_mapDepthInfo.filter (·.1 = (nDepth : ℤ))).map (·.2)).foldlM (makeStep ops ppData)
    ⟨[], [], s⟩).map fun st =>
      { st.members with m_mapPidNodeInfo :=
          st.vecPidList.foldl (groupStep ops ppData st.mapPidObj) st.members.m_mapPidNodeInfo }

/-- `TraverseNode(ppData, nDepth)` for the depths below `n`, the greatest first. -/
def traverseNode (ppData : PPData) : ℕ → Members ν → Option (Members ν)
  | 0, s => some s
  | n + 1, s => (traverseLevel ops ppData n s).bind (traverseNode ppData n)

/-- `ImportFavoriteData` up to `TraverseNode`: the maps are cleared, the node of the bookmark bar
    takes an id, and what an earlier import left in `m_nMaxDepth` and `m_nIndex` stays. Returns the
    members and the sorted array. -/
def buildTree (nMaxDepth : ℤ) (nIndex : ℕ) (v : List FavoriteLineData) :
    Option (Members ν × PPData) :=
  (sortByDepth v).bind fun ppData =>
    let s := depthLoop ppData { m_nMaxDepth := nMaxDepth, m_nIndex := nextIndex nIndex }
    (traverseNode ops ppData (s.m_nMaxDepth + 1).toNat s).map fun s => (s, ppData)

end UrlTraveler.Chrome
