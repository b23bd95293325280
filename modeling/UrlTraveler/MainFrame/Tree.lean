import UrlTraveler.DataCenter.Folders
import UrlTraveler.Schemes.Maps

/-! `CMainFrameWnd::LoadFavoriteTree`: the folder tree on screen.

    One pass over the vector makes a node for every folder, below the node of the folder its `nPid`
    names, or below the root node when that folder has no node yet. So the picture is right only
    when every folder comes after its parent. The vector is sorted by `nPid`, hence a folder comes
    before its sub-folders when its own parent has a smaller number than it has:

        id pid             sort by pid          ReArrange            sort by pid
         5  0   A          A  C  B  D           ids  1  2  3  4      A  B  D  C
         3  5   B                               pids 0  3  1  2      D before its parent C
         9  3   C
        10  9   D

    `showsForest_iff` says which vectors come out right: those in which every folder with a folder
    two levels below it has a parent id smaller than its own id. -/

namespace UrlTraveler.MainFrame
open DataCenter Maps Sorting Cycles Relation

/-- The vector of record pointers: a pointer is a number, listed with the record behind it. -/
abbrev Records := List (ℕ × FavoriteLineData)

/-- Pointers for the records of a vector, in vector order. -/
def pointers (v : Favorites) : Records := v.mapIdx fun i r => (i, r)

theorem pointers_getElem? (v : Favorites) (i : ℕ) :
    (pointers v)[i]? = v[i]?.map fun r => (i, r) := by
  rw [pointers, List.getElem?_mapIdx]

theorem pointers_records (v : Favorites) : (pointers v).map (·.2) = v := by
  refine List.ext_getElem? fun i => ?_
  rw [List.getElem?_map, pointers_getElem?, Option.map_map]
  exact Option.map_id'

theorem pointers_range (v : Favorites) : (pointers v).map (·.1) = List.range v.length := by
  refine List.ext_getElem? fun i => ?_
  rw [List.getElem?_map, pointers_getElem?]
  rcases lt_or_ge i v.length with hi | hi
  · rw [List.getElem?_range hi, List.getElem?_eq_getElem hi]
    rfl
  · rw [List.getElem?_eq_none hi, List.getElem?_eq_none (by simpa using hi)]
    rfl

theorem pointers_nodup (v : Favorites) : ((pointers v).map (·.1)).Nodup := by
  rw [pointers_range]
  exact List.nodup_range

/-- A node of the tree control. `record` is the pointer of the record it was made for; the root node
    is made for none. -/
structure Node where
  text : WStr
  parent : Option ℕ := none
  record : Option ℕ := none
  deriving DecidableEq

/-- `CFavoriteTreeListUI`: the nodes that exist, by address and in the order they were made, and the
    two maps between nodes and record ids. -/
structure TreeList where
  nodes : List (ℕ × Node)
  m_mapIdNode : List (ℤ × ℕ)
  m_mapNodeId : List (ℕ × ℤ)
  deriving DecidableEq

/-- `AddNode` for a record, at the address `pNode`, and the entries in both maps. -/
def TreeList.addFor (t : TreeList) (pNode : ℕ) (text : WStr) (parent : ℕ)
    (x : ℕ × FavoriteLineData) : TreeList where
  nodes := t.nodes ++ [(pNode, ⟨text, some parent, some x.1⟩)]
  m_mapIdNode := setKey t.m_mapIdNode x.2.nId pNode
  m_mapNodeId := setKey t.m_mapNodeId pNode x.2.nId

/-- The address of the root node. -/
def pRootNode : ℕ := 0

/-- The text of a node made by `LoadFavoriteTree` or by a drop. -/
def nodeText (szTitle : WStr) : WStr := ['{', 'x', ' ', '4', '}'] ++ szTitle

/-- The tree with nothing but the root node, which stands for the id 0. -/
def rootOnly : TreeList where
  nodes := [(pRootNode, { text := nodeText ['收', '藏', '夹'] })]
  m_mapIdNode := [(0, pRootNode)]
  m_mapNodeId := [(pRootNode, 0)]

/-- The body of the loop of `LoadFavoriteTree`; nodes are numbered as they are made. -/
def loadStep (t : TreeList) (x : ℕ × FavoriteLineData) : TreeList :=
  if x.2.bFolder then
    match t.m_mapIdNode.lookup x.2.nPid with
    | some pParentNode => t.addFor t.nodes.length (nodeText x.2.szTitle) pParentNode x
    | none => t.addFor t.nodes.length (nodeText x.2.szTitle) pRootNode x
  else t

def loadFavoriteTree (v : Records) : TreeList := v.foldl loadStep rootOnly

/-- The folders of a vector. -/
def folders (v : Records) : Records := v.filter (·.2.bFolder)

/-- One node per folder record and the root node, each node at an address of its own, every folder
    below the node made for the record its `nPid` names, or below the root node for `nPid` 0. -/
structure ShowsForest (v : Records) (t : TreeList) : Prop where
  addresses : Keys t.nodes
  once : t.nodes.map (·.2.record) = none :: (folders v).map fun x => some x.1
  parent : ∀ p n x, (p, n) ∈ t.nodes → x ∈ v → n.record = some x.1 →
    x.2.nPid = 0 ∧ n.parent = some pRootNode ∨
    ∃ q m y, (q, m) ∈ t.nodes ∧ y ∈ v ∧ m.record = some y.1 ∧ y.2.nId = x.2.nPid ∧
      n.parent = some q

/-! ### The loop -/

/-- The node below which the folder at place `k` is put: that of the folder its `nPid` names if it
    was met before, else the root node. -/
def PutBelow (F : Records) (k : ℕ) (x : ℕ × FavoriteLineData) (parent : ℕ) : Prop :=
  (∃ j y, j < k ∧ F[j]? = some y ∧ y.2.nId = x.2.nPid ∧ parent = j + 1) ∨
  (∀ j y, j < k → F[j]? = some y → y.2.nId ≠ x.2.nPid) ∧ parent = pRootNode

/-- The tree after the folders `F`: the folder at place `k` has the node `k + 1`. -/
structure Loaded (F : Records) (t : TreeList) : Prop where
  length : t.nodes.length = F.length + 1
  root : ∃ text, t.nodes[0]? = some (pRootNode, { text := text })
  node : ∀ k x, F[k]? = some x → ∃ parent, PutBelow F k x parent ∧
    t.nodes[k + 1]? = some (k + 1, ⟨nodeText x.2.szTitle, some parent, some x.1⟩)
  ids : ∀ nId p, t.m_mapIdNode.lookup nId = some p ↔
    nId = 0 ∧ p = pRootNode ∨ ∃ k x, F[k]? = some x ∧ x.2.nId = nId ∧ p = k + 1
  inverse : Inverse t.m_mapIdNode t.m_mapNodeId

theorem loaded_rootOnly : Loaded [] rootOnly where
  length := rfl
  root := ⟨_, rfl⟩
  node := by simp
  ids nId p := by
    rw [rootOnly, lookup_cons, List.lookup_nil]
    by_cases h : nId = 0 <;> simp [h, eq_comm]
  inverse nId p := by
    rw [rootOnly, lookup_cons, lookup_cons, List.lookup_nil, List.lookup_nil]
    by_cases h : nId = 0 <;> by_cases h' : p = pRootNode <;> simp [h, h', eq_comm]

/-- The places of the folders met so far do not change. -/
theorem putBelow_concat {F : Records} {k : ℕ} {x : ℕ × FavoriteLineData} {parent : ℕ}
    (hk : k ≤ F.length) (y : ℕ × FavoriteLineData) :
    PutBelow (F ++ [y]) k x parent ↔ PutBelow F k x parent := by
  have hget : ∀ j, j < k → (F ++ [y])[j]? = F[j]? := fun j hj =>
    List.getElem?_append_left (hj.trans_le hk)
  constructor
  · rintro (⟨j, z, hj, hz, h⟩ | ⟨hno, hp⟩)
    · exact .inl ⟨j, z, hj, by rw [← hget j hj, hz], h⟩
    · exact .inr ⟨fun j z hj hz => hno j z hj (by rw [hget j hj, hz]), hp⟩
  · rintro (⟨j, z, hj, hz, h⟩ | ⟨hno, hp⟩)
    · exact .inl ⟨j, z, hj, by rw [hget j hj, hz], h⟩
    · exact .inr ⟨fun j z hj hz => hno j z hj (by rw [← hget j hj, hz]), hp⟩

/-- What stands at an index when one more has come. -/
theorem getElem?_concat_cases {α : Type} {l : List α} {x y : α} {k : ℕ}
    (h : (l ++ [x])[k]? = some y) : l[k]? = some y ∧ k < l.length ∨ k = l.length ∧ x = y := by
  rcases lt_or_ge k l.length with hk | hk
  · rw [List.getElem?_append_left hk] at h
    exact .inl ⟨h, hk⟩
  · rw [List.getElem?_append_right hk] at h
    obtain ⟨hlt, hx⟩ := List.getElem?_eq_some_iff.mp h
    rw [List.length_singleton] at hlt
    exact .inr ⟨by omega, by simpa using hx⟩

/-- One more folder, whose id is new. -/
theorem Loaded.addFor {F : Records} {t : TreeList} (ht : Loaded F t) {x : ℕ × FavoriteLineData}
    {parent : ℕ} (hput : PutBelow F F.length x parent) (hx : x.2.nId ≠ 0)
    (hnew : ∀ y ∈ F, y.2.nId ≠ x.2.nId) :
    Loaded (F ++ [x]) (t.addFor t.nodes.length (nodeText x.2.szTitle) parent x) where
  length := by simp [TreeList.addFor, ht.length]
  root := by
    obtain ⟨text, h⟩ := ht.root
    exact ⟨text, by rw [TreeList.addFor, List.getElem?_append_left (by simp [ht.length]), h]⟩
  node k y hy := by
    rcases getElem?_concat_cases hy with ⟨hy, hk⟩ | ⟨rfl, rfl⟩
    · obtain ⟨q, hq, hnode⟩ := ht.node k y hy
      refine ⟨q, (putBelow_concat hk.le x).mpr hq, ?_⟩
      rw [TreeList.addFor, List.getElem?_append_left (by rw [ht.length]; omega), hnode]
    · refine ⟨parent, (putBelow_concat le_rfl x).mpr hput, ?_⟩
      rw [TreeList.addFor, ← ht.length, List.getElem?_concat_length]
  ids nId p := by
    rw [TreeList.addFor, lookup_setKey, ht.length]
    have hlast : (∃ k y, (F ++ [x])[k]? = some y ∧ y.2.nId = nId ∧ p = k + 1) ↔
        (∃ k y, F[k]? = some y ∧ y.2.nId = nId ∧ p = k + 1) ∨
          x.2.nId = nId ∧ p = F.length + 1 := by
      constructor
      · rintro ⟨k, y, hy, hid, hp⟩
        rcases getElem?_concat_cases hy with ⟨hy, -⟩ | ⟨rfl, rfl⟩
        · exact .inl ⟨k, y, hy, hid, hp⟩
        · exact .inr ⟨hid, hp⟩
      · rintro (⟨k, y, hy, hid, hp⟩ | ⟨hid, hp⟩)
        · have hk : k < F.length := (List.getElem?_eq_some_iff.mp hy).1
          exact ⟨k, y, by rw [List.getElem?_append_left hk, hy], hid, hp⟩
        · exact ⟨F.length, x, by simp, hid, hp⟩
    rw [hlast, ← or_assoc, ← ht.ids]
    by_cases hid : nId = x.2.nId
    · have hnone : t.m_mapIdNode.lookup nId ≠ some p := by
        rw [Ne, ht.ids]
        rintro (⟨h0, _⟩ | ⟨k, y, hy, hyid, _⟩)
        · exact hx (hid ▸ h0)
        · exact hnew y (List.mem_of_getElem? hy) (hyid.trans hid)
      simp [hid, hid ▸ hnone, eq_comm]
    · simp [hid, Ne.symm hid]
  inverse := by
    refine (ht.inverse.setKey_iff _ _).mpr (.inl ⟨?_, ?_⟩)
    · refine Option.eq_none_iff_forall_ne_some.mpr fun p hp => ?_
      rcases (ht.ids _ _).mp hp with ⟨h0, _⟩ | ⟨k, y, hy, hid, _⟩
      · exact hx h0
      · exact hnew y (List.mem_of_getElem? hy) hid
    · refine Option.eq_none_iff_forall_ne_some.mpr fun nId hid => ?_
      rcases (ht.ids _ _).mp ((ht.inverse _ _).mpr hid) with ⟨_, h0⟩ | ⟨k, y, hy, _, hp⟩
      · rw [ht.length] at h0
        exact absurd h0 (by simp [pRootNode])
      · have hk : k < F.length := (List.getElem?_eq_some_iff.mp hy).1
        rw [ht.length] at hp
        omega

/-- The parent is the node found under `nPid`, or the root node. -/
theorem Loaded.putBelow {F : Records} {t : TreeList} (ht : Loaded F t)
    (hF : ∀ y ∈ F, y.2.nId ≠ 0) (x : ℕ × FavoriteLineData) :
    PutBelow F F.length x ((t.m_mapIdNode.lookup x.2.nPid).getD pRootNode) := by
  cases hp : t.m_mapIdNode.lookup x.2.nPid with
  | none =>
    refine .inr ⟨fun k y _ hy hid => ?_, rfl⟩
    rw [(ht.ids x.2.nPid (k + 1)).mpr (.inr ⟨k, y, hy, hid, rfl⟩)] at hp
    cases hp
  | some p =>
    rcases (ht.ids _ _).mp hp with ⟨h0, rfl⟩ | ⟨k, y, hy, hid, rfl⟩
    · refine .inr ⟨fun k y _ hy hid => ?_, rfl⟩
      exact hF y (List.mem_of_getElem? hy) (hid.trans h0)
    · exact .inl ⟨k, y, (List.getElem?_eq_some_iff.mp hy).1, hy, hid, rfl⟩

theorem loadStep_folder (t : TreeList) {x : ℕ × FavoriteLineData} (hf : x.2.bFolder = true) :
    loadStep t x = t.addFor t.nodes.length (nodeText x.2.szTitle)
      ((t.m_mapIdNode.lookup x.2.nPid).getD pRootNode) x := by
  rw [loadStep, if_pos hf]
  cases t.m_mapIdNode.lookup x.2.nPid <;> rfl

/-- All of the vector, when the ids of folders are distinct and none is 0. -/
theorem loaded_run : ∀ (v : Records) {F : Records} {t : TreeList}, Loaded F t →
    (∀ y ∈ F ++ folders v, y.2.nId ≠ 0) → ((F ++ folders v).map (·.2.nId)).Nodup →
    Loaded (F ++ folders v) (v.foldl loadStep t)
  | [], F, t, ht, _, _ => by simpa [folders] using ht
  | x :: v, F, t, ht, h0, hnd => by
    rw [List.foldl_cons]
    cases hf : x.2.bFolder with
    | false =>
      have hskip : folders (x :: v) = folders v := List.filter_cons_of_neg (by simp [hf])
      rw [hskip] at h0 hnd ⊢
      rw [loadStep, if_neg (by simp [hf])]
      exact loaded_run v ht h0 hnd
    | true =>
      have htake : F ++ folders (x :: v) = F ++ [x] ++ folders v := by
        rw [folders, List.filter_cons_of_pos (by simpa using hf), ← folders, List.append_assoc,
          List.singleton_append]
      rw [htake] at h0 hnd ⊢
      rw [loadStep_folder t hf]
      have hF : ∀ y ∈ F, y.2.nId ≠ 0 := fun y hy => h0 y (by simp [hy])
      refine loaded_run v (ht.addFor (ht.putBelow hF x) (h0 x (by simp)) fun y hy => ?_) h0 hnd
      rw [List.append_assoc, List.map_append, List.nodup_append] at hnd
      exact hnd.2.2 _ (List.mem_map_of_mem hy) _ (by simp)

theorem loadFavoriteTree_loaded {v : Records} (h0 : ∀ x ∈ folders v, x.2.nId ≠ 0)
    (hnd : ((folders v).map (·.2.nId)).Nodup) : Loaded (folders v) (loadFavoriteTree v) := by
  have h := loaded_run v loaded_rootOnly (by simpa using h0) (by simpa using hnd)
  rw [List.nil_append] at h
  exact h

/-- A vector whose ids are distinct and nonzero is loaded as it is. -/
theorem loaded_pointers {v : Favorites} (hnd : (v.map (·.nId)).Nodup) (h0 : ∀ r ∈ v, r.nId ≠ 0) :
    Loaded (folders (pointers v)) (loadFavoriteTree (pointers v)) := by
  have hids : ((pointers v).map (·.2.nId)).Nodup := by
    rwa [← pointers_records v, List.map_map] at hnd
  refine loadFavoriteTree_loaded (fun x hx => ?_) (hids.sublist (List.filter_sublist.map _))
  have hmem := List.mem_map_of_mem (f := (·.2)) (List.mem_of_mem_filter hx)
  rw [pointers_records] at hmem
  exact h0 _ hmem

/-- Every folder that is not at top level comes after its parent. -/
def ParentsFirst (F : Records) : Prop :=
  ∀ (k : ℕ) (x : ℕ × FavoriteLineData), F[k]? = some x → x.2.nPid ≠ 0 →
    ∃ (j : ℕ) (y : ℕ × FavoriteLineData), j < k ∧ F[j]? = some y ∧ y.2.nId = x.2.nPid

section Shown
variable {v : Records} {t : TreeList}

theorem Loaded.mem_nodes (ht : Loaded (folders v) t) {p : ℕ} {n : Node} (h : (p, n) ∈ t.nodes) :
    (p = pRootNode ∧ n.record = none) ∨ ∃ k x, (folders v)[k]? = some x ∧ p = k + 1 ∧
      ∃ parent, PutBelow (folders v) k x parent ∧
        n = ⟨nodeText x.2.szTitle, some parent, some x.1⟩ := by
  obtain ⟨i, hi⟩ := List.mem_iff_getElem?.mp h
  match i with
  | 0 =>
    obtain ⟨text, hroot⟩ := ht.root
    rw [hroot] at hi
    cases hi
    exact .inl ⟨rfl, rfl⟩
  | k + 1 =>
    have hk : k < (folders v).length := by
      have := (List.getElem?_eq_some_iff.mp hi).1
      rw [ht.length] at this
      omega
    obtain ⟨parent, hput, hnode⟩ := ht.node k _ (List.getElem?_eq_getElem hk)
    rw [hnode] at hi
    cases hi
    exact .inr ⟨k, _, List.getElem?_eq_getElem hk, rfl, parent, hput, rfl⟩

theorem Loaded.addresses (ht : Loaded (folders v) t) : Keys t.nodes := by
  have hrange : t.nodes.map (·.1) = List.range t.nodes.length := by
    refine List.ext_getElem? fun i => ?_
    rw [List.getElem?_map]
    rcases lt_or_ge i t.nodes.length with hi | hi
    · rw [List.getElem?_range hi]
      match i with
      | 0 =>
        obtain ⟨text, hroot⟩ := ht.root
        rw [hroot]
        rfl
      | k + 1 =>
        have hk : k < (folders v).length := by
          rw [ht.length] at hi
          omega
        obtain ⟨parent, _, hnode⟩ := ht.node k _ (List.getElem?_eq_getElem hk)
        rw [hnode]
        rfl
    · rw [List.getElem?_eq_none hi, List.getElem?_eq_none (by simpa using hi)]
      rfl
  rw [Keys, hrange]
  exact List.nodup_range

theorem Loaded.once (ht : Loaded (folders v) t) :
    t.nodes.map (·.2.record) = none :: (folders v).map fun x => some x.1 := by
  refine List.ext_getElem? fun i => ?_
  rw [List.getElem?_map]
  match i with
  | 0 =>
    obtain ⟨text, hroot⟩ := ht.root
    rw [hroot]
    rfl
  | k + 1 =>
    rw [List.getElem?_cons_succ, List.getElem?_map]
    rcases lt_or_ge k (folders v).length with hk | hk
    · obtain ⟨parent, _, hnode⟩ := ht.node k _ (List.getElem?_eq_getElem hk)
      rw [hnode, List.getElem?_eq_getElem hk]
      rfl
    · rw [List.getElem?_eq_none hk, List.getElem?_eq_none (by rw [ht.length]; omega)]
      rfl

/-- The picture is right exactly when parents come first. -/
theorem Loaded.shown_iff (ht : Loaded (folders v) t) (hptr : (v.map (·.1)).Nodup) :
    ShowsForest v t ↔ ParentsFirst (folders v) := by
  have hmem : ∀ {k x}, (folders v)[k]? = some x → x ∈ v := fun hx =>
    List.mem_of_mem_filter (List.mem_of_getElem? hx)
  constructor
  · intro hs k x hx hpid
    obtain ⟨parent, hput | ⟨_, hroot⟩, hnode⟩ := ht.node k x hx
    · obtain ⟨j, y, hj, hy, hid, _⟩ := hput
      exact ⟨j, y, hj, hy, hid⟩
    · rcases hs.parent _ _ x (List.mem_of_getElem? hnode) (hmem hx) rfl with
        ⟨hz, _⟩ | ⟨q, m, y, hq, _, hrec, _, hpq⟩
      · exact absurd hz hpid
      · -- the root node was made for no record
        rcases ht.mem_nodes hq with ⟨_, hnone⟩ | ⟨l, _, _, hl, _⟩
        · rw [hnone] at hrec
          cases hrec
        · rw [hroot, Option.some.injEq, hl] at hpq
          exact absurd hpq (by simp [pRootNode])
  · intro hfirst
    refine ⟨ht.addresses, ht.once, fun p n x hn hx hrec => ?_⟩
    rcases ht.mem_nodes hn with ⟨_, hnone⟩ | ⟨k, x', hx', _, parent, hput, rfl⟩
    · rw [hnone] at hrec
      cases hrec
    · obtain rfl : x' = x := List.inj_on_of_nodup_map hptr (hmem hx') hx (Option.some.inj hrec)
      rcases hput with ⟨j, y, hj, hy, hid, rfl⟩ | ⟨hno, rfl⟩
      · obtain ⟨q, _, hnode⟩ := ht.node j y hy
        exact .inr ⟨j + 1, _, y, List.mem_of_getElem? hnode, hmem hy, rfl, hid, rfl⟩
      · by_cases hpid : x'.2.nPid = 0
        · exact .inl ⟨hpid, rfl⟩
        · obtain ⟨j, y, hj, hy, hid⟩ := hfirst k x' hx' hpid
          exact absurd hid (hno j y hj hy)

end Shown

/-! ### What the two sorts and the renumbering leave -/

/-- Ids distinct and not 0, every parent id 0 or that of a folder, no folder its own ancestor. -/
structure IsForest (v : Favorites) : Prop where
  nodup : (v.map (·.nId)).Nodup
  ne_zero : ∀ r ∈ v, r.nId ≠ 0
  parent : ∀ r ∈ v, r.nPid = 0 ∨ ∃ q ∈ v, q.bFolder = true ∧ q.nId = r.nPid
  acyclic : NoCycle (FolderUp v)

theorem IsForest.eq_of_nId {v : Favorites} (hv : IsForest v) {r s : FavoriteLineData} (hr : r ∈ v)
    (hs : s ∈ v) (h : r.nId = s.nId) : r = s :=
  List.inj_on_of_nodup_map hv.nodup hr hs h

/-- A record that is named as a parent is a folder. -/
theorem IsForest.folder {v : Favorites} (hv : IsForest v) {q r : FavoriteLineData} (hq : q ∈ v)
    (hr : r ∈ v) (h : r.nPid = q.nId) : q.bFolder = true := by
  rcases hv.parent r hr with h0 | ⟨p, hp, hf, hid⟩
  · exact absurd (h.symm.trans h0) (hv.ne_zero q hq)
  · rwa [← hv.eq_of_nId hp hq (hid.trans h)]

theorem IsForest.nPid_ne {v : Favorites} (hv : IsForest v) {q : FavoriteLineData} (hq : q ∈ v) :
    q.nPid ≠ q.nId := fun h =>
  hv.acyclic q.nId (.single ⟨q, hq, hv.folder hq hq h, rfl, h⟩)

/-- In a vector sorted by `nPid`, parents come first when every folder that has a sub-folder has a
    parent id smaller than its id. -/
theorem parentsFirst_iff {w : Favorites} (hw : IsForest w)
    (hsort : w.Pairwise fun r s => r.nPid ≤ s.nPid) :
    ParentsFirst (folders (pointers w)) ↔
      ∀ q ∈ w, ∀ r ∈ w, r.bFolder = true → r.nPid = q.nId → q.nPid < q.nId := by
  set F := folders (pointers w) with hF
  have hmem : ∀ x, x ∈ F → x.2 ∈ w ∧ x.2.bFolder = true := by
    intro x hx
    obtain ⟨hx, hf⟩ := List.mem_filter.mp hx
    obtain ⟨i, hi, rfl⟩ := List.mem_mapIdx.mp hx
    exact ⟨List.getElem_mem hi, hf⟩
  have hfind : ∀ r ∈ w, r.bFolder = true → ∃ (k : ℕ) (x : ℕ × FavoriteLineData),
      F[k]? = some x ∧ x.2 = r := by
    intro r hr hf
    obtain ⟨i, hi, rfl⟩ := List.mem_iff_getElem.mp hr
    have hx : (i, w[i]) ∈ F := List.mem_filter.mpr ⟨List.mem_mapIdx.mpr ⟨i, hi, rfl⟩, hf⟩
    obtain ⟨k, hk⟩ := List.mem_iff_getElem?.mp hx
    exact ⟨k, _, hk, rfl⟩
  have hle : F.Pairwise fun x y => x.2.nPid ≤ y.2.nPid := by
    refine List.Pairwise.filter _ ?_
    rw [← pointers_records w, List.pairwise_map] at hsort
    exact hsort
  have hpos : ∀ {j k : ℕ} {x y : ℕ × FavoriteLineData}, F[j]? = some x → F[k]? = some y → j < k →
      x.2.nPid ≤ y.2.nPid := by
    intro j k x y hx hy hjk
    obtain ⟨hj, rfl⟩ := List.getElem?_eq_some_iff.mp hx
    obtain ⟨hk, rfl⟩ := List.getElem?_eq_some_iff.mp hy
    exact List.pairwise_iff_getElem.mp hle j k hj hk hjk
  constructor
  · intro hfirst q hq r hr hf hrq
    obtain ⟨k, x, hx, rfl⟩ := hfind r hr hf
    obtain ⟨j, y, hj, hy, hid⟩ := hfirst k x hx (hrq ▸ hw.ne_zero q hq)
    obtain rfl : y.2 = q :=
      hw.eq_of_nId (hmem y (List.mem_of_getElem? hy)).1 hq (hid.trans hrq)
    have := hpos hy hx hj
    exact lt_of_le_of_ne (hrq ▸ this) (hw.nPid_ne hq)
  · intro h k x hx hpid
    obtain ⟨hxw, hxf⟩ := hmem x (List.mem_of_getElem? hx)
    obtain ⟨q, hq, hqf, hid⟩ := (hw.parent x.2 hxw).resolve_left hpid
    obtain ⟨j, y, hy, rfl⟩ := hfind q hq hqf
    refine ⟨j, y, ?_, hy, hid⟩
    have hlt := h y.2 hq x.2 hxw hxf hid.symm
    by_contra hjk
    rcases (not_lt.mp hjk).eq_or_lt with rfl | hkj
    · rw [hx] at hy
      cases hy
      omega
    · have := hpos hx hy hkj
      omega

section Renumbered
variable {v u w : Favorites}

/-- The new parent id names the place of the parent. -/
theorem newPid_eq_iff (hnd : (u.map (·.nId)).Nodup) (x : ℤ) (i : ℕ) :
    newPid u x = (i : ℤ) + 1 ↔ ∃ q, u[i]? = some q ∧ q.nId = x := by
  constructor
  · intro h
    rcases newPid_spec x u with ⟨h0, _⟩ | ⟨j, q, hq, hid, hj⟩
    · omega
    · obtain rfl : j = i := by omega
      exact ⟨q, hq, hid⟩
  · rintro ⟨q, hq, hid⟩
    rcases newPid_spec x u with ⟨_, hno⟩ | ⟨j, p, hp, hpid, hj⟩
    · exact absurd hid (hno q (List.mem_of_getElem? hq))
    · have hpq : p = q := List.inj_on_of_nodup_map hnd (List.mem_of_getElem? hp)
        (List.mem_of_getElem? hq) (hpid.trans hid.symm)
      have hji : j = i := (List.getElem?_inj (List.getElem?_eq_some_iff.mp hp).1 hnd.of_map).mp
        (by rw [hp, hq, hpq])
      rw [hj, hji]

theorem IsForest.perm (hv : IsForest v) (hp : u.Perm v) : IsForest u where
  nodup := (hp.map _).nodup_iff.mpr hv.nodup
  ne_zero r hr := hv.ne_zero r (hp.mem_iff.mp hr)
  parent r hr := by
    rcases hv.parent r (hp.mem_iff.mp hr) with h | ⟨q, hq, h⟩
    · exact .inl h
    · exact .inr ⟨q, hp.mem_iff.mpr hq, h⟩
  acyclic := hv.acyclic.mono fun x y ⟨r, hr, h⟩ => ⟨r, hp.mem_iff.mp hr, h⟩

/-- The record a link leads to is a folder, so a cycle of any records is one of folders. -/
theorem IsForest.up_noCycle {v : Favorites} (hv : IsForest v) : NoCycle (Up v) := by
  have hfolder : ∀ {x y : ℤ}, (∃ r ∈ v, r.nPid = x) → Up v x y → FolderUp v x y := by
    rintro _ _ ⟨r, hr, hp⟩ ⟨q, hq, rfl, rfl⟩
    exact ⟨q, hq, hv.folder hq hr hp, rfl, rfl⟩
  have hend : ∀ {x y : ℤ}, Up v x y → ∃ r ∈ v, r.nPid = y := by
    rintro _ _ ⟨r, hr, _, hp⟩
    exact ⟨r, hr, hp⟩
  have hlift : ∀ {x y : ℤ}, (∃ r ∈ v, r.nPid = x) → Relation.TransGen (Up v) x y →
      Relation.TransGen (FolderUp v) x y ∧ ∃ r ∈ v, r.nPid = y := by
    intro x y hx h
    induction h with
    | single h => exact ⟨.single (hfolder hx h), hend h⟩
    | tail _ h ih => exact ⟨ih.1.tail (hfolder ih.2 h), hend h⟩
  intro x hx
  obtain ⟨_, _, hlast⟩ := Relation.TransGen.tail'_iff.mp hx
  exact hv.acyclic x (hlift (hend hlast) hx).1

theorem IsForest.reArrange (hu : IsForest u) (h : reArrange u = some w) : IsForest w where
  nodup := (reArrange_indexed h).numbered.nodup
  ne_zero r hr := by
    obtain ⟨k, r₀, _, rfl⟩ := (mem_reArrange h).mp hr
    exact (by omega : (k : ℤ) + 1 ≠ 0)
  parent r hr := by
    obtain ⟨k, r₀, hr₀, rfl⟩ := (mem_reArrange h).mp hr
    rcases newPid_spec r₀.nPid u with ⟨h0, _⟩ | ⟨i, q, hq, hid, hi⟩
    · exact .inl h0
    · have hf : q.bFolder = true :=
        hu.folder (List.mem_of_getElem? hq) (List.mem_of_getElem? hr₀) hid.symm
      exact .inr ⟨_, (mem_reArrange h).mpr ⟨i, q, hq, rfl⟩, hf, hi.symm⟩
  acyclic := (reArrange_noCycle h hu.up_noCycle).mono fun _ _ => folderUp_up

/-- A renumbered folder has a smaller parent id than id exactly when its parent came first in the
    sort by `nPid`, that is when its parent has a smaller parent id than id. -/
theorem nPid_lt_iff (hu : IsForest u) (hsort : u.Pairwise fun r s => r.nPid ≤ s.nPid) {i : ℕ}
    {q : FavoriteLineData} (hq : u[i]? = some q) :
    newPid u q.nPid < (i : ℤ) + 1 ↔ ∀ p ∈ u, q.nPid = p.nId → p.nPid < p.nId := by
  have hpos : ∀ {j k : ℕ} {r s : FavoriteLineData}, u[j]? = some r → u[k]? = some s → j < k →
      r.nPid ≤ s.nPid := by
    intro j k r s hr hs hjk
    obtain ⟨hj, rfl⟩ := List.getElem?_eq_some_iff.mp hr
    obtain ⟨hk, rfl⟩ := List.getElem?_eq_some_iff.mp hs
    exact List.pairwise_iff_getElem.mp hsort j k hj hk hjk
  rcases newPid_spec q.nPid u with ⟨h0, hno⟩ | ⟨j, p, hp, hid, hj⟩
  · rw [h0]
    exact iff_of_true (by omega) fun p hp h => absurd h.symm (hno p hp)
  · have hpu := List.mem_of_getElem? hp
    rw [hj]
    constructor
    · intro hlt p' hp' h
      obtain rfl : p' = p := hu.eq_of_nId hp' hpu (h.symm.trans hid.symm)
      have := hpos hp hq (by omega)
      exact lt_of_le_of_ne (h ▸ this) (hu.nPid_ne hpu)
    · intro h
      have hlt := h p hpu hid.symm
      by_contra hge
      rcases (show i ≤ j by omega).eq_or_lt with rfl | hij
      · rw [hp] at hq
        cases hq
        omega
      · have := hpos hq hp hij
        omega

end Renumbered

/-- What `LoadFavoriteTree` shows of a sorted vector. -/
theorem showsForest_sorted {w : Favorites} (hw : IsForest w)
    (hsort : w.Pairwise fun r s => r.nPid ≤ s.nPid) :
    ShowsForest (pointers w) (loadFavoriteTree (pointers w)) ↔
      ∀ q ∈ w, ∀ r ∈ w, r.bFolder = true → r.nPid = q.nId → q.nPid < q.nId := by
  have hload := loaded_pointers hw.nodup hw.ne_zero
  rw [hload.shown_iff (pointers_nodup w), parentsFirst_iff hw hsort]

/-- FOLDER TREE: for every forest of records, after sort, `ReArrange` and sort the tree shows the
    forest exactly when every folder with a folder two levels below it has a parent id smaller than
    its id. -/
theorem showsForest_iff (σ₁ σ₂ : Sorter FavoriteLineData) (v : Favorites) (hv : IsForest v) :
    (∃ w, exportTail σ₁ σ₂ v = some w ∧
      ShowsForest (pointers w) (loadFavoriteTree (pointers w))) ↔
    ∀ p ∈ v, ∀ q ∈ v, ∀ r ∈ v, r.bFolder = true → q.nPid = p.nId → r.nPid = q.nId →
      p.nPid < p.nId := by
  rcases eq_or_ne v [] with rfl | hne
  · rw [exportTail, if_pos rfl]
    simp [showsForest_sorted hv List.Pairwise.nil]
  obtain ⟨w₁, hw₁, htail⟩ := exportTail_some hne σ₁
  have hu := hv.perm (σ₁.perm (·.nPid) v)
  have hperm := σ₂.perm (·.nPid) w₁
  have hmem : ∀ {r}, r ∈ σ₁.sort (·.nPid) v ↔ r ∈ v := (σ₁.perm _ v).mem_iff
  simp only [htail σ₂, Option.some.injEq, exists_eq_left',
    showsForest_sorted ((hu.reArrange hw₁).perm hperm) (σ₂.sorted _ w₁), hperm.mem_iff]
  constructor
  · intro h p hp q hq r hr hf hqp hrq
    obtain ⟨i, hi⟩ := List.mem_iff_getElem?.mp (hmem.mpr hq)
    obtain ⟨k, hk⟩ := List.mem_iff_getElem?.mp (hmem.mpr hr)
    have hlt := h _ ((mem_reArrange hw₁).mpr ⟨i, q, hi, rfl⟩) _
      ((mem_reArrange hw₁).mpr ⟨k, r, hk, rfl⟩) hf ((newPid_eq_iff hu.nodup _ i).mpr ⟨q, hi, hrq.symm⟩)
    exact (nPid_lt_iff hu (σ₁.sorted _ v) hi).mp hlt p (hmem.mpr hp) hqp
  · intro h q' hq' r' hr' hf hrq
    obtain ⟨i, q, hi, rfl⟩ := (mem_reArrange hw₁).mp hq'
    obtain ⟨k, r, hk, rfl⟩ := (mem_reArrange hw₁).mp hr'
    obtain ⟨q', hi', hid⟩ := (newPid_eq_iff hu.nodup _ i).mp hrq
    obtain rfl : q = q' := Option.some.inj (hi.symm.trans hi')
    exact (nPid_lt_iff hu (σ₁.sorted _ v) hi).mpr fun p hp hqp => h p (hmem.mp hp) q
      (hmem.mp (List.mem_of_getElem? hi)) r (hmem.mp (List.mem_of_getElem? hk)) hf hqp hid.symm

/-- Three folders in each other with ids that grow downwards. -/
def growing : Favorites :=
  [{ nId := 4, szTitle := ['A'], bFolder := true },
   { nId := 6, nPid := 4, szTitle := ['B'], bFolder := true },
   { nId := 9, nPid := 6, szTitle := ['C'], bFolder := true }]

theorem growing_isForest : IsForest growing where
  nodup := by decide
  ne_zero := by decide
  parent := by decide
  acyclic := by
    have hall : ∀ r ∈ growing, r.nPid < r.nId := by decide
    refine noCycle_of_lt ?_
    rintro _ _ ⟨r, hr, _, rfl, rfl⟩
    exact hall r hr

theorem showsForest_growing : IsForest growing ∧ ∃ w, exportTail insertion insertion growing = some w ∧
    ShowsForest (pointers w) (loadFavoriteTree (pointers w)) :=
  ⟨growing_isForest, (showsForest_iff insertion insertion growing growing_isForest).mpr (by decide)⟩

/-- Four folders in each other, of which the second has a smaller id than the first. -/
def zigzag : Favorites :=
  [{ nId := 5, szTitle := ['A'], bFolder := true },
   { nId := 3, nPid := 5, szTitle := ['B'], bFolder := true },
   { nId := 9, nPid := 3, szTitle := ['C'], bFolder := true },
   { nId := 10, nPid := 9, szTitle := ['D'], bFolder := true }]

theorem zigzag_isForest : IsForest zigzag where
  nodup := by decide
  ne_zero := by decide
  parent := by decide
  acyclic := by
    -- the depth of each folder falls on the way up
    let depth : ℤ → ℕ := fun x => if x = 10 then 4 else if x = 9 then 3 else if x = 3 then 2 else
      if x = 5 then 1 else 0
    have hall : ∀ r ∈ zigzag, depth r.nPid < depth r.nId := by decide
    have hno : NoCycle fun x y : ℕ => y < x := noCycle_of_lt fun _ _ h => h
    refine hno.lift depth ?_
    rintro _ _ _ ⟨r, hr, _, rfl, rfl⟩ _
    exact hall r hr

/-- The vector after the final steps. -/
def zigzagShown : Favorites :=
  [{ nId := 1, nPid := 0, szTitle := ['A'], bFolder := true },
   { nId := 3, nPid := 1, szTitle := ['B'], bFolder := true },
   { nId := 4, nPid := 2, szTitle := ['D'], bFolder := true },
   { nId := 2, nPid := 3, szTitle := ['C'], bFolder := true }]

/-- D comes before C and is shown at top level. -/
theorem zigzag_shown_flat : IsForest zigzag ∧
    exportTail insertion insertion zigzag = some zigzagShown ∧
    ¬ ShowsForest (pointers zigzagShown) (loadFavoriteTree (pointers zigzagShown)) := by
  refine ⟨zigzag_isForest, by decide, fun h => ?_⟩
  have hnode : (3, (⟨nodeText ['D'], some pRootNode, some 2⟩ : Node)) ∈
      (loadFavoriteTree (pointers zigzagShown)).nodes := by decide
  have hroot : ∀ e ∈ (loadFavoriteTree (pointers zigzagShown)).nodes,
      e.1 = pRootNode → e.2.record = none := by decide
  rcases h.parent _ _ (2, { nId := 4, nPid := 2, szTitle := ['D'], bFolder := true }) hnode
    (by decide) rfl with ⟨h0, _⟩ | ⟨q, m, y, hq, _, hrec, _, hpar⟩
  · exact absurd h0 (by decide)
  · have hnone := hroot _ hq (Option.some.inj hpar).symm
    rw [hnone] at hrec
    cases hrec

end UrlTraveler.MainFrame
