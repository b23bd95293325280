import UrlTraveler.DataCenter.Selection
import UrlTraveler.MainFrame.Tree

/-! `CFavoriteTreeListUI`: the maps between tree nodes and record ids while the user edits.

    The tree keeps ids, the data centre changes them. Adding a folder sorts the vector and renumbers
    all of it, but only the new folder gets an entry in the maps:

        ids     A 1   B 2  (below A)      ──add G at top level──▶     A 1   G 2   B 3
        maps    A ↔ 1   B ↔ 2                                         A ↔ 1   B → 2   G ↔ 2

    Moving a folder makes a new node for it and leaves the entry of the old one. User operations and
    the events they push interleave in any way: a run is a list of both, an event being handled by
    `process`. What the environment chooses is in `Env`: the tie order of the sort, the time, and the
    address of the node that is made.

    `RemoveNode` deletes the nodes below as well. `RemoveAt` calls it for every folder below the one
    that is removed, from the top down, and so for nodes that are gone already:

        folders 1 > 2 > 3, remove 1     RemoveNode(2) deletes 2 and 3, then RemoveNode(3)

    A step that uses a deleted node has no result and ends the run. `inStep_iff` says which runs come
    to their end and keep the maps right in every state. -/

namespace UrlTraveler.MainFrame
open DataCenter Maps Sorting Runs

/-! ### Events and operations -/

inductive Event
  | addFavoriteFold (nParentId : ℤ) (szTitle : WStr)
  | addFavoriteFoldResp (nParentId : ℤ) (pFavoriteData : ℕ)
  | deleteFavoriteFold (nDeleteId : ℤ)
  | addFavorite (nParentId : ℤ) (szTitle szUrl : WStr)
  deriving DecidableEq

/-- The vector of the data centre, the tree, and the events that are pushed and not handled yet. -/
structure View where
  data : Records
  tree : TreeList
  pending : List Event
  deriving DecidableEq

structure Env where
  σ : Sorter (ℕ × FavoriteLineData)
  now : ℤ
  pNode : ℕ

/-- What the user does, or the next event. -/
inductive Op
  | addFold (nParentId : ℤ) (szTitle : WStr)
  | addUrl (nParentId : ℤ) (szTitle szUrl : WStr)
  | removeAt (pNode : ℕ) (ok : Bool)
  | dragEnd (pSrcNode pDstNode : ℕ)
  | process

/-! ### The data centre on pointers -/

/-- The records behind the pointers. -/
def favorites (d : Records) : Favorites := d.map (·.2)

/-- New contents behind the same pointers. -/
def withFavorites (d : Records) (v : Favorites) : Records := (d.map (·.1)).zip v

/-- `push_back` of a new record and the sort by `nPid`; the record gets the next pointer. -/
def pushSorted (e : Env) (d : Records) (nParentId : ℤ) (szTitle szUrl : WStr) (bFolder : Bool) :
    Option Records :=
  d.getLast?.map fun last => e.σ.sort (·.2.nPid)
    (d ++ [(d.length, newRecord last.2 nParentId szTitle szUrl bFolder e.now)])

/-! ### The tree control -/

/-- The node `p` and the nodes below it; a node is listed after its parent. -/
def subtree (nodes : List (ℕ × Node)) (p : ℕ) : List ℕ :=
  nodes.foldl (fun below n => if n.1 = p ∨ ∃ q ∈ below, n.2.parent = some q then below ++ [n.1]
    else below) []

/-- `RemoveNode`: the node is deleted, and with it the nodes below it. -/
def TreeList.removeNode (t : TreeList) (p : ℕ) : Option TreeList :=
  if (t.nodes.lookup p).isSome then
    some { t with nodes := t.nodes.filter (·.1 ∉ subtree t.nodes p) }
  else none

/-- A pass of the loop of `RemoveAt` over the sub-folders; only the branch that asked the user
    first removes their nodes. -/
def removeSub (asked : Bool) (t : TreeList) (nSubFolderId : ℤ) : Option TreeList :=
  match t.m_mapIdNode.lookup nSubFolderId with
  | none => some { t with m_mapIdNode := eraseKey t.m_mapIdNode nSubFolderId }
  | some p => (if asked then t.removeNode p else some t).map fun t =>
    { t with m_mapNodeId := eraseKey t.m_mapNodeId p,
             m_mapIdNode := eraseKey t.m_mapIdNode nSubFolderId }

/-- `bExistSubFolder` of `OnService_CheckExistSubFolder`. -/
def existSubFolder (d : Records) (nFoldId : ℤ) : Bool :=
  d.any fun x => x.2.nPid = nFoldId ∧ x.2.bFolder = true

/-- `RemoveAt` on the row of `pNode`; the root row is not removed, `ok` is the answer given to the
    message box. -/
def removeAt (s : View) (pNode : ℕ) (ok : Bool) : Option View :=
  if pNode = pRootNode then some s
  else match s.tree.m_mapNodeId.lookup pNode with
    | none => some s
    | some nId =>
      if existSubFolder s.data nId && !ok then some s
      else do
        let ids ← getSubFolderId (favorites s.data) (s.data.length + 1) [] nId
        let t ← ids.foldlM (removeSub (existSubFolder s.data nId)) s.tree
        let t ← t.removeNode pNode
        some { s with
          tree := { t with m_mapNodeId := eraseKey t.m_mapNodeId pNode,
                           m_mapIdNode := eraseKey t.m_mapIdNode nId }
          pending := s.pending ++ [.deleteFavoriteFold nId] }

/-- `OnEventTreeListItemDragEnd`. -/
def dragEndAt (e : Env) (s : View) (pSrcNode pDstNode : ℕ) : Option View :=
  match s.tree.m_mapNodeId.lookup pDstNode, s.tree.m_mapNodeId.lookup pSrcNode with
  | some nDstId, some nSrcId =>
    if nDstId = nSrcId then some s
    else match s.data.find? (·.2.nId = nSrcId) with
      | none => some s
      | some x => do
        let t ← s.tree.removeNode pSrcNode
        guard ((t.nodes.lookup pDstNode).isSome ∧ t.nodes.lookup e.pNode = none)
        some { s with
          data := withFavorites s.data (dragEnd e.now (favorites s.data) nSrcId nDstId)
          tree := t.addFor e.pNode (nodeText x.2.szTitle) pDstNode x }
  | _, _ => some s

/-- `AddFavoriteFoldSuccess`, with `GetIndexFromId` and `Add`. -/
def addFavoriteFoldSuccess (e : Env) (s : View) (nParentId : ℤ) (pData : ℕ) : Option View :=
  match s.tree.m_mapIdNode.lookup nParentId with
  | none => some s
  | some p =>
    if (s.tree.nodes.lookup p).isSome then
      match s.tree.m_mapNodeId.lookup p with
      | none => some s
      | some _ => do
        let r ← s.data.lookup pData
        guard (s.tree.nodes.lookup e.pNode = none)
        some { s with
          tree := s.tree.addFor e.pNode (['<', 'x', ' ', '4', '>'] ++ r.szTitle) p (pData, r) }
    else none

/-- The handler of an event. -/
def handle (e : Env) (s : View) : Event → Option View
  | .addFavoriteFold nParentId szTitle => do
    let d ← pushSorted e s.data nParentId szTitle [] true
    let v ← reArrange (favorites d)
    some { s with
      data := withFavorites d v
      pending := s.pending ++ [.addFavoriteFoldResp nParentId s.data.length] }
  | .addFavoriteFoldResp nParentId pData => addFavoriteFoldSuccess e s nParentId pData
  | .deleteFavoriteFold nDeleteId => do
    let (v, _) ← deleteFavoriteFolder (favorites s.data) nDeleteId
    some { s with data := withFavorites s.data v }
  | .addFavorite nParentId szTitle szUrl => do
    let d ← pushSorted e s.data nParentId szTitle szUrl false
    some { s with data := d }

/-- One operation, or one event. -/
def viewStep (s : View) : Env × Op → Option View
  | (_, .addFold nParentId szTitle) =>
    some { s with pending := s.pending ++ [.addFavoriteFold nParentId szTitle] }
  | (_, .addUrl nParentId szTitle szUrl) =>
    some { s with pending := s.pending ++ [.addFavorite nParentId szTitle szUrl] }
  | (_, .removeAt pNode ok) => removeAt s pNode ok
  | (e, .dragEnd pSrcNode pDstNode) => dragEndAt e s pSrcNode pDstNode
  | (e, .process) =>
    match s.pending with
    | [] => some s
    | ev :: rest => handle e { s with pending := rest } ev

/-- After `LoadFavoriteTree`. -/
def afterLoad (v : Favorites) : View := ⟨pointers v, loadFavoriteTree (pointers v), []⟩

/-! ### What should hold, and when it does -/

/-- Pointers with the ids of their records. -/
def ids (d : Records) : List (ℕ × ℤ) := d.map fun x => (x.1, x.2.nId)

/-- Every tree node in `m_mapNodeId` has the current id of its record there, the root node has 0,
    and `m_mapIdNode` is the inverse map. -/
structure InStep (s : View) : Prop where
  current : ∀ p n nId, (p, n) ∈ s.tree.nodes → s.tree.m_mapNodeId.lookup p = some nId →
    n.record.elim (nId = 0) fun q => (q, nId) ∈ ids s.data
  inverse : Inverse s.tree.m_mapIdNode s.tree.m_mapNodeId

/-- The record has a node in the tree and in `m_mapNodeId`. -/
def OnTree (t : TreeList) (q : ℕ) : Prop :=
  ∃ n ∈ t.nodes, n.2.record = some q ∧ (t.m_mapNodeId.lookup n.1).isSome

/-- A pair can be entered: it is there already, or neither the id nor the node is. -/
def Free (t : TreeList) (nId : ℤ) (p : ℕ) : Prop :=
  t.m_mapIdNode.lookup nId = none ∧ t.m_mapNodeId.lookup p = none ∨
    t.m_mapIdNode.lookup nId = some p

/-- When a folder is added, the sort puts every record with a node where its id says. A new node has
    an address, and its record an id, that the maps do not hold yet. When a folder is moved, which
    makes a new node for the old id, the new node gets the address of the old one. -/
def KeepsInStep (s : View) : Env × Op → Prop
  | (e, .process) =>
    match s.pending with
    | .addFavoriteFold nParentId szTitle :: _ => ∀ d ∈ pushSorted e s.data nParentId szTitle [] true,
        ∀ x ∈ d.zipIdx, OnTree s.tree x.1.1 → x.1.2.nId = (x.2 : ℤ) + 1
    | .addFavoriteFoldResp nParentId pData :: _ => (s.tree.m_mapIdNode.lookup nParentId).isSome →
        ∀ r ∈ s.data.lookup pData, Free s.tree r.nId e.pNode
    | _ => True
  | (e, .dragEnd pSrcNode pDstNode) => ∀ nDstId ∈ s.tree.m_mapNodeId.lookup pDstNode,
      ∀ nSrcId ∈ s.tree.m_mapNodeId.lookup pSrcNode, nDstId ≠ nSrcId →
        (∃ x ∈ s.data, x.2.nId = nSrcId) → e.pNode = pSrcNode
  | _ => True

/-- The nodes are in the tree, each when those before it have been removed. -/
def Removable : List (ℕ × Node) → List ℕ → Prop
  | _, [] => True
  | nodes, p :: ps =>
    (nodes.lookup p).isSome ∧ Removable (nodes.filter (·.1 ∉ subtree nodes p)) ps

/-- The nodes a map has for the ids, an id being taken once. -/
def nodesOf : List (ℤ × ℕ) → List ℤ → List ℕ
  | _, [] => []
  | m, nId :: l => (m.lookup nId).toList ++ nodesOf (eraseKey m nId) l

/-- No deleted node is used. When a folder is removed, its recursion ends, and of the nodes that are
    removed none lies below an earlier one. A folder that is moved is in the tree with its target,
    which does not lie below it. A new node has a parent in the tree and an address of its own. And a
    record is only added behind another one. -/
def UsesLive (s : View) : Env × Op → Prop
  | (_, .removeAt pNode ok) => pNode ≠ pRootNode → ∀ nId ∈ s.tree.m_mapNodeId.lookup pNode,
      (existSubFolder s.data nId → ok) →
        ∃ l ∈ getSubFolderId (favorites s.data) (s.data.length + 1) [] nId, Removable s.tree.nodes
          ((if existSubFolder s.data nId then nodesOf s.tree.m_mapIdNode l else []) ++ [pNode])
  | (e, .dragEnd pSrcNode pDstNode) => ∀ nDstId ∈ s.tree.m_mapNodeId.lookup pDstNode,
      ∀ nSrcId ∈ s.tree.m_mapNodeId.lookup pSrcNode, nDstId ≠ nSrcId →
        (∃ x ∈ s.data, x.2.nId = nSrcId) → (s.tree.nodes.lookup pSrcNode).isSome ∧
          ((s.tree.nodes.lookup pDstNode).isSome ∧ pDstNode ∉ subtree s.tree.nodes pSrcNode) ∧
            ((s.tree.nodes.lookup e.pNode).isSome → e.pNode ∈ subtree s.tree.nodes pSrcNode)
  | (e, .process) =>
    match s.pending with
    | .addFavoriteFold _ _ :: _ | .addFavorite _ _ _ :: _ => s.data ≠ []
    | .addFavoriteFoldResp nParentId _ :: _ => ∀ p ∈ s.tree.m_mapIdNode.lookup nParentId,
        (s.tree.nodes.lookup p).isSome ∧ s.tree.nodes.lookup e.pNode = none
    | _ => True
  | _ => True

instance Removable.decidable : ∀ nodes ps, Decidable (Removable nodes ps)
  | _, [] => .isTrue trivial
  | nodes, p :: ps =>
    haveI := Removable.decidable (nodes.filter (·.1 ∉ subtree nodes p)) ps
    inferInstanceAs (Decidable (_ ∧ _))

instance (s : View) : ∀ a, Decidable (UsesLive s a)
  | (_, .removeAt _ _) => inferInstanceAs (Decidable (_ → _))
  | (_, .dragEnd pSrcNode pDstNode) => inferInstanceAs (Decidable
      (∀ nDstId ∈ s.tree.m_mapNodeId.lookup pDstNode, ∀ nSrcId ∈ s.tree.m_mapNodeId.lookup pSrcNode,
        nDstId ≠ nSrcId → (∃ x ∈ s.data, x.2.nId = nSrcId) → _))
  | (e, .process) =>
    match h : s.pending with
    | .addFavoriteFold _ _ :: _ => decidable_of_iff (s.data ≠ []) (by rw [UsesLive, h])
    | .addFavorite _ _ _ :: _ => decidable_of_iff (s.data ≠ []) (by rw [UsesLive, h])
    | .addFavoriteFoldResp nParentId _ :: _ => decidable_of_iff
        (∀ p ∈ s.tree.m_mapIdNode.lookup nParentId,
          (s.tree.nodes.lookup p).isSome ∧ s.tree.nodes.lookup e.pNode = none) (by rw [UsesLive, h])
    | .deleteFavoriteFold _ :: _ => .isTrue (by rw [UsesLive, h]; trivial)
    | [] => .isTrue (by rw [UsesLive, h]; trivial)
  | (_, .addFold _ _) => .isTrue trivial
  | (_, .addUrl _ _ _) => .isTrue trivial

instance (t : TreeList) (q : ℕ) : Decidable (OnTree t q) :=
  inferInstanceAs (Decidable (∃ n ∈ t.nodes, _))

instance (t : TreeList) (nId : ℤ) (p : ℕ) : Decidable (Free t nId p) :=
  inferInstanceAs (Decidable (_ ∨ _))

instance (s : View) : ∀ a, Decidable (KeepsInStep s a)
  | (e, .process) =>
    match h : s.pending with
    | .addFavoriteFold nParentId szTitle :: _ => decidable_of_iff
        (∀ d ∈ pushSorted e s.data nParentId szTitle [] true,
          ∀ x ∈ d.zipIdx, OnTree s.tree x.1.1 → x.1.2.nId = (x.2 : ℤ) + 1) (by rw [KeepsInStep, h])
    | .addFavoriteFoldResp nParentId pData :: _ => decidable_of_iff
        ((s.tree.m_mapIdNode.lookup nParentId).isSome →
          ∀ r ∈ s.data.lookup pData, Free s.tree r.nId e.pNode) (by rw [KeepsInStep, h])
    | .deleteFavoriteFold _ :: _ => .isTrue (by rw [KeepsInStep, h]; trivial)
    | .addFavorite _ _ _ :: _ => .isTrue (by rw [KeepsInStep, h]; trivial)
    | [] => .isTrue (by rw [KeepsInStep, h]; trivial)
  | (e, .dragEnd pSrcNode pDstNode) => inferInstanceAs (Decidable
      (∀ nDstId ∈ s.tree.m_mapNodeId.lookup pDstNode, ∀ nSrcId ∈ s.tree.m_mapNodeId.lookup pSrcNode,
        nDstId ≠ nSrcId → (∃ x ∈ s.data, x.2.nId = nSrcId) → e.pNode = pSrcNode))
  | (_, .addFold _ _) => .isTrue trivial
  | (_, .addUrl _ _ _) => .isTrue trivial
  | (_, .removeAt _ _) => .isTrue trivial

/-! ### Pointers and ids -/

/-- The pointers in use are the first ones. -/
def Pointers (d : Records) : Prop := (d.map (·.1)).Perm (List.range d.length)

theorem Pointers.nodup {d : Records} (h : Pointers d) : (d.map (·.1)).Nodup :=
  (List.Perm.nodup_iff h).mpr List.nodup_range

theorem ids_withFavorites {d : Records} {v : Favorites}
    (hv : v.map (·.nId) = (favorites d).map (·.nId)) : ids (withFavorites d v) = ids d := by
  have hzip : ids (withFavorites d v) = (d.map (·.1)).zip (v.map (·.nId)) := by
    rw [ids, withFavorites, List.zip_map_right]
    rfl
  rw [hzip, hv, favorites, List.map_map, ids, List.zip_map']
  rfl

theorem pointers_withFavorites {d : Records} {v : Favorites} (h : Pointers d)
    (hlen : v.length = d.length) : Pointers (withFavorites d v) := by
  have hmap : (withFavorites d v).map (·.1) = d.map (·.1) :=
    List.map_fst_zip (by rw [List.length_map, hlen])
  have hlen' : (withFavorites d v).length = d.length := by
    simpa using congrArg List.length hmap
  rw [Pointers, hmap, hlen']
  exact h

theorem length_withFavorites {d : Records} {v : Favorites} (hlen : v.length = d.length) :
    (withFavorites d v).length = d.length := by
  rw [withFavorites, List.length_zip, List.length_map, hlen, Nat.min_self]

theorem pushSorted_some {e : Env} {d d' : Records} {p : ℤ} {title url : WStr} {f : Bool}
    (h : pushSorted e d p title url f = some d') :
    ∃ r, d'.Perm (d ++ [(d.length, r)]) := by
  obtain ⟨last, _, rfl⟩ := Option.map_eq_some_iff.mp h
  exact ⟨_, e.σ.perm _ _⟩

/-- The new record has the id after that of the last one. -/
theorem pushSorted_new {e : Env} {d d' : Records} {p : ℤ} {title url : WStr} {f : Bool}
    (h : pushSorted e d p title url f = some d') :
    ∃ r, d'.Perm (d ++ [(d.length, r)]) ∧ ∃ last ∈ d, r.nId = last.2.nId + 1 := by
  obtain ⟨last, hlast, rfl⟩ := Option.map_eq_some_iff.mp h
  exact ⟨_, e.σ.perm _ _, last, List.mem_of_getLast? hlast, rfl⟩

theorem Pointers.push {d d' : Records} (hd : Pointers d) {r : FavoriteLineData}
    (hp : d'.Perm (d ++ [(d.length, r)])) : Pointers d' := by
  rw [Pointers, hp.length_eq, List.length_append, List.length_singleton, List.range_succ]
  refine (hp.map _).trans ?_
  rw [List.map_append, List.map_singleton]
  exact List.Perm.append_right _ hd

theorem ids_push {d d' : Records} {r : FavoriteLineData} (hp : d'.Perm (d ++ [(d.length, r)]))
    {x : ℕ × ℤ} (hx : x ∈ ids d) : x ∈ ids d' := by
  rw [ids, (hp.map _).mem_iff, List.map_append]
  exact List.mem_append_left _ hx

/-! ### Removing nodes and entries -/

/-- `t'` has fewer nodes and fewer entries than `t`, and its maps are inverse. -/
structure Shrunk (t t' : TreeList) : Prop where
  nodes : ∀ n ∈ t'.nodes, n ∈ t.nodes
  nodeId : ∀ p nId, t'.m_mapNodeId.lookup p = some nId → t.m_mapNodeId.lookup p = some nId
  inverse : Inverse t'.m_mapIdNode t'.m_mapNodeId

section Shrink
variable {t t' t'' : TreeList}

theorem Shrunk.refl (h : Inverse t.m_mapIdNode t.m_mapNodeId) : Shrunk t t :=
  ⟨fun _ => id, fun _ _ => id, h⟩

theorem Shrunk.trans (h : Shrunk t t') (h' : Shrunk t' t'') : Shrunk t t'' :=
  ⟨fun n hn => h.nodes n (h'.nodes n hn), fun p nId hp => h.nodeId p nId (h'.nodeId p nId hp),
    h'.inverse⟩

/-- A node that is still there was there. -/
theorem Shrunk.live (h : Shrunk t t') {p : ℕ} (hp : (t'.nodes.lookup p).isSome) :
    (t.nodes.lookup p).isSome := by
  rw [← mem_keys] at hp ⊢
  obtain ⟨n, hn, rfl⟩ := List.mem_map.mp hp
  exact List.mem_map_of_mem (h.nodes n hn)

theorem removeNode_live {p : ℕ} (h : t.removeNode p = some t') : (t.nodes.lookup p).isSome := by
  rw [TreeList.removeNode] at h
  split at h
  · assumption
  · cases h

theorem Shrunk.removeNode (h : Shrunk t t') {p : ℕ} (hr : t'.removeNode p = some t'') :
    Shrunk t t'' := by
  rw [TreeList.removeNode] at hr
  split at hr
  · cases hr
    exact ⟨fun n hn => h.nodes n (List.mem_of_mem_filter hn), h.nodeId, h.inverse⟩
  · cases hr

/-- Erasing a pair of the maps we started from. -/
theorem Shrunk.erase (h : Shrunk t t') (ht : Inverse t.m_mapIdNode t.m_mapNodeId) {p : ℕ} {nId : ℤ}
    (hp : t.m_mapNodeId.lookup p = some nId) :
    Shrunk t { t' with m_mapNodeId := eraseKey t'.m_mapNodeId p,
                       m_mapIdNode := eraseKey t'.m_mapIdNode nId } := by
  refine ⟨h.nodes, fun q x hq => ?_, ?_⟩
  · rw [lookup_eraseKey] at hq
    split at hq
    · cases hq
    · exact h.nodeId q x hq
  · cases hx : t'.m_mapIdNode.lookup nId with
    | some q =>
      have hq := h.nodeId q nId ((h.inverse _ _).mp hx)
      obtain rfl : p = q :=
        Option.some.inj (((ht nId p).mpr hp).symm.trans ((ht nId q).mpr hq))
      exact h.inverse.eraseKey hx
    | none =>
      have hp' : t'.m_mapNodeId.lookup p = none := by
        refine Option.eq_none_iff_forall_ne_some.mpr fun x hx' => ?_
        obtain rfl : nId = x := Option.some.inj (hp.symm.trans (h.nodeId p x hx'))
        rw [← h.inverse, hx] at hx'
        cases hx'
      intro x q
      rw [lookup_eraseKey, lookup_eraseKey]
      by_cases hxn : x = nId <;> by_cases hqp : q = p
      · simp [hxn, hqp]
      · rw [if_pos hxn, if_neg hqp, hxn, ← h.inverse, hx]
      · rw [if_neg hxn, if_pos hqp, hqp, h.inverse, hp']
      · rw [if_neg hxn, if_neg hqp, h.inverse]

theorem removeSub_shrunk {asked : Bool} {nId : ℤ} (ht : Inverse t.m_mapIdNode t.m_mapNodeId)
    (h : removeSub asked t nId = some t') : Shrunk t t' := by
  rw [removeSub] at h
  split at h
  next hnone =>
    cases h
    refine ⟨fun _ => id, fun _ _ => id, fun x q => ?_⟩
    rw [lookup_eraseKey]
    split
    next hx => rw [hx, ← ht, hnone]
    next => exact ht x q
  next p hp =>
    obtain ⟨t₁, ht₁, rfl⟩ := Option.map_eq_some_iff.mp h
    have h₁ : Shrunk t t₁ := by
      cases asked with
      | true => exact (Shrunk.refl ht).removeNode ht₁
      | false =>
        cases ht₁
        exact Shrunk.refl ht
    exact h₁.erase ht ((ht _ _).mp hp)

theorem removeSubs_shrunk {asked : Bool} : ∀ (l : List ℤ) {t t' : TreeList},
    Inverse t.m_mapIdNode t.m_mapNodeId → l.foldlM (removeSub asked) t = some t' → Shrunk t t'
  | [], t, t', ht, h => by
    cases h
    exact Shrunk.refl ht
  | nId :: l, t, t', ht, h => by
    rw [List.foldlM_cons, Option.bind_eq_bind, Option.bind_eq_some_iff] at h
    obtain ⟨t₁, h₁, h⟩ := h
    have hs := removeSub_shrunk ht h₁
    exact hs.trans (removeSubs_shrunk l hs.inverse h)

end Shrink

/-! ### One step -/

/-- The id names a place in the vector. -/
def IsPlace (d : Records) (nId : ℤ) : Prop := 1 ≤ nId ∧ nId ≤ d.length

/-- What an event that is pushed relies on. -/
def EventPlaced (d : Records) : Event → Prop
  | .deleteFavoriteFold nDeleteId => IsPlace d nDeleteId
  | .addFavoriteFoldResp _ pData => pData < d.length
  | _ => True

/-- What a run keeps besides the maps: which pointers are in use, that ids name places, though not
    always those of their records, and that every node but the root has a record. -/
structure Placed (s : View) : Prop where
  pointers : Pointers s.data
  places : ∀ x ∈ ids s.data, IsPlace s.data x.2
  root : ∀ n ∈ s.tree.nodes, n.2.record = none → n.1 = pRootNode
  pending : ∀ ev ∈ s.pending, EventPlaced s.data ev

def Sound (s : View) : Prop := InStep s ∧ Placed s

theorem EventPlaced.mono {d d' : Records} (hlen : d.length ≤ d'.length) {ev : Event}
    (h : EventPlaced d ev) : EventPlaced d' ev := by
  cases ev with
  | addFavoriteFold | addFavorite => trivial
  | addFavoriteFoldResp p q => exact h.trans_le hlen
  | deleteFavoriteFold nId => exact ⟨h.1, h.2.trans (by exact_mod_cast hlen)⟩

/-- A step that adds places, nodes with records, and events it can answer for. -/
theorem Placed.next {s s' : View} (h : Placed s) (hptr : Pointers s'.data)
    (hlen : s.data.length ≤ s'.data.length)
    (hids : ∀ x ∈ ids s'.data, x ∈ ids s.data ∨ IsPlace s'.data x.2)
    (hnodes : ∀ n ∈ s'.tree.nodes, n ∈ s.tree.nodes ∨ n.2.record ≠ none)
    (hpend : ∀ ev ∈ s'.pending, ev ∈ s.pending ∨ EventPlaced s'.data ev) : Placed s' where
  pointers := hptr
  places x hx := by
    rcases hids x hx with hx | hx
    · exact ⟨(h.places x hx).1, (h.places x hx).2.trans (by exact_mod_cast hlen)⟩
    · exact hx
  root n hn hrec := (hnodes n hn).elim (fun hn => h.root n hn hrec) fun hne => absurd hrec hne
  pending ev hev := (hpend ev hev).elim (fun hev => (h.pending ev hev).mono hlen) id

section Step
variable {s s' : View} {e : Env}

/-- Records keep their ids and the tree shrinks. -/
theorem InStep.shrink (h : InStep s) (hd : ∀ x ∈ ids s.data, x ∈ ids s'.data)
    (ht : Shrunk s.tree s'.tree) : InStep s' where
  current p n nId hn hp := by
    have hcur := h.current p n nId (ht.nodes _ hn) (ht.nodeId _ _ hp)
    cases hr : n.record with
    | none => rwa [hr] at hcur
    | some q =>
      rw [hr] at hcur
      exact hd _ hcur
  inverse := ht.inverse

/-- A node is added for a record; entering the pair keeps the maps inverse or does not. -/
theorem InStep.addFor_iff (h : InStep s) {t : TreeList} (ht : Shrunk s.tree t)
    {d : Records} (hd : ids d = ids s.data) {x : ℕ × FavoriteLineData} (hx : x ∈ s.data)
    {p parent : ℕ} {text : WStr} (hnew : t.nodes.lookup p = none) (pending : List Event) :
    InStep ⟨d, t.addFor p text parent x, pending⟩ ↔ Free t x.2.nId p := by
  constructor
  · intro h'
    exact (ht.inverse.setKey_iff _ _).mp h'.inverse
  · intro hfree
    refine ⟨fun q n nId hn hq => ?_, (ht.inverse.setKey_iff _ _).mpr hfree⟩
    rw [TreeList.addFor, lookup_setKey] at hq
    rw [hd]
    rcases List.mem_append.mp hn with hold | hn
    · have hqp : q ≠ p := by
        rintro rfl
        have := mem_keys.mp (List.mem_map_of_mem hold)
        rw [hnew] at this
        cases this
      rw [if_neg hqp] at hq
      exact h.current q n nId (ht.nodes _ hold) (ht.nodeId _ _ hq)
    · cases List.mem_singleton.mp hn
      rw [if_pos rfl] at hq
      cases hq
      exact List.mem_map_of_mem (f := fun x : ℕ × FavoriteLineData => (x.1, x.2.nId)) hx

/-- A node in the tree other than the root has an id that names a place. -/
theorem Sound.isPlace (h : Sound s) {p : ℕ} {nId : ℤ} (hp : (s.tree.nodes.lookup p).isSome)
    (hroot : p ≠ pRootNode) (hid : s.tree.m_mapNodeId.lookup p = some nId) : IsPlace s.data nId := by
  obtain ⟨n, hn⟩ := Option.isSome_iff_exists.mp hp
  have hcur := h.1.current p n nId (mem_of_lookup hn) hid
  cases hrec : n.record with
  | none => exact absurd (h.2.root _ (mem_of_lookup hn) hrec) hroot
  | some q =>
    rw [hrec] at hcur
    exact h.2.places _ hcur

theorem Sound.rest (h : Sound s) {ev : Event} {rest : List Event} (hev : s.pending = ev :: rest) :
    Sound { s with pending := rest } := by
  refine ⟨⟨h.1.current, h.1.inverse⟩,
    h.2.next h.2.pointers le_rfl (fun _ => .inl) (fun _ => .inl) ?_⟩
  intro ev' hev'
  exact .inl (hev ▸ List.mem_cons_of_mem _ hev')

/-- The id of a new record is the next one after that of the last record. -/
theorem Placed.places_new (h : Placed s) {d : Records} {r : FavoriteLineData}
    (hperm : d.Perm (s.data ++ [(s.data.length, r)])) (hr : ∃ last ∈ s.data, r.nId = last.2.nId + 1)
    {x : ℕ × ℤ} (hx : x ∈ ids d) : x ∈ ids s.data ∨ IsPlace d x.2 := by
  rw [ids, (hperm.map _).mem_iff, List.map_append] at hx
  rcases List.mem_append.mp hx with hx | hx
  · exact .inl hx
  · obtain ⟨last, hlast, hid⟩ := hr
    have hplace := h.places _ (List.mem_map_of_mem hlast)
    rw [List.map_singleton, List.mem_singleton] at hx
    rw [hx, IsPlace, hperm.length_eq, List.length_append, List.length_singleton]
    simp only [IsPlace, hid] at hplace ⊢
    exact .inr ⟨by omega, by push_cast; omega⟩

theorem removeAt_sound (h : Sound s) {pNode : ℕ} {ok : Bool} (hs : removeAt s pNode ok = some s') :
    Sound s' := by
  rw [removeAt] at hs
  split at hs
  · cases hs
    exact h
  next hroot =>
  split at hs
  · cases hs
    exact h
  next nId hp =>
    split at hs
    · cases hs
      exact h
    · simp only [Option.bind_eq_bind, Option.bind_eq_some_iff, Option.some.injEq] at hs
      obtain ⟨l, _, t, ht, t', ht', rfl⟩ := hs
      have hsubs := removeSubs_shrunk l h.1.inverse ht
      have hshrunk := hsubs.removeNode ht'
      refine ⟨h.1.shrink (fun _ => id) (hshrunk.erase h.1.inverse hp), ?_⟩
      have hplace : IsPlace s.data nId := h.isPlace (hsubs.live (removeNode_live ht')) hroot hp
      refine h.2.next h.2.pointers le_rfl (fun x => .inl) (fun n hn => .inl (hshrunk.nodes n hn)) ?_
      intro ev hev
      rcases List.mem_append.mp hev with hev | hev
      · exact .inl hev
      · rw [List.mem_singleton.mp hev]
        exact .inr hplace

/-- A folder is moved: the maps stay inverse only when the new node is where the old one was. -/
theorem dragEndAt_iff (h : Sound s) {pSrcNode pDstNode : ℕ}
    (hs : dragEndAt e s pSrcNode pDstNode = some s') :
    Placed s' ∧ (InStep s' ↔ KeepsInStep s (e, .dragEnd pSrcNode pDstNode)) := by
  rw [dragEndAt] at hs
  split at hs
  next nDstId nSrcId hdst hsrc =>
    have hcond : KeepsInStep s (e, .dragEnd pSrcNode pDstNode) ↔
        (nDstId ≠ nSrcId → (∃ x ∈ s.data, x.2.nId = nSrcId) → e.pNode = pSrcNode) := by
      simp only [KeepsInStep, hdst, hsrc, Option.mem_def, Option.some.injEq, forall_eq']
    rw [hcond]
    split at hs
    next heq =>
      cases hs
      exact ⟨h.2, iff_of_true h.1 fun hne => absurd heq hne⟩
    next hne =>
      split at hs
      next hfind =>
        cases hs
        refine ⟨h.2, iff_of_true h.1 fun _ ⟨x, hx, hid⟩ => ?_⟩
        exact absurd hid (by simpa using List.find?_eq_none.mp hfind x hx)
      next x hfind =>
        simp only [Option.bind_eq_bind, Option.bind_eq_some_iff, Option.some.injEq] at hs
        obtain ⟨t, ht, _, hguard, rfl⟩ := hs
        have hx : x ∈ s.data := List.mem_of_find?_eq_some hfind
        have hid : x.2.nId = nSrcId := by simpa using List.find?_some hfind
        have hlive : t.nodes.lookup e.pNode = none := by
          by_contra hlive
          simp [guard, hlive] at hguard
        have hdrag := dragEnd_ids e.now (favorites s.data) nSrcId nDstId
        have hlen : (dragEnd e.now (favorites s.data) nSrcId nDstId).length = s.data.length := by
          simpa [favorites] using congrArg List.length hdrag
        have hshrunk := (Shrunk.refl h.1.inverse).removeNode ht
        refine ⟨h.2.next (pointers_withFavorites h.2.pointers hlen) (length_withFavorites hlen).ge
          (fun x hx => ?_) (fun n hn => ?_) (fun _ => .inl), ?_⟩
        · rw [ids_withFavorites hdrag] at hx
          exact .inl hx
        · rcases List.mem_append.mp hn with hn | hn
          · exact .inl (hshrunk.nodes n hn)
          · rw [List.mem_singleton.mp hn]
            exact .inr (Option.some_ne_none _)
        rw [h.1.addFor_iff hshrunk (ids_withFavorites hdrag) hx hlive]
        have hmap : t.m_mapIdNode.lookup x.2.nId = some pSrcNode := by
          rw [TreeList.removeNode] at ht
          split at ht
          · cases ht
            rw [hid, h.1.inverse, hsrc]
          · cases ht
        rw [Free, hmap]
        simp only [reduceCtorEq, false_and, false_or, Option.some.injEq]
        exact ⟨fun he _ _ => he.symm, fun he => (he hne ⟨x, hx, hid⟩).symm⟩
  next hno =>
    cases hs
    refine ⟨h.2, iff_of_true h.1 ?_⟩
    intro nDstId hdst nSrcId hsrc
    exact absurd hsrc (hno nDstId nSrcId hdst)

/-- A new folder gets its node. -/
theorem addFavoriteFoldSuccess_iff (h : Sound s) {nParentId : ℤ} {pData : ℕ}
    (hs : addFavoriteFoldSuccess e s nParentId pData = some s') :
    Placed s' ∧ (InStep s' ↔ ((s.tree.m_mapIdNode.lookup nParentId).isSome →
      ∀ r ∈ s.data.lookup pData, Free s.tree r.nId e.pNode)) := by
  rw [addFavoriteFoldSuccess] at hs
  split at hs
  next hnone =>
    cases hs
    exact ⟨h.2, iff_of_true h.1 (by simp [hnone])⟩
  next p hp =>
    split at hs
    next =>
      -- the parent's node has its entry in the other map
      rw [(h.1.inverse _ _).mp hp] at hs
      simp only [Option.bind_eq_bind, Option.bind_eq_some_iff, Option.some.injEq] at hs
      obtain ⟨r, hr, _, hguard, rfl⟩ := hs
      have hlive : s.tree.nodes.lookup e.pNode = none := by
        by_contra hlive
        simp [guard, hlive] at hguard
      have hx : (pData, r) ∈ s.data := mem_of_lookup hr
      refine ⟨h.2.next h.2.pointers le_rfl (fun _ => .inl) (fun n hn => ?_) (fun _ => .inl), ?_⟩
      · rcases List.mem_append.mp hn with hn | hn
        · exact .inl hn
        · rw [List.mem_singleton.mp hn]
          exact .inr (Option.some_ne_none _)
      rw [h.1.addFor_iff (Shrunk.refl h.1.inverse) rfl hx hlive]
      simp [hp, hr]
    next => cases hs

/-- The ids after renumbering are the places. -/
theorem mem_ids_reArrange {d : Records} {v : Favorites} (h : reArrange (favorites d) = some v)
    {q : ℕ} {nId : ℤ} : (q, nId) ∈ ids (withFavorites d v) ↔
      ∃ (k : ℕ) (x : ℕ × FavoriteLineData), d[k]? = some x ∧ x.1 = q ∧ nId = (k : ℤ) + 1 := by
  have hget : ∀ k : ℕ, (ids (withFavorites d v))[k]? = d[k]?.map fun x => (x.1, (k : ℤ) + 1) := by
    intro k
    rw [ids, List.getElem?_map, withFavorites, List.zip, List.getElem?_zipWith, List.getElem?_map,
      reArrange_getElem? h, favorites, List.getElem?_map]
    cases d[k]? <;> rfl
  rw [List.mem_iff_getElem?]
  refine exists_congr fun k => ?_
  rw [hget, Option.map_eq_some_iff]
  refine exists_congr fun x => and_congr_right fun _ => ?_
  rw [Prod.mk.injEq, eq_comm (b := nId)]

/-- A folder is added: the records on the tree keep their ids when the sort puts them where their
    ids say. -/
theorem handle_addFavoriteFold_iff (h : Sound s) {nParentId : ℤ} {szTitle : WStr}
    (hs : handle e s (.addFavoriteFold nParentId szTitle) = some s') :
    Placed s' ∧ (InStep s' ↔ ∀ d ∈ pushSorted e s.data nParentId szTitle [] true,
      ∀ x ∈ d.zipIdx, OnTree s.tree x.1.1 → x.1.2.nId = (x.2 : ℤ) + 1) := by
  simp only [handle, Option.bind_eq_bind, Option.bind_eq_some_iff, Option.some.injEq] at hs
  obtain ⟨d, hd, v, hv, rfl⟩ := hs
  obtain ⟨r, hperm⟩ := pushSorted_some hd
  have hptr := h.2.pointers.push hperm
  have hlen : v.length = d.length := by rw [(reArrange_some hv).2]; simp [favorites]
  have hlen' : d.length = s.data.length + 1 := by
    rw [hperm.length_eq, List.length_append, List.length_singleton]
  have hgrow : (withFavorites d v).length = s.data.length + 1 := by
    rw [length_withFavorites hlen, hlen']
  refine ⟨h.2.next (pointers_withFavorites hptr hlen)
    ((Nat.le_succ _).trans hgrow.ge) (fun x hx => ?_) (fun _ => .inl)
    (fun ev hev => ?_), ?_⟩
  · obtain ⟨k, y, hy, _, hk⟩ := (mem_ids_reArrange hv).mp hx
    have hlt := (List.getElem?_eq_some_iff.mp hy).1
    have hplace : IsPlace (withFavorites d v) x.2 := by
      rw [IsPlace, hgrow]
      omega
    exact .inr hplace
  · rcases List.mem_append.mp hev with hev | hev
    · exact .inl hev
    · rw [List.mem_singleton.mp hev]
      exact .inr (by simp only [EventPlaced]; omega)
  simp only [hd, Option.mem_def, Option.some.injEq, forall_eq']
  -- the record behind a pointer that is on the tree is an old one
  have hold : ∀ {q nId}, (q, nId) ∈ ids s.data → ∃ r, (q, r) ∈ d ∧ r.nId = nId := by
    intro q nId hq
    obtain ⟨x, hx, he⟩ := List.mem_map.mp hq
    cases he
    exact ⟨x.2, hperm.mem_iff.mpr (List.mem_append_left _ hx), rfl⟩
  constructor
  · rintro h' ⟨x, k⟩ hx ⟨n, hn, hrec, hsome⟩
    obtain ⟨nId, hid⟩ := Option.isSome_iff_exists.mp hsome
    have hbefore := h.1.current _ _ nId hn hid
    have hafter := h'.current _ _ nId hn hid
    rw [hrec] at hbefore hafter
    have hxk : d[k]? = some x := List.mem_zipIdx_iff_getElem?.mp hx
    obtain ⟨r', hr', hr'id⟩ := hold hbefore
    obtain ⟨k', x', hx', hq, hk'⟩ := (mem_ids_reArrange hv).mp hafter
    have hxr : x = (x.1, r') :=
      List.inj_on_of_nodup_map hptr.nodup (List.mem_of_getElem? hxk) hr' rfl
    have hxx : x' = x := List.inj_on_of_nodup_map hptr.nodup (List.mem_of_getElem? hx')
      (List.mem_of_getElem? hxk) hq
    have hkk : k' = k := (List.getElem?_inj (List.getElem?_eq_some_iff.mp hx').1
      hptr.nodup.of_map).mp (by rw [hx', hxk, hxx])
    show x.2.nId = (k : ℤ) + 1
    rw [hxr, hr'id, hk', hkk]
  · intro hplace
    refine ⟨fun p n nId hn hp => ?_, h.1.inverse⟩
    have hcur := h.1.current p n nId hn hp
    cases hrec : n.record with
    | none => rwa [hrec] at hcur
    | some q =>
      rw [hrec] at hcur
      obtain ⟨r', hr', hr'id⟩ := hold hcur
      obtain ⟨k, hk⟩ := List.mem_iff_getElem?.mp hr'
      have := hplace ((q, r'), k) (List.mem_zipIdx_iff_getElem?.mpr hk)
        ⟨(p, n), hn, hrec, by simp [hp]⟩
      exact (mem_ids_reArrange hv).mpr ⟨k, (q, r'), hk, rfl, hr'id.symm.trans this⟩

/-- One step keeps the maps in step exactly when it meets the condition. -/
theorem viewStep_iff (h : Sound s) {a : Env × Op} (hs : viewStep s a = some s') :
    Placed s' ∧ (InStep s' ↔ KeepsInStep s a) := by
  obtain ⟨e, op⟩ := a
  cases op with
  | addFold | addUrl =>
    cases hs
    refine ⟨h.2.next h.2.pointers le_rfl (fun _ => .inl) (fun _ => .inl) (fun ev hev => ?_),
      iff_of_true ⟨h.1.current, h.1.inverse⟩ trivial⟩
    refine (List.mem_append.mp hev).imp_right fun hev => ?_
    rw [List.mem_singleton.mp hev]
    trivial
  | removeAt p ok =>
    have hsound := removeAt_sound h hs
    exact ⟨hsound.2, iff_of_true hsound.1 trivial⟩
  | dragEnd src dst => exact dragEndAt_iff h hs
  | process =>
    rw [viewStep] at hs
    simp only [KeepsInStep]
    cases hev : s.pending with
    | nil =>
      rw [hev] at hs
      cases hs
      exact ⟨h.2, iff_of_true h.1 trivial⟩
    | cons ev rest =>
      rw [hev] at hs
      have hrest := h.rest hev
      cases ev with
      | addFavoriteFold p t => exact handle_addFavoriteFold_iff hrest hs
      | addFavoriteFoldResp p q => exact addFavoriteFoldSuccess_iff hrest hs
      | deleteFavoriteFold n =>
        simp only [handle, Option.bind_eq_bind, Option.bind_eq_some_iff, Option.some.injEq] at hs
        obtain ⟨⟨v, sel⟩, hv, rfl⟩ := hs
        have hids := ids_of_link (deleteFavoriteFolder_link hv)
        have hlen : v.length = s.data.length := by
          simpa [favorites] using congrArg List.length hids
        have hsame : ids (withFavorites s.data v) = ids s.data := ids_withFavorites hids
        refine ⟨hrest.2.next (pointers_withFavorites h.2.pointers hlen) (length_withFavorites hlen).ge
          (fun x hx => .inl (hsame ▸ hx)) (fun _ => .inl) (fun _ => .inl), iff_of_true ?_ trivial⟩
        exact hrest.1.shrink (fun x hx => hsame ▸ hx) (Shrunk.refl h.1.inverse)
      | addFavorite p t u =>
        simp only [handle, Option.bind_eq_bind, Option.bind_eq_some_iff, Option.some.injEq] at hs
        obtain ⟨d, hd, rfl⟩ := hs
        obtain ⟨r, hperm, hr⟩ := pushSorted_new hd
        have hlen : d.length = s.data.length + 1 := by
          rw [hperm.length_eq, List.length_append, List.length_singleton]
        refine ⟨hrest.2.next (h.2.pointers.push hperm) (by simp only; omega) (fun x hx => ?_)
          (fun _ => .inl) (fun _ => .inl), iff_of_true
          (hrest.1.shrink (fun _ => ids_push hperm) (Shrunk.refl h.1.inverse)) trivial⟩
        exact h.2.places_new hperm hr hx

end Step

/-! ### Which steps have a result -/

section Defined
variable {s : View} {e : Env}

/-- The nodes of the sub-folders are removed one after the other, and then those of `ps`. -/
theorem removeSubs_some_iff (asked : Bool) (ps : List ℕ) : ∀ (l : List ℤ) (t : TreeList),
    (∃ t', l.foldlM (removeSub asked) t = some t' ∧ Removable t'.nodes ps) ↔
      Removable t.nodes ((if asked then nodesOf t.m_mapIdNode l else []) ++ ps)
  | [], t => by simp [nodesOf]
  | nId :: l, t => by
    have hcons : (∃ t', (nId :: l).foldlM (removeSub asked) t = some t' ∧ Removable t'.nodes ps) ↔
        ∃ t₁, removeSub asked t nId = some t₁ ∧
          ∃ t', l.foldlM (removeSub asked) t₁ = some t' ∧ Removable t'.nodes ps := by
      simp only [List.foldlM_cons, Option.bind_eq_bind, Option.bind_eq_some_iff]
      constructor
      · rintro ⟨t', ⟨t₁, h₁, h⟩, hps⟩
        exact ⟨t₁, h₁, t', h, hps⟩
      · rintro ⟨t₁, h₁, t', h, hps⟩
        exact ⟨t', ⟨t₁, h₁, h⟩, hps⟩
    simp only [hcons, removeSubs_some_iff asked ps l, nodesOf, removeSub]
    cases hp : t.m_mapIdNode.lookup nId with
    | none => simp
    | some p =>
      cases asked with
      | false => simp
      | true =>
        by_cases hlive : (t.nodes.lookup p).isSome <;>
          simp [TreeList.removeNode, hlive, Removable]

theorem removeAt_some_iff {pNode : ℕ} {ok : Bool} :
    (∃ s', removeAt s pNode ok = some s') ↔ UsesLive s (e, .removeAt pNode ok) := by
  rw [removeAt, UsesLive]
  split
  next hroot => exact iff_of_true ⟨s, rfl⟩ fun h => absurd hroot h
  next hroot =>
  cases hp : s.tree.m_mapNodeId.lookup pNode with
  | none => simp
  | some nId =>
    simp only [Option.mem_def, Option.some.injEq, forall_eq']
    by_cases hask : existSubFolder s.data nId = true ∧ ok = false
    · simp [hask.1, hask.2]
    · have hgo : existSubFolder s.data nId = true → ok = true := by simpa using hask
      have hgo' : (existSubFolder s.data nId && !ok) = false := by
        cases hex : existSubFolder s.data nId with
        | false => rfl
        | true => simp [hgo hex]
      simp only [hgo', Bool.false_eq_true, if_false, hroot, not_false_eq_true, ne_eq,
        forall_const, Option.bind_eq_bind, Option.bind_eq_some_iff, Option.some.injEq]
      constructor
      · rintro ⟨s', l, hl, t, ht, t', ht', _⟩ _
        refine ⟨l, hl, (removeSubs_some_iff _ _ l s.tree).mp ⟨t, ht, ?_, trivial⟩⟩
        exact removeNode_live ht'
      · intro h
        obtain ⟨l, hl, hremovable⟩ := h hgo
        obtain ⟨t, ht, hlive, _⟩ := (removeSubs_some_iff _ _ l s.tree).mpr hremovable
        exact ⟨_, l, hl, t, ht, _, by rw [TreeList.removeNode, if_pos hlive], rfl⟩

theorem guard_some_iff {α : Type} {p : Prop} [Decidable p] {x : α} :
    (∃ y, (guard p : Option Unit).bind (fun _ => some x) = some y) ↔ p := by
  by_cases h : p <;> simp [guard, h]

theorem lookup_filter_isSome {nodes : List (ℕ × Node)} {S : List ℕ} {p : ℕ} :
    ((nodes.filter (·.1 ∉ S)).lookup p).isSome ↔ (nodes.lookup p).isSome ∧ p ∉ S := by
  rw [← mem_keys, ← mem_keys, List.mem_map, List.mem_map]
  simp only [List.mem_filter, decide_eq_true_eq]
  constructor
  · rintro ⟨n, ⟨hn, hS⟩, rfl⟩
    exact ⟨⟨n, hn, rfl⟩, hS⟩
  · rintro ⟨⟨n, hn, rfl⟩, hS⟩
    exact ⟨n, ⟨hn, hS⟩, rfl⟩

theorem dragEndAt_some_iff {pSrcNode pDstNode : ℕ} :
    (∃ s', dragEndAt e s pSrcNode pDstNode = some s') ↔
      UsesLive s (e, .dragEnd pSrcNode pDstNode) := by
  rw [dragEndAt, UsesLive]
  cases hdst : s.tree.m_mapNodeId.lookup pDstNode with
  | none => simp
  | some nDstId =>
    cases hsrc : s.tree.m_mapNodeId.lookup pSrcNode with
    | none => simp
    | some nSrcId =>
      simp only [Option.mem_def, Option.some.injEq, forall_eq']
      split
      next heq => exact iff_of_true ⟨s, rfl⟩ fun hne => absurd heq hne
      next hne =>
        cases hfind : s.data.find? (·.2.nId = nSrcId) with
        | none =>
          refine iff_of_true ⟨s, rfl⟩ fun _ ⟨x, hx, hid⟩ => ?_
          exact absurd hid (by simpa using List.find?_eq_none.mp hfind x hx)
        | some x =>
          have hex : ∃ x ∈ s.data, x.2.nId = nSrcId :=
            ⟨x, List.mem_of_find?_eq_some hfind, by simpa using List.find?_some hfind⟩
          simp only [ne_eq, hne, not_false_eq_true, hex, forall_const, TreeList.removeNode]
          by_cases hlive : (s.tree.nodes.lookup pSrcNode).isSome
          · simp only [hlive, if_true, Option.bind_eq_bind, Option.bind_some, true_and,
              lookup_filter_isSome, guard_some_iff]
            rw [← Option.not_isSome_iff_eq_none, lookup_filter_isSome, not_and_not_right]
          · simp [hlive]

theorem addFavoriteFoldSuccess_some_iff (h : Sound s) {nParentId : ℤ} {pData : ℕ}
    (hdata : pData < s.data.length) :
    (∃ s', addFavoriteFoldSuccess e s nParentId pData = some s') ↔
      ∀ p ∈ s.tree.m_mapIdNode.lookup nParentId,
        (s.tree.nodes.lookup p).isSome ∧ s.tree.nodes.lookup e.pNode = none := by
  rw [addFavoriteFoldSuccess]
  cases hp : s.tree.m_mapIdNode.lookup nParentId with
  | none => simp
  | some p =>
    have hkey : pData ∈ s.data.map (·.1) :=
      (List.Perm.mem_iff h.2.pointers).mpr (List.mem_range.mpr hdata)
    obtain ⟨r, hr⟩ := Option.isSome_iff_exists.mp (mem_keys.mp hkey)
    simp only [Option.mem_def, Option.some.injEq, forall_eq', (h.1.inverse _ _).mp hp, hr,
      Option.bind_eq_bind, Option.bind_some]
    by_cases hlive : (s.tree.nodes.lookup p).isSome
    · simp only [hlive, if_true, true_and, guard_some_iff]
    · simp [hlive]

theorem pushSorted_some_iff (e : Env) (d : Records) (nParentId : ℤ) (szTitle szUrl : WStr)
    (bFolder : Bool) : (∃ d', pushSorted e d nParentId szTitle szUrl bFolder = some d') ↔ d ≠ [] := by
  rw [pushSorted, ← Option.isSome_iff_exists, Option.isSome_map, List.getLast?_isSome]

/-- A step has a result exactly when it uses no deleted node. -/
theorem viewStep_some_iff (h : Sound s) (a : Env × Op) :
    (∃ s', viewStep s a = some s') ↔ UsesLive s a := by
  obtain ⟨e, op⟩ := a
  cases op with
  | addFold | addUrl => exact iff_of_true ⟨_, rfl⟩ trivial
  | removeAt => exact removeAt_some_iff
  | dragEnd => exact dragEndAt_some_iff
  | process =>
    rw [viewStep, UsesLive]
    cases hev : s.pending with
    | nil => exact iff_of_true ⟨s, rfl⟩ trivial
    | cons ev rest =>
      have hrest := h.rest hev
      have hplaced := h.2.pending ev (hev ▸ List.mem_cons_self)
      cases ev with
      | addFavoriteFold nParentId szTitle =>
        refine Iff.trans ?_ (pushSorted_some_iff e s.data nParentId szTitle [] true)
        simp only [handle, Option.bind_eq_bind, Option.bind_eq_some_iff, Option.some.injEq]
        constructor
        · rintro ⟨s', d, hd, _⟩
          exact ⟨d, hd⟩
        · rintro ⟨d, hd⟩
          obtain ⟨r, hperm⟩ := pushSorted_some hd
          have hne : favorites d ≠ [] := by
            intro hnil
            have := hperm.length_eq
            rw [List.map_eq_nil_iff.mp hnil] at this
            simp at this
          exact ⟨_, d, hd, _, by rw [reArrange, if_neg hne], rfl⟩
      | addFavoriteFoldResp nParentId pData => exact addFavoriteFoldSuccess_some_iff hrest hplaced
      | deleteFavoriteFold nDeleteId =>
        have hlen : (favorites s.data).length = s.data.length := List.length_map _
        have hids : ∀ r ∈ favorites s.data, 1 ≤ r.nId ∧ r.nId ≤ (favorites s.data).length := by
          intro r hr
          obtain ⟨x, hx, rfl⟩ := List.mem_map.mp hr
          rw [hlen]
          exact h.2.places _ (List.mem_map_of_mem hx)
        have hplace : 1 ≤ nDeleteId ∧ nDeleteId ≤ (favorites s.data).length := by
          rw [hlen]
          exact hplaced
        obtain ⟨result, hresult⟩ := deleteFavoriteFolder_returns hplace hids
        refine iff_of_true ?_ trivial
        simp only [handle, hresult, Option.bind_eq_bind, Option.bind_some]
        exact ⟨_, rfl⟩
      | addFavorite nParentId szTitle szUrl =>
        refine Iff.trans ?_ (pushSorted_some_iff e s.data nParentId szTitle szUrl false)
        simp only [handle, Option.bind_eq_bind, Option.bind_eq_some_iff, Option.some.injEq]
        constructor
        · rintro ⟨s', d, hd, _⟩
          exact ⟨d, hd⟩
        · rintro ⟨d, hd⟩
          exact ⟨_, d, hd, rfl⟩

end Defined

/-! ### Along a run -/

theorem afterLoad_sound {v : Favorites} (hv : Numbered v) : Sound (afterLoad v) := by
  have h0 : ∀ r ∈ v, r.nId ≠ 0 := by
    intro r hr
    have := (hv.mem_iff r.nId).mp ⟨r, hr, rfl⟩
    omega
  have hload := loaded_pointers hv.nodup h0
  refine ⟨⟨fun p n nId hn hp => ?_, hload.inverse⟩, ?_⟩
  · have hid := (hload.ids nId p).mp ((hload.inverse nId p).mpr hp)
    rcases hload.mem_nodes hn with ⟨rfl, hrec⟩ | ⟨k, x, hx, rfl, parent, _, rfl⟩
    · rw [hrec]
      rcases hid with ⟨h0, _⟩ | ⟨k, _, _, _, hk⟩
      · exact h0
      · exact absurd hk.symm (by simp [pRootNode])
    · rcases hid with ⟨_, hk⟩ | ⟨k', x', hx', rfl, hk⟩
      · exact absurd hk (by simp [pRootNode])
      · obtain rfl : k = k' := by omega
        obtain rfl : x = x' := Option.some.inj (hx.symm.trans hx')
        exact List.mem_map_of_mem (f := fun x : ℕ × FavoriteLineData => (x.1, x.2.nId))
          (List.mem_of_mem_filter (List.mem_of_getElem? hx))
  · have hlen : (pointers v).length = v.length := by simp [pointers]
    have hmap : (pointers v).map (·.1) = List.range v.length := pointers_range v
    refine ⟨by rw [Pointers, afterLoad, hmap, hlen], fun x hx => ?_, fun n hn hrec => ?_,
      by simp [afterLoad]⟩
    · obtain ⟨y, hy, rfl⟩ := List.mem_map.mp hx
      have hmem : y.2 ∈ v := by
        rw [← pointers_records v]
        exact List.mem_map_of_mem hy
      rw [IsPlace, afterLoad, hlen]
      exact (hv.mem_iff _).mp ⟨y.2, hmem, rfl⟩
    · rcases hload.mem_nodes hn with ⟨hroot, _⟩ | ⟨k, x, _, _, parent, _, he⟩
      · exact hroot
      · rw [he] at hrec
        cases hrec

/-- A step has a result that is in step exactly when it meets both conditions. -/
def Safe (s : View) (a : Env × Op) : Prop := UsesLive s a ∧ KeepsInStep s a

instance (s : View) (a : Env × Op) : Decidable (Safe s a) := inferInstanceAs (Decidable (_ ∧ _))

/-- The new node is made at the address 3. -/
def nextNode : Env := ⟨insertion, 0, 3⟩

/-- A folder is added below the last one, and the one before that is dropped onto itself. -/
def addLast : List (Env × Op) :=
  [(nextNode, .addFold 2 ['g']), (nextNode, .process), (nextNode, .dragEnd 1 1), (nextNode, .process)]

theorem nested_numbered : Numbered nested := by
  rw [Numbered]
  decide

/-- A folder is added at top level, and its node is made. -/
def addFirst : List (Env × Op) :=
  [(nextNode, .addFold 0 ['g']), (nextNode, .process), (nextNode, .process)]

end UrlTraveler.MainFrame
