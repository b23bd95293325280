import UrlTraveler.Chrome.Traverse

/-! The import builds the forest it was given.

    A list is a tree when ids are distinct and nonzero, every live record hangs at the root or below
    a live folder of the list, and no live record is its own ancestor. Then all live records are
    reached, only the root is left as a key, and the array filed under it is the forest: below
    every node its live children, in list order. -/

namespace UrlTraveler.Chrome
open Forest Walk Cycles Maps

/-- The id of a live record and the id it names as its parent. -/
def LiveUp (v : List FavoriteLineData) (x y : ℤ) : Prop :=
  ∃ r ∈ v, r.bDelete = false ∧ r.nId = x ∧ r.nPid = y

/-- A record list that is a forest with something in it; its length is an `int32`. -/
structure IsTree (v : List FavoriteLineData) : Prop where
  distinct : Distinct links v
  parent : ∀ r ∈ v, r.bDelete = false →
    r.nPid = 0 ∨ ∃ f ∈ v, f.bDelete = false ∧ f.bFolder = true ∧ f.nId = r.nPid
  acyclic : NoCycle (LiveUp v)
  live : ∃ r ∈ v, r.bDelete = false
  length : v.length < 2 ^ 31

variable {v : List FavoriteLineData}

/-! ### All live records are reached -/

/-- The way up from a live record goes through live folders only. -/
theorem IsTree.path (hv : IsTree v) {r : FavoriteLineData} (hr : r ∈ v) (hlive : r.bDelete = false) :
    ∃ q, PathOf (folders v) r.nPid q ∧
      ∀ x ∈ q, ∃ f ∈ v, f.bDelete = false ∧ f.bFolder = true ∧ f.nId = x := by
  have hfin : {y | ∃ r ∈ v, r.nPid = y}.Finite := by
    refine ((v.map (·.nPid)).finite_toSet).subset ?_
    rintro _ ⟨r, hr, rfl⟩
    exact List.mem_map_of_mem hr
  refine hv.acyclic.ascend hfin ?_ (motive := fun x => ∀ r ∈ v, r.bDelete = false → r.nId = x →
    ∃ q, PathOf (folders v) r.nPid q ∧
      ∀ y ∈ q, ∃ f ∈ v, f.bDelete = false ∧ f.bFolder = true ∧ f.nId = y) ?_ r.nId r hr hlive rfl
  · rintro x y ⟨r, hr, _, _, rfl⟩
    exact ⟨r, hr, rfl⟩
  · rintro x ih r hr hlive rfl
    rcases hv.parent r hr hlive with h0 | ⟨f, hf, hflive, hfold, hid⟩
    · exact ⟨[], h0 ▸ .root, by simp⟩
    · obtain ⟨q, hq, hall⟩ := ih f.nId ⟨r, hr, hlive, rfl, hid.symm⟩ f hf hflive rfl
      have hup : PathOf (folders v) f.nId (f.nId :: q) := path_up (L := links) hf hfold hq
      refine ⟨f.nId :: q, hid ▸ hup, fun x hx => ?_⟩
      rcases List.mem_cons.mp hx with rfl | hx
      · exact ⟨f, hf, hflive, hfold, rfl⟩
      · exact hall x hx

theorem IsTree.mem_walk (hv : IsTree v) {r : FavoriteLineData} (hr : r ∈ v)
    (hlive : r.bDelete = false) : r ∈ walk v := by
  obtain ⟨q, hq, _⟩ := hv.path hr hlive
  exact preorder_complete hv.distinct .root hr hq (List.nil_suffix) (by simp)

/-- The live records in depth-first order. -/
abbrev liveWalk (v : List FavoriteLineData) : List FavoriteLineData :=
  (walk v).filter fun r => !r.bDelete

theorem IsTree.liveWalk_perm (hv : IsTree v) :
    (liveWalk v).Perm (v.filter fun r => !r.bDelete) := by
  have hnd : (walk v).Nodup := preorder_nodup hv.distinct .root
  refine (List.perm_ext_iff_of_nodup (hnd.filter _) (hv.distinct.nodup.of_map.filter _)).mpr ?_
  intro r
  simp only [List.mem_filter, Bool.not_eq_true']
  exact ⟨fun h => ⟨(Chrome.mem_walk h.1).1, h.2⟩, fun h => ⟨hv.mem_walk h.1 h.2, h.2⟩⟩

/-- The live children of one parent, in list order. -/
theorem liveWalk_filter (hv : Distinct links v) {p : ℤ} {π : List ℤ} (hp : PathOf (folders v) p π) :
    (liveWalk v).filter (·.nPid = p) = v.filter fun r => !r.bDelete && r.nPid = p := by
  have hfuel : v.length < v.length + 1 + ([] : List ℤ).length := by simp
  have h := preorder_filter hv (L := links) .root hp List.nil_suffix hfuel
  rw [List.filter_comm]
  change (walk v).filter (fun r => r.nPid = p) = v.filter fun r => r.nPid = p at h
  rw [h, List.filter_filter]

theorem liveAt_fst (v : List FavoriteLineData) : (liveAt v).map (·.1) = liveWalk v := liveAt_map_fst v

theorem mem_liveAt_of {r : FavoriteLineData} (hr : r ∈ liveWalk v) : ∃ e ∈ liveAt v, e.1 = r := by
  rw [← liveAt_fst] at hr
  exact List.mem_map.mp hr

theorem IsTree.parent_live (hv : IsTree v) {r f : FavoriteLineData} (hr : r ∈ v)
    (hlive : r.bDelete = false) (hf : f ∈ v) (hid : f.nId = r.nPid) : f.bDelete = false := by
  rcases hv.parent r hr hlive with h0 | ⟨g, hg, hglive, _, hgid⟩
  · exact absurd (hid.trans h0) (hv.distinct.nonzero f hf)
  · rw [hv.distinct.inj hf hg (hid.trans hgid.symm)]
    exact hglive

/-- Some live record is at the top. -/
theorem IsTree.exists_top (hv : IsTree v) : ∃ r ∈ v, r.bDelete = false ∧ r.nPid = 0 := by
  have hup : ∀ {p q}, PathOf (folders v) p q → ∀ r ∈ v, r.bDelete = false → r.nPid = p →
      ∃ r ∈ v, r.bDelete = false ∧ r.nPid = 0 := by
    intro p q hq
    induction hq with
    | root => exact fun r hr hlive h0 => ⟨r, hr, hlive, h0⟩
    | up hrow _ ih =>
      intro r hr hlive hp
      obtain ⟨f, hf, _, rfl⟩ := rows_inv hrow
      have hfv : f ∈ v := List.mem_of_getElem? hf
      exact ih f hfv (hv.parent_live hr hlive hfv hp.symm) rfl
  obtain ⟨r, hr, hlive⟩ := hv.live
  obtain ⟨q, hq, _⟩ := hv.path hr hlive
  exact hup hq r hr hlive rfl

/-- In a tree the depth is the number of folders above. -/
theorem IsTree.dep_eq (hv : IsTree v) {dep : FavoriteLineData → ℕ}
    (hP : Plan (sortedData v) (liveAt v) dep) {p : ℤ} {q : List ℤ} (hq : PathOf (folders v) p q) :
    ∀ e ∈ liveAt v, e.1.nPid = p → dep e.1 = q.length := by
  induction hq with
  | root =>
    intro e he hp
    by_contra hne
    obtain ⟨f, hf, _, hid⟩ := hP.top e he (Nat.pos_of_ne_zero hne)
    exact hv.distinct.nonzero f.1 (Chrome.mem_walk (mem_liveAt hf).1).1 (hid.trans hp)
  | @up i row q hrow hq ih =>
    intro e he hp
    obtain ⟨f, hf, hfold, rfl⟩ := rows_inv hrow
    have hfv : f ∈ v := List.mem_of_getElem? hf
    have hev := (Chrome.mem_walk (mem_liveAt he).1).1
    have hflive := hv.parent_live hev (mem_liveAt he).2.1 hfv hp.symm
    obtain ⟨e', he', rfl⟩ := mem_liveAt_of (List.mem_filter.mpr
      ⟨hv.mem_walk hfv hflive, by simpa using hflive⟩)
    rw [hP.up e he e' he' hfold hp.symm, ih e' he' rfl, List.length_cons]

/-! ### The forest -/

namespace Node

def data : Node → FavoriteLineData
  | .node r _ _ => r

def children : Node → List Node
  | .node _ _ ts => ts

mutual
/-- The records and ids of a tree in preorder. -/
def items : Node → List (FavoriteLineData × ℕ)
  | .node r id ts => (r, id) :: itemsAll ts
def itemsAll : List Node → List (FavoriteLineData × ℕ)
  | [] => []
  | t :: ts => items t ++ itemsAll ts
end

theorem itemsAll_eq : ∀ ts : List Node, itemsAll ts = ts.flatMap items
  | [] => rfl
  | t :: ts => by rw [itemsAll, itemsAll_eq ts, List.flatMap_cons]

end Node

/-- The nodes below `p` are its live children in list order, and so on below each of them. -/
inductive ForestOf (v : List FavoriteLineData) : ℤ → List Node → Prop
  | intro {p : ℤ} {ts : List Node} :
      ts.map Node.data = (v.filter fun r => !r.bDelete && r.nPid = p) →
      (∀ t ∈ ts, ForestOf v t.data.nId t.children) → ForestOf v p ts

variable {idx : ℤ → ℕ}

/-- The trees do not depend on the number of levels, once it is large enough. -/
theorem trees_fuel {ppData : PPData} {E : List (FavoriteLineData × ℕ)} {dep : FavoriteLineData → ℕ}
    (hP : Plan ppData E dep) {D : ℕ} (hD : ∀ e ∈ E, dep e.1 < D) : ∀ (k k' : ℕ) (p : ℤ),
    (∀ e ∈ E, e.1.nPid = p → D ≤ dep e.1 + k) → (∀ e ∈ E, e.1.nPid = p → D ≤ dep e.1 + k') →
    trees (E.map (·.1)) idx k p = trees (E.map (·.1)) idx k' p := by
  have hnil : ∀ k p, (∀ e ∈ E, e.1.nPid = p → D ≤ dep e.1) → trees (E.map (·.1)) idx k p = [] := by
    intro k p h
    cases k with
    | zero => rfl
    | succ k =>
      rw [trees, List.map_eq_nil_iff, List.filter_eq_nil_iff]
      intro r hr hrp
      obtain ⟨e, he, rfl⟩ := List.mem_map.mp hr
      exact absurd (h e he (by simpa using hrp)) (not_le.mpr (hD e he))
  intro k
  induction k with
  | zero => exact fun k' p h _ => by rw [hnil 0 p h, hnil k' p h]
  | succ k ih =>
    intro k' p h h'
    cases k' with
    | zero => rw [hnil (k + 1) p h', hnil 0 p h']
    | succ k' =>
      rw [trees, trees]
      refine List.map_congr_left fun r hr => ?_
      obtain ⟨hr, hrp⟩ := List.mem_filter.mp hr
      obtain ⟨e, he, rfl⟩ := List.mem_map.mp hr
      have hrp : e.1.nPid = p := by simpa using hrp
      split
      next hf =>
        have hbelow : ∀ f ∈ E, f.1.nPid = e.1.nId → dep f.1 = dep e.1 + 1 :=
          fun f hfE hfe => hP.up f hfE e he hf hfe.symm
        rw [ih k' e.1.nId]
        · intro f hfE hfe
          have := h e he hrp
          have := hbelow f hfE hfe
          omega
        · intro f hfE hfe
          have := h' e he hrp
          have := hbelow f hfE hfe
          omega
      next => rfl

/-- Nothing hangs below a bookmark. -/
theorem IsTree.leaf (hv : IsTree v) {r : FavoriteLineData} (hr : r ∈ v) (hf : r.bFolder = false) :
    (v.filter fun s => !s.bDelete && s.nPid = r.nId) = [] := by
  rw [List.filter_eq_nil_iff]
  intro s hs h
  simp only [Bool.and_eq_true, Bool.not_eq_true', decide_eq_true_eq] at h
  rcases hv.parent s hs h.1 with h0 | ⟨f, hfv, _, hfold, hid⟩
  · exact hv.distinct.nonzero r hr (h.2.symm.trans h0)
  · rw [hv.distinct.inj hr hfv (h.2.symm.trans hid.symm), hfold] at hf
    cases hf

theorem mem_liveWalk {r : FavoriteLineData} (hr : r ∈ liveWalk v) : r ∈ v ∧ r.bDelete = false := by
  obtain ⟨hr, hlive⟩ := List.mem_filter.mp hr
  exact ⟨(mem_walk hr).1, by simpa using hlive⟩

theorem IsTree.forestOf (hv : IsTree v) : ∀ (k : ℕ) (p : ℤ) (π : List ℤ), PathOf (folders v) p π →
    v.length < k + π.length → ForestOf v p (trees (liveWalk v) idx k p)
  | 0, p, π, hp, hk => by
    have := path_length_le hv.distinct hp
    omega
  | k + 1, p, π, hp, hk => by
    rw [trees]
    refine .intro ?_ fun t ht => ?_
    · rw [List.map_map, ← liveWalk_filter hv.distinct hp]
      exact List.map_id _
    · obtain ⟨r, hr, rfl⟩ := List.mem_map.mp ht
      obtain ⟨hr, hrp⟩ := List.mem_filter.mp hr
      have hrv := (mem_liveWalk hr).1
      have hrp : r.nPid = p := by simpa using hrp
      change ForestOf v r.nId (if r.bFolder then trees (liveWalk v) idx k r.nId else [])
      cases hf : r.bFolder with
      | true =>
        have hpar : PathOf (folders v) (links.par r) π := by
          rw [← hrp] at hp
          exact hp
        exact hv.forestOf k r.nId (r.nId :: π) (path_up hrv hf hpar) (by simp; omega)
      | false => exact .intro (by simpa using hv.leaf hrv hf) (by simp)

/-- No live record hangs below a deleted one. -/
theorem IsTree.below_deleted (hv : IsTree v) {r : FavoriteLineData} (hr : r ∈ v)
    (hdel : r.bDelete = true) {k : ℕ} {π : List ℤ} (hp : PathOf (folders v) r.nId π) :
    (preorder links v k r.nId).filter (fun x => !x.bDelete) = [] := by
  rw [List.filter_eq_nil_iff]
  intro x hx hlive
  obtain ⟨hxv, q, hq, hsuf⟩ := mem_preorder hp hx
  obtain ⟨q', hq', hall⟩ := hv.path hxv (by simpa using hlive)
  obtain ⟨π', rfl, _⟩ := path_key hv.distinct hr hp
  rw [← hq'.unique hv.distinct.keyed hq] at hsuf
  obtain ⟨f, hf, hflive, _, hid⟩ := hall r.nId (hsuf.subset List.mem_cons_self)
  rw [hv.distinct.inj hf hr hid, hdel] at hflive
  cases hflive

/-- In preorder, the trees are the live part of the walk. -/
theorem IsTree.items_trees (hv : IsTree v) : ∀ (k : ℕ) (p : ℤ) (π : List ℤ),
    PathOf (folders v) p π → Node.itemsAll (trees (liveWalk v) idx k p) =
      ((preorder links v k p).filter fun r => !r.bDelete).map fun r => (r, idx r.nId)
  | 0, _, _, _ => rfl
  | k + 1, p, π, hp => by
    rw [trees, Node.itemsAll_eq, List.flatMap_map, liveWalk_filter hv.distinct hp, preorder_succ,
      List.filter_flatMap, List.map_flatMap, flatMap_filtered]
    refine List.flatMap_congr fun r hr => ?_
    by_cases hrp : r.nPid = p
    · have hpar : PathOf (folders v) (links.par r) π := by
        rw [← hrp] at hp
        exact hp
      have hb : below links v k p r =
          r :: (if r.bFolder then preorder links v k r.nId else []) := if_pos hrp
      rw [hb]
      cases hdel : r.bDelete with
      | true =>
        cases hf : r.bFolder with
        | true => simp [hdel, hv.below_deleted hr hdel (path_up hr hf hpar)]
        | false => simp [hdel]
      | false =>
        cases hf : r.bFolder with
        | true => simp [hdel, hrp, Node.items, hv.items_trees k r.nId _ (path_up hr hf hpar)]
        | false => simp [hdel, hrp, Node.items, Node.itemsAll]
    · have hb : below links v k p r = [] := if_neg hrp
      simp [hb, hrp]

/-! ### Building it -/

/-- The forest of the live records. -/
def forest (v : List FavoriteLineData) (idx : ℤ → ℕ) : List Node :=
  trees (liveWalk v) idx (v.length + 1) 0

theorem IsTree.items_forest (hv : IsTree v) (idx : ℤ → ℕ) :
    Node.itemsAll (forest v idx) = (liveWalk v).map fun r => (r, idx r.nId) :=
  hv.items_trees (v.length + 1) 0 [] .root

theorem makeOrder_perm (hv : Distinct links v) : (makeOrder v).Perm (liveAt v) := by
  have hP := (depthLoop_plan (ν := Unit) hv 0 0).1
  have hall : ((liveAt v).filter fun e => depthOf v e.1 < v.length + 1) = liveAt v :=
    List.filter_eq_self.mpr fun e he => by simpa using hP.dep_lt hv e he
  have hperm := order_perm (liveAt v) (depthOf v) (v.length + 1)
  rwa [hall] at hperm

/-- One array is left, and it is the forest. -/
theorem IsTree.buildTree_eq (hv : IsTree v) {ν : Type} (ops : NodeOps ν) (nMaxDepth : ℤ)
    (nIndex : ℕ) (base : FavoriteLineData → ℕ → ν) (hmake : ∀ r ∈ v, r.bDelete = false →
      ops.make r (nodeId v nIndex r.nId) = some (base r (nodeId v nIndex r.nId))) :
    ∃ s, buildTree ops nMaxDepth nIndex v = some (s, sortedData v) ∧
      s.m_mapPidNodeInfo = [(0, (forest v (nodeId v nIndex)).map (build ops base))] ∧
      s.m_nIndex = indexAfter (nextIndex nIndex) (makeOrder v) ∧ s.m_mapIdIndexInfo =
        (makeOrder v).map fun e => (e.1.nId, nodeId v nIndex e.1.nId) := by
  have hP := (depthLoop_plan (ν := Unit) hv.distinct 0 0).1
  obtain ⟨N, s, hN, hs, hfiled, hindex, hmap⟩ := buildTree_spec ops hv.distinct nMaxDepth nIndex base
    fun e he => hmake e.1 (Chrome.mem_walk (mem_liveAt he).1).1 (mem_liveAt he).2.1
  refine ⟨s, hs, hfiled.keys.eq_single fun x => ?_, hindex, hmap⟩
  split
  next h0 =>
    subst h0
    obtain ⟨r, hr, hlive, hr0⟩ := hv.exists_top
    obtain ⟨e, he, rfl⟩ := mem_liveAt_of (List.mem_filter.mpr
      ⟨hv.mem_walk hr hlive, by simpa using hlive⟩)
    have hhere := hfiled.here e he (hv.dep_eq hP .root e he hr0)
    rw [hr0] at hhere
    rw [hhere, forest, ← liveAt_fst]
    refine congrArg (fun ts : List Node => some (ts.map (build ops base))) ?_
    refine trees_fuel (D := min N (v.length + 1)) hP ?_ _ _ 0 ?_ ?_
    · exact fun f hf => lt_min (hN f hf) (hP.dep_lt hv.distinct f hf)
    · exact fun f _ _ => (min_le_left _ _).trans (by omega)
    · exact fun f _ _ => (min_le_right _ _).trans (by omega)
  next h0 =>
    -- a record at depth 0 names the root as its parent
    refine hfiled.none x fun e he hd hx => h0 ?_
    obtain ⟨hev, q, hq⟩ := Chrome.mem_walk (mem_liveAt he).1
    rw [hv.dep_eq hP hq e he rfl, List.length_eq_zero_iff] at hd
    subst hd
    rw [← hx]
    exact path_inj hq .root

/-- Nodes that are the record, the id and the children, and nothing else. -/
def nodeOps : NodeOps Node where
  make r id := some (.node r id [])
  setChildren
    | .node r id _, children => .node r id children

mutual
theorem build_nodeOps : ∀ t : Node, build nodeOps (fun r id => .node r id []) t = t
  | .node r id ts => by
    rw [build, buildAll_nodeOps ts]
    cases ts <;> rfl
theorem buildAll_nodeOps : ∀ ts : List Node, buildAll nodeOps (fun r id => .node r id []) ts = ts
  | [] => rfl
  | t :: ts => by rw [buildAll, build_nodeOps t, buildAll_nodeOps ts]
end

/-- The ids of the forest are distinct and none is the one the numbering starts from. -/
theorem IsTree.ids_forest (hv : IsTree v) (nIndex : ℕ) :
    ((Node.itemsAll (forest v (nodeId v nIndex))).map (·.2)).Nodup ∧
      nextIndex nIndex ∉ (Node.itemsAll (forest v (nodeId v nIndex))).map (·.2) := by
  have hl := makeOrder_perm hv.distinct
  have hlen : (makeOrder v).length + 1 < 2 ^ 32 := by
    have hwalk : (walk v).length ≤ v.length := preorder_length_le hv.distinct _ .root
    have hlive : (liveAt v).length ≤ (walk v).length := by
      rw [liveAt]
      exact (List.length_filter_le _ _).trans_eq List.length_zipIdx
    have := hv.length
    rw [hl.length_eq]
    omega
  have hmem : ∀ r ∈ liveWalk v, ∃ e ∈ makeOrder v, e.1 = r := fun r hr => by
    obtain ⟨e, he, her⟩ := mem_liveAt_of hr
    exact ⟨e, hl.mem_iff.mpr he, her⟩
  rw [hv.items_forest, List.map_map]
  constructor
  · have hnd : (liveWalk v).Nodup := (preorder_nodup hv.distinct .root).filter _
    refine hnd.map_on fun r hr s hs h => ?_
    obtain ⟨e, he, rfl⟩ := hmem r hr
    obtain ⟨f, hf, rfl⟩ := hmem s hs
    exact hv.distinct.inj (mem_liveWalk hr).1 (mem_liveWalk hs).1 (idOf_inj hlen he hf h)
  · intro hn
    obtain ⟨r, hr, hrn⟩ := List.mem_map.mp hn
    obtain ⟨e, he, rfl⟩ := hmem r hr
    exact idOf_ne hlen he hrn

/-- The import of a tree leaves one array, under the root: the forest of the live records, each of
    them once, siblings in list order, with ids of their own. -/
theorem import_builds_forest (hv : IsTree v) (nMaxDepth : ℤ) (nIndex : ℕ) :
    ∃ s ppData ts, buildTree nodeOps nMaxDepth nIndex v = some (s, ppData) ∧
      s.m_mapPidNodeInfo = [(0, ts)] ∧ ForestOf v 0 ts ∧
      ((Node.itemsAll ts).map (·.1)).Perm (v.filter fun r => !r.bDelete) ∧
      ((Node.itemsAll ts).map (·.2)).Nodup ∧
      nextIndex nIndex ∉ (Node.itemsAll ts).map (·.2) := by
  obtain ⟨s, hs, hm, _, _⟩ := hv.buildTree_eq nodeOps nMaxDepth nIndex (fun r id => .node r id [])
    fun _ _ _ => rfl
  have hid : (forest v (nodeId v nIndex)).map (build nodeOps fun r id => .node r id []) =
      forest v (nodeId v nIndex) := by
    rw [← buildAll_eq, buildAll_nodeOps]
  refine ⟨s, sortedData v, forest v (nodeId v nIndex), hs, hid ▸ hm, ?_, ?_, hv.ids_forest nIndex⟩
  · exact hv.forestOf (v.length + 1) 0 [] .root (by simp)
  · rw [hv.items_forest, List.map_map]
    refine Eq.symm (List.map_id _) ▸ ?_
    exact hv.liveWalk_perm

/-- A bookmark before its folder, a second folder, and a deleted record with no parent. -/
def bookmarkFirst : List FavoriteLineData :=
  [{ nId := 4, nPid := 2, szTitle := "b".toList, szUrl := "http://b".toList },
   { nId := 2, nPid := 0, szTitle := "A".toList, bFolder := true },
   { nId := 7, nPid := 9, bFolder := true, bDelete := true },
   { nId := 3, nPid := 2, szTitle := "C".toList, bFolder := true }]

theorem isTree_bookmarkFirst : IsTree bookmarkFirst where
  distinct := ⟨by decide, by decide⟩
  parent := by decide
  acyclic := by
    refine noCycle_of_lt ?_
    rintro _ _ ⟨r, hr, hlive, rfl, rfl⟩
    have h : ∀ r ∈ bookmarkFirst, r.bDelete = false → r.nPid < r.nId := by decide
    exact h r hr hlive
  live := by decide
  length := by decide

/-- Left-over depth 5, and an index that wraps around. -/
theorem import_builds_forest_bookmarkFirst : IsTree bookmarkFirst ∧
    ∃ s ppData ts, buildTree nodeOps 5 (2 ^ 32 - 3) bookmarkFirst = some (s, ppData) ∧
      s.m_mapPidNodeInfo = [(0, ts)] ∧ ForestOf bookmarkFirst 0 ts ∧
      ((Node.itemsAll ts).map (·.1)).Perm (bookmarkFirst.filter fun r => !r.bDelete) ∧
      ((Node.itemsAll ts).map (·.2)).Nodup ∧
      nextIndex (2 ^ 32 - 3) ∉ (Node.itemsAll ts).map (·.2) :=
  ⟨isTree_bookmarkFirst, import_builds_forest isTree_bookmarkFirst 5 (2 ^ 32 - 3)⟩

end UrlTraveler.Chrome
