import UrlTraveler.MainFrame.IdMaps

/-! `CMainFrameWnd`: the list of bookmarks and the vector beside it.

    The rows of `m_pDragList` carry record pointers, and `m_vFavoriteNodeAtTreeNode` lists the same
    pointers, so that `OpenUrl` and `CopyUrl` find the record of row k at index k. The two are edited
    separately, the rows at once and by position, the vector by id and partly through events:

        show         rows := the bookmarks of the folder     vector := the same
        delete row   row k is removed                        when the event comes: the id is erased
        move rows    the selected rows are removed           their ids are erased
        add          the new row is the last one             the new record is the first one

    The last line is a slip: it is right only for an empty list. `rows_eq_vector` says that it is
    the only one. -/

namespace UrlTraveler.MainFrame
open DataCenter Maps Sorting Runs

inductive ListEvent
  | addFavoriteResp (pFavoriteData : ℕ)
  | deleteFavorite (nDeleteNodeId : ℤ)
  deriving DecidableEq

structure ListView where
  data : Records
  /-- the tags of the rows of `m_pDragList` -/
  rows : List ℕ
  m_vFavoriteNodeAtTreeNode : List ℕ
  pending : List ListEvent
  deriving DecidableEq

inductive ListOp
  | showFavoriteTreeList (nId : ℤ)
  | addFavorite (nParentId : ℤ) (szTitle szUrl : WStr)
  | onFavListDelete (nSel : ℕ)
  | moveRows (pSel : List ℕ) (nDstId : ℤ)
  | process

/-- The bookmarks of a folder, in vector order. -/
def leaves (d : Records) (nId : ℤ) : List ℕ :=
  (d.filter fun x => x.2.nPid = nId ∧ x.2.bFolder = false ∧ x.2.bDelete = false).map (·.1)

/-- The record behind a pointer is changed. -/
def modifyAt (d : Records) (p : ℕ) (f : FavoriteLineData → FavoriteLineData) : Records :=
  d.map fun x => if x.1 = p then (x.1, f x.2) else x

/-- Erasing the first pointer whose record has the id: the loops of `DeleteFavorite` and
    `OnFavoriteListItemMoved`. -/
def eraseId (d : Records) (l : List ℕ) (nId : ℤ) : List ℕ :=
  l.eraseP fun p => (p, nId) ∈ ids d

/-- `OnFavListDelete`: the record of the row is marked, the row removed, the event posted. -/
def onFavListDelete (s : ListView) (nSel : ℕ) : Option ListView :=
  match s.rows[nSel]? with
  | none => some s
  | some p => do
    let r ← s.data.lookup p
    some { s with
      data := modifyAt s.data p markDeleted
      rows := s.rows.eraseIdx nSel
      pending := s.pending ++ [.deleteFavorite r.nId] }

def moveTo (now nDstId : ℤ) (r : FavoriteLineData) : FavoriteLineData :=
  { r with nPid := nDstId, nLastModifyTime := now }

/-- `OnFavoriteListItemMoved` for one row: the record gets its new parent and leaves the vector. -/
def itemMoved (now nDstId : ℤ) (s : ListView) (p : ℕ) : Option ListView := do
  let r ← s.data.lookup p
  some { s with
    data := modifyAt s.data p (moveTo now nDstId)
    m_vFavoriteNodeAtTreeNode := eraseId s.data s.m_vFavoriteNodeAtTreeNode r.nId }

/-- `OnEventListItemDragEnd`: all selected records are moved, then their rows are removed. -/
def moveRows (now nDstId : ℤ) (s : ListView) (pSel : List ℕ) : Option ListView :=
  ((pSel.filterMap (s.rows[·]?)).foldlM (itemMoved now nDstId) s).map fun s' =>
    { s' with rows := (s.rows.zipIdx.filter (·.2 ∉ pSel)).map (·.1) }

/-- `AddUrlSuccess`: `Add` on one side, `insert` at `begin()` on the other. -/
def addUrlSuccess (s : ListView) (pData : ℕ) : ListView :=
  { s with
    rows := s.rows ++ [pData]
    m_vFavoriteNodeAtTreeNode := pData :: s.m_vFavoriteNodeAtTreeNode }

/-- One operation of the user or of the data centre, or one event. -/
def listStep (s : ListView) : Env × ListOp → Option ListView
  | (_, .showFavoriteTreeList nId) =>
    some { s with rows := leaves s.data nId, m_vFavoriteNodeAtTreeNode := leaves s.data nId }
  | (e, .addFavorite nParentId szTitle szUrl) =>
    (pushSorted e s.data nParentId szTitle szUrl false).map fun d =>
      { s with data := d, pending := s.pending ++ [.addFavoriteResp s.data.length] }
  | (_, .onFavListDelete nSel) => onFavListDelete s nSel
  | (e, .moveRows pSel nDstId) => moveRows e.now nDstId s pSel
  | (_, .process) =>
    match s.pending with
    | [] => some s
    | .addFavoriteResp pData :: rest => some (addUrlSuccess { s with pending := rest } pData)
    | .deleteFavorite nId :: rest => some { s with
        m_vFavoriteNodeAtTreeNode := eraseId s.data s.m_vFavoriteNodeAtTreeNode nId
        pending := rest }

/-- Before the first folder is shown. -/
def nothingShown (v : Favorites) : ListView := ⟨pointers v, [], [], []⟩

/-- The ids whose deletion is pending. -/
def deletions (pending : List ListEvent) : List ℤ :=
  pending.filterMap fun
    | .deleteFavorite nId => some nId
    | .addFavoriteResp _ => none

/-- A new bookmark arrives when the list is empty, and not to be deleted at once. -/
def AddsToEmpty (s : ListView) : Env × ListOp → Prop
  | (_, .process) =>
    match s.pending with
    | .addFavoriteResp pData :: rest =>
      s.rows = [] ∧ ∀ nId ∈ deletions rest, (pData, nId) ∉ ids s.data
    | _ => True
  | _ => True

instance (s : ListView) : ∀ a, Decidable (AddsToEmpty s a)
  | (_, .process) =>
    match h : s.pending with
    | .addFavoriteResp pData :: rest => decidable_of_iff
        (s.rows = [] ∧ ∀ nId ∈ deletions rest, (pData, nId) ∉ ids s.data) (by rw [AddsToEmpty, h])
    | .deleteFavorite _ :: _ => .isTrue (by rw [AddsToEmpty, h]; trivial)
    | [] => .isTrue (by rw [AddsToEmpty, h]; trivial)
  | (_, .showFavoriteTreeList _) => .isTrue trivial
  | (_, .addFavorite _ _ _) => .isTrue trivial
  | (_, .onFavListDelete _) => .isTrue trivial
  | (_, .moveRows _ _) => .isTrue trivial

/-! ### Rows and vector apart from pending deletions -/

/-- With the pointers `ps` still to be erased, the vector is the rows. The records of `ps` are
    marked, so that no list made from now on shows them. -/
structure Aligned (s : ListView) (ps : List ℕ) : Prop where
  pointers : Pointers s.data
  nodup : s.rows.Nodup
  deleted : ∀ p ∈ ps, ∃ r, (p, r) ∈ s.data ∧ r.bDelete = true
  pending : List.Forall₂ (fun p nId => (p, nId) ∈ ids s.data) ps (deletions s.pending)
  rows : s.m_vFavoriteNodeAtTreeNode.diff ps = s.rows

/-- No two records have the same id. -/
def DistinctIds (s : ListView) : Prop := (s.data.map (·.2.nId)).Nodup

instance (s : ListView) : Decidable (DistinctIds s) :=
  inferInstanceAs (Decidable (List.Nodup _))

section Steps
variable {s s' : ListView} {ps : List ℕ} {e : Env}

theorem eraseId_eq {d : Records} (hd : (d.map (·.2.nId)).Nodup) {p : ℕ} {nId : ℤ}
    (hp : (p, nId) ∈ ids d) (l : List ℕ) : eraseId d l nId = l.erase p := by
  have honly : ∀ q, (q, nId) ∈ ids d ↔ p = q := by
    intro q
    constructor
    · intro hq
      obtain ⟨x, hx, hxp⟩ := List.mem_map.mp hp
      obtain ⟨y, hy, hyq⟩ := List.mem_map.mp hq
      cases hxp
      obtain ⟨hq, hid⟩ := Prod.mk.injEq _ _ _ _ ▸ hyq
      rw [← hq, List.inj_on_of_nodup_map hd hx hy hid.symm]
    · rintro rfl
      exact hp
  rw [eraseId, List.erase_eq_eraseP]
  congr 1
  funext q
  simp [honly, beq_eq_decide]

theorem ids_modifyAt {d : Records} (p : ℕ) {f : FavoriteLineData → FavoriteLineData}
    (hf : ∀ r, (f r).nId = r.nId) : ids (modifyAt d p f) = ids d := by
  rw [ids, modifyAt, List.map_map]
  refine List.map_congr_left fun x _ => ?_
  by_cases hx : x.1 = p <;> simp [hx, hf]

theorem pointers_modifyAt {d : Records} (h : Pointers d) (p : ℕ)
    (f : FavoriteLineData → FavoriteLineData) : Pointers (modifyAt d p f) := by
  have hmap : (modifyAt d p f).map (·.1) = d.map (·.1) := by
    rw [modifyAt, List.map_map]
    refine List.map_congr_left fun x _ => ?_
    by_cases hx : x.1 = p <;> simp [hx]
  rw [Pointers, hmap, modifyAt, List.length_map]
  exact h

theorem mem_modifyAt {d : Records} {q : ℕ} {r : FavoriteLineData} (h : (q, r) ∈ d) (p : ℕ)
    (f : FavoriteLineData → FavoriteLineData) :
    (q, if q = p then f r else r) ∈ modifyAt d p f := by
  rw [modifyAt, List.mem_map]
  refine ⟨(q, r), h, ?_⟩
  split <;> rfl

theorem deleted_modifyAt {d : Records} (q : ℕ) {f : FavoriteLineData → FavoriteLineData}
    (hf : ∀ r, r.bDelete = true → (f r).bDelete = true) {p : ℕ}
    (hp : ∃ r, (p, r) ∈ d ∧ r.bDelete = true) :
    ∃ r, (p, r) ∈ modifyAt d q f ∧ r.bDelete = true := by
  obtain ⟨r, hr, hdel⟩ := hp
  refine ⟨_, mem_modifyAt hr q f, ?_⟩
  split
  · exact hf r hdel
  · exact hdel

theorem mem_ids_of_lookup {d : Records} {p : ℕ} {r : FavoriteLineData} (h : d.lookup p = some r) :
    (p, r.nId) ∈ ids d :=
  List.mem_map_of_mem (f := fun x : ℕ × FavoriteLineData => (x.1, x.2.nId)) (mem_of_lookup h)

theorem show_aligned (h : Aligned s ps) (nId : ℤ) :
    Aligned { s with rows := leaves s.data nId, m_vFavoriteNodeAtTreeNode := leaves s.data nId }
      ps := by
  have hnd : (leaves s.data nId).Nodup := h.pointers.nodup.sublist (List.filter_sublist.map _)
  refine ⟨h.pointers, hnd, h.deleted, h.pending, ?_⟩
  show (leaves s.data nId).diff ps = leaves s.data nId
  rw [hnd.sdiff_eq_filter, List.filter_eq_self]
  intro p hp
  obtain ⟨x, hx, rfl⟩ := List.mem_map.mp hp
  obtain ⟨hx, hleaf⟩ := List.mem_filter.mp hx
  -- what waits to be erased is marked
  have hlive : x.1 ∉ ps := by
    intro hps
    obtain ⟨r, hr, hdel⟩ := h.deleted x.1 hps
    have hxr : x = (x.1, r) := List.inj_on_of_nodup_map h.pointers.nodup hx hr rfl
    rw [hxr] at hleaf
    simp [hdel] at hleaf
  simpa using hlive

theorem add_aligned (h : Aligned s ps) {nParentId : ℤ} {szTitle szUrl : WStr} {d : Records}
    (hd : pushSorted e s.data nParentId szTitle szUrl false = some d) (p : ℕ) :
    Aligned { s with data := d, pending := s.pending ++ [.addFavoriteResp p] } ps := by
  obtain ⟨r, hperm⟩ := pushSorted_some hd
  refine ⟨h.pointers.push hperm, h.nodup, fun q hq => ?_, ?_, h.rows⟩
  · obtain ⟨r', hr', hdel⟩ := h.deleted q hq
    exact ⟨r', hperm.mem_iff.mpr (List.mem_append_left _ hr'), hdel⟩
  · have hsame : deletions (s.pending ++ [.addFavoriteResp p]) = deletions s.pending := by
      simp [deletions]
    show List.Forall₂ _ ps (deletions (s.pending ++ [.addFavoriteResp p]))
    rw [hsame]
    exact h.pending.imp fun _ _ => ids_push hperm

theorem onFavListDelete_aligned (h : Aligned s ps) {nSel : ℕ}
    (hs : onFavListDelete s nSel = some s') : ∃ ps', Aligned s' ps' := by
  rw [onFavListDelete] at hs
  split at hs
  · cases hs
    exact ⟨ps, h⟩
  next p hp =>
    simp only [Option.bind_eq_bind, Option.bind_eq_some_iff, Option.some.injEq] at hs
    obtain ⟨r, hr, rfl⟩ := hs
    have hids := ids_modifyAt (d := s.data) p (f := markDeleted) fun _ => rfl
    refine ⟨ps ++ [p], pointers_modifyAt h.pointers p _, h.nodup.eraseIdx nSel, fun q hq => ?_, ?_, ?_⟩
    · rcases List.mem_append.mp hq with hq | hq
      · exact deleted_modifyAt p (fun _ _ => rfl) (h.deleted q hq)
      · rw [List.mem_singleton.mp hq]
        have hmem := mem_modifyAt (mem_of_lookup hr) p markDeleted
        rw [if_pos rfl] at hmem
        exact ⟨markDeleted r, hmem, rfl⟩
    · have hdel : deletions (s.pending ++ [.deleteFavorite r.nId]) =
          deletions s.pending ++ [r.nId] := by simp [deletions]
      show List.Forall₂ _ (ps ++ [p]) (deletions (s.pending ++ [.deleteFavorite r.nId]))
      rw [hdel]
      refine List.rel_append (h.pending.imp fun _ _ hq => ?_) (.cons ?_ .nil)
      · show _ ∈ ids (modifyAt s.data p markDeleted)
        rwa [hids]
      · show _ ∈ ids (modifyAt s.data p markDeleted)
        rw [hids]
        exact mem_ids_of_lookup hr
    · show s.m_vFavoriteNodeAtTreeNode.diff (ps ++ [p]) = s.rows.eraseIdx nSel
      obtain ⟨hlt, rfl⟩ := List.getElem?_eq_some_iff.mp hp
      rw [List.diff_append, h.rows, List.diff_cons, List.diff_nil, h.nodup.erase_getElem nSel hlt]

theorem id_of_pending {l : List ℤ} {d : Records} (h : List.Forall₂ (fun p nId => (p, nId) ∈ ids d) ps l)
    {p : ℕ} (hp : p ∈ ps) : ∃ nId ∈ l, (p, nId) ∈ ids d := by
  induction h with
  | nil => cases hp
  | cons hR _ ih =>
    rcases List.mem_cons.mp hp with rfl | hp
    · exact ⟨_, List.mem_cons_self, hR⟩
    · obtain ⟨nId, hn, hid⟩ := ih hp
      exact ⟨nId, List.mem_cons_of_mem _ hn, hid⟩

theorem distinctIds_iff : DistinctIds s ↔ ((ids s.data).map (·.2)).Nodup := by
  rw [DistinctIds, ids, List.map_map]
  rfl

/-- Moving some records: they leave the vector, and nothing else changes that matters here. -/
theorem itemsMoved {now nDstId : ℤ} : ∀ (l : List ℕ) {s s' : ListView}, DistinctIds s →
    Pointers s.data → (∀ p ∈ ps, ∃ r, (p, r) ∈ s.data ∧ r.bDelete = true) →
    l.foldlM (itemMoved now nDstId) s = some s' →
    s'.m_vFavoriteNodeAtTreeNode = s.m_vFavoriteNodeAtTreeNode.diff l ∧ Pointers s'.data ∧
      (∀ p ∈ ps, ∃ r, (p, r) ∈ s'.data ∧ r.bDelete = true) ∧ ids s'.data = ids s.data ∧
      s'.pending = s.pending
  | [], s, s', _, hptr, hdel, hs => by
    cases hs
    exact ⟨rfl, hptr, hdel, rfl, rfl⟩
  | p :: l, s, s', hd, hptr, hdel, hs => by
    rw [List.foldlM_cons, Option.bind_eq_bind, Option.bind_eq_some_iff] at hs
    obtain ⟨s₁, h₁, hs⟩ := hs
    simp only [itemMoved, Option.bind_eq_bind, Option.bind_eq_some_iff, Option.some.injEq] at h₁
    obtain ⟨r, hr, rfl⟩ := h₁
    have hids := ids_modifyAt (d := s.data) p (f := moveTo now nDstId) fun _ => rfl
    obtain ⟨hvec, hptr', hdel', hids', hpend⟩ := itemsMoved l
      (by rw [distinctIds_iff] at hd ⊢; rwa [hids]) (pointers_modifyAt hptr p _)
      (fun q hq => deleted_modifyAt (f := moveTo now nDstId) p (fun _ h => h) (hdel q hq)) hs
    refine ⟨?_, hptr', hdel', hids'.trans hids, hpend⟩
    rw [hvec, eraseId_eq hd (mem_ids_of_lookup hr), List.diff_cons]

/-- Rows that are removed by position are removed by their records. -/
theorem rows_removed {l : List ℕ} (hnd : l.Nodup) (pSel : List ℕ) :
    (l.zipIdx.filter (·.2 ∉ pSel)).map (·.1) = l.diff (pSel.filterMap (l[·]?)) := by
  have hmem : ∀ x ∈ l.zipIdx, x.1 ∈ pSel.filterMap (l[·]?) ↔ x.2 ∈ pSel := by
    rintro ⟨p, k⟩ hx
    have hp : l[k]? = some p := List.mem_zipIdx_iff_getElem?.mp hx
    rw [List.mem_filterMap]
    constructor
    · rintro ⟨j, hj, hjp⟩
      have hjk : j = k := (List.getElem?_inj (List.getElem?_eq_some_iff.mp hjp).1 hnd).mp
        (by rw [hjp, hp])
      rwa [← hjk]
    · exact fun hk => ⟨k, hk, hp⟩
  have hfst : l.zipIdx.map (·.1) = l := by simp [List.zipIdx_map_fst]
  calc (l.zipIdx.filter (·.2 ∉ pSel)).map (·.1)
      = (l.zipIdx.filter (·.1 ∉ pSel.filterMap (l[·]?))).map (·.1) := by
        refine congrArg _ (List.filter_congr fun x hx => ?_)
        simp only [← hmem x hx]
    _ = (l.zipIdx.map (·.1)).filter (· ∉ pSel.filterMap (l[·]?)) := by
        rw [List.filter_map]
        rfl
    _ = l.diff (pSel.filterMap (l[·]?)) := by rw [hfst, hnd.sdiff_eq_filter]

theorem moveRows_aligned (hd : DistinctIds s) (h : Aligned s ps) {now nDstId : ℤ} {pSel : List ℕ}
    (hs : moveRows now nDstId s pSel = some s') : Aligned s' ps := by
  obtain ⟨s₁, h₁, rfl⟩ := Option.map_eq_some_iff.mp hs
  obtain ⟨hvec, hptr, hdel, hids, hpend⟩ := itemsMoved _ hd h.pointers h.deleted h₁
  refine ⟨hptr, ?_, hdel, ?_, ?_⟩
  · show ((s.rows.zipIdx.filter (·.2 ∉ pSel)).map (·.1)).Nodup
    rw [rows_removed h.nodup]
    exact h.nodup.diff
  · show List.Forall₂ _ ps (deletions s₁.pending)
    rw [hpend]
    refine h.pending.imp fun _ _ hq => ?_
    show _ ∈ ids s₁.data
    rwa [hids]
  · show s₁.m_vFavoriteNodeAtTreeNode.diff ps = (s.rows.zipIdx.filter (·.2 ∉ pSel)).map (·.1)
    rw [rows_removed h.nodup, hvec, ← List.diff_append,
      List.Perm.diff_left _ List.perm_append_comm, List.diff_append, h.rows]

theorem listStep_aligned (hd : DistinctIds s) (h : ∃ ps, Aligned s ps) {a : Env × ListOp}
    (hok : AddsToEmpty s a) (hs : listStep s a = some s') : ∃ ps, Aligned s' ps := by
  obtain ⟨ps, h⟩ := h
  obtain ⟨e, op⟩ := a
  cases op with
  | showFavoriteTreeList nId =>
    cases hs
    exact ⟨ps, show_aligned h nId⟩
  | addFavorite p t u =>
    obtain ⟨d, hd, rfl⟩ := Option.map_eq_some_iff.mp hs
    exact ⟨ps, add_aligned h hd _⟩
  | onFavListDelete nSel => exact onFavListDelete_aligned h hs
  | moveRows pSel nDstId => exact ⟨ps, moveRows_aligned hd h hs⟩
  | process =>
    rw [listStep] at hs
    simp only [AddsToEmpty] at hok
    have hpending := h.pending
    cases hev : s.pending with
    | nil =>
      rw [hev] at hs
      cases hs
      exact ⟨ps, h⟩
    | cons ev rest =>
      rw [hev] at hs hok hpending
      cases ev with
      | addFavoriteResp p =>
        cases hs
        obtain ⟨hempty, hkeep⟩ := hok
        have hp : p ∉ ps := by
          intro hp
          obtain ⟨nId, hn, hid⟩ := id_of_pending hpending hp
          exact hkeep nId hn hid
        refine ⟨ps, h.pointers, ?_, h.deleted, hpending, ?_⟩
        · simp [addUrlSuccess, hempty]
        · show (p :: s.m_vFavoriteNodeAtTreeNode).diff ps = s.rows ++ [p]
          rw [List.cons_diff_of_not_mem hp, h.rows, hempty]
          rfl
      | deleteFavorite nId =>
        cases hs
        cases hpending with
        | @cons p _ ps _ hp hrest =>
          refine ⟨ps, h.pointers, h.nodup, fun q hq => h.deleted q (List.mem_cons_of_mem _ hq), hrest, ?_⟩
          show (eraseId s.data s.m_vFavoriteNodeAtTreeNode nId).diff ps = s.rows
          rw [eraseId_eq hd hp, ← List.diff_cons, h.rows]

end Steps

/-! ### Along a run -/

/-- BOOKMARK LIST: when ids are distinct and every new bookmark arrives at an empty list, then in
    every state without pending events the vector lists the records of the rows, in their order. -/
theorem rows_eq_vector (v : Favorites) (acts : List (Env × ListOp))
    (hids : ∀ s ∈ states listStep (nothingShown v) acts, DistinctIds s)
    (hok : Along listStep AddsToEmpty (nothingShown v) acts) :
    ∀ s ∈ states listStep (nothingShown v) acts, s.pending = [] →
      s.rows = s.m_vFavoriteNodeAtTreeNode := by
  intro s hs hpend
  have hstart : Aligned (nothingShown v) [] := by
    refine ⟨?_, List.nodup_nil, by simp, .nil, rfl⟩
    show ((pointers v).map (·.1)).Perm (List.range (pointers v).length)
    rw [pointers_range]
    simp [pointers]
  obtain ⟨ps, h⟩ := invariant (I := fun s => ∃ ps, Aligned s ps)
    (fun s a s' h hok => listStep_aligned hok.2 h hok.1) acts _ ⟨[], hstart⟩ (hok.and hids) s hs
  have hps : ps = [] := by
    have := h.pending
    rw [hpend] at this
    exact List.forall₂_nil_right_iff.mp this
  rw [← h.rows, hps, List.diff_nil]

/-- The only bookmark of the folder is deleted, and another one added. -/
def replaceOnly : List (Env × ListOp) :=
  [(nextNode, .showFavoriteTreeList 1), (nextNode, .onFavListDelete 0),
   (nextNode, .addFavorite 1 ['v'] ['y']), (nextNode, .process), (nextNode, .process)]

theorem rows_eq_vector_replaceOnly :
    (∃ s ∈ states listStep (nothingShown oneFolder) replaceOnly, s.pending = [] ∧ s.rows = [2]) ∧
    ∀ s ∈ states listStep (nothingShown oneFolder) replaceOnly, s.pending = [] →
      s.rows = s.m_vFavoriteNodeAtTreeNode :=
  ⟨by decide +kernel, rows_eq_vector oneFolder replaceOnly (by decide +kernel) (by decide +kernel)⟩

/-- A bookmark is added to a folder with one bookmark. -/
def addSecond : List (Env × ListOp) :=
  [(nextNode, .showFavoriteTreeList 1), (nextNode, .addFavorite 1 ['v'] ['y']), (nextNode, .process)]

/-- The new bookmark is on the second row and first in the vector. -/
theorem addSecond_crossed :
    (∀ s ∈ states listStep (nothingShown oneFolder) addSecond, DistinctIds s) ∧
    ∃ s ∈ states listStep (nothingShown oneFolder) addSecond, s.pending = [] ∧ s.rows = [1, 2] ∧
      s.m_vFavoriteNodeAtTreeNode = [2, 1] ∧ s.rows ≠ s.m_vFavoriteNodeAtTreeNode := by
  constructor
  · decide +kernel
  · decide +kernel

end UrlTraveler.MainFrame
