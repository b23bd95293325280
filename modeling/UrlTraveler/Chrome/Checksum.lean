import UrlTraveler.Chrome.Import

/-! The checksum and the file it stands in.

    Chrome takes the checksum over the nodes of the file in preorder. The import feeds its records in
    depth-first order, with the ids that `TraverseNode` gave out bottom-up; both are the live part
    of the walk, as long as every node reads back as its record. -/

namespace UrlTraveler.Chrome
open Json Walk

/-! ### The items of the file -/

/-- `node[key].asString()`. -/
def textOf (node : Value) (key : List Char) : List Char :=
  match node with
  | .object members => match members.lookup key with
    | some (.string s) => cString s
    | _ => []
  | _ => []

/-- What a node of the file contributes: id, name, type, and the URL of a bookmark. -/
def nodeItem (node : Value) : Item where
  id := textOf node Key.id
  title := textOf node Key.name
  type := textOf node Key.type
  url := if textOf node Key.type = Key.url then some (textOf node Key.url) else none

mutual
/-- A node and the nodes below it in preorder. -/
def items : Value → List Item
  | .object members => nodeItem (.object members) :: childItems members
  | node => [nodeItem node]
termination_by structural node => node
def childItems : List (List Char × Value) → List Item
  | [] => []
  | e :: members => if e.1 = Key.children then memberItems e else childItems members
termination_by structural members => members
def memberItems : List Char × Value → List Item
  | (_, children) => arrayItems children
termination_by structural e => e
def arrayItems : Value → List Item
  | .array elems => elemItems elems
  | _ => []
termination_by structural children => children
def elemItems : List Value → List Item
  | [] => []
  | x :: xs => items x ++ elemItems xs
termination_by structural elems => elems
end

theorem elemItems_eq : ∀ xs : List Value, elemItems xs = xs.flatMap items
  | [] => by rw [elemItems]; rfl
  | x :: xs => by rw [elemItems, elemItems_eq xs, List.flatMap_cons]

/-- The file's nodes in the order `bookmark_bar`, `other`, `synced`. -/
def Written.items (w : Written) : List Item :=
  Chrome.items w.bookmark_bar ++ Chrome.items w.other ++ Chrome.items w.synced

/-! ### Plain records -/

/-- The text that is printed for a record. -/
def nodeText (r : FavoriteLineData) (nIndex : ℕ) : WStr :=
  if r.bFolder then
    folderText (int64ToString r.nAddTimes) (int64ToString r.nLastModifyTime) nIndex r.szTitle
  else urlText (int64ToString r.nAddTimes) nIndex r.szTitle r.szUrl

/-- The title, and the URL of a bookmark, go through the text unchanged. -/
def PlainRecord (r : FavoriteLineData) : Prop :=
  Plain r.szTitle ∧ (r.bFolder = false → Plain r.szUrl)

/-- The node that is meant for a record. -/
def recordValue (r : FavoriteLineData) (nIndex : ℕ) (children : List Value) : Value :=
  if r.bFolder then
    folderValue (int64ToString r.nAddTimes) (int64ToString r.nLastModifyTime) nIndex r.szTitle children
  else urlValue (int64ToString r.nAddTimes) nIndex r.szTitle r.szUrl

/-- What a record contributes to the checksum. -/
def recordItem (r : FavoriteLineData) (nIndex : ℕ) : Item :=
  if r.bFolder then { id := decimal nIndex, title := r.szTitle, type := Key.folder }
  else { id := decimal nIndex, title := r.szTitle, type := Key.url, url := some r.szUrl }

theorem make_eq (r : FavoriteLineData) (nIndex : ℕ) :
    jsonOps.make r nIndex = readNode (nodeText r nIndex) := by
  rw [nodeText]
  change (if r.bFolder then makeFolderNode r nIndex else makeUrlNode r nIndex) = _
  split <;> rfl

theorem readNode_some {szTmp : WStr} (h : wcslen szTmp < 2047) :
    readNode szTmp = some (parse szTmp) := if_pos h

theorem parse_nodeText {r : FavoriteLineData} (hr : PlainRecord r) (nIndex : ℕ) :
    parse (nodeText r nIndex) = recordValue r nIndex [] := by
  rw [nodeText, recordValue]
  cases hf : r.bFolder with
  | true => exact parse_folderText (plain_int64ToString _) (plain_int64ToString _) _ hr.1
  | false => exact parse_urlText (plain_int64ToString _) _ hr.1 (hr.2 hf)

theorem setChildren_folder {r : FavoriteLineData} (hf : r.bFolder = true) (nIndex : ℕ)
    (cs : List Value) :
    jsonOps.setChildren (recordValue r nIndex []) cs = recordValue r nIndex cs := by
  rw [recordValue, if_pos hf, recordValue, if_pos hf]
  rfl

theorem items_folderValue {a m : List Char} {n : ℕ} {t : WStr} (ht : Plain t) (cs : List Value) :
    items (folderValue a m n t cs) =
      { id := decimal n, title := t, type := Key.folder } :: elemItems cs := by
  have hid : textOf (folderValue a m n t cs) Key.id = decimal n := cString_plain (plain_decimal n)
  have hname : textOf (folderValue a m n t cs) Key.name = t := cString_plain ht
  have htype : textOf (folderValue a m n t cs) Key.type = Key.folder := rfl
  have hitem : nodeItem (folderValue a m n t cs) =
      { id := decimal n, title := t, type := Key.folder } := by
    rw [nodeItem, hid, hname, htype]
    rfl
  rw [← hitem]
  rfl

theorem items_urlValue {a : List Char} {n : ℕ} {t u : WStr} (ht : Plain t) (hu : Plain u) :
    items (urlValue a n t u) =
      [{ id := decimal n, title := t, type := Key.url, url := some u }] := by
  have hid : textOf (urlValue a n t u) Key.id = decimal n := cString_plain (plain_decimal n)
  have hname : textOf (urlValue a n t u) Key.name = t := cString_plain ht
  have htype : textOf (urlValue a n t u) Key.type = Key.url := rfl
  have hurl : textOf (urlValue a n t u) Key.url = u := cString_plain hu
  have hitem : nodeItem (urlValue a n t u) =
      { id := decimal n, title := t, type := Key.url, url := some u } := by
    rw [nodeItem, hid, hname, htype, hurl]
    rfl
  rw [← hitem]
  rfl

theorem items_recordValue {r : FavoriteLineData} (hr : PlainRecord r) (nIndex : ℕ)
    (cs : List Value) : items (recordValue r nIndex cs) =
      recordItem r nIndex :: (if r.bFolder then elemItems cs else []) := by
  rw [recordValue, recordItem]
  cases hf : r.bFolder with
  | true => exact items_folderValue hr.1 cs
  | false => exact items_urlValue hr.1 (hr.2 hf)

/-! ### The special folders -/

theorem wcslen_le (s : WStr) : wcslen s ≤ 2 * s.length := by
  induction s with
  | nil => simp [wcslen]
  | cons c s ih =>
    simp only [wcslen, List.map_cons, List.sum_cons, List.length_cons] at ih ⊢
    split <;> omega

theorem length_int64Loop : ∀ (fuel : ℕ) (n : ℤ) (s : List Char),
    (int64Loop fuel n s).length ≤ s.length + 2 * fuel
  | 0, _, _ => by simp [int64Loop]
  | fuel + 1, n, s => by
    rw [int64Loop]
    split
    · omega
    · have hd : (digitText (n.tmod 10)).length ≤ 2 := by
        rw [digitText]
        split <;> simp
      have := length_int64Loop fuel (n.tdiv 10) (s ++ digitText (n.tmod 10))
      rw [List.length_append] at this
      omega

theorem length_int64ToString (n : ℤ) : (int64ToString n).length ≤ 38 := by
  have := length_int64Loop 19 n []
  rw [int64ToString, List.length_reverse]
  simpa using this

theorem length_decimal {n : ℕ} (h : n < 2 ^ 32) : (decimal n).length ≤ 10 :=
  (Nat.length_toDigits_le_iff (by decide) (by decide)).mpr (h.trans (by decide))

/-- The texts of the special folders fit. -/
theorem special_fits (now : ℤ) {pszName : WStr} (hname : pszName.length ≤ 16) {n : ℕ} (hn : n < 2 ^ 32) :
    wcslen (folderText (int64ToString now) (int64ToString now) n pszName) < 2047 := by
  refine (wcslen_le _).trans_lt ?_
  have h₁ := length_int64ToString now
  have h₂ := length_decimal hn
  simp only [folderText, folderFields, fieldsText, fieldText, indent, Key.children, Key.dateAdded,
    Key.dateModified, Key.id, Key.name, Key.type, Key.folder, List.length_append, List.length_cons,
    List.length_nil]
  omega

theorem makeSpecial_eq (now : ℤ) (pszName : WStr) (hname : pszName.length ≤ 16)
    (hplain : Plain pszName) {n : ℕ} (hn : n < 2 ^ 32) : makeSpecialFolderNode now pszName n =
      some (folderValue (int64ToString now) (int64ToString now) n pszName []) := by
  rw [makeSpecialFolderNode, readNode_some (special_fits now hname hn),
    parse_folderText (plain_int64ToString _) (plain_int64ToString _) n hplain]

theorem nextIndex_lt (n : ℕ) : nextIndex n < 2 ^ 32 := Nat.mod_lt _ (by decide)

/-! ### The import of a tree -/

variable {v : List FavoriteLineData}

/-- All URLs are valid, so that every record is fed. -/
def ValidUrls (v : List FavoriteLineData) : Prop :=
  ∀ r ∈ v, r.bDelete = false → r.bFolder = false → isStringUTF8 r.szUrl = true

/-- The texts of all nodes fit their buffers. -/
def TextsFit (v : List FavoriteLineData) (nIndex : ℕ) : Prop :=
  ∀ r ∈ v, r.bDelete = false → wcslen (nodeText r (nodeId v nIndex r.nId)) < 2047

theorem checksumStep_live {m : List (ℤ × ℕ)} {ctx : List Item} {r : FavoriteLineData} {id : ℕ}
    (hlive : r.bDelete = false) (hid : m.lookup r.nId = some id)
    (hutf8 : r.bFolder = false → isStringUTF8 r.szUrl = true) :
    checksumStep m ctx (some r) = ctx ++ [recordItem r id] := by
  simp only [checksumStep, hlive, hid, recordItem]
  cases hf : r.bFolder with
  | true => rfl
  | false => simp [updateChecksumWithUrlNode, hutf8 hf]

/-- The checksum loop feeds the live records in depth-first order. -/
theorem checksumLoop_eq {m : List (ℤ × ℕ)} (idx : ℤ → ℕ)
    (hid : ∀ r ∈ liveWalk v, m.lookup r.nId = some (idx r.nId))
    (hutf8 : ∀ r ∈ liveWalk v, r.bFolder = false → isStringUTF8 r.szUrl = true) (ctx : List Item) :
    (sortedData v).foldl (checksumStep m) ctx =
      ctx ++ (liveWalk v).map fun r => recordItem r (idx r.nId) := by
  have hnull : ∀ (n : ℕ) (ctx : List Item),
      (List.replicate n (none : Option FavoriteLineData)).foldl (checksumStep m) ctx = ctx := by
    intro n
    induction n with
    | zero => intros; rfl
    | succ n ih => intro ctx; exact ih ctx
  have hrun : ∀ (l : List FavoriteLineData) (ctx : List Item),
      (∀ r ∈ l.filter (fun r => !r.bDelete), m.lookup r.nId = some (idx r.nId) ∧
        (r.bFolder = false → isStringUTF8 r.szUrl = true)) →
      (l.map some).foldl (checksumStep m) ctx =
        ctx ++ (l.filter fun r => !r.bDelete).map fun r => recordItem r (idx r.nId) := by
    intro l
    induction l with
    | nil => simp
    | cons r l ih =>
      intro ctx h
      rw [List.map_cons, List.foldl_cons]
      cases hdel : r.bDelete with
      | true =>
        have hskip : checksumStep m ctx (some r) = ctx := by simp [checksumStep, hdel]
        rw [hskip, List.filter_cons_of_neg (by simp [hdel])]
        exact ih ctx (by simpa [List.filter_cons_of_neg, hdel] using h)
      | false =>
        rw [List.filter_cons_of_pos (by simp [hdel])] at h ⊢
        have hr := h r List.mem_cons_self
        rw [checksumStep_live hdel hr.1 hr.2, ih _ fun s hs => h s (List.mem_cons_of_mem _ hs),
          List.map_cons, List.append_assoc, List.singleton_append]
  rw [sortedData, List.foldl_append, hnull, hrun]
  exact fun r hr => ⟨hid r hr, hutf8 r hr⟩

/-- What `m_mapIdIndexInfo` holds for a live record. -/
theorem lookup_makeOrder (hv : Distinct links v) {idx : ℤ → ℕ} {r : FavoriteLineData}
    (hr : r ∈ liveWalk v) :
    ((makeOrder v).map fun e => (e.1.nId, idx e.1.nId)).lookup r.nId = some (idx r.nId) := by
  have hP := (depthLoop_plan (ν := Unit) hv 0 0).1
  obtain ⟨e, he, rfl⟩ := mem_liveAt_of hr
  refine Maps.Keys.lookup ?_ (List.mem_map.mpr ⟨e, (makeOrder_perm hv).mem_iff.mpr he, rfl⟩)
  rw [Maps.Keys, List.map_map]
  exact hP.order_nodup _

/-- The import of a tree whose texts fit: what is written, and what is fed. -/
theorem IsTree.importRoots_eq (hv : IsTree v) (now : ℕ → ℤ) (nMaxDepth : ℤ) {nIndex : ℕ}
    (hfit : TextsFit v nIndex) :
    ∃ otherId syncedId w, importRoots now nMaxDepth nIndex v = some (some w) ∧
      w.bookmark_bar = folderValue (int64ToString (now 0)) (int64ToString (now 0)) (nextIndex nIndex)
        Key.bookmarksBar ((forest v (nodeId v nIndex)).map
          (build jsonOps fun r id => parse (nodeText r id))) ∧
      w.other = folderValue (int64ToString (now 1)) (int64ToString (now 1)) otherId
        Key.otherBookmarks [] ∧
      w.synced = folderValue (int64ToString (now 2)) (int64ToString (now 2)) syncedId
        Key.syncedBookmarks [] ∧
      (ValidUrls v → w.ctx =
        { id := decimal (nextIndex nIndex), title := Key.bookmarksBar, type := Key.folder } ::
        ((liveWalk v).map fun r => recordItem r (nodeId v nIndex r.nId)) ++
        [{ id := decimal otherId, title := Key.otherBookmarks, type := Key.folder },
         { id := decimal syncedId, title := Key.syncedBookmarks, type := Key.folder }]) := by
  obtain ⟨s, hs, hnodes, _, hids⟩ := hv.buildTree_eq jsonOps nMaxDepth nIndex
    (fun r id => parse (nodeText r id))
    fun r hr hlive => by rw [make_eq, readNode_some (hfit r hr hlive)]
  have hbar := makeSpecial_eq (now 0) Key.bookmarksBar (by decide) (by decide)
    (nextIndex_lt nIndex)
  have hother := makeSpecial_eq (now 1) Key.otherBookmarks (by decide) (by decide)
    (nextIndex_lt s.m_nIndex)
  have hsynced := makeSpecial_eq (now 2) Key.syncedBookmarks (by decide) (by decide)
    (nextIndex_lt (nextIndex s.m_nIndex))
  refine ⟨nextIndex s.m_nIndex, nextIndex (nextIndex s.m_nIndex), ?_⟩
  rw [importRoots]
  simp only [hbar, hs, Option.bind_eq_bind, Option.bind_some, hnodes, hother, hsynced]
  refine ⟨_, rfl, rfl, rfl, rfl, fun hutf8 => ?_⟩
  simp only [checksumLoop_eq (m := s.m_mapIdIndexInfo) (nodeId v nIndex)
    (fun r hr => by rw [hids]; exact lookup_makeOrder hv.distinct hr)
    (fun r hr => hutf8 r (mem_liveWalk hr).1 (mem_liveWalk hr).2)]
  simp [updateChecksumWithFolderNode]

/-! ### Plain trees -/

/-- The node of a plain record with its children. -/
theorem build_plain {r : FavoriteLineData} (hr : PlainRecord r) (id : ℕ) {ts : List Node}
    (hts : r.bFolder = false → ts = []) :
    build jsonOps (fun r id => parse (nodeText r id)) (.node r id ts) =
      recordValue r id (ts.map (build jsonOps fun r id => parse (nodeText r id))) := by
  rcases eq_or_ne ts [] with rfl | hne
  · rw [build_leaf, parse_nodeText hr]
    rfl
  · have hf : r.bFolder = true := by
      by_contra hf
      exact hne (hts (by simpa using hf))
    rw [build_inner _ _ _ _ hne, parse_nodeText hr, setChildren_folder hf]

/-- The nodes of a plain forest contribute what their records do. -/
theorem items_trees_plain {R : List FavoriteLineData} (hR : ∀ r ∈ R, PlainRecord r) (idx : ℤ → ℕ) :
    ∀ (k : ℕ) (p : ℤ), elemItems ((trees R idx k p).map (build jsonOps fun r id => parse (nodeText r id))) =
      (Node.itemsAll (trees R idx k p)).map fun e => recordItem e.1 e.2
  | 0, _ => rfl
  | k + 1, p => by
    rw [trees, List.map_map, elemItems_eq, List.flatMap_map, Node.itemsAll_eq, List.flatMap_map,
      List.map_flatMap]
    refine List.flatMap_congr fun r hr => ?_
    have hplain := hR r (List.mem_of_mem_filter hr)
    rw [Function.comp_apply, build_plain hplain _ fun hf => by simp [hf], items_recordValue hplain,
      Node.items, List.map_cons]
    cases hf : r.bFolder with
    | true => simp [items_trees_plain hR idx k r.nId]
    | false => rfl

/-- The checksum is taken over the nodes of the file that is written. -/
def ChecksumOfFile (now : ℕ → ℤ) (nMaxDepth : ℤ) (nIndex : ℕ) (v : List FavoriteLineData) : Prop :=
  ∃ w, importRoots now nMaxDepth nIndex v = some (some w) ∧ w.ctx = w.items

/-- With titles and URLs that have no quote and no backslash, and texts that fit, it is. -/
theorem checksum_of_plain (hv : IsTree v) (now : ℕ → ℤ) (nMaxDepth : ℤ) {nIndex : ℕ}
    (hutf8 : ValidUrls v) (hfit : TextsFit v nIndex)
    (hplain : ∀ r ∈ v, r.bDelete = false → PlainRecord r) :
    ChecksumOfFile now nMaxDepth nIndex v := by
  obtain ⟨otherId, syncedId, w, hw, hbar, hother, hsynced, hctx⟩ :=
    hv.importRoots_eq now nMaxDepth hfit
  refine ⟨w, hw, ?_⟩
  have hforest := items_trees_plain (R := liveWalk v)
    (fun r hr => hplain r (mem_liveWalk hr).1 (mem_liveWalk hr).2) (nodeId v nIndex) (v.length + 1) 0
  rw [← forest, hv.items_forest, List.map_map] at hforest
  rw [hctx hutf8, Written.items, hbar, hother, hsynced, items_folderValue (by decide),
    items_folderValue (by decide), items_folderValue (by decide), hforest]
  simp [elemItems, Function.comp_def]

theorem checksum_of_plain_bookmarkFirst : IsTree bookmarkFirst ∧ ValidUrls bookmarkFirst ∧
    TextsFit bookmarkFirst 7 ∧ ChecksumOfFile (fun _ => 0) 5 7 bookmarkFirst := by
  have hutf8 : ValidUrls bookmarkFirst := by unfold ValidUrls; decide +kernel
  have hfit : TextsFit bookmarkFirst 7 := by unfold TextsFit; decide +kernel
  have hplain : ∀ r ∈ bookmarkFirst, r.bDelete = false → PlainRecord r := by
    unfold PlainRecord; decide +kernel
  exact ⟨isTree_bookmarkFirst, hutf8, hfit,
    checksum_of_plain isTree_bookmarkFirst (fun _ => 0) 5 hutf8 hfit hplain⟩

/-- One bookmark whose title has a quote in it. -/
def quotedTitle : List FavoriteLineData :=
  [{ nId := 1, szTitle := ['a', '"', 'b'], szUrl := ['h', 't', 't', 'p'] }]

theorem isTree_single {r : FavoriteLineData} (hid : r.nId ≠ 0) (hpid : r.nPid = 0)
    (hlive : r.bDelete = false) : IsTree [r] where
  distinct := ⟨by simp, fun s hs => by rw [List.mem_singleton.mp hs]; exact hid⟩
  parent := by simp [hpid]
  acyclic := by
    intro x hx
    obtain ⟨y, ⟨s, hs, _, rfl, rfl⟩, hy⟩ := Relation.TransGen.head'_iff.mp hx
    obtain rfl := List.mem_singleton.mp hs
    rcases hy.cases_head with h0 | ⟨z, ⟨t, ht, _, ht0, _⟩, _⟩
    · exact hid (h0.symm.trans hpid)
    · obtain rfl := List.mem_singleton.mp ht
      exact hid (ht0.trans hpid)
  live := ⟨r, List.mem_singleton_self r, hlive⟩
  length := by simp

/-- The name is read up to the quote, and nothing after it: the checksum knows a bookmark that the
    file does not have. -/
theorem checksum_quotedTitle : IsTree quotedTitle ∧ ValidUrls quotedTitle ∧ TextsFit quotedTitle 0 ∧
    ¬ ChecksumOfFile (fun _ => 0) 0 0 quotedTitle := by
  refine ⟨isTree_single (by decide) rfl rfl, ?_, ?_, ?_⟩
  · unfold ValidUrls; decide +kernel
  · unfold TextsFit; decide +kernel
  · rintro ⟨w, hw, hctx⟩
    have hrun : (importRoots (fun _ => 0) 0 0 quotedTitle).map
        (Option.map fun w => decide (w.ctx = w.items)) = some (some false) := by decide +kernel
    rw [hw] at hrun
    simp [hctx] at hrun

end UrlTraveler.Chrome
