import UrlTraveler.Chrome.Checksum

/-! `GetFavoriteCount` and `ExportFavoriteData`: the Bookmarks file back to records.

    The records are numbered in preorder. A folder's children get its number as their parent; the
    special folders are left out, at any depth, and their children go one level up:

        bar ⊃ A ⊃ a          0x9000  A  (0)
              B                0x9001  a  (0x9000)
                               0x9002  B  (0)

    `GetFavoriteCount` counts all objects below the three roots, and the caller makes an array of
    that many records for `ExportFavoriteData` to write into. -/

namespace UrlTraveler.Chrome
open Json

/-! ### Counting -/

mutual
/-- `EnumNode`: the number of objects. -/
def enumNode : Value → ℕ
  | .array elems => enumElems elems
  | .object members => 1 + enumMembers members
  | _ => 0
termination_by structural value => value
def enumElems : List Value → ℕ
  | [] => 0
  | x :: xs => enumNode x + enumElems xs
termination_by structural elems => elems
def enumMembers : List (List Char × Value) → ℕ
  | [] => 0
  | e :: members => enumMember e + enumMembers members
termination_by structural members => members
def enumMember : List Char × Value → ℕ
  | (_, x) => enumNode x
termination_by structural e => e
end

/-! ### Writing records -/

/-- `wcscpy_s(.., MAX_LENGTH - 1, ..)`: a string that does not fit with its NUL ends the program. -/
def wcscpy (s : WStr) : Option WStr := if wcslen s < 1023 then some s else none

/-- The value of an `int64` after an overflow. -/
def wrap64 (n : ℤ) : ℤ := (n + 2 ^ 63) % 2 ^ 64 - 2 ^ 63

/-- `StringToInt64`: the digits go on from the value that was there. -/
def stringToInt64 (strTime : List Char) (nTime : ℤ) : ℤ :=
  match strTime.takeWhile Char.isDigit with
  | [] => nTime
  | c :: cs => cs.foldl (fun t c => wrap64 (t * 10 + (c.toNat - 48 : ℕ))) (wrap64 (nTime + (c.toNat - 48 : ℕ)))

def idValueChromeBegin : ℤ := 0x9000

/-- The array the caller passes, and `nRealDataNum`. -/
structure ExportState where
  ppData : List FavoriteLineData
  nRealDataNum : ℕ

/-- The next record of the array is overwritten by `f`. -/
def ExportState.write (st : ExportState) (f : FavoriteLineData → FavoriteLineData) : ExportState where
  ppData := st.ppData.modify st.nRealDataNum f
  nRealDataNum := st.nRealDataNum + 1

/-- What `ExportFolder` writes; `crc` is the hash of a title. -/
def folderRecord (crc : WStr → ℕ) (k : ℕ) (nPid : ℤ) (date : List Char) (title : WStr)
    (r : FavoriteLineData) : FavoriteLineData :=
  { r with
    nId := k + idValueChromeBegin
    bFolder := true
    bDelete := false
    nAddTimes := stringToInt64 date r.nAddTimes
    nLastModifyTime := stringToInt64 date r.nLastModifyTime
    nPid := nPid
    szTitle := title
    szUrl := []
    nHashId := crc title }

/-- What `ExportUrl` writes. -/
def urlRecord (crc : WStr → ℕ) (k : ℕ) (nPid : ℤ) (date : List Char) (title url : WStr)
    (r : FavoriteLineData) : FavoriteLineData :=
  { r with
    nId := k + idValueChromeBegin
    bFolder := false
    bDelete := false
    nAddTimes := stringToInt64 date r.nAddTimes
    nLastModifyTime := 0
    nPid := nPid
    szTitle := title
    szUrl := url
    nHashId := crc title }

variable (crc : WStr → ℕ)

/-- `ExportUrl`. -/
def exportUrl (url_obj : Value) (nPid : ℤ) (st : ExportState) : Option ExportState :=
  if isEmpty url_obj then some st
  else (field url_obj Key.type).bind fun type =>
    if type ≠ Key.url then some st
    else if st.ppData.length = st.nRealDataNum then some st
    else do
      let date ← field url_obj Key.dateAdded
      let title ← (field url_obj Key.name).bind wcscpy
      let url ← (field url_obj Key.url).bind wcscpy
      return st.write (urlRecord crc st.nRealDataNum nPid date title url)

/-- The part of `ExportFolder` that writes the folder itself. -/
def exportSelf (folder_obj : Value) (nPid : ℤ) (st : ExportState) : Option ExportState := do
  let date ← field folder_obj Key.dateAdded
  let title ← (field folder_obj Key.name).bind wcscpy
  return st.write (folderRecord crc st.nRealDataNum nPid date title)

/-- The names of the folders that are left out. -/
def specialNames : List WStr :=
  [Key.bookmarksBar, ['书', '签', '栏'], ['收', '藏', '栏'], Key.otherBookmarks,
   ['其', '他', '书', '签'], ['其', '它', '书', '签'], ['其', '它', '收', '藏'],
   Key.syncedBookmarks, ['已', '同', '步', '书', '签'], ['已', '同', '步', '收', '藏']]

mutual
/-- `ExportFolder`; the loop over the children is `exportMembers` and what follows it. -/
def exportFolder (nPid : ℤ) (st : ExportState) : Value → Option ExportState
  | .null => some st
  | .array [] => some st
  | .object members =>
    if members.isEmpty then some st
    else (field (.object members) Key.type).bind fun type =>
      if type ≠ Key.folder then some st
      else (field (.object members) Key.name).bind fun name =>
        if name ∈ specialNames then exportMembers nPid st members
        else if st.nRealDataNum = st.ppData.length then some st
        else (exportSelf crc (.object members) nPid st).bind fun st' =>
          exportMembers (st.nRealDataNum + idValueChromeBegin) st' members
  | _ => none
termination_by structural folder_obj => folder_obj
/-- The children are those of the member `children`. -/
def exportMembers (nPid : ℤ) (st : ExportState) : List (List Char × Value) → Option ExportState
  | [] => some st
  | e :: members => if e.1 = Key.children then exportMember nPid st e else exportMembers nPid st members
termination_by structural members => members
def exportMember (nPid : ℤ) (st : ExportState) : List Char × Value → Option ExportState
  | (_, children_nodes) => exportChildren nPid st children_nodes
termination_by structural e => e
/-- Only an array can be indexed; other values but objects have size 0. -/
def exportChildren (nPid : ℤ) (st : ExportState) : Value → Option ExportState
  | .array elems => exportElems nPid st elems
  | .object (_ :: _) => none
  | _ => some st
termination_by structural children_nodes => children_nodes
def exportElems (nPid : ℤ) (st : ExportState) : List Value → Option ExportState
  | [] => some st
  | x :: xs => ((field x Key.type).bind fun type =>
      if type = Key.url then exportUrl crc x nPid st
      else if type = Key.folder then exportFolder nPid st x
      else some st).bind fun st => exportElems nPid st xs
termination_by structural elems => elems
end

/-! ### The file -/

/-- `GetFavoriteCount` on the value that was read. -/
def getFavoriteCount (chrome_bookmarks : Value) : Option ℕ := do
  let roots ← member chrome_bookmarks Key.roots
  let bar ← (member roots Key.bookmarkBar).bind (member · Key.children)
  let other ← (member roots Key.other).bind (member · Key.children)
  let synced ← (member roots Key.synced).bind (member · Key.children)
  return enumNode bar + enumNode other + enumNode synced

/-- `ExportFavoriteData` on the value that was read. -/
def exportFavoriteData (chrome_bookmarks : Value) (ppData : List FavoriteLineData) :
    Option (List FavoriteLineData) :=
  if isEmpty chrome_bookmarks then some ppData
  else do
    let roots ← member chrome_bookmarks Key.roots
    let st ← (member roots Key.bookmarkBar).bind (exportFolder crc 0 ⟨ppData, 0⟩)
    let st ← (member roots Key.other).bind (exportFolder crc 0 st)
    let st ← (member roots Key.synced).bind (exportFolder crc 0 st)
    return st.ppData

/-! ### What is exported from a plain tree -/

mutual
/-- The records of a tree in preorder, with the parent ids they get from `k` on. -/
def exported (nPid : ℤ) (k : ℕ) : Node → List (FavoriteLineData × ℤ)
  | .node r _ ts => (r, nPid) :: exportedAll (k + idValueChromeBegin) (k + 1) ts
def exportedAll (nPid : ℤ) (k : ℕ) : List Node → List (FavoriteLineData × ℤ)
  | [] => []
  | t :: ts => exported nPid k t ++ exportedAll nPid (k + (exported nPid k t).length) ts
end

/-- The next record of the array becomes the copy of `e.1` below `e.2`. -/
def putRecord (st : ExportState) (e : FavoriteLineData × ℤ) : ExportState :=
  st.write (if e.1.bFolder then
      folderRecord crc st.nRealDataNum e.2 (int64ToString e.1.nAddTimes) e.1.szTitle
    else urlRecord crc st.nRealDataNum e.2 (int64ToString e.1.nAddTimes) e.1.szTitle e.1.szUrl)

/-- A record that goes through the file unchanged, up to the URL of a folder. -/
structure Exportable (r : FavoriteLineData) : Prop where
  plain : PlainRecord r
  named : r.bFolder = true → r.szTitle ∉ specialNames
  title : wcslen r.szTitle < 1023
  url : wcslen r.szUrl < 1023

variable {crc}

variable (crc) in
theorem foldl_putRecord (l : List (FavoriteLineData × ℤ)) (st : ExportState) :
    (l.foldl (putRecord crc) st).nRealDataNum = st.nRealDataNum + l.length ∧
      (l.foldl (putRecord crc) st).ppData.length = st.ppData.length := by
  induction l generalizing st with
  | nil => simp
  | cons e l ih =>
    rw [List.foldl_cons]
    obtain ⟨h₁, h₂⟩ := ih (putRecord crc st e)
    refine ⟨h₁.trans ?_, h₂.trans ?_⟩
    · simp only [putRecord, ExportState.write, List.length_cons]
      omega
    · simp [putRecord, ExportState.write]

theorem field_folderValue {a m : List Char} {n : ℕ} {t : WStr} (ha : Plain a) (ht : Plain t)
    (cs : List Value) : field (folderValue a m n t cs) Key.type = some Key.folder ∧
      field (folderValue a m n t cs) Key.name = some t ∧
      field (folderValue a m n t cs) Key.dateAdded = some a :=
  ⟨rfl, congrArg some (cString_plain ht), congrArg some (cString_plain ha)⟩

theorem field_urlValue {a : List Char} {n : ℕ} {t u : WStr} (ha : Plain a) (ht : Plain t)
    (hu : Plain u) : field (urlValue a n t u) Key.type = some Key.url ∧
      field (urlValue a n t u) Key.name = some t ∧ field (urlValue a n t u) Key.url = some u ∧
      field (urlValue a n t u) Key.dateAdded = some a :=
  ⟨rfl, congrArg some (cString_plain ht), congrArg some (cString_plain hu),
    congrArg some (cString_plain ha)⟩

/-- A folder that is not special: the folder itself, then its children. -/
theorem exportFolder_value {a m : List Char} {n : ℕ} {t : WStr} (ha : Plain a) (ht : Plain t)
    (hlen : wcslen t < 1023) (hname : t ∉ specialNames) (cs : List Value) {nPid : ℤ}
    {st : ExportState} (hroom : st.nRealDataNum < st.ppData.length) :
    exportFolder crc nPid st (folderValue a m n t cs) =
      exportElems crc (st.nRealDataNum + idValueChromeBegin)
        (st.write (folderRecord crc st.nRealDataNum nPid a t)) cs := by
  obtain ⟨h₁, h₂, h₃⟩ := field_folderValue (m := m) (n := n) ha ht cs
  have hself : exportSelf crc (folderValue a m n t cs) nPid st =
      some (st.write (folderRecord crc st.nRealDataNum nPid a t)) := by
    rw [exportSelf, h₂, h₃]
    simp [wcscpy, hlen]
  rw [folderValue] at h₁ h₂ hself ⊢
  rw [exportFolder, h₁, h₂]
  simp only [List.isEmpty_cons, Option.bind_some, ne_eq, not_true_eq_false, if_false, if_neg hname,
    if_neg (ne_of_lt hroom), hself, Bool.false_eq_true]
  rfl

/-- The children of a special folder take its place. -/
theorem exportFolder_special {a m : List Char} {n : ℕ} {t : WStr} (ha : Plain a) (ht : Plain t)
    (hname : t ∈ specialNames) (cs : List Value) {nPid : ℤ} {st : ExportState} :
    exportFolder crc nPid st (folderValue a m n t cs) = exportElems crc nPid st cs := by
  obtain ⟨h₁, h₂, _⟩ := field_folderValue (m := m) (n := n) ha ht cs
  rw [folderValue] at h₁ h₂ ⊢
  rw [exportFolder, h₁, h₂]
  simp only [List.isEmpty_cons, Option.bind_some, ne_eq, not_true_eq_false, if_false, if_pos hname,
    Bool.false_eq_true]
  rfl

theorem exportUrl_value {a : List Char} {n : ℕ} {t u : WStr} (ha : Plain a) (ht : Plain t)
    (hu : Plain u) (htl : wcslen t < 1023) (hul : wcslen u < 1023) {nPid : ℤ} {st : ExportState}
    (hroom : st.nRealDataNum < st.ppData.length) : exportUrl crc (urlValue a n t u) nPid st =
      some (st.write (urlRecord crc st.nRealDataNum nPid a t u)) := by
  obtain ⟨h₁, h₂, h₃, h₄⟩ := field_urlValue (n := n) ha ht hu
  have hne : isEmpty (urlValue a n t u) = false := rfl
  rw [exportUrl, hne, h₁, h₂, h₃, h₄]
  simp [wcscpy, htl, hul, ne_of_gt hroom]

/-- One record of a list of nodes. -/
theorem exportElems_record {r : FavoriteLineData} (hr : Exportable r) (id : ℕ) (cs xs : List Value)
    {nPid : ℤ} {st : ExportState} (hroom : st.nRealDataNum < st.ppData.length) :
    exportElems crc nPid st (recordValue r id cs :: xs) =
      (exportElems crc (st.nRealDataNum + idValueChromeBegin) (putRecord crc st (r, nPid))
        (if r.bFolder then cs else [])).bind fun st => exportElems crc nPid st xs := by
  have hdate := plain_int64ToString r.nAddTimes
  rw [exportElems, putRecord, recordValue]
  cases hf : r.bFolder with
  | true =>
    simp only [if_true]
    rw [(field_folderValue hdate hr.plain.1 cs).1, Option.bind_some, if_neg (by decide), if_pos rfl,
      exportFolder_value hdate hr.plain.1 hr.title (hr.named hf) cs hroom]
  | false =>
    have hurl := hr.plain.2 hf
    simp only [Bool.false_eq_true, if_false]
    rw [(field_urlValue hdate hr.plain.1 hurl).1, Option.bind_some, if_pos rfl,
      exportUrl_value hdate hr.plain.1 hurl hr.title hr.url hroom, exportElems]

variable (crc) in
/-- The nodes of a plain forest are exported in preorder. -/
theorem exportElems_trees {R : List FavoriteLineData} (hR : ∀ r ∈ R, Exportable r) (idx : ℤ → ℕ) :
    ∀ (k : ℕ) (p nPid : ℤ) (st : ExportState),
    st.nRealDataNum + (exportedAll nPid st.nRealDataNum (trees R idx k p)).length ≤ st.ppData.length →
    exportElems crc nPid st ((trees R idx k p).map (build jsonOps fun r id => parse (nodeText r id))) =
      some ((exportedAll nPid st.nRealDataNum (trees R idx k p)).foldl (putRecord crc) st)
  | 0, _, _, _, _ => by rw [trees, List.map_nil, exportElems, exportedAll]; rfl
  | k + 1, p, nPid, st, hroom => by
    rw [trees] at hroom ⊢
    have hL : ∀ r ∈ R.filter (·.nPid = p), r ∈ R := fun r hr => List.mem_of_mem_filter hr
    generalize R.filter (·.nPid = p) = L at hL hroom ⊢
    induction L generalizing st with
    | nil => rw [List.map_nil, List.map_nil, exportElems, exportedAll]; rfl
    | cons r L ihL =>
      have hr := hR r (hL r List.mem_cons_self)
      simp only [List.map_cons, exportedAll, exported] at hroom ⊢
      rw [build_plain hr.plain _ fun hf => by simp [hf]]
      simp only [List.length_append, List.length_cons] at hroom
      rw [exportElems_record hr _ _ _ (by omega)]
      -- the children of `r`, or none
      have hchildren : exportElems crc (st.nRealDataNum + idValueChromeBegin)
          (putRecord crc st (r, nPid)) (if r.bFolder then
            (if r.bFolder then trees R idx k r.nId else []).map
              (build jsonOps fun r id => parse (nodeText r id)) else []) =
          some ((exportedAll (st.nRealDataNum + idValueChromeBegin) (st.nRealDataNum + 1)
            (if r.bFolder then trees R idx k r.nId else [])).foldl (putRecord crc)
              (putRecord crc st (r, nPid))) := by
        cases hf : r.bFolder with
        | true =>
          simp only [if_true, hf] at hroom ⊢
          refine exportElems_trees hR idx k r.nId _ (putRecord crc st (r, nPid)) ?_
          simp only [putRecord, ExportState.write, List.length_modify]
          omega
        | false =>
          simp only [Bool.false_eq_true, if_false]
          rw [exportElems, exportedAll]
          rfl
      rw [hchildren, Option.bind_some, List.cons_append, List.foldl_cons, List.foldl_append]
      generalize hl : exportedAll (st.nRealDataNum + idValueChromeBegin) (st.nRealDataNum + 1)
        (if r.bFolder then trees R idx k r.nId else []) = l at hroom ⊢
      obtain ⟨hnum, hlen⟩ := foldl_putRecord crc l (putRecord crc st (r, nPid))
      have hnum : (l.foldl (putRecord crc) (putRecord crc st (r, nPid))).nRealDataNum =
          st.nRealDataNum + (l.length + 1) := by
        rw [hnum]
        simp only [putRecord, ExportState.write]
        omega
      have hlen : (l.foldl (putRecord crc) (putRecord crc st (r, nPid))).ppData.length =
          st.ppData.length := by
        rw [hlen]
        simp [putRecord, ExportState.write]
      rw [List.length_cons, ← hnum]
      refine ihL _ (fun s hs => hL s (List.mem_cons_of_mem _ hs)) ?_
      rw [hlen, hnum]
      omega

/-! ### Counting -/

theorem enumElems_eq : ∀ xs : List Value, enumElems xs = (xs.map enumNode).sum
  | [] => by rw [enumElems]; rfl
  | x :: xs => by rw [enumElems, enumElems_eq xs, List.map_cons, List.sum_cons]

theorem enumNode_recordValue (r : FavoriteLineData) (id : ℕ) (cs : List Value) :
    enumNode (recordValue r id cs) = 1 + (if r.bFolder then enumElems cs else 0) := by
  rw [recordValue]
  cases r.bFolder with
  | true => simp [folderValue, folderFields, strings, enumNode, enumMembers, enumMember]
  | false => simp [urlValue, urlFields, strings, enumNode, enumMembers, enumMember]

theorem enumElems_trees {R : List FavoriteLineData} (hR : ∀ r ∈ R, PlainRecord r) {idx : ℤ → ℕ} :
    ∀ (k : ℕ) (p : ℤ),
    enumElems ((trees R idx k p).map (build jsonOps fun r id => parse (nodeText r id))) =
      (Node.itemsAll (trees R idx k p)).length
  | 0, _ => by rw [trees, List.map_nil, enumElems]; rfl
  | k + 1, p => by
    rw [trees, List.map_map, enumElems_eq, List.map_map, Node.itemsAll_eq, List.flatMap_map,
      List.length_flatMap]
    refine congrArg List.sum (List.map_congr_left fun r hr => ?_)
    have hplain := hR r (List.mem_of_mem_filter hr)
    simp only [Function.comp_apply]
    rw [build_plain hplain _ fun hf => by simp [hf], enumNode_recordValue, Node.items,
      List.length_cons, Nat.add_comm]
    cases hf : r.bFolder with
    | true => simp [enumElems_trees hR k r.nId]
    | false => simp [Node.itemsAll]

/-! ### The exported array -/

/-- What is written over the `k`-th record of the array. -/
def copyOf (crc : WStr → ℕ) (k : ℕ) (e : FavoriteLineData × ℤ) : FavoriteLineData → FavoriteLineData :=
  if e.1.bFolder then folderRecord crc k e.2 (int64ToString e.1.nAddTimes) e.1.szTitle
  else urlRecord crc k e.2 (int64ToString e.1.nAddTimes) e.1.szTitle e.1.szUrl

variable (crc) in
theorem foldl_putRecord_eq : ∀ (l : List (FavoriteLineData × ℤ)) (pre mid : List FavoriteLineData),
    mid.length = l.length → (l.foldl (putRecord crc) ⟨pre ++ mid, pre.length⟩).ppData =
      pre ++ ((l.zip mid).zipIdx pre.length).map fun x => copyOf crc x.2 x.1.1 x.1.2
  | [], pre, mid, h => by
    obtain rfl := List.length_eq_zero_iff.mp h
    simp
  | e :: l, pre, [], h => by simp at h
  | e :: l, pre, m :: mid, h => by
    have hput : putRecord crc ⟨pre ++ m :: mid, pre.length⟩ e =
        ⟨(pre ++ [copyOf crc pre.length e m]) ++ mid, (pre ++ [copyOf crc pre.length e m]).length⟩ := by
      simp [putRecord, ExportState.write, copyOf, List.modify_eq_take_drop]
    rw [List.foldl_cons, hput, foldl_putRecord_eq l _ mid (by simpa using h)]
    simp [List.zipIdx_cons]

mutual
theorem exported_fst : ∀ (t : Node) (nPid : ℤ) (k : ℕ),
    (exported nPid k t).map (·.1) = t.items.map (·.1)
  | .node r id ts, nPid, k => by
    rw [exported, Node.items, List.map_cons, List.map_cons, exportedAll_fst ts]
theorem exportedAll_fst : ∀ (ts : List Node) (nPid : ℤ) (k : ℕ),
    (exportedAll nPid k ts).map (·.1) = (Node.itemsAll ts).map (·.1)
  | [], _, _ => rfl
  | t :: ts, nPid, k => by
    rw [exportedAll, Node.itemsAll, List.map_append, List.map_append, exported_fst t,
      exportedAll_fst ts]
end

/-- Every record is below `nPid` or below the copy of the record its `nPid` names. -/
theorem exportedAll_parent {R : List FavoriteLineData} {idx : ℤ → ℕ} :
    ∀ (fuel : ℕ) (q nPid : ℤ) (k : ℕ), ∀ x ∈ (exportedAll nPid k (trees R idx fuel q)).zipIdx k,
      (x.1.1.nPid = q ∧ x.1.2 = nPid) ∨
      ∃ y ∈ (exportedAll nPid k (trees R idx fuel q)).zipIdx k,
        y.1.1.nId = x.1.1.nPid ∧ x.1.2 = y.2 + idValueChromeBegin
  | 0, _, _, _ => by simp [trees, exportedAll]
  | fuel + 1, q, nPid, k => by
    rw [trees]
    have hL : ∀ r ∈ R.filter (·.nPid = q), r.nPid = q := fun r hr => by simpa using (List.mem_filter.mp hr).2
    generalize R.filter (·.nPid = q) = L at hL
    induction L generalizing k with
    | nil => simp [exportedAll]
    | cons r L ihL =>
      intro x hx
      rw [List.map_cons, exportedAll, List.zipIdx_append] at hx ⊢
      rcases List.mem_append.mp hx with hx | hx
      · rw [exported, List.zipIdx_cons] at hx ⊢
        rcases List.mem_cons.mp hx with rfl | hx
        · exact .inl ⟨hL r List.mem_cons_self, rfl⟩
        · refine .inr ?_
          cases hf : r.bFolder with
          | false => simp [hf, exportedAll] at hx
          | true =>
            simp only [hf, if_true] at hx ⊢
            rcases exportedAll_parent fuel r.nId _ (k + 1) x hx with ⟨hp, hpid⟩ | ⟨y, hy, h⟩
            · exact ⟨((r, nPid), k), by simp, hp.symm, hpid⟩
            · exact ⟨y, List.mem_append_left _ (List.mem_cons_of_mem _ hy), h⟩
      · rcases ihL _ (fun s hs => hL s (List.mem_cons_of_mem _ hs)) x hx with h | ⟨y, hy, h⟩
        · exact .inl h
        · exact .inr ⟨y, List.mem_append_right _ hy, h⟩

/-! ### The way back -/

/-- The records of both lists correspond one to one, with title, URL, folder flag and parent. -/
def Corresponds (inp out : List FavoriteLineData) : Prop :=
  ∃ pairs : List (FavoriteLineData × FavoriteLineData),
    (pairs.map (·.1)).Perm inp ∧ (pairs.map (·.2)).Perm out ∧ ∀ x ∈ pairs,
      x.2.szTitle = x.1.szTitle ∧ x.2.szUrl = x.1.szUrl ∧ x.2.bFolder = x.1.bFolder ∧
      (x.1.nPid = 0 ↔ x.2.nPid = 0) ∧ ∀ y ∈ pairs, (x.1.nPid = y.1.nId ↔ x.2.nPid = y.2.nId)

theorem Corresponds.titles {inp out : List FavoriteLineData} (h : Corresponds inp out) :
    (out.map (·.szTitle)).Perm (inp.map (·.szTitle)) := by
  obtain ⟨pairs, hfst, hsnd, hsame⟩ := h
  have hmap : (pairs.map (·.2)).map (·.szTitle) = (pairs.map (·.1)).map (·.szTitle) := by
    rw [List.map_map, List.map_map]
    exact List.map_congr_left fun x hx => (hsame x hx).1
  exact (hsnd.map _).symm.trans (hmap ▸ hfst.map _)

/-- Reading the written file back, into an array of as many records as are counted. The JSON writer
    and reader are taken to be inverse, so that the file is the value that was written. -/
def ExportUndoesImport (now : ℕ → ℤ) (md5 : List Item → List Char) (crc : WStr → ℕ) (nMaxDepth : ℤ)
    (nIndex : ℕ) (v : List FavoriteLineData) : Prop :=
  ∃ w count, importRoots now nMaxDepth nIndex v = some (some w) ∧
    getFavoriteCount (w.root md5) = some count ∧ ∀ ppData : List FavoriteLineData,
      ppData.length = count → ∃ out, exportFavoriteData crc (w.root md5) ppData = some out ∧
        Corresponds (v.filter fun r => !r.bDelete) out

variable {v : List FavoriteLineData}

theorem copyOf_fields (crc : WStr → ℕ) (k : ℕ) (e : FavoriteLineData × ℤ) (r : FavoriteLineData)
    (hurl : e.1.bFolder = true → e.1.szUrl = []) :
    (copyOf crc k e r).szTitle = e.1.szTitle ∧ (copyOf crc k e r).szUrl = e.1.szUrl ∧
      (copyOf crc k e r).bFolder = e.1.bFolder ∧ (copyOf crc k e r).nPid = e.2 ∧
      (copyOf crc k e r).nId = k + idValueChromeBegin := by
  rw [copyOf]
  cases hf : e.1.bFolder with
  | true => simp [folderRecord, hurl hf]
  | false => simp [urlRecord]

section Preorder
variable {l : List (FavoriteLineData × ℤ)} {mid : List FavoriteLineData}

/-- An entry of the array, seen in the list of the records. -/
theorem mem_zipIdx_of_zip {x : ((FavoriteLineData × ℤ) × FavoriteLineData) × ℕ}
    (hx : x ∈ (l.zip mid).zipIdx) : (x.1.1, x.2) ∈ l.zipIdx := by
  have hx := List.mk_mem_zipIdx_iff_getElem?.mp hx
  refine List.mk_mem_zipIdx_iff_getElem?.mpr ?_
  rw [List.getElem?_zip_eq_some] at hx
  exact hx.1

theorem map_zip_zipIdx (hmid : mid.length = l.length) :
    (l.zip mid).zipIdx.map (fun x => x.1.1.1) = l.map (·.1) :=
  calc (l.zip mid).zipIdx.map (fun x => x.1.1.1)
      = ((l.zip mid).zipIdx.map Prod.fst).map (·.1.1) := by rw [List.map_map]; rfl
    _ = ((l.zip mid).map Prod.fst).map (·.1) := by rw [List.zipIdx_map_fst, List.map_map]; rfl
    _ = l.map (·.1) := by rw [List.map_fst_zip (by omega)]

theorem zipIdx_fst_inj {x y : (FavoriteLineData × ℤ) × ℕ} (hx : x ∈ l.zipIdx) (hy : y ∈ l.zipIdx)
    (he : x.2 = y.2) : x.1 = y.1 := by
  have hx := List.mk_mem_zipIdx_iff_getElem?.mp hx
  rw [he, List.mk_mem_zipIdx_iff_getElem?.mp hy] at hx
  exact (Option.some.inj hx).symm

theorem live_of_mem_zipIdx (hl : l.map (·.1) = liveWalk v) {x : (FavoriteLineData × ℤ) × ℕ}
    (hx : x ∈ l.zipIdx) : x.1.1 ∈ v ∧ x.1.1.bDelete = false := by
  refine mem_liveWalk ?_
  rw [← hl]
  exact List.mem_map_of_mem (List.mem_of_getElem? (List.mk_mem_zipIdx_iff_getElem?.mp hx))

/-- In the preorder of a tree an id stands at one place. -/
theorem IsTree.zipIdx_inj (hv : IsTree v) (hl : l.map (·.1) = liveWalk v)
    {x y : (FavoriteLineData × ℤ) × ℕ} (hx : x ∈ l.zipIdx) (hy : y ∈ l.zipIdx)
    (he : x.1.1.nId = y.1.1.nId) : x.2 = y.2 := by
  have he := hv.distinct.inj (live_of_mem_zipIdx hl hx).1 (live_of_mem_zipIdx hl hy).1 he
  have hnd : (l.map (·.1)).Nodup := by
    rw [hl]
    exact (Walk.preorder_nodup hv.distinct .root).filter _
  have hx := List.mk_mem_zipIdx_iff_getElem?.mp hx
  have hy := List.mk_mem_zipIdx_iff_getElem?.mp hy
  have hlt : x.2 < (l.map (·.1)).length := by
    simpa using (List.getElem?_eq_some_iff.mp hx).1
  refine (List.getElem?_inj hlt hnd).mp ?_
  rw [List.getElem?_map, List.getElem?_map, hx, hy, Option.map_some, Option.map_some, he]

/-- Copies of the records of a tree, numbered in preorder, correspond to them. -/
theorem corresponds_copies (hv : IsTree v) (hurl : ∀ r ∈ v, r.bDelete = false → r.bFolder = true →
    r.szUrl = []) (hl : l.map (·.1) = liveWalk v)
    (hparent : ∀ x ∈ l.zipIdx, (x.1.1.nPid = 0 ∧ x.1.2 = 0) ∨
      ∃ y ∈ l.zipIdx, y.1.1.nId = x.1.1.nPid ∧ x.1.2 = y.2 + idValueChromeBegin)
    (crc : WStr → ℕ) (hmid : mid.length = l.length) :
    Corresponds (v.filter fun r => !r.bDelete)
      ((l.zip mid).zipIdx.map fun x => copyOf crc x.2 x.1.1 x.1.2) := by
  have hbegin : idValueChromeBegin = 0x9000 := rfl
  refine ⟨(l.zip mid).zipIdx.map fun x => (x.1.1.1, copyOf crc x.2 x.1.1 x.1.2), ?_, ?_, ?_⟩
  · rw [List.map_map]
    exact (map_zip_zipIdx hmid).trans hl ▸ hv.liveWalk_perm
  · rw [List.map_map]
    exact List.Perm.refl _
  · intro x hx
    obtain ⟨x, hx', rfl⟩ := List.mem_map.mp hx
    have hxl := mem_zipIdx_of_zip hx'
    have hxv := live_of_mem_zipIdx hl hxl
    obtain ⟨h₁, h₂, h₃, h₄, _⟩ := copyOf_fields crc x.2 x.1.1 x.1.2 (hurl _ hxv.1 hxv.2)
    refine ⟨h₁, h₂, h₃, ?_, fun y hy => ?_⟩
    · simp only [h₄]
      rcases hparent _ hxl with ⟨h0, h0'⟩ | ⟨y, hy, hid, hpid⟩
      · exact ⟨fun _ => h0', fun _ => h0⟩
      · have hne := hv.distinct.nonzero _ (live_of_mem_zipIdx hl hy).1
        refine ⟨fun h0 => absurd (hid.trans h0) hne, fun h0 => ?_⟩
        simp only [h0] at hpid
        omega
    · obtain ⟨y, hy', rfl⟩ := List.mem_map.mp hy
      have hyl := mem_zipIdx_of_zip hy'
      have hyv := live_of_mem_zipIdx hl hyl
      have hyid := (copyOf_fields crc y.2 y.1.1 y.1.2 (hurl _ hyv.1 hyv.2)).2.2.2.2
      simp only [h₄, hyid]
      rcases hparent _ hxl with ⟨h0, h0'⟩ | ⟨z, hz, hid, hpid⟩
      · have hne := hv.distinct.nonzero _ hyv.1
        refine ⟨fun h => absurd (h.symm.trans h0) hne, fun h => ?_⟩
        change x.1.1.2 = 0 at h0'
        omega
      · change z.1.1.nId = x.1.1.1.nPid at hid
        change x.1.1.2 = z.2 + idValueChromeBegin at hpid
        rw [← hid, hpid]
        constructor
        · intro h
          rw [hv.zipIdx_inj hl hz hyl h]
        · intro h
          have hzy : z.2 = y.2 := by omega
          rw [zipIdx_fst_inj hz hyl hzy]

end Preorder

theorem member_root (md5 : List Item → List Char) (w : Written) : ∃ roots,
    member (w.root md5) Key.roots = some roots ∧ member roots Key.bookmarkBar = some w.bookmark_bar ∧
      member roots Key.other = some w.other ∧ member roots Key.synced = some w.synced :=
  ⟨_, rfl, rfl, rfl, rfl⟩

theorem member_children (a m : List Char) (n : ℕ) (t : WStr) (cs : List Value) :
    member (folderValue a m n t cs) Key.children = some (.array cs) := rfl

/-- Records that come back as they went in. -/
structure RoundTrips (v : List FavoriteLineData) (nIndex : ℕ) : Prop where
  fit : TextsFit v nIndex
  plain : ∀ r ∈ v, r.bDelete = false → PlainRecord r
  named : ∀ r ∈ v, r.bDelete = false → r.bFolder = true → r.szTitle ∉ specialNames
  noUrl : ∀ r ∈ v, r.bDelete = false → r.bFolder = true → r.szUrl = []

/-- Titles and URLs fit a record with room to spare. -/
def ShortTexts (v : List FavoriteLineData) : Prop :=
  ∀ r ∈ v, r.bDelete = false → wcslen r.szTitle < 1023 ∧ wcslen r.szUrl < 1023

/-- The export undoes the import of a tree whose titles and URLs have no quote and no backslash,
    whose folders have no special name and no URL, and whose texts fit. -/
theorem export_undoes_import (hv : IsTree v) (hshort : ShortTexts v) (now : ℕ → ℤ)
    (md5 : List Item → List Char) (crc : WStr → ℕ) (nMaxDepth : ℤ) {nIndex : ℕ}
    (hr : RoundTrips v nIndex) : ExportUndoesImport now md5 crc nMaxDepth nIndex v := by
  obtain ⟨otherId, syncedId, w, hw, hbar, hother, hsynced, _⟩ := hv.importRoots_eq now nMaxDepth hr.fit
  have hexp : ∀ r ∈ liveWalk v, Exportable r := by
    intro r hrw
    obtain ⟨hrv, hlive⟩ := mem_liveWalk hrw
    exact ⟨hr.plain r hrv hlive, hr.named r hrv hlive, (hshort r hrv hlive).1, (hshort r hrv hlive).2⟩
  obtain ⟨roots, hroots, hb, ho, hs⟩ := member_root md5 w
  have hitems := hv.items_forest (nodeId v nIndex)
  -- the count of the file is the number of live records
  have hcount : enumElems ((forest v (nodeId v nIndex)).map
      (build jsonOps fun r id => parse (nodeText r id))) = (liveWalk v).length := by
    rw [forest, enumElems_trees fun r hrw => (hexp r hrw).plain, ← forest, hitems, List.length_map]
  have hfst : (exportedAll 0 0 (forest v (nodeId v nIndex))).map (·.1) = liveWalk v := by
    rw [exportedAll_fst, hitems, List.map_map]
    exact List.map_id _
  have hlen : (exportedAll 0 0 (forest v (nodeId v nIndex))).length = (liveWalk v).length := by
    rw [← hfst, List.length_map]
  refine ⟨w, (liveWalk v).length, hw, ?_, fun ppData hpp => ?_⟩
  · simp only [getFavoriteCount, hroots, hb, ho, hs, hbar, hother, hsynced, member_children,
      Option.bind_eq_bind, Option.bind_some, enumNode, hcount, enumElems]
    rfl
  · refine ⟨_, ?_, corresponds_copies hv hr.noUrl hfst
      (exportedAll_parent (v.length + 1) 0 0 0) crc (hpp.trans hlen.symm)⟩
    have hrun := exportElems_trees crc hexp (nodeId v nIndex) (v.length + 1) 0 0
      ⟨ppData, 0⟩ (by rw [← forest]; simp [hlen, hpp])
    have hput := foldl_putRecord_eq crc (exportedAll 0 0 (forest v (nodeId v nIndex))) [] ppData
      (hpp.trans hlen.symm)
    have hne : isEmpty (w.root md5) = false := rfl
    have hempty : ∀ st : ExportState, exportElems crc 0 st [] = some st := fun st => by rw [exportElems]
    rw [← forest] at hrun
    simp only [exportFavoriteData, hne, hroots, hb, ho, hs, hbar, hother, hsynced,
      Option.bind_eq_bind, Option.bind_some, Bool.false_eq_true, if_false,
      exportFolder_special (plain_int64ToString _) (by decide : Plain Key.bookmarksBar) (by decide),
      exportFolder_special (plain_int64ToString _) (by decide : Plain Key.otherBookmarks) (by decide),
      exportFolder_special (plain_int64ToString _) (by decide : Plain Key.syncedBookmarks) (by decide),
      hrun, hempty]
    exact congrArg some hput

theorem export_undoes_import_bookmarkFirst : IsTree bookmarkFirst ∧ ShortTexts bookmarkFirst ∧
    RoundTrips bookmarkFirst 7 ∧
    ExportUndoesImport (fun _ => 0) (fun _ => []) (fun _ => 0) 5 7 bookmarkFirst := by
  have hshort : ShortTexts bookmarkFirst := by unfold ShortTexts; decide +kernel
  have hr : RoundTrips bookmarkFirst 7 := by
    refine ⟨?_, ?_, by decide, by decide⟩
    · unfold TextsFit; decide +kernel
    · unfold PlainRecord; decide +kernel
  exact ⟨isTree_bookmarkFirst, hshort, hr,
    export_undoes_import isTree_bookmarkFirst hshort (fun _ => 0) (fun _ => []) (fun _ => 0) 5 hr⟩

/-- The node of the title with a quote has no type: nothing is exported. -/
theorem export_quotedTitle : IsTree quotedTitle ∧ ShortTexts quotedTitle ∧
    ¬ ExportUndoesImport (fun _ => 0) (fun _ => []) (fun _ => 0) 0 0 quotedTitle := by
  refine ⟨isTree_single (by decide) rfl rfl, by unfold ShortTexts; decide +kernel, ?_⟩
  rintro ⟨w, count, hw, hcount, hall⟩
  have hrun : (importRoots (fun _ => 0) 0 0 quotedTitle).map (Option.map fun w =>
      (getFavoriteCount (w.root fun _ => []),
        (exportFavoriteData (fun _ => 0) (w.root fun _ => []) [{}]).map (List.map (·.szTitle)))) =
      some (some (some 1, some [[]])) := by decide +kernel
  rw [hw, Option.map_some, Option.map_some, hcount] at hrun
  simp only [Option.some.injEq, Prod.mk.injEq] at hrun
  obtain ⟨out, hout, hc⟩ := hall [{}] hrun.1.symm
  rw [hout, Option.map_some, Option.some.injEq] at hrun
  have htitles := hc.titles
  rw [hrun.2] at htitles
  exact absurd (htitles.mem_iff.mp (List.mem_singleton_self _)) (by decide)

end UrlTraveler.Chrome
