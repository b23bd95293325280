import UrlTraveler.Chrome.Export

/-! The exports of the plug-ins that read a Bookmarks file: Chrome, 360 Extreme and QQ.

    All three number what they write by its position in the array, over a base of their own. They
    differ in the folders they leave out, the roots they read, and the bases:

                      folders    URLs       roots
        Chrome        0x9000     0x9000     bar, other, synced
        360 Extreme   0x7000     0x7000     bar, other, synced
        QQ            0xB000     0x9000     bar

    QQ numbers its URLs over the base of Chrome. `Chrome.exportFolder` is the member of the family
    with Chrome's values. -/

namespace UrlTraveler.Export
open Json Chrome

/-- What tells the plug-ins apart. -/
structure Family where
  specialNames : List WStr
  folderBegin : ℤ
  urlBegin : ℤ
  roots : List (List Char)

def idValue360ExtremeBegin : ℤ := 0x7000
def idValueQQBegin : ℤ := 0xB000

def allRoots : List (List Char) := [Key.bookmarkBar, Key.other, Key.synced]

def chromeFamily : Family := ⟨specialNames, idValueChromeBegin, idValueChromeBegin, allRoots⟩
def extremeFamily : Family :=
  ⟨specialNames, idValue360ExtremeBegin, idValue360ExtremeBegin, allRoots⟩
def qqFamily : Family :=
  ⟨[['收', '藏', '夹']], idValueQQBegin, idValueChromeBegin, [Key.bookmarkBar]⟩

variable (fam : Family) (crc : WStr → ℕ)

/-- What `ExportFolder` writes. -/
def Family.folderRecord (k : ℕ) (nPid : ℤ) (date : List Char) (title : WStr)
    (r : FavoriteLineData) : FavoriteLineData :=
  { Chrome.folderRecord crc k nPid date title r with nId := k + fam.folderBegin }

/-- What `ExportUrl` writes. -/
def Family.urlRecord (k : ℕ) (nPid : ℤ) (date : List Char) (title url : WStr)
    (r : FavoriteLineData) : FavoriteLineData :=
  { Chrome.urlRecord crc k nPid date title url r with nId := k + fam.urlBegin }

/-- `ExportUrl`. -/
def exportUrl (url_obj : Value) (nPid : ℤ) (st : ExportState) : Option ExportState :=
  if isEmpty url_obj then some st
  else (field url_obj Key.type).bind fun type =>
    if type ≠ Key.url then some st
    else if st.ppData.length = st.nRealDataNum then some st
    else do
      let date ← field url_obj Key.dateAdded
      let title ← (field url_obj Key.name).bind wcscpy
      let url ← (field url_obj Key.url).bind wcscpy
      return st.write (fam.urlRecord crc st.nRealDataNum nPid date title url)

/-- The part of `ExportFolder` that writes the folder itself. -/
def exportSelf (folder_obj : Value) (nPid : ℤ) (st : ExportState) : Option ExportState := do
  let date ← field folder_obj Key.dateAdded
  let title ← (field folder_obj Key.name).bind wcscpy
  return st.write (fam.folderRecord crc st.nRealDataNum nPid date title)

mutual
/-- `ExportFolder`; the loop over the children is `exportMembers` and what follows it. -/
def exportFolder (nPid : ℤ) (st : ExportState) : Value → Option ExportState
  | .null => some st
  | .array [] => some st
  | .object members =>
    if members.isEmpty then some st
    else (field (.object members) Key.type).bind fun type =>
      if type ≠ Key.folder then some st
      else (field (.object members) Key.name).bind fun name =>
        if name ∈ fam.specialNames then exportMembers nPid st members
        else if st.nRealDataNum = st.ppData.length then some st
        else (exportSelf fam crc (.object members) nPid st).bind fun st' =>
          exportMembers (st.nRealDataNum + fam.folderBegin) st' members
  | _ => none
termination_by structural folder_obj => folder_obj
def exportMembers (nPid : ℤ) (st : ExportState) : List (List Char × Value) → Option ExportState
  | [] => some st
  | e :: members => if e.1 = Key.children then exportMember nPid st e else exportMembers nPid st members
termination_by structural members => members
def exportMember (nPid : ℤ) (st : ExportState) : List Char × Value → Option ExportState
  | (_, children_nodes) => exportChildren nPid st children_nodes
termination_by structural e => e
def exportChildren (nPid : ℤ) (st : ExportState) : Value → Option ExportState
  | .array elems => exportElems nPid st elems
  | .object (_ :: _) => none
  | _ => some st
termination_by structural children_nodes => children_nodes
def exportElems (nPid : ℤ) (st : ExportState) : List Value → Option ExportState
  | [] => some st
  | x :: xs => ((field x Key.type).bind fun type =>
      if type = Key.url then exportUrl fam crc x nPid st
      else if type = Key.folder then exportFolder nPid st x
      else some st).bind fun st => exportElems nPid st xs
termination_by structural elems => elems
end

/-! ### Chrome is one of them -/

mutual
theorem exportFolder_chrome (nPid : ℤ) (st : ExportState) : ∀ v : Value,
    exportFolder chromeFamily crc nPid st v = Chrome.exportFolder crc nPid st v
  | .null => by rw [exportFolder, Chrome.exportFolder]
  | .bool b => by rw [exportFolder, Chrome.exportFolder] <;> simp
  | .number t => by rw [exportFolder, Chrome.exportFolder] <;> simp
  | .string s => by rw [exportFolder, Chrome.exportFolder] <;> simp
  | .array [] => by rw [exportFolder, Chrome.exportFolder]
  | .array (x :: xs) => by rw [exportFolder, Chrome.exportFolder] <;> simp
  | .object members => by
    rw [exportFolder, Chrome.exportFolder]
    simp only [exportMembers_chrome _ _ members]
    rfl
theorem exportMembers_chrome (nPid : ℤ) (st : ExportState) : ∀ members,
    exportMembers chromeFamily crc nPid st members = Chrome.exportMembers crc nPid st members
  | [] => by rw [exportMembers, Chrome.exportMembers]
  | e :: members => by
    rw [exportMembers, Chrome.exportMembers, exportMember_chrome nPid st e,
      exportMembers_chrome nPid st members]
theorem exportMember_chrome (nPid : ℤ) (st : ExportState) : ∀ e,
    exportMember chromeFamily crc nPid st e = Chrome.exportMember crc nPid st e
  | (_, v) => by rw [exportMember, Chrome.exportMember, exportChildren_chrome nPid st v]
theorem exportChildren_chrome (nPid : ℤ) (st : ExportState) : ∀ v : Value,
    exportChildren chromeFamily crc nPid st v = Chrome.exportChildren crc nPid st v
  | .null => by rw [exportChildren, Chrome.exportChildren] <;> simp
  | .bool b => by rw [exportChildren, Chrome.exportChildren] <;> simp
  | .number t => by rw [exportChildren, Chrome.exportChildren] <;> simp
  | .string s => by rw [exportChildren, Chrome.exportChildren] <;> simp
  | .array elems => by
    rw [exportChildren, Chrome.exportChildren, exportElems_chrome nPid st elems]
  | .object [] => by rw [exportChildren, Chrome.exportChildren] <;> simp
  | .object (e :: es) => by rw [exportChildren, Chrome.exportChildren]
theorem exportElems_chrome (nPid : ℤ) (st : ExportState) : ∀ elems : List Value,
    exportElems chromeFamily crc nPid st elems = Chrome.exportElems crc nPid st elems
  | [] => by rw [exportElems, Chrome.exportElems]
  | x :: xs => by
    rw [exportElems, Chrome.exportElems]
    simp only [exportFolder_chrome nPid st x, exportElems_chrome nPid _ xs]
    rfl
end

/-! ### What is written -/

/-- A record as the data centre makes it. -/
def fresh : FavoriteLineData := {}

/-- Records numbered by position, over one base for folders and one for URLs; every parent is a
    folder among them. -/
structure Numbered (folderBegin urlBegin : ℤ) (rs : List FavoriteLineData) : Prop where
  nId : ∀ (i : ℕ) (r : FavoriteLineData), rs[i]? = some r →
    r.nId = i + (if r.bFolder then folderBegin else urlBegin)
  nPid : ∀ r ∈ rs, r.nPid = 0 ∨ ∃ f ∈ rs, f.bFolder = true ∧ r.nPid = f.nId

/-- A parent that a new record may get. -/
def ParentIn (rs : List FavoriteLineData) (nPid : ℤ) : Prop :=
  nPid = 0 ∨ ∃ f ∈ rs, f.bFolder = true ∧ nPid = f.nId

theorem ParentIn.mono {rs rs' : List FavoriteLineData} {nPid : ℤ} (h : ParentIn rs nPid)
    (hsub : rs <+: rs') : ParentIn rs' nPid :=
  h.imp_right fun ⟨f, hf, hfolder⟩ => ⟨f, hsub.subset hf, hfolder⟩

theorem numbered_nil (folderBegin urlBegin : ℤ) : Numbered folderBegin urlBegin [] where
  nId i r h := by simp at h
  nPid r h := by simp at h

theorem Numbered.concat {folderBegin urlBegin : ℤ} {rs : List FavoriteLineData}
    (h : Numbered folderBegin urlBegin rs) {r : FavoriteLineData}
    (hid : r.nId = rs.length + (if r.bFolder then folderBegin else urlBegin))
    (hpid : ParentIn rs r.nPid) : Numbered folderBegin urlBegin (rs ++ [r]) where
  nId i s hs := by
    rcases lt_or_ge i rs.length with hlt | hge
    · rw [List.getElem?_append_left hlt] at hs
      exact h.nId i s hs
    · rw [List.getElem?_append_right hge, List.getElem?_singleton] at hs
      split at hs
      next hi =>
        cases hs
        rw [hid, show i = rs.length by omega]
      next => cases hs
  nPid s hs := by
    rcases List.mem_append.mp hs with hs | hs
    · exact ParentIn.mono (h.nPid s hs) (List.prefix_append rs [r])
    · rw [List.mem_singleton.mp hs]
      exact hpid.mono (List.prefix_append rs [r])

/-- The array after the records `rs`: they stand first, the rest is as it was made; `kinds` says
    what has been met, folder or URL, and what fits of it has been written. -/
structure Filled (n : ℕ) (kinds : List Bool) (rs : List FavoriteLineData) (st : ExportState) :
    Prop where
  data : st.ppData = rs ++ List.replicate (n - rs.length) fresh
  num : st.nRealDataNum = rs.length
  le : rs.length ≤ n
  kinds : rs.map (·.bFolder) = kinds.take n
  numbered : Numbered fam.folderBegin fam.urlBegin rs

variable {fam} {crc}

theorem Filled.length {n : ℕ} {kinds : List Bool} {rs : List FavoriteLineData} {st : ExportState}
    (h : Filled fam n kinds rs st) : st.ppData.length = n := by
  have := h.le
  simp only [h.data, List.length_append, List.length_replicate]
  omega

/-- A full array stays as it is. -/
theorem Filled.full {n : ℕ} {kinds : List Bool} {rs : List FavoriteLineData} {st : ExportState}
    (h : Filled fam n kinds rs st) (hfull : st.nRealDataNum = st.ppData.length) (ks : List Bool) :
    Filled fam n (kinds ++ ks) rs st := by
  refine { h with kinds := ?_ }
  have hn : n ≤ kinds.length := by
    have hlen := congrArg List.length h.kinds
    rw [List.length_map, List.length_take, ← h.num, hfull, h.length] at hlen
    omega
  rw [h.kinds, List.take_append_of_le_length hn]

theorem modify_at (f : FavoriteLineData → FavoriteLineData) (r : FavoriteLineData)
    (l : List FavoriteLineData) : ∀ rs : List FavoriteLineData,
    (rs ++ r :: l).modify rs.length f = rs ++ f r :: l
  | [] => rfl
  | s :: rs => congrArg (s :: ·) (modify_at f r l rs)

/-- One more record. -/
theorem Filled.write {n : ℕ} {kinds : List Bool} {rs : List FavoriteLineData} {st : ExportState}
    (h : Filled fam n kinds rs st) (hroom : st.nRealDataNum ≠ st.ppData.length)
    {f : FavoriteLineData → FavoriteLineData} {b : Bool} (hb : (f fresh).bFolder = b)
    (hid : (f fresh).nId = rs.length + (if b then fam.folderBegin else fam.urlBegin))
    (hpid : ParentIn rs (f fresh).nPid) :
    Filled fam n (kinds ++ [b]) (rs ++ [f fresh]) (st.write f) := by
  have hlen := h.length
  have hle := h.le
  have hnum := h.num
  have hlt : rs.length < n := by omega
  have hk : kinds.length = rs.length := by
    have := congrArg List.length h.kinds
    rw [List.length_map, List.length_take] at this
    omega
  have hdata : (st.write f).ppData = rs ++ [f fresh] ++ List.replicate (n - (rs.length + 1)) fresh := by
    obtain ⟨m, hm⟩ : ∃ m, n - rs.length = m + 1 := ⟨n - rs.length - 1, by omega⟩
    have hm' : n - (rs.length + 1) = m := by omega
    simp only [ExportState.write, h.data, hnum, hm, hm', List.replicate_succ, modify_at]
    simp
  refine ⟨?_, ?_, ?_, ?_, ?_⟩
  · simpa using hdata
  · simp [ExportState.write, hnum]
  · simpa using hlt
  · rw [List.map_append, h.kinds, List.take_of_length_le (by omega), List.take_of_length_le (by simp; omega)]
    simp [hb]
  · exact h.numbered.concat (by rw [hb]; exact hid) hpid

/-! ### What a file holds -/

variable (fam)

mutual
/-- The folders (`true`) and URLs (`false`) of a folder in preorder, as the export meets them. -/
def kindsFolder : Value → List Bool
  | .object members =>
    if field (.object members) Key.type = some Key.folder then
      if ∃ name ∈ field (.object members) Key.name, name ∈ fam.specialNames then kindsMembers members
      else true :: kindsMembers members
    else []
  | _ => []
termination_by structural folder_obj => folder_obj
def kindsMembers : List (List Char × Value) → List Bool
  | [] => []
  | e :: members => if e.1 = Key.children then kindsMember e else kindsMembers members
termination_by structural members => members
def kindsMember : List Char × Value → List Bool
  | (_, children_nodes) => kindsChildren children_nodes
termination_by structural e => e
def kindsChildren : Value → List Bool
  | .array elems => kindsElems elems
  | _ => []
termination_by structural children_nodes => children_nodes
def kindsElems : List Value → List Bool
  | [] => []
  | x :: xs =>
    (if field x Key.type = some Key.url then [false] else kindsFolder x) ++ kindsElems xs
termination_by structural elems => elems
end

variable {fam}

/-- What a part of the export does to a filled array. -/
def Fills (fam : Family) (ks : List Bool) (run : ℤ → ExportState → Option ExportState) : Prop :=
  ∀ ⦃n : ℕ⦄ ⦃kinds : List Bool⦄ ⦃rs : List FavoriteLineData⦄ ⦃st st' : ExportState⦄ ⦃nPid : ℤ⦄,
    Filled fam n kinds rs st → ParentIn rs nPid → run nPid st = some st' →
    ∃ rs', rs <+: rs' ∧ Filled fam n (kinds ++ ks) rs' st'

theorem fills_nothing : Fills fam [] fun _ st => some st := by
  intro n kinds rs st st' nPid h _ hst
  cases hst
  exact ⟨rs, List.prefix_rfl, by simpa using h⟩

theorem fills_fails {ks : List Bool} : Fills fam ks fun _ _ => none := by
  intro n kinds rs st st' nPid _ _ hst
  cases hst

theorem exportUrl_fills {x : Value} (hx : field x Key.type = some Key.url) :
    Fills fam [false] (exportUrl fam crc x) := by
  intro n kinds rs st st' nPid h hp hrun
  have hne : isEmpty x = false := by
    rcases x with _ | _ | _ | _ | elems | members
    · simp [field, member, asString, Key.url] at hx
    · rfl
    · rfl
    · rfl
    · simp [field, member] at hx
    · rcases members with _ | ⟨e, es⟩
      · simp [field, member, asString, Key.url] at hx
      · rfl
  simp only [exportUrl, hne, Bool.false_eq_true, if_false, hx, Option.bind_some, ne_eq,
    not_true_eq_false] at hrun
  split at hrun
  next hfull =>
    cases hrun
    exact ⟨rs, List.prefix_rfl, h.full hfull.symm _⟩
  next hroom =>
    simp only [Option.bind_eq_bind, Option.bind_eq_some_iff] at hrun
    obtain ⟨date, -, title, -, url, -, hrun⟩ := hrun
    cases hrun
    refine ⟨_, List.prefix_append _ _, h.write (Ne.symm hroom) rfl ?_ hp⟩
    rw [← h.num]
    rfl

/-- The folder itself, and the parent its children get. -/
theorem exportSelf_writes {x : Value} {n : ℕ} {kinds : List Bool} {rs : List FavoriteLineData}
    {st st' : ExportState} {nPid : ℤ} (h : Filled fam n kinds rs st) (hp : ParentIn rs nPid)
    (hroom : st.nRealDataNum ≠ st.ppData.length) (hrun : exportSelf fam crc x nPid st = some st') :
    ∃ r, Filled fam n (kinds ++ [true]) (rs ++ [r]) st' ∧
      ParentIn (rs ++ [r]) (st.nRealDataNum + fam.folderBegin) := by
  simp only [exportSelf, Option.bind_eq_bind, Option.bind_eq_some_iff] at hrun
  obtain ⟨date, -, title, -, hrun⟩ := hrun
  cases hrun
  have hnew := h.write (f := fam.folderRecord crc st.nRealDataNum nPid date title) hroom rfl
    (by rw [← h.num]; rfl) hp
  exact ⟨_, hnew, .inr ⟨_, List.mem_append_right _ (List.mem_singleton_self _), rfl, rfl⟩⟩

/-- Values without a folder hold nothing. -/
theorem kindsFolder_other {x : Value} (h : field x Key.type ≠ some Key.folder) :
    kindsFolder fam x = [] := by
  cases x with
  | object members => rw [kindsFolder, if_neg h]
  | _ => rw [kindsFolder]; simp

mutual
theorem exportFolder_fills : ∀ v : Value,
    Fills fam (kindsFolder fam v) fun nPid st => exportFolder fam crc nPid st v
  | .null => by
    simp only [kindsFolder, exportFolder]
    exact fills_nothing
  | .bool b => by
    simp only [exportFolder]
    exact fills_fails
  | .number t => by
    simp only [exportFolder]
    exact fills_fails
  | .string s => by
    simp only [exportFolder]
    exact fills_fails
  | .array [] => by
    simp only [kindsFolder, exportFolder]
    exact fills_nothing
  | .array (x :: xs) => by
    simp only [exportFolder]
    exact fills_fails
  | .object members => by
    intro n kinds rs st st' nPid h hp hrun
    beta_reduce at hrun
    rw [exportFolder] at hrun
    rw [kindsFolder]
    split at hrun
    next hempty =>
      cases hrun
      have hnil : members = [] := List.isEmpty_iff.mp hempty
      refine ⟨rs, List.prefix_rfl, ?_⟩
      rw [if_neg (by simp [hnil, field, member, asString, Key.folder]), List.append_nil]
      exact h
    next =>
      obtain ⟨type, htype, hrun⟩ := Option.bind_eq_some_iff.mp hrun
      split at hrun
      next hother =>
        cases hrun
        refine ⟨rs, List.prefix_rfl, ?_⟩
        rw [htype, if_neg (by simpa using hother), List.append_nil]
        exact h
      next hfolder =>
        obtain ⟨name, hname, hrun⟩ := Option.bind_eq_some_iff.mp hrun
        have hfolder : type = Key.folder := by simpa using hfolder
        rw [htype, if_pos (congrArg some hfolder), hname]
        split at hrun
        next hspecial =>
          rw [if_pos ⟨name, rfl, hspecial⟩]
          exact exportMembers_fills members h hp hrun
        next hspecial =>
          rw [if_neg (by simpa using hspecial)]
          split at hrun
          next hfull =>
            cases hrun
            exact ⟨rs, List.prefix_rfl, h.full hfull _⟩
          next hroom =>
            obtain ⟨st₁, hself, hrun⟩ := Option.bind_eq_some_iff.mp hrun
            obtain ⟨r, h₁, hp₁⟩ := exportSelf_writes h hp hroom hself
            obtain ⟨rs', hsub, h'⟩ := exportMembers_fills members h₁ hp₁ hrun
            exact ⟨rs', (List.prefix_append _ _).trans hsub, by simpa using h'⟩
theorem exportMembers_fills : ∀ members : List (List Char × Value),
    Fills fam (kindsMembers fam members) fun nPid st => exportMembers fam crc nPid st members
  | [] => by
    simp only [kindsMembers, exportMembers]
    exact fills_nothing
  | e :: members => by
    simp only [kindsMembers, exportMembers]
    split
    · exact exportMember_fills e
    · exact exportMembers_fills members
theorem exportMember_fills : ∀ e : List Char × Value,
    Fills fam (kindsMember fam e) fun nPid st => exportMember fam crc nPid st e
  | (_, v) => by
    simp only [kindsMember, exportMember]
    exact exportChildren_fills v
theorem exportChildren_fills : ∀ v : Value,
    Fills fam (kindsChildren fam v) fun nPid st => exportChildren fam crc nPid st v
  | .null => by
    simp only [kindsChildren, exportChildren]
    exact fills_nothing
  | .bool b => by
    simp only [kindsChildren, exportChildren]
    exact fills_nothing
  | .number t => by
    simp only [kindsChildren, exportChildren]
    exact fills_nothing
  | .string s => by
    simp only [kindsChildren, exportChildren]
    exact fills_nothing
  | .array elems => by
    simp only [kindsChildren, exportChildren]
    exact exportElems_fills elems
  | .object [] => by
    simp only [kindsChildren, exportChildren]
    exact fills_nothing
  | .object (e :: es) => by
    simp only [exportChildren]
    exact fills_fails
theorem exportElems_fills : ∀ elems : List Value,
    Fills fam (kindsElems fam elems) fun nPid st => exportElems fam crc nPid st elems
  | [] => by
    simp only [kindsElems, exportElems]
    exact fills_nothing
  | x :: xs => by
    intro n kinds rs st st' nPid h hp hrun
    beta_reduce at hrun
    rw [exportElems] at hrun
    rw [kindsElems, ← List.append_assoc]
    obtain ⟨st₁, hfirst, hrun⟩ := Option.bind_eq_some_iff.mp hrun
    obtain ⟨type, htype, hfirst⟩ := Option.bind_eq_some_iff.mp hfirst
    have hstep : ∃ rs₁, rs <+: rs₁ ∧ Filled fam n (kinds ++
        if field x Key.type = some Key.url then [false] else kindsFolder fam x) rs₁ st₁ := by
      split at hfirst
      next hurl =>
        rw [if_pos (htype.trans (congrArg some hurl))]
        exact exportUrl_fills (htype.trans (congrArg some hurl)) h hp hfirst
      next hurl =>
        rw [if_neg (by rw [htype]; simpa using hurl)]
        split at hfirst
        next => exact exportFolder_fills x h hp hfirst
        next hfolder =>
          cases hfirst
          refine ⟨rs, List.prefix_rfl, ?_⟩
          rw [kindsFolder_other (by rw [htype]; simpa using hfolder), List.append_nil]
          exact h
    obtain ⟨rs₁, hsub, h₁⟩ := hstep
    obtain ⟨rs₂, hsub₂, h₂⟩ := exportElems_fills xs h₁ (hp.mono hsub) hrun
    exact ⟨rs₂, hsub.trans hsub₂, h₂⟩
end

/-! ### The file -/

variable (fam) (crc)

/-- `ExportFolder` on one root after the other. -/
def exportRoots (roots : Value) : ExportState → List (List Char) → Option ExportState
  | st, [] => some st
  | st, key :: keys => ((member roots key).bind (exportFolder fam crc 0 st)).bind fun st =>
    exportRoots roots st keys

/-- `ExportFavoriteData` on the value that was read. -/
def exportFile (chrome_bookmarks : Value) (ppData : List FavoriteLineData) : Option ExportState :=
  if isEmpty chrome_bookmarks then some ⟨ppData, 0⟩
  else (member chrome_bookmarks Key.roots).bind fun roots =>
    exportRoots fam crc roots ⟨ppData, 0⟩ fam.roots

theorem exportFile_chrome (chrome_bookmarks : Value) (ppData : List FavoriteLineData) :
    (exportFile chromeFamily crc chrome_bookmarks ppData).map (·.ppData) =
      Chrome.exportFavoriteData crc chrome_bookmarks ppData := by
  have hfolder : ∀ nPid st, exportFolder chromeFamily crc nPid st = Chrome.exportFolder crc nPid st :=
    fun nPid st => funext (exportFolder_chrome crc nPid st)
  rw [exportFile, Chrome.exportFavoriteData]
  split
  · rfl
  · simp only [chromeFamily, allRoots] at hfolder ⊢
    simp only [exportRoots, hfolder, Option.map_bind, Option.bind_eq_bind, Option.bind_assoc,
      Option.pure_def, Function.comp_def, Option.map_some]

/-- The folders and URLs of a file, in the order of the export. -/
def kindsFile (chrome_bookmarks : Value) : List Bool :=
  if isEmpty chrome_bookmarks then []
  else (member chrome_bookmarks Key.roots).elim [] fun roots =>
    fam.roots.flatMap fun key => (member roots key).elim [] (kindsFolder fam)

variable {fam} {crc}

theorem exportRoots_fills (roots : Value) {n : ℕ} : ∀ (keys : List (List Char)) {kinds : List Bool}
    {rs : List FavoriteLineData} {st st' : ExportState}, Filled fam n kinds rs st →
    exportRoots fam crc roots st keys = some st' → ∃ rs', Filled fam n (kinds ++
      keys.flatMap fun key => (member roots key).elim [] (kindsFolder fam)) rs' st'
  | [], kinds, rs, st, st', h, hrun => by
    cases hrun
    exact ⟨rs, by simpa using h⟩
  | key :: keys, kinds, rs, st, st', h, hrun => by
    obtain ⟨st₁, hfirst, hrun⟩ := Option.bind_eq_some_iff.mp hrun
    obtain ⟨v, hv, hfirst⟩ := Option.bind_eq_some_iff.mp hfirst
    obtain ⟨rs₁, -, h₁⟩ := exportFolder_fills v h (.inl rfl) hfirst
    rw [List.flatMap_cons, hv, ← List.append_assoc]
    exact exportRoots_fills roots keys h₁ hrun

/-- The records of a file: numbered by position, as many as fit. -/
theorem exportFile_fills {chrome_bookmarks : Value} {n : ℕ} {st : ExportState}
    (h : exportFile fam crc chrome_bookmarks (List.replicate n fresh) = some st) :
    ∃ rs, Filled fam n (kindsFile fam chrome_bookmarks) rs st := by
  have hstart : Filled fam n [] [] ⟨List.replicate n fresh, 0⟩ :=
    ⟨by simp, rfl, Nat.zero_le n, by simp, numbered_nil _ _⟩
  rw [exportFile] at h
  rw [kindsFile]
  split at h
  next hempty =>
    cases h
    rw [if_pos hempty]
    exact ⟨[], hstart⟩
  next hempty =>
    obtain ⟨roots, hroots, h⟩ := Option.bind_eq_some_iff.mp h
    rw [if_neg hempty, hroots]
    exact exportRoots_fills roots fam.roots hstart h

end UrlTraveler.Export
