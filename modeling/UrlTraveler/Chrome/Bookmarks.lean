import UrlTraveler.Chrome.Checksum

/-! `ImportFavoriteData` and the Bookmarks file.

        no records                                    ERROR_INVALID_PARAM
        remove the old file; it is still there        ERROR_CLEAR_FAVORITE_DATA
        build the tree; not exactly one array left    ERROR_INTERNAL_ERROR
        write the new file                            ERROR_OK

    The old file is gone before the tree is built. An array is left for every parent id at the top:

        [A (0), b (A)]                   {0}
        [A (0), b (A), c (0)], A deleted {A, 0}
        [A (0)], A deleted               {}  -/

namespace UrlTraveler.Chrome
open Json Forest Walk Maps

/-! ### Files -/

abbrev Bytes := List (BitVec 8)

/-- The file system: the contents of the files that are there. -/
abbrev Files := WStr → Option Bytes

/-- `::DeleteFile`; `ok` says whether the system lets the file go. -/
def deleteFile (ok : Bool) (path : WStr) (fs : Files) : Bool × Files :=
  if ok && (fs path).isSome then (true, Function.update fs path none) else (false, fs)

/-- `MoveFileEx` with `MOVEFILE_REPLACE_EXISTING`. -/
def moveFile (ok : Bool) (path new : WStr) (fs : Files) : Files :=
  if ok && (fs path).isSome then Function.update (Function.update fs path none) new (fs path) else fs

/-- What `CDeleteFileBySection` writes over a file: its first sector, `pData[i] ^= 0x23`. -/
def scramble (c : Bytes) : Bytes := c.mapIdx fun i b => if i < 512 then b ^^^ 0x23 else b

/-- `CDeleteFileBySection::DeleteFile`: `read` says whether the sector is found and read, `write`
    whether it is written, which nobody asks. On a volume that is neither NTFS nor FAT32 nothing is
    done, and the answer is yes. -/
def deleteBySection (otherVolume read write : Bool) (path : WStr) (fs : Files) : Bool × Files :=
  if otherVolume then (true, fs)
  else if read && (fs path).isSome then
    (true, if write then Function.update fs path ((fs path).map scramble) else fs)
  else (false, fs)

/-- What the system does on the calls that remove the old file, in the order of the calls, and the
    letters of the new name. -/
structure Disk where
  deleteFileW : Bool
  moved : Bool
  read₁ : Bool
  write₁ : Bool
  delete₁ : Bool
  read₂ : Bool
  write₂ : Bool
  delete₂ : Bool
  otherVolume : Bool
  letters : List Char

/-- `szNewName`, cut off at `MAX_PATH`. -/
def Disk.newName (d : Disk) (path : WStr) : WStr := (path ++ '.' :: d.letters).take 259

/-- `FileHelper::DeleteFile`. -/
def fileHelperDelete (d : Disk) (path : WStr) (fs : Files) : Bool × Files :=
  let fs := moveFile d.moved path (d.newName path) fs
  let fs := (deleteBySection d.otherVolume d.read₁ d.write₁ path fs).2
  let fs := (deleteFile d.delete₁ path fs).2
  let second := deleteBySection d.otherVolume d.read₂ d.write₂ (d.newName path) fs
  (second.1, (deleteFile d.delete₂ (d.newName path) second.2).2)

/-- The part of `ImportFavoriteData` that removes the old file. -/
def removeOld (d : Disk) (pszPath strTmpPath : WStr) (fs : Files) : Bool × Files :=
  if (fs strTmpPath).isNone then (true, fs)
  else
    let first := deleteFile d.deleteFileW pszPath fs
    if first.1 then first else fileHelperDelete d pszPath first.2

/-! ### The import -/

inductive ImportResult where
  | ok
  | invalidParam
  | clearFavoriteData
  | internalError
  deriving DecidableEq

/-- `ImportFavoriteData`; `none` is the end of the program. `write` is the JSON writer. -/
def importFavoriteData (d : Disk) (write : Written → Bytes) (pszPath strTmpPath : WStr)
    (now : ℕ → ℤ) (nMaxDepth : ℤ) (nIndex : ℕ) (v : List FavoriteLineData) (fs : Files) :
    Option (ImportResult × Files) :=
  if v = [] then some (.invalidParam, fs)
  else
    let removed := removeOld d pszPath strTmpPath fs
    if !removed.1 then some (.clearFavoriteData, removed.2)
    else (importRoots now nMaxDepth nIndex v).map fun
      | none => (.internalError, removed.2)
      | some w => (.ok, Function.update removed.2 strTmpPath (some (write w)))

/-- A failed import leaves the file at `pszPath` as it was. -/
def KeepsBookmarks (d : Disk) (write : Written → Bytes) (pszPath strTmpPath : WStr)
    (now : ℕ → ℤ) (nMaxDepth : ℤ) (nIndex : ℕ) (v : List FavoriteLineData) (fs : Files) : Prop :=
  ∀ code fs', importFavoriteData d write pszPath strTmpPath now nMaxDepth nIndex v fs =
    some (code, fs') → code ≠ .ok → fs' pszPath = fs pszPath

/-! ### What becomes of the old file -/

theorem deleteFile_at (ok : Bool) (path : WStr) (fs : Files) (q : WStr) :
    (deleteFile ok path fs).2 q = if q = path ∧ ok = true then none else fs q := by
  rw [deleteFile]
  by_cases hq : q = path
  · subst hq
    cases hc : fs q <;> cases ok <;> simp [hc]
  · split <;> simp [hq]

theorem moveFile_at (ok : Bool) (path new : WStr) {fs : Files} (hfs : (fs path).isSome) (q : WStr) :
    moveFile ok path new fs q =
      if ok then (if q = new then fs path else if q = path then none else fs q) else fs q := by
  rw [moveFile, hfs, Bool.and_true]
  split
  · rw [Function.update_apply, Function.update_apply]
  · rfl

theorem deleteBySection_at (otherVolume read write : Bool) (path : WStr) (fs : Files) (q : WStr) :
    (deleteBySection otherVolume read write path fs).2 q =
      if q = path ∧ (!otherVolume && read && write) = true then (fs q).map scramble else fs q := by
  rw [deleteBySection]
  by_cases hq : q = path
  · subst hq
    cases hc : fs q <;> cases otherVolume <;> cases read <;> cases write <;> simp [hc]
  · cases otherVolume
    · simp only [Bool.false_eq_true, if_false]
      split
      · split <;> simp [hq]
      · simp [hq]
    · simp

theorem deleteBySection_fst (otherVolume read write : Bool) (path : WStr) (fs : Files) :
    (deleteBySection otherVolume read write path fs).1 =
      (otherVolume || read && (fs path).isSome) := by
  rw [deleteBySection]
  split
  · simp [*]
  · split <;> simp [*]

theorem scramble_eq_iff {c : Bytes} : scramble c = c ↔ c = [] := by
  constructor
  · intro h
    cases c with
    | nil => rfl
    | cons b c =>
      have hb : b ^^^ 0x23 = b := by
        rw [scramble, List.mapIdx_cons] at h
        exact (List.cons.inj h).1
      have hne : ∀ b : BitVec 8, b ^^^ 0x23 ≠ b := by decide
      exact absurd hb (hne b)
  · rintro rfl
    rfl

theorem scramble_scramble (data : Bytes) : scramble (scramble data) = data := by
  refine List.ext_getElem? fun i => ?_
  rw [scramble, scramble, List.getElem?_mapIdx, List.getElem?_mapIdx, Option.map_map]
  cases data[i]? with
  | none => rfl
  | some b =>
    rw [Option.map_some, Function.comp_apply]
    split
    · rw [BitVec.xor_assoc, BitVec.xor_self, BitVec.xor_zero]
    · rfl

/-- The first, or the second, call of `CDeleteFileBySection` writes over the file. -/
def Disk.overwrites₁ (d : Disk) : Bool := !d.otherVolume && d.read₁ && d.write₁
def Disk.overwrites₂ (d : Disk) : Bool := !d.otherVolume && d.read₂ && d.write₂

/-- The calls that remove the old file change it, when it is there with the content `c`. -/
def Disk.Loses (d : Disk) (path : WStr) (c : Bytes) : Prop :=
  d.deleteFileW = true ∨ d.delete₁ = true ∨
    if d.newName path = path then d.delete₂ = true ∨ d.overwrites₁ ≠ d.overwrites₂ ∧ c ≠ []
    else d.moved = true ∨ d.overwrites₁ = true ∧ c ≠ []

/-- They report that it is gone. -/
def Disk.Reports (d : Disk) (path : WStr) (fs : Files) : Prop :=
  d.deleteFileW = true ∨ d.otherVolume = true ∨ d.read₂ = true ∧
    if d.newName path = path then d.delete₁ = false
    else d.moved = true ∨ (fs (d.newName path)).isSome

theorem fileHelperDelete_at (d : Disk) {path : WStr} {fs : Files} {c : Bytes}
    (hc : fs path = some c) (hW : d.deleteFileW = false) :
    ((fileHelperDelete d path fs).2 path ≠ some c ↔ d.Loses path c) ∧
      ((fileHelperDelete d path fs).1 = true ↔ d.Reports path fs) := by
  have hsome : (fs path).isSome := by rw [hc]; rfl
  have hmove := moveFile_at d.moved path (d.newName path) hsome
  -- the files after the first three calls
  have hafter : ∀ q, (deleteFile d.delete₁ path (deleteBySection d.otherVolume d.read₁ d.write₁ path
      (moveFile d.moved path (d.newName path) fs)).2).2 q =
      if q = path ∧ d.delete₁ = true then none
      else if q = path ∧ d.overwrites₁ = true then
        (moveFile d.moved path (d.newName path) fs q).map scramble
      else moveFile d.moved path (d.newName path) fs q := by
    intro q
    rw [deleteFile_at, deleteBySection_at]
    rfl
  rw [fileHelperDelete, Disk.Loses, Disk.Reports, hW]
  generalize (deleteFile d.delete₁ path (deleteBySection d.otherVolume d.read₁ d.write₁ path
      (moveFile d.moved path (d.newName path) fs)).2).2 = fs₃ at hafter ⊢
  dsimp only
  rw [deleteFile_at, deleteBySection_at, deleteBySection_fst, ← Disk.overwrites₂]
  by_cases hnew : d.newName path = path
  · have hpath : moveFile d.moved path (d.newName path) fs path = some c := by
      rw [hmove, hnew, hc]
      simp
    have hfs₃ := hafter path
    rw [hpath] at hfs₃
    rw [hnew, hfs₃]
    cases d.delete₁
    · cases h₁ : d.overwrites₁ <;> cases h₂ : d.overwrites₂ <;> cases d.delete₂ <;>
        simp [scramble_scramble, scramble_eq_iff]
    · simp
  · have hfs₃ := hafter path
    have hfs₃' := hafter (d.newName path)
    rw [hmove, if_neg (Ne.symm hnew), if_pos rfl, hc] at hfs₃
    rw [hmove, if_pos rfl, hc] at hfs₃'
    rw [hfs₃, hfs₃']
    cases d.delete₁ <;> cases d.moved <;> cases h₁ : d.overwrites₁ <;>
      simp [hnew, Ne.symm hnew, scramble_eq_iff]

/-- Removing the old file: when it is lost, and when it is reported gone. -/
theorem removeOld_at (d : Disk) {path tmp : WStr} {fs : Files} {c : Bytes} (hc : fs path = some c)
    (htmp : fs tmp ≠ none) : ((removeOld d path tmp fs).2 path ≠ some c ↔ d.Loses path c) ∧
      ((removeOld d path tmp fs).1 = true ↔ d.Reports path fs) := by
  have hsome : (fs tmp).isNone = false := by
    simpa [Option.isNone_eq_false_iff, Option.isSome_iff_ne_none] using htmp
  rw [removeOld, hsome]
  cases hW : d.deleteFileW with
  | true => simp [deleteFile, hc, Disk.Loses, Disk.Reports, hW]
  | false => simpa [deleteFile] using fileHelperDelete_at d hc hW

/-! ### When an array is left over -/

variable {v : List FavoriteLineData}

/-- A record that the depth-first walk comes to: folders lead from it to the top. -/
def Reached (v : List FavoriteLineData) (r : FavoriteLineData) : Prop :=
  ∃ q, PathOf (folders v) r.nPid q

/-- A parent id under which an array is left: that of a live record that is reached, and of no live
    folder. -/
def RootPid (v : List FavoriteLineData) (p : ℤ) : Prop :=
  (∃ r ∈ v, r.bDelete = false ∧ r.nPid = p ∧ Reached v r) ∧
    ∀ f ∈ v, f.bDelete = false → f.bFolder = true → f.nId ≠ p

/-- The texts of the nodes that are made fit their buffers. -/
def NodesFit (v : List FavoriteLineData) (nIndex : ℕ) : Prop :=
  ∀ r ∈ v, r.bDelete = false → Reached v r → wcslen (nodeText r (nodeId v nIndex r.nId)) < 2047

theorem mem_liveAt_iff (hv : Distinct links v) {r : FavoriteLineData} :
    (∃ e ∈ liveAt v, e.1 = r) ↔ r ∈ v ∧ r.bDelete = false ∧ Reached v r := by
  constructor
  · rintro ⟨e, he, rfl⟩
    obtain ⟨hw, hlive, _⟩ := mem_liveAt he
    obtain ⟨hev, q, hq⟩ := mem_walk hw
    exact ⟨hev, hlive, q, hq⟩
  · rintro ⟨hr, hlive, q, hq⟩
    have hw : r ∈ walk v :=
      preorder_complete hv .root hr hq (List.nil_suffix) (by simp)
    have hmem : r ∈ (liveAt v).map (·.1) := by
      rw [liveAt_map_fst]
      exact List.mem_filter.mpr ⟨hw, by simp [hlive]⟩
    exact List.mem_map.mp hmem

/-- The folder a reached record is in is reached. -/
theorem Reached.folder (hv : Distinct links v) {r f : FavoriteLineData} (hr : Reached v r)
    (hf : f ∈ v) (hid : f.nId = r.nPid) : Reached v f := by
  obtain ⟨q, hq⟩ := hr
  rw [← hid] at hq
  obtain ⟨q', _, hq'⟩ := path_key hv hf hq
  exact ⟨q', hq'⟩

theorem rootPid_iff (hv : Distinct links v) {dep : FavoriteLineData → ℕ}
    (hP : Plan (sortedData v) (liveAt v) dep) {p : ℤ} :
    RootPid v p ↔ ∃ e ∈ liveAt v, dep e.1 = 0 ∧ e.1.nPid = p := by
  constructor
  · rintro ⟨⟨r, hr, hlive, rfl, hreach⟩, hnone⟩
    obtain ⟨e, he, rfl⟩ := (mem_liveAt_iff hv).mpr ⟨hr, hlive, hreach⟩
    refine ⟨e, he, ?_, rfl⟩
    by_contra hpos
    obtain ⟨f, hf, hfold, hid⟩ := hP.top e he (Nat.pos_of_ne_zero hpos)
    obtain ⟨hfv, hflive, _⟩ := (mem_liveAt_iff hv).mp ⟨f, hf, rfl⟩
    exact hnone f.1 hfv hflive hfold hid
  · rintro ⟨e, he, hd, rfl⟩
    obtain ⟨hev, hlive, hreach⟩ := (mem_liveAt_iff hv).mp ⟨e, he, rfl⟩
    refine ⟨⟨e.1, hev, hlive, rfl, hreach⟩, fun f hf hflive hfold hid => ?_⟩
    obtain ⟨f, hf', rfl⟩ := (mem_liveAt_iff hv).mpr ⟨hf, hflive, hreach.folder hv hf hid⟩
    have := hP.up e he f hf' hfold hid
    omega

theorem importRoots_none {now : ℕ → ℤ} {nMaxDepth : ℤ} {nIndex : ℕ} :
    importRoots now nMaxDepth nIndex v = some none ↔
      ∃ built, buildTree jsonOps nMaxDepth nIndex v = some built ∧
        ¬ ∃ p nodes, built.1.m_mapPidNodeInfo = [(p, nodes)] := by
  have hbar := makeSpecial_eq (now 0) Key.bookmarksBar (by decide) (by decide)
    (nextIndex_lt nIndex)
  simp only [importRoots, hbar, Option.bind_eq_bind, Option.bind_some]
  cases buildTree jsonOps nMaxDepth nIndex v with
  | none => simp
  | some built =>
    rw [Option.bind_some]
    split
    next p nodes hm =>
      have hother := makeSpecial_eq (now 1) Key.otherBookmarks (by decide) (by decide)
        (nextIndex_lt built.1.m_nIndex)
      have hsynced := makeSpecial_eq (now 2) Key.syncedBookmarks (by decide) (by decide)
        (nextIndex_lt (nextIndex built.1.m_nIndex))
      simp [hother, hsynced, hm]
    next hm => simpa using hm

/-- The tree is built if its texts fit, and then one array is left if and only if one parent id is
    at the top. -/
theorem importRoots_none_iff (hv : Distinct links v) (now : ℕ → ℤ) (nMaxDepth : ℤ) (nIndex : ℕ) :
    importRoots now nMaxDepth nIndex v = some none ↔ NodesFit v nIndex ∧ ¬ ∃! p, RootPid v p := by
  have hP := (depthLoop_plan (ν := Value) hv nMaxDepth nIndex).1
  rw [importRoots_none]
  have hfit : (∃ built, buildTree jsonOps nMaxDepth nIndex v = some built) → NodesFit v nIndex := by
    rintro ⟨built, hb⟩ r hr hlive hreach
    obtain ⟨e, he, rfl⟩ := (mem_liveAt_iff hv).mpr ⟨hr, hlive, hreach⟩
    have hsome := buildTree_inv hv hb e he
    rw [make_eq, readNode] at hsome
    by_contra hlong
    rw [if_neg hlong] at hsome
    cases hsome
  have hroots : NodesFit v nIndex → ∃ built, buildTree jsonOps nMaxDepth nIndex v = some built ∧
      ((∃ p nodes, built.1.m_mapPidNodeInfo = [(p, nodes)]) ↔ ∃! p, RootPid v p) := by
    intro hfit
    obtain ⟨N, s, _, hs, hfiled, _⟩ := buildTree_spec jsonOps hv nMaxDepth nIndex
      (fun r id => parse (nodeText r id)) fun e he => by
        obtain ⟨hev, hlive, hreach⟩ := (mem_liveAt_iff hv).mp ⟨e, he, rfl⟩
        rw [make_eq, readNode_some (hfit e.1 hev hlive hreach)]
    refine ⟨_, hs, hfiled.keys.single_iff.trans ?_⟩
    have hkey : ∀ p, (s.m_mapPidNodeInfo.lookup p).isSome ↔ RootPid v p := by
      intro p
      rw [rootPid_iff hv hP]
      constructor
      · intro hp
        by_contra hnone
        rw [hfiled.none p fun e he hd hpid => hnone ⟨e, he, hd, hpid⟩] at hp
        cases hp
      · rintro ⟨e, he, hd, rfl⟩
        rw [hfiled.here e he hd]
        rfl
    simp only [hkey]
  constructor
  · rintro ⟨built, hb, hnot⟩
    have hf := hfit ⟨built, hb⟩
    obtain ⟨built', hb', hiff⟩ := hroots hf
    obtain rfl := Option.some.inj (hb.symm.trans hb')
    exact ⟨hf, fun h => hnot (hiff.mpr h)⟩
  · rintro ⟨hf, hnot⟩
    obtain ⟨built, hb, hiff⟩ := hroots hf
    exact ⟨built, hb, fun h => hnot (hiff.mp h)⟩

/-- A failed import keeps the Bookmarks file if and only if there are no records, or the old file is
    not found or not changed by the calls that should remove it, or it is reported gone and the
    records leave one array, or have a text that ends the program. -/
theorem keepsBookmarks_iff (hv : Distinct links v) (d : Disk) (write : Written → Bytes)
    {pszPath strTmpPath : WStr} (now : ℕ → ℤ) (nMaxDepth : ℤ) (nIndex : ℕ) {fs : Files} {c : Bytes}
    (hc : fs pszPath = some c) :
    KeepsBookmarks d write pszPath strTmpPath now nMaxDepth nIndex v fs ↔
      v = [] ∨ fs strTmpPath = none ∨ ¬ d.Loses pszPath c ∨
        d.Reports pszPath fs ∧ (¬ NodesFit v nIndex ∨ ∃! p, RootPid v p) := by
  rw [KeepsBookmarks, importFavoriteData]
  by_cases hnil : v = []
  · simp [hnil]
  by_cases htmp : fs strTmpPath = none
  · have hold : removeOld d pszPath strTmpPath fs = (true, fs) := by rw [removeOld, htmp]; rfl
    simp only [hnil, htmp, hold, if_false, Bool.not_true, Bool.false_eq_true, true_or, or_true, iff_true]
    intro code fs' h hcode
    obtain ⟨w, _, hw⟩ := Option.map_eq_some_iff.mp h
    cases w <;> cases hw
    · rfl
    · exact absurd rfl hcode
  obtain ⟨hlost, hrep⟩ := removeOld_at d hc htmp
  have hnone := importRoots_none_iff hv now nMaxDepth nIndex
  simp only [hnil, htmp, if_false, false_or, ← hlost, ← hrep, hc]
  generalize removeOld d pszPath strTmpPath fs = removed at *
  cases hok : removed.1 with
  | false => simp
  | true =>
    simp only [Bool.not_true, Bool.false_eq_true, if_false, true_and, not_not]
    have hcond : ¬ (NodesFit v nIndex ∧ ¬ ∃! p, RootPid v p) ↔
        ¬ NodesFit v nIndex ∨ ∃! p, RootPid v p := by
      rw [not_and_or, not_not]
    rw [← hcond, ← hnone]
    rcases importRoots now nMaxDepth nIndex v with _ | _ | w
    · simp
    · constructor
      · intro h
        exact .inl (h .internalError removed.2 rfl (by decide))
      · rintro (h | h) code fs' hrun _
        · cases hrun
          exact h
        · exact absurd rfl h
    · refine ⟨fun _ => .inr (by simp), fun _ code fs' hrun hcode => ?_⟩
      cases hrun
      exact absurd rfl hcode

/-- A bookmark at the top and one in a folder that is deleted: two arrays. -/
def belowDeleted : List FavoriteLineData :=
  [{ nId := 1, bFolder := true, bDelete := true },
   { nId := 2, nPid := 1, szTitle := ['a'], szUrl := ['h'] },
   { nId := 3, szTitle := ['b'], szUrl := ['h'] }]

def bookmarksPath : WStr := ['C', ':', 'B']

/-- A disk with an old Bookmarks file of two bytes. -/
def oldBookmarks : Files := fun path => if path = bookmarksPath then some [0x7B, 0x7D] else none

/-- A system that lets every file go. -/
def easyDisk : Disk where
  deleteFileW := true
  moved := true
  read₁ := true
  write₁ := true
  delete₁ := true
  read₂ := true
  write₂ := true
  delete₂ := true
  otherVolume := false
  letters := ['A', 'B', 'C', 'D', 'E']

theorem keepsBookmarks_iff_belowDeleted : Distinct links belowDeleted ∧
    oldBookmarks bookmarksPath = some [0x7B, 0x7D] ∧
    (KeepsBookmarks easyDisk (fun _ => []) bookmarksPath bookmarksPath (fun _ => 0) 0 0 belowDeleted
      oldBookmarks ↔ belowDeleted = [] ∨ oldBookmarks bookmarksPath = none ∨
        ¬ easyDisk.Loses bookmarksPath [0x7B, 0x7D] ∨
        easyDisk.Reports bookmarksPath oldBookmarks ∧
          (¬ NodesFit belowDeleted 0 ∨ ∃! p, RootPid belowDeleted p)) := by
  have hv : Distinct links belowDeleted := ⟨by decide, by decide⟩
  exact ⟨hv, rfl, keepsBookmarks_iff hv easyDisk (fun _ => []) (fun _ => 0) 0 0 rfl⟩

/-- Their import fails after the old file is gone. -/
theorem bookmarks_lost_belowDeleted : oldBookmarks bookmarksPath = some [0x7B, 0x7D] ∧
    ¬ KeepsBookmarks easyDisk (fun _ => []) bookmarksPath bookmarksPath (fun _ => 0) 0 0 belowDeleted
      oldBookmarks := by
  refine ⟨rfl, fun h => ?_⟩
  have hrun : (importFavoriteData easyDisk (fun _ => []) bookmarksPath bookmarksPath (fun _ => 0) 0 0
      belowDeleted oldBookmarks).map (fun out => (out.1, out.2 bookmarksPath)) =
      some (.internalError, none) := by decide +kernel
  obtain ⟨out, hout, heq⟩ := Option.map_eq_some_iff.mp hrun
  obtain ⟨hcode, hfile⟩ := Prod.mk.inj heq
  have hkept := h out.1 out.2 hout (by rw [hcode]; decide)
  rw [hfile] at hkept
  cases hkept

end UrlTraveler.Chrome
