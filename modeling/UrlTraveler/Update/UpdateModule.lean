import UrlTraveler.Favorite
import UrlTraveler.Json.Reader
import UrlTraveler.Schemes.Runs

/-! `UpdateModule`, from the update configuration to the start of the updater.

        configuration ──┬─ forced ─────────────────────────▶ event: downloading window
                        ├─ not forced, package is there ───▶ LaunchUpdateExe
                        └─ not forced, no package yet ─────▶ event: hint window
        hint window ────┬─ update now ─────────────────────▶ event: downloading window
                        └─ update by itself ───────────────▶ event: silent update
        downloading ────┬─ package is there ───────────────▶ LaunchUpdateExe
        window          └─ no package yet ─────────────────▶ download, window opened
        silent update ──── no package yet ─────────────────▶ download
        file saved ─────── window open ────────────────────▶ LaunchUpdateExe

    "The package is there" is a file with the right MD5 under `m_strUpdateFileName`, the name the
    configuration gives; downloads go to `strTempSavePath`, the name in the URL. Version numbers and
    the list of changes are only shown and are left out; a value that cannot be read as text ends the
    program. The file system maps files to contents, and which paths name the same file is a
    parameter. -/

namespace UrlTraveler.Update
open Json Runs

/-- What the module takes from the machine: the directory of updates, which file a path names, the
    MD5 of a content as text, and the two conversions of the system's code page. -/
structure Machine (File Content : Type) where
  updatePath : WStr
  fileAt : WStr → File
  md5 : Content → WStr
  unicodeToANSI : WStr → List Char
  ansiToUnicode : List Char → WStr

/-! ### The configuration -/

/-- `UPDATEFILEINFO`, as far as the handlers use it. -/
structure UpdateFileInfo where
  strFileName : WStr
  strMd5 : WStr
  strDownloadUrl : WStr
  bForceUpdate : Bool
  strTempSavePath : WStr
  deriving DecidableEq

def MAX_UPDATE_DETAIL_NUM : ℕ := 5

/-- The loop over "updateinfo"; only arrays can be indexed. -/
def readDetails : Value → Option (List (List Char))
  | .array elems => (elems.take MAX_UPDATE_DETAIL_NUM).mapM fun detail => field detail "item".toList
  | .object (_ :: _) => none
  | _ => some []

def isNull : Value → Bool
  | .null => true
  | _ => false

/-- `FindLastCharOf(L"\\/")`: the offset is 16 bits wide, so the search starts at 0xFFFF at the
    latest. -/
def findLastCharOf (s : WStr) : Option ℕ :=
  let head := s.take 0x10000
  (head.reverse.findIdx? fun ch => ch = '\\' || ch = '/').map fun k => head.length - 1 - k

/-- `Right`, whose arguments are 16 bits wide. -/
def right (s : WStr) (n : ℕ) : WStr :=
  let nLength := n % 0x10000
  (s.drop ((s.length - nLength) % 0x10000)).take nLength

variable {File Content : Type} (machine : Machine File Content)

/-- `ProcessUpdateConfig` up to the paths: nothing when a value throws, and no package when it
    returns early. -/
def readConfig (m_strUpdateXml : WStr) : Option (Option UpdateFileInfo) := do
  let text := machine.unicodeToANSI m_strUpdateXml
  let (root, ok, _) := readValue (2 * text.length + 2) .null text
  if !ok then return none
  let versionNode ← member root "version".toList
  let _ ← field versionNode "high_version".toList
  let detailNode ← member root "updateinfo".toList
  if isNull detailNode then return none
  let _ ← readDetails detailNode
  let updateFileNode ← member root "package".toList
  if isNull updateFileNode then return none
  let strFileName ← field updateFileNode "filename".toList
  let strMd5 ← field updateFileNode "md5".toList
  let downloadurl ← field updateFileNode "downloadurl".toList
  let _ ← field updateFileNode "version".toList
  let _ ← field updateFileNode "type".toList
  let strForceUpdate ← field updateFileNode "forceupdate".toList
  let strUrl := machine.ansiToUnicode downloadurl
  return (findLastCharOf strUrl).map fun nInex =>
    { strFileName := machine.ansiToUnicode strFileName
      strMd5 := machine.ansiToUnicode strMd5
      strDownloadUrl := strUrl
      bForceUpdate := strForceUpdate ≠ ['0']
      strTempSavePath := machine.updatePath ++ '\\' :: right strUrl (strUrl.length - nInex - 1) }

/-! ### Events and state -/

/-- `STRNCPY` into an array of `n` characters. -/
def strncpy (n : ℕ) (s : WStr) : WStr := s.take (n - 1)

def MAX_PATH : ℕ := 260
def MAX_MD5_LEN : ℕ := 33

/-- What the events of the module carry. -/
structure Package where
  szDownloadUrl : WStr
  szSavePath : WStr
  szMD5 : WStr
  deriving DecidableEq

def packageOf (updateInfo : UpdateFileInfo) : Package where
  szDownloadUrl := strncpy MAX_PATH updateInfo.strDownloadUrl
  szSavePath := strncpy MAX_PATH updateInfo.strTempSavePath
  szMD5 := strncpy MAX_MD5_LEN updateInfo.strMd5

inductive Event where
  | showUpdateInfo (package : Package)
  | showUpdateDownloading (bForce : Bool) (package : Package)
  | silenceUpdate (package : Package)
  | setAutoUpdate
  | mainLoopExit
  deriving DecidableEq

/-- What held when `LaunchUpdateExe` was called: the last processed configuration and the files. -/
structure Launch (File Content : Type) where
  config : Option UpdateFileInfo
  files : File → Option Content

/-- The module, the files, and what it has asked of others. `m_pUpdateWnd` is no window object, or
    one whose window is open or not; `config` is the last configuration that got as far as a save
    path. -/
structure State (File Content : Type) where
  m_strUpdateFileName : WStr := []
  m_bDownloading : Bool := false
  m_pUpdateWnd : Option Bool := none
  hintWnd : Option Package := none
  files : File → Option Content
  config : Option UpdateFileInfo := none
  pushed : List Event := []
  requests : List (WStr × WStr) := []
  launches : List (Launch File Content) := []

namespace State

def pushEvent (s : State File Content) (e : Event) : State File Content :=
  { s with pushed := s.pushed ++ [e] }

/-- The download service of the web module. -/
def download (s : State File Content) (p : Package) : State File Content :=
  { s with requests := s.requests ++ [(p.szDownloadUrl, p.szSavePath)] }

def launchUpdateExe (s : State File Content) : State File Content :=
  { s.pushEvent .mainLoopExit with launches := s.launches ++ [⟨s.config, s.files⟩] }

end State

/-! ### Handlers -/

def toLower (s : WStr) : WStr := s.map Char.toLower

/-- The file exists and its MD5 is the given one, ignoring case. -/
def packageReady (files : File → Option Content) (path strMd5 : WStr) : Bool :=
  match files (machine.fileAt path) with
  | none => false
  | some content => toLower strMd5 = toLower (machine.md5 content)

/-- `DataCenter_GetIsAutoUpdateService` is called on this module, whose service map is empty: the
    answer keeps the default of its constructor. -/
def isAutoUpdate : Bool := false

/-- `ProcessUpdateConfig` from the paths on. -/
def processPackage (s : State File Content) (updateInfo : UpdateFileInfo) : State File Content :=
  let m_strUpdateFileName := machine.updatePath ++ updateInfo.strFileName
  let s := { s with m_strUpdateFileName, config := some updateInfo }
  if updateInfo.bForceUpdate then s.pushEvent (.showUpdateDownloading true (packageOf updateInfo))
  else if packageReady machine s.files m_strUpdateFileName updateInfo.strMd5 then s.launchUpdateExe
  else if !isAutoUpdate then s.pushEvent (.showUpdateInfo (packageOf updateInfo))
  else { s.download (packageOf updateInfo) with m_bDownloading := false }

def processUpdateConfig (s : State File Content) (m_strUpdateXml : WStr) :
    Option (State File Content) :=
  (readConfig machine m_strUpdateXml).map fun read => read.elim s (processPackage machine s)

def onEvent_ShowUpdateDownloadingWnd (s : State File Content) (e : Package) : State File Content :=
  if packageReady machine s.files s.m_strUpdateFileName e.szMD5 then s.launchUpdateExe
  else { s.download e with m_bDownloading := true, m_pUpdateWnd := some true }

def onEvent_BeginToSilenceUpdate (s : State File Content) (e : Package) : State File Content :=
  if packageReady machine s.files s.m_strUpdateFileName e.szMD5 then s else s.download e

/-- `param0` of the answer of the web module. -/
inductive WebRet where
  | success
  | writeFileError
  | timeout
  | other
  deriving DecidableEq

/-- After a failure the window is closed through its pointer; `Close` only posts the message. -/
def onEvent_UpdateFileDownloaded (s : State File Content) (param0 : WebRet) :
    Option (State File Content) :=
  if isAutoUpdate then some s
  else
    let s := { s with m_bDownloading := false }
    match param0, s.m_pUpdateWnd with
    | .success, some true => some s.launchUpdateExe
    | .success, _ => some s
    | _, none => none
    | _, some _ => some s

variable {machine}

theorem packageReady_iff {files : File → Option Content} {path strMd5 : WStr} :
    packageReady machine files path strMd5 = true ↔
      ∃ content ∈ files (machine.fileAt path), toLower strMd5 = toLower (machine.md5 content) := by
  rw [packageReady]
  cases files (machine.fileAt path) <;> simp

theorem processPackage_launches (s : State File Content) (updateInfo : UpdateFileInfo) :
    (processPackage machine s updateInfo).launches = s.launches ∨
      (updateInfo.bForceUpdate = false ∧ packageReady machine s.files
          (machine.updatePath ++ updateInfo.strFileName) updateInfo.strMd5 = true ∧
        (processPackage machine s updateInfo).launches =
          s.launches ++ [⟨some updateInfo, s.files⟩]) := by
  simp only [processPackage]
  split_ifs with hforce hready hauto
  · exact .inl rfl
  · exact .inr ⟨by simpa using hforce, hready, rfl⟩
  · exact .inl rfl
  · exact .inl rfl

theorem updateFileDownloaded_launches {s s' : State File Content} {param0 : WebRet}
    (h : onEvent_UpdateFileDownloaded s param0 = some s') : s'.launches = s.launches ∨
      (param0 = .success ∧ s.m_pUpdateWnd = some true ∧
        s'.launches = s.launches ++ [⟨s.config, s.files⟩]) := by
  have hauto : isAutoUpdate = false := rfl
  simp only [onEvent_UpdateFileDownloaded, hauto, Bool.false_eq_true, if_false] at h
  split at h
  · rename_i hwnd
    cases h
    exact .inr ⟨rfl, hwnd, rfl⟩
  · cases h
    exact .inl rfl
  · cases h
  · cases h
    exact .inl rfl

/-- What happens to the module. A finished download leaves its content under the path, if it has
    written anything; the windows answer to the user and to the window manager. -/
inductive Act (Content : Type) where
  | updateInfoArrive (success : Bool) (szUpdateXml : WStr)
  | showUpdateInfoWnd (e : Package)
  | updateNow
  | autoUpdate
  | showUpdateDownloadingWnd (e : Package)
  | beginToSilenceUpdate (e : Package)
  | updateFileDownloaded (path : WStr) (content : Option Content) (param0 : WebRet)
  | updateWndClosed
  | cycleTrigged

variable (machine) [DecidableEq File]

/-- What the web module leaves on the disk. -/
def saveFile (files : File → Option Content) (path : WStr) (content : Option Content) :
    File → Option Content :=
  content.elim files fun b => Function.update files (machine.fileAt path) (some b)

def step (s : State File Content) : Act Content → Option (State File Content)
  | .updateInfoArrive success szUpdateXml =>
    if success then processUpdateConfig machine s szUpdateXml else some s
  | .showUpdateInfoWnd e => some { s with hintWnd := some e }
  | .updateNow => some (s.hintWnd.elim s fun p => s.pushEvent (.showUpdateDownloading false p))
  | .autoUpdate =>
    some (s.hintWnd.elim s fun p => (s.pushEvent .setAutoUpdate).pushEvent (.silenceUpdate p))
  | .showUpdateDownloadingWnd e => some (onEvent_ShowUpdateDownloadingWnd machine s e)
  | .beginToSilenceUpdate e => some (onEvent_BeginToSilenceUpdate machine s e)
  | .updateFileDownloaded path content param0 =>
    onEvent_UpdateFileDownloaded { s with files := saveFile machine s.files path content } param0
  | .updateWndClosed => some { s with m_pUpdateWnd := s.m_pUpdateWnd.map fun _ => false }
  | .cycleTrigged => some s

/-! ### Launches -/

/-- The updater is started on a verified package: the file under the save path of the last
    configuration exists, and its MD5 is the announced one, ignoring case. -/
def Launch.Verified (l : Launch File Content) : Prop :=
  ∃ updateInfo ∈ l.config, ∃ content ∈ l.files (machine.fileAt updateInfo.strTempSavePath),
    toLower (machine.md5 content) = toLower updateInfo.strMd5

instance (l : Launch File Content) : Decidable (l.Verified machine) :=
  inferInstanceAs (Decidable (∃ updateInfo ∈ l.config,
    ∃ content ∈ l.files (machine.fileAt updateInfo.strTempSavePath),
      toLower (machine.md5 content) = toLower updateInfo.strMd5))

/-- The package with which a configuration starts the updater at once. -/
def launchedBy (s : State File Content) (m_strUpdateXml : WStr) : Option UpdateFileInfo :=
  (readConfig machine m_strUpdateXml).join.filter fun updateInfo =>
    !updateInfo.bForceUpdate &&
      packageReady machine s.files (machine.updatePath ++ updateInfo.strFileName) updateInfo.strMd5

/-- Where a step starts the updater, what it looked at is the saved package: the name in the
    configuration and the one in its URL are the same file, the event carries the MD5 of the last
    configuration, and the download that finished has brought the announced content. -/
def Guarded (s : State File Content) : Act Content → Prop
  | .updateInfoArrive success szUpdateXml => success = true →
    ∀ updateInfo ∈ launchedBy machine s szUpdateXml,
      machine.fileAt (machine.updatePath ++ updateInfo.strFileName) =
        machine.fileAt updateInfo.strTempSavePath
  | .showUpdateDownloadingWnd e =>
    packageReady machine s.files s.m_strUpdateFileName e.szMD5 = true →
    ∃ updateInfo ∈ s.config,
      machine.fileAt s.m_strUpdateFileName = machine.fileAt updateInfo.strTempSavePath ∧
      toLower e.szMD5 = toLower updateInfo.strMd5
  | .updateFileDownloaded path content param0 => param0 = .success → s.m_pUpdateWnd = some true →
    ∃ updateInfo ∈ s.config, ∃ b ∈ content,
      machine.fileAt path = machine.fileAt updateInfo.strTempSavePath ∧
      toLower (machine.md5 b) = toLower updateInfo.strMd5
  | _ => True

instance (s : State File Content) : ∀ a, Decidable (Guarded machine s a)
  | .updateInfoArrive success szUpdateXml => inferInstanceAs (Decidable (success = true →
      ∀ updateInfo ∈ launchedBy machine s szUpdateXml,
        machine.fileAt (machine.updatePath ++ updateInfo.strFileName) =
          machine.fileAt updateInfo.strTempSavePath))
  | .showUpdateDownloadingWnd e => inferInstanceAs (Decidable (
      packageReady machine s.files s.m_strUpdateFileName e.szMD5 = true → ∃ updateInfo ∈ s.config,
        machine.fileAt s.m_strUpdateFileName = machine.fileAt updateInfo.strTempSavePath ∧
        toLower e.szMD5 = toLower updateInfo.strMd5))
  | .updateFileDownloaded path content param0 => inferInstanceAs (Decidable (param0 = .success →
      s.m_pUpdateWnd = some true → ∃ updateInfo ∈ s.config, ∃ b ∈ content,
        machine.fileAt path = machine.fileAt updateInfo.strTempSavePath ∧
        toLower (machine.md5 b) = toLower updateInfo.strMd5))
  | .showUpdateInfoWnd _ | .updateNow | .autoUpdate | .beginToSilenceUpdate _ | .updateWndClosed
  | .cycleTrigged => .isTrue trivial

/-- The three ways to start the updater, with the state in which it is called. -/
inductive Launches (s : State File Content) : Act Content → Launch File Content → Prop
  | config {szUpdateXml : WStr} {updateInfo : UpdateFileInfo} :
    updateInfo ∈ launchedBy machine s szUpdateXml →
    Launches s (.updateInfoArrive true szUpdateXml) ⟨some updateInfo, s.files⟩
  | downloading {e : Package} : packageReady machine s.files s.m_strUpdateFileName e.szMD5 = true →
    Launches s (.showUpdateDownloadingWnd e) ⟨s.config, s.files⟩
  | downloaded {path : WStr} {content : Option Content} : s.m_pUpdateWnd = some true →
    Launches s (.updateFileDownloaded path content .success)
      ⟨s.config, saveFile machine s.files path content⟩

variable {machine}

theorem saveFile_at {files : File → Option Content} {path path' : WStr} {b : Content}
    (h : machine.fileAt path = machine.fileAt path') :
    saveFile machine files path (some b) (machine.fileAt path') = some b := by
  rw [← h]
  exact Function.update_self ..

/-- A step starts the updater at most once, and in one of the three ways. -/
theorem step_launches {s s' : State File Content} {a : Act Content} (h : step machine s a = some s') :
    s'.launches = s.launches ∨ ∃ l, s'.launches = s.launches ++ [l] ∧ Launches machine s a l := by
  cases a with
  | updateInfoArrive success xml =>
    cases success with
    | false => exact .inl (by cases h; rfl)
    | true =>
      obtain ⟨read, hread, rfl⟩ := Option.map_eq_some_iff.mp h
      cases read with
      | none => exact .inl rfl
      | some updateInfo =>
        rcases processPackage_launches s updateInfo with hsame | ⟨hforce, hready, hlaunch⟩
        · exact .inl hsame
        · refine .inr ⟨_, hlaunch, .config ?_⟩
          rw [Option.mem_def, launchedBy, hread]
          simp [hforce, hready]
  | showUpdateDownloadingWnd e =>
    cases h
    rw [onEvent_ShowUpdateDownloadingWnd]
    split_ifs with hready
    · exact .inr ⟨_, rfl, .downloading hready⟩
    · exact .inl rfl
  | updateFileDownloaded path content param0 =>
    rcases updateFileDownloaded_launches h with hsame | ⟨rfl, hwnd, hlaunch⟩
    · exact .inl hsame
    · exact .inr ⟨_, hlaunch, .downloaded hwnd⟩
  | updateNow =>
    cases h
    cases hh : s.hintWnd <;> exact .inl (by simp [State.pushEvent])
  | autoUpdate =>
    cases h
    cases hh : s.hintWnd <;> exact .inl (by simp [State.pushEvent])
  | beginToSilenceUpdate e =>
    cases h
    rw [onEvent_BeginToSilenceUpdate]
    split_ifs <;> exact .inl rfl
  | showUpdateInfoWnd e => cases h; exact .inl rfl
  | updateWndClosed => cases h; exact .inl rfl
  | cycleTrigged => cases h; exact .inl rfl

/-- A guarded launch is on a verified package. -/
theorem Launches.verified {s : State File Content} {a : Act Content} {l : Launch File Content}
    (h : Launches machine s a l) (hg : Guarded machine s a) : l.Verified machine := by
  cases h with
  | config hmem =>
    have hsame := hg rfl _ hmem
    simp only [launchedBy, Option.mem_filter_iff, Bool.and_eq_true] at hmem
    obtain ⟨content, hfile, hmd5⟩ := packageReady_iff.mp hmem.2.2
    exact ⟨_, rfl, content, hsame ▸ hfile, hmd5.symm⟩
  | downloading hready =>
    obtain ⟨updateInfo, hconfig, hsame, hevent⟩ := hg hready
    obtain ⟨content, hfile, hmd5⟩ := packageReady_iff.mp hready
    exact ⟨updateInfo, hconfig, content, hsame ▸ hfile, hmd5.symm.trans hevent⟩
  | downloaded hwnd =>
    obtain ⟨updateInfo, hconfig, b, rfl, hsame, hmd5⟩ := hg rfl hwnd
    exact ⟨updateInfo, hconfig, b, saveFile_at hsame, hmd5⟩

/-- Over a run whose launches are guarded, every launch is on a verified package. -/
theorem launches_verified (files : File → Option Content) (as : List (Act Content))
    (h : Along (step machine) (Guarded machine) { files } as) :
    ∀ t ∈ states (step machine) { files } as, ∀ l ∈ t.launches, l.Verified machine := by
  refine invariant (fun s a s' hs hg hstep => ?_) as _ (by simp) h
  rcases step_launches hstep with hsame | ⟨l, hl, hlaunch⟩
  · rw [hsame]
    exact hs
  · rw [hl]
    exact List.forall_mem_append.mpr ⟨hs, List.forall_mem_singleton.mpr (hlaunch.verified hg)⟩

/-! ### A forced update -/

/-- Paths that differ in case and in repeated backslashes name the same file. -/
def windowsFile : WStr → WStr
  | '\\' :: '\\' :: cs => windowsFile ('\\' :: cs)
  | ch :: cs => ch.toLower :: windowsFile cs
  | [] => []

/-- The MD5 of the empty file and of the file `a`. -/
def sampleMd5 (content : List Char) : WStr :=
  if content = [] then "d41d8cd98f00b204e9800998ecf8427e".toList
  else if content = ['a'] then "0cc175b9c0f1b6a831c399e269772661".toList
  else []

def sampleMachine : Machine WStr (List Char) where
  updatePath := "C:\\urltraveler\\update\\".toList
  fileAt := windowsFile
  md5 := sampleMd5
  unicodeToANSI := id
  ansiToUnicode := id

/-- A forced update, which announces the MD5 of the file `a`. -/
def forcedXml : WStr :=
  "\x7b\"updateinfo\":[],".toList ++
  "\"package\":\x7b\"filename\":\"p.zip\",".toList ++
  "\"md5\":\"0CC175B9C0F1B6A831C399E269772661\",".toList ++
  "\"downloadurl\":\"http://host/p.zip\",".toList ++
  "\"forceupdate\":\"1\"\x7d\x7d".toList

def forcedPackage : Package where
  szDownloadUrl := "http://host/p.zip".toList
  szSavePath := "C:\\urltraveler\\update\\\\p.zip".toList
  szMD5 := "0CC175B9C0F1B6A831C399E269772661".toList

/-- The configuration arrives, the window is shown as the pushed event says, and the download ends. -/
def forcedRun (content : List Char) : List (Act (List Char)) :=
  [.updateInfoArrive true forcedXml, .showUpdateDownloadingWnd forcedPackage,
    .updateFileDownloaded forcedPackage.szSavePath (some content) .success]

/-- The announced content arrives, and the updater is started on it. -/
theorem launches_verified_forced :
    (∃ t ∈ states (step sampleMachine) { files := fun _ => none } (forcedRun ['a']),
      t.pushed = [.showUpdateDownloading true forcedPackage, .mainLoopExit] ∧ t.launches.length = 1) ∧
    ∀ t ∈ states (step sampleMachine) { files := fun _ => none } (forcedRun ['a']),
      ∀ l ∈ t.launches, l.Verified sampleMachine :=
  ⟨by decide +kernel, launches_verified _ _ (by decide +kernel)⟩

/-- An empty file arrives, and the updater is started all the same. -/
theorem launches_unverified :
    ∃ t ∈ states (step sampleMachine) { files := fun _ => none } (forcedRun []),
      t.pushed = [.showUpdateDownloading true forcedPackage, .mainLoopExit] ∧
      ∃ l ∈ t.launches, ¬ l.Verified sampleMachine := by
  decide +kernel

end UrlTraveler.Update
