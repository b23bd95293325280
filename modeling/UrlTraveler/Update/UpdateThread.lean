import UrlTraveler.Favorite
import UrlTraveler.Json.Reader
import UrlTraveler.Schemes.Crc

/-! `CUpdateThread`, the updater: unpack the package, then copy the files its update.json lists.

        UnzipPackage        entry cannot be read ────▶ the next entry
                            entry does not unpack ───▶ WM_UNPACKAGE 0, the end
        CopyUnPackageFile   no list ─────────────────▶ WM_COPYPACKAGE 0, the end
                            file is missing ─────────▶ the rest of the list is left, no error
                            file is not copied ──────▶ WM_COPYPACKAGE 0, the end

    So a package with an entry that cannot be read, or with a file that is missing, is reported as a
    success. So is one with a damaged entry: `TUnzip::Unzip` writes what `unzReadCurrentFile` can
    inflate, never looks at the checksum, and makes the directory of a directory entry below the
    current directory instead of the unpack folder.

    What the zip file holds and the system answers is part of the input. A value of the list that
    cannot be read as text ends the program; names fit their buffers. -/

namespace UrlTraveler.UpdateExe
open Json

/-! ### The package and the disk -/

/-- The bytes of a file. -/
abbrev Content := List (BitVec 8)

/-- What `unzReadCurrentFile` returns: bytes, which `WriteFile` then may not write, or a negative
    number. Damaged and cut-off data is no error: it gives the bytes inflated so far, and no bytes
    at the next call. -/
inductive Read
  | bytes (buf : Content) (written : Bool)
  | error
  deriving DecidableEq

/-- An entry of the package: the name `GetZipItemA` reads, if it can, FILE_ATTRIBUTE_DIRECTORY, the
    size and checksum the package announces, whether `CreateFile` makes its file, and the reads. -/
structure ZipItem where
  name : Option (List Char)
  directory : Bool := false
  uncompressed_size : ℕ
  crc : BitVec 32
  created : Bool := true
  reads : List Read

/-- The machine: its directories, which file a path names, a content as text, the conversion from
    the system's code page, which directories can be made when some are there, which files can be
    opened, and whether the i-th copy is carried out. `rootdir` is the current directory. -/
structure Host (File : Type) where
  unpackagePath : WStr
  moduleDir : WStr
  rootdir : WStr
  fileAt : WStr → File
  text : Content → List Char
  ansiToUnicode : List Char → WStr
  canCreateDirectory : (File → Bool) → WStr → Bool
  canRead : File → Bool
  copyFile : ℕ → Bool

inductive Message
  | unpackage (wParam : Bool)
  | copyPackage (wParam : Bool)
  | updateSuccess
  deriving DecidableEq

/-- The files and directories there are. -/
structure Volume (File : Type) where
  files : File → Option Content
  dirs : File → Bool

/-- What `Unzip` makes of an entry; ZR_OK unless it failed. -/
inductive Unzipped
  | failed
  | folder
  | file (content : Content)
  deriving DecidableEq

/-- The volume, what has been unpacked, copied and started, and what the window was sent. -/
structure Disk (File : Type) extends Volume File where
  unpacked : List (ℕ × Unzipped) := []
  copied : List ℕ := []
  started : List WStr := []
  sent : List Message := []

variable {File : Type} [DecidableEq File] (host : Host File)

/-! ### Unzip -/

/-- The loop of `Unzip`: what is in the file after it, and `haderr`. -/
def readLoop : List Read → Content × Bool
  | [] | .bytes [] _ :: _ => ([], false)
  | .error :: _ | .bytes _ false :: _ => ([], true)
  | .bytes buf true :: reads =>
    let (content, haderr) := readLoop reads
    (buf ++ content, haderr)

def isSlash (c : Char) : Bool := c = '/' || c = '\\'

def createDirectory (dirs : File → Bool) (cd : WStr) : File → Bool :=
  if host.canCreateDirectory dirs cd then Function.update dirs (host.fileAt cd) true else dirs

/-- `EnsureDirectory(rootdir, dir)`: `dir` and, first, every part of it that ends at a slash. Whether
    a directory is made is not looked at. -/
def ensureDirectory (dirs : File → Bool) (dir : WStr) : File → Bool :=
  let parts := ((List.range dir.length).filter fun k => 0 < k && (dir[k]?).any isSlash).map dir.take
  (if dir = [] then [] else parts ++ [dir]).foldl
    (fun dirs part => createDirectory host dirs (host.rootdir ++ part)) dirs

/-- The part of a path before its last slash. -/
def dirPart (dst : WStr) : WStr := (dst.reverse.dropWhile fun c => !isSlash c).tail.reverse

def isAbsolute (dir : WStr) : Bool :=
  (dir[0]?).any isSlash || dir[1]? = some ':' ||
    "../".toList <:+: dir || "..\\".toList <:+: dir

/-- `TUnzip::Unzip` into the file `dst`: a directory is made below `rootdir`, whatever `dst` is. -/
def unzipItem (v : Volume File) (dst : WStr) (name : List Char) (item : ZipItem) :
    Volume File × Unzipped :=
  if item.directory then
    ({ v with dirs := ensureDirectory host v.dirs (host.ansiToUnicode name) }, .folder)
  else
    let dir := dirPart dst
    let dirs := if isAbsolute dir then v.dirs else ensureDirectory host v.dirs dir
    if item.created then
      -- `unzCloseCurrentFile` compares the checksum, and its result is dropped
      let (content, haderr) := readLoop item.reads
      ({ files := Function.update v.files (host.fileAt dst) (some content), dirs },
        if haderr then .failed else .file content)
    else ({ v with dirs }, .failed)

/-! ### UnzipPackage -/

/-- The path an entry is to be unpacked to. -/
def szName (name : List Char) : WStr := host.unpackagePath ++ host.ansiToUnicode name

/-- The loop, and whether it got to the end. -/
def unzipLoop : ℕ → Disk File → List ZipItem → Disk File × Bool
  | _, d, [] => (d, true)
  | i, d, item :: items =>
    match item.name with
    | none => unzipLoop (i + 1) d items
    | some name =>
      match unzipItem host d.toVolume (szName host name) name item with
      | (v, .failed) => ({ d with toVolume := v }, false)
      | (v, r) => unzipLoop (i + 1) { d with toVolume := v, unpacked := d.unpacked ++ [(i, r)] } items

/-- Nothing for a package whose number of entries cannot be read. -/
def unzipPackage (d : Disk File) (zip : Option (List ZipItem)) : Disk File × Bool :=
  match zip with
  | none => (d, false)
  | some items => unzipLoop host 0 d items

/-! ### CopyUnPackageFile -/

/-- What is read of an entry of the list. -/
structure FileNode where
  strAction : List Char
  strFileName : List Char
  strMD5 : List Char
  strPath : List Char
  deriving DecidableEq

def readFileNode (fileNode : Value) : Option FileNode := do
  let strAction ← field fileNode "action".toList
  let strFileName ← field fileNode "filename".toList
  let strMD5 ← field fileNode "md5".toList
  let strPath ← field fileNode "locatepath".toList
  return { strAction, strFileName, strMD5, strPath }

def FileNode.source (e : FileNode) : WStr := host.unpackagePath ++ host.ansiToUnicode e.strFileName

def FileNode.dest (e : FileNode) : WStr :=
  host.moduleDir ++ host.ansiToUnicode e.strPath ++ host.ansiToUnicode e.strFileName

/-- `PathHelper::IsFileExist`, which takes slashes off the end. -/
def isFileExist (files : File → Option Content) (strFilePath : WStr) : Bool :=
  (files (host.fileAt (strFilePath.rdropWhile fun c => c = '\\' || c = '/'))).isSome

/-- The i-th `CopyFileW`. -/
def copyFile (i : ℕ) (files : File → Option Content) (src dst : WStr) :
    Option (File → Option Content) :=
  match files (host.fileAt src), host.copyFile i with
  | some content, true => some (Function.update files (host.fileAt dst) (some content))
  | _, _ => none

/-- The list of update.json: the elements of an array; only arrays can be indexed. -/
def elements : Value → Option (List Value)
  | .array elems => some elems
  | .object (_ :: _) => none
  | _ => some []

/-- `CopyUnPackageFile` up to the loop: nothing when a value throws, and no list when it returns. -/
def fileList (files : File → Option Content) : Option (Option (List Value)) :=
  let strUpdateJson := host.unpackagePath ++ "update.json".toList
  if isFileExist host files strUpdateJson = false then some none
  else
    match files (host.fileAt strUpdateJson), host.canRead (host.fileAt strUpdateJson) with
    | some content, true =>
      let text := host.text content
      let (root, ok, _) := readValue (2 * text.length + 2) .null text
      if !ok then some none
      else ((member root "filelist".toList).bind elements).map some
    | _, _ => some none

/-- The loop, and what `CopyUnPackageFile` then says. -/
def copyLoop : ℕ → Disk File → List Value → Option (Disk File × Bool)
  | _, d, [] => some (d, true)
  | i, d, fileNode :: rest =>
    match readFileNode fileNode with
    | none => none
    | some e =>
      if isFileExist host d.files (e.source host) = false then some (d, true)
      else if e.strAction = "copy".toList then
        match copyFile host i d.files (e.source host) (e.dest host) with
        | none => some (d, false)
        | some files => copyLoop (i + 1) { d with files, copied := d.copied ++ [i] } rest
      else if e.strAction = "install".toList then
        copyLoop (i + 1) { d with started := d.started ++ [e.source host] } rest
      else copyLoop (i + 1) d rest

def copyUnPackageFile (d : Disk File) : Option (Disk File × Bool) :=
  match fileList host d.files with
  | none => none
  | some none => some (d, false)
  | some (some nodes) => copyLoop host 0 d nodes

/-! ### Run -/

def Disk.sendMessage (d : Disk File) (m : Message) : Disk File :=
  { d with sent := d.sent ++ [m] }

/-- Nothing when the program ends. -/
def run (v : Volume File) (zip : Option (List ZipItem)) : Option (Disk File) :=
  match unzipPackage host { toVolume := v } zip with
  | (d, false) => some (d.sendMessage (.unpackage false))
  | (d, true) =>
    match copyUnPackageFile host (d.sendMessage (.unpackage true)) with
    | none => none
    | some (d, false) => some (d.sendMessage (.copyPackage false))
    | some (d, true) => some ((d.sendMessage (.copyPackage true)).sendMessage .updateSuccess)

/-! ### Complete updates -/

/-- What `Unzip` says of an entry, wherever it is unpacked. -/
def ZipItem.unzip (item : ZipItem) : Unzipped :=
  if item.directory then .folder
  else if item.created = false ∨ (readLoop item.reads).2 = true then .failed
  else .file (readLoop item.reads).1

/-- The volume once everything that can be read has been unpacked. -/
def unpackAll (v : Volume File) : List ZipItem → Volume File
  | [] => v
  | item :: items =>
    match item.name with
    | none => unpackAll v items
    | some name => unpackAll (unzipItem host v (szName host name) name item).1 items

/-- The CRC-32 of zip files. -/
def crc32 (content : Content) : BitVec 32 :=
  Crc.reflected 0x04C11DB7#32 0xFFFFFFFF#32 0xFFFFFFFF#32 content

/-- The whole file: as long as announced, and with the checksum announced. -/
def ZipItem.IsWhole (item : ZipItem) (content : Content) : Prop :=
  content.length = item.uncompressed_size ∧ crc32 content = item.crc

instance (item : ZipItem) (content : Content) : Decidable (item.IsWhole content) :=
  inferInstanceAs (Decidable (_ ∧ _))

/-- The directory of a directory entry is there, below the unpack folder. -/
def IsThere (v : Volume File) (item : ZipItem) : Prop :=
  ∃ name, item.name = some name ∧ v.dirs (host.fileAt (szName host name)) = true

def IsCopy (fileNode : Value) : Prop := field fileNode "action".toList = some "copy".toList

/-- Every entry was unpacked whole, and every file that was to be copied was. -/
structure Complete (v : Volume File) (items : List ZipItem) (d : Disk File) : Prop where
  folders : ∀ item ∈ items, item.directory = true → IsThere host d.toVolume item
  unpacked : ∀ i, ∀ item ∈ items[i]?, item.directory = false →
    ∃ content, (i, .file content) ∈ d.unpacked ∧ item.IsWhole content
  copied : ∀ nodes, fileList host (unpackAll host v items).files = some (some nodes) →
    ∀ i, ∀ fileNode ∈ nodes[i]?, IsCopy fileNode → i ∈ d.copied

/-- The updater says so only when the update is complete. -/
def Honest (v : Volume File) (zip : Option (List ZipItem)) : Prop :=
  ∀ d, run host v zip = some d → Message.updateSuccess ∈ d.sent →
    ∃ items, zip = some items ∧ Complete host v items d

/-- The i-th entry of the list is read, its file is there and, where that is asked for, copied. -/
inductive Passes (i : ℕ) (files : File → Option Content) (fileNode : Value) :
    (File → Option Content) → Prop
  | copy {e files'} : readFileNode fileNode = some e →
      isFileExist host files (e.source host) = true → e.strAction = "copy".toList →
      copyFile host i files (e.source host) (e.dest host) = some files' →
      Passes i files fileNode files'
  | other {e} : readFileNode fileNode = some e →
      isFileExist host files (e.source host) = true → e.strAction ≠ "copy".toList →
      Passes i files fileNode files

/-- Before any file is missing, an entry cannot be read or a copy fails. -/
inductive Stops : ℕ → (File → Option Content) → List Value → Prop
  | unreadable {i files fileNode rest} : readFileNode fileNode = none →
      Stops i files (fileNode :: rest)
  | notCopied {i files fileNode rest e} : readFileNode fileNode = some e →
      isFileExist host files (e.source host) = true → e.strAction = "copy".toList →
      copyFile host i files (e.source host) (e.dest host) = none → Stops i files (fileNode :: rest)
  | next {i files files' fileNode rest} : Passes host i files fileNode files' →
      Stops (i + 1) files' rest → Stops i files (fileNode :: rest)

/-- A file is missing, and from there on something was to be copied. -/
inductive Drops : ℕ → (File → Option Content) → List Value → Prop
  | missing {i files fileNode rest e} : readFileNode fileNode = some e →
      isFileExist host files (e.source host) = false → (∃ n ∈ fileNode :: rest, IsCopy n) →
      Drops i files (fileNode :: rest)
  | next {i files files' fileNode rest} : Passes host i files fileNode files' →
      Drops (i + 1) files' rest → Drops i files (fileNode :: rest)

/-- An entry that `GetZipItemA` reads, with all the data the package announces if it is a file; a
    directory is there without `Unzip`, or because it is made from the current directory. -/
def Intact (v : Volume File) (item : ZipItem) : Prop :=
  if item.directory then IsThere host v item
  else item.name ≠ none ∧ item.IsWhole (readLoop item.reads).1

/-- Unless the run stops with an error, every entry is intact and no copy dropped. -/
def NothingLost (v : Volume File) (zip : Option (List ZipItem)) : Prop :=
  ∀ items, zip = some items → (∀ item ∈ items, item.name ≠ none → item.unzip ≠ .failed) →
    ∀ nodes, fileList host (unpackAll host v items).files = some (some nodes) →
      ¬ Stops host 0 (unpackAll host v items).files nodes →
        (∀ item ∈ items, Intact host (unpackAll host v items) item) ∧
          ¬ Drops host 0 (unpackAll host v items).files nodes

/-! ### The loop over the package -/

theorem unzipItem_snd (v : Volume File) (dst : WStr) (name : List Char) (item : ZipItem) :
    (unzipItem host v dst name item).2 = item.unzip := by
  rw [unzipItem, ZipItem.unzip]
  by_cases hdir : item.directory = true
  · simp [hdir]
  · by_cases hc : item.created = true
    · cases h : (readLoop item.reads).2 <;> simp [hdir, hc, h]
    · simp [hdir, hc]

theorem ZipItem.unzip_file {item : ZipItem} (hdir : item.directory = false)
    (hok : item.unzip ≠ .failed) : item.unzip = .file (readLoop item.reads).1 := by
  simp only [ZipItem.unzip, hdir, Bool.false_eq_true, if_false] at hok ⊢
  split_ifs with h
  · simp [h] at hok
  · rfl

section UnzipStep
variable {item : ZipItem} {items : List ZipItem} {i : ℕ} {d : Disk File} {name : List Char}

theorem unzipLoop_skip (hname : item.name = none) :
    unzipLoop host i d (item :: items) = unzipLoop host (i + 1) d items := by
  rw [unzipLoop, hname]

theorem unzipLoop_failed (hname : item.name = some name) (hun : item.unzip = .failed) :
    unzipLoop host i d (item :: items) =
      ({ d with toVolume := (unzipItem host d.toVolume (szName host name) name item).1 }, false) := by
  rw [← unzipItem_snd host d.toVolume (szName host name) name item] at hun
  simp only [unzipLoop, hname]
  generalize unzipItem host d.toVolume (szName host name) name item = result at hun ⊢
  obtain ⟨v, r⟩ := result
  cases hun
  rfl

theorem unzipLoop_next (hname : item.name = some name) (hun : item.unzip ≠ .failed) :
    unzipLoop host i d (item :: items) = unzipLoop host (i + 1)
      { d with toVolume := (unzipItem host d.toVolume (szName host name) name item).1,
               unpacked := d.unpacked ++ [(i, item.unzip)] } items := by
  rw [← unzipItem_snd host d.toVolume (szName host name) name item] at hun ⊢
  simp only [unzipLoop, hname]

/-- An entry is skipped, or fails, or is unpacked. -/
theorem zipItem_cases (item : ZipItem) :
    item.name = none ∨ (∃ name, item.name = some name ∧ item.unzip = .failed) ∨
      ∃ name, item.name = some name ∧ item.unzip ≠ .failed := by
  cases hname : item.name with
  | none => exact .inl rfl
  | some name =>
    by_cases hun : item.unzip = .failed
    · exact .inr (.inl ⟨name, rfl, hun⟩)
    · exact .inr (.inr ⟨name, rfl, hun⟩)

end UnzipStep

/-- The loop ends early only at an entry that can be read and does not unpack. -/
theorem unzipLoop_ok : ∀ (items : List ZipItem) (i : ℕ) (d : Disk File),
    (unzipLoop host i d items).2 = true ↔
      ∀ item ∈ items, item.name ≠ none → item.unzip ≠ .failed
  | [], _, _ => by simp [unzipLoop]
  | item :: items, i, d => by
    rw [List.forall_mem_cons]
    rcases zipItem_cases item with hname | ⟨name, hname, hun⟩ | ⟨name, hname, hun⟩
    · rw [unzipLoop_skip host hname, unzipLoop_ok items]
      simp [hname]
    · rw [unzipLoop_failed host hname hun]
      simp [hname, hun]
    · rw [unzipLoop_next host hname hun, unzipLoop_ok items]
      simp [hun]

theorem unzipLoop_keeps : ∀ (items : List ZipItem) (i : ℕ) (d : Disk File),
    (unzipLoop host i d items).1.copied = d.copied ∧ (unzipLoop host i d items).1.sent = d.sent
  | [], _, _ => ⟨rfl, rfl⟩
  | item :: items, i, d => by
    rcases zipItem_cases item with hname | ⟨name, hname, hun⟩ | ⟨name, hname, hun⟩
    · rw [unzipLoop_skip host hname]
      exact unzipLoop_keeps items (i + 1) d
    · rw [unzipLoop_failed host hname hun]
      exact ⟨rfl, rfl⟩
    · rw [unzipLoop_next host hname hun]
      exact unzipLoop_keeps items (i + 1) _

/-- What is unpacked of a package, seen from its first entry. -/
theorem unpacked_cons (item : ZipItem) (items : List ZipItem) (i : ℕ) (e : ℕ × Unzipped) :
    (∃ j, ∃ item' ∈ (item :: items)[j]?, item'.name ≠ none ∧ e = (i + j, item'.unzip)) ↔
      (item.name ≠ none ∧ e = (i, item.unzip)) ∨
        ∃ j, ∃ item' ∈ items[j]?, item'.name ≠ none ∧ e = (i + 1 + j, item'.unzip) := by
  constructor
  · rintro ⟨j, item', hitem, hname, rfl⟩
    cases j with
    | zero =>
      cases hitem
      exact .inl ⟨hname, rfl⟩
    | succ j => exact .inr ⟨j, item', hitem, hname, by rw [Nat.add_right_comm, Nat.add_assoc]⟩
  · rintro (⟨hname, rfl⟩ | ⟨j, item', hitem, hname, rfl⟩)
    · exact ⟨0, item, rfl, hname, rfl⟩
    · exact ⟨j + 1, item', hitem, hname, by rw [Nat.add_right_comm, Nat.add_assoc]⟩

/-- And then it has unpacked every entry that can be read. -/
theorem unzipLoop_spec : ∀ (items : List ZipItem) (i : ℕ) (d : Disk File),
    (∀ item ∈ items, item.name ≠ none → item.unzip ≠ .failed) →
    (unzipLoop host i d items).1.toVolume = unpackAll host d.toVolume items ∧
    ∀ e, e ∈ (unzipLoop host i d items).1.unpacked ↔
      e ∈ d.unpacked ∨ ∃ j, ∃ item ∈ items[j]?, item.name ≠ none ∧ e = (i + j, item.unzip)
  | [], _, _, _ => by simp [unzipLoop, unpackAll]
  | item :: items, i, d, hok => by
    obtain ⟨hitem, hitems⟩ := List.forall_mem_cons.mp hok
    rcases zipItem_cases item with hname | ⟨name, hname, hun⟩ | ⟨name, hname, hun⟩
    · obtain ⟨hvol, hmem⟩ := unzipLoop_spec items (i + 1) d hitems
      rw [unzipLoop_skip host hname, unpackAll, hname]
      refine ⟨hvol, fun e => ?_⟩
      rw [hmem, unpacked_cons]
      simp [hname]
    · exact absurd hun (hitem (by simp [hname]))
    · obtain ⟨hvol, hmem⟩ := unzipLoop_spec items (i + 1)
        { d with toVolume := (unzipItem host d.toVolume (szName host name) name item).1,
                 unpacked := d.unpacked ++ [(i, item.unzip)] } hitems
      simp only [unzipLoop_next host hname hun, unpackAll, hname]
      refine ⟨hvol, fun e => ?_⟩
      rw [hmem, unpacked_cons]
      simp [hname, or_assoc]

/-! ### The loop over the list -/

section CopyStep
variable {i : ℕ} {files files' : File → Option Content} {fileNode : Value} {rest : List Value}

theorem isCopy_iff {e : FileNode} (hread : readFileNode fileNode = some e) :
    IsCopy fileNode ↔ e.strAction = "copy".toList := by
  simp only [readFileNode, Option.bind_eq_bind, Option.bind_eq_some_iff] at hread
  obtain ⟨strAction, haction, _, _, _, _, _, _, he⟩ := hread
  cases he
  rw [IsCopy, haction, Option.some_inj]

theorem Passes.unique {files₁ files₂ : File → Option Content}
    (h₁ : Passes host i files fileNode files₁) (h₂ : Passes host i files fileNode files₂) :
    files₁ = files₂ := by
  cases h₁ <;> cases h₂ <;> simp_all

theorem stops_cons (h : Passes host i files fileNode files') :
    Stops host i files (fileNode :: rest) ↔ Stops host (i + 1) files' rest := by
  refine ⟨fun hs => ?_, .next h⟩
  cases hs with
  | unreadable hread => cases h <;> simp_all
  | notCopied hread hexist hact hcopy => cases h <;> simp_all
  | next h' hs => exact h'.unique host h ▸ hs

theorem drops_cons (h : Passes host i files fileNode files') :
    Drops host i files (fileNode :: rest) ↔ Drops host (i + 1) files' rest := by
  refine ⟨fun hs => ?_, .next h⟩
  cases hs with
  | missing hread hexist _ => cases h <;> simp_all
  | next h' hs => exact h'.unique host h ▸ hs

end CopyStep

/-- What the loop does with one entry. -/
inductive CopyStep (i : ℕ) (d : Disk File) (fileNode : Value) (rest : List Value) : Prop
  | unreadable : readFileNode fileNode = none → copyLoop host i d (fileNode :: rest) = none →
      CopyStep i d fileNode rest
  | missing {e} : readFileNode fileNode = some e → isFileExist host d.files (e.source host) = false →
      copyLoop host i d (fileNode :: rest) = some (d, true) → CopyStep i d fileNode rest
  | notCopied {e} : readFileNode fileNode = some e →
      isFileExist host d.files (e.source host) = true → e.strAction = "copy".toList →
      copyFile host i d.files (e.source host) (e.dest host) = none →
      copyLoop host i d (fileNode :: rest) = some (d, false) → CopyStep i d fileNode rest
  | next (d' : Disk File) : Passes host i d.files fileNode d'.files →
      d'.unpacked = d.unpacked → d'.dirs = d.dirs → d'.sent = d.sent →
      (∀ k, k ∈ d'.copied ↔ k ∈ d.copied ∨ IsCopy fileNode ∧ k = i) →
      copyLoop host i d (fileNode :: rest) = copyLoop host (i + 1) d' rest →
      CopyStep i d fileNode rest

theorem copyStep (i : ℕ) (d : Disk File) (fileNode : Value) (rest : List Value) :
    CopyStep host i d fileNode rest := by
  cases hread : readFileNode fileNode with
  | none => exact .unreadable hread (by simp only [copyLoop, hread])
  | some e =>
    have hcopy := isCopy_iff hread
    cases hexist : isFileExist host d.files (e.source host) with
    | false => exact .missing hread hexist (by simp only [copyLoop, hread, hexist, if_true])
    | true =>
      by_cases hact : e.strAction = "copy".toList
      · cases hc : copyFile host i d.files (e.source host) (e.dest host) with
        | none => exact .notCopied hread hexist hact hc (by simp [copyLoop, hread, hexist, hact, hc])
        | some files =>
          refine .next { d with files, copied := d.copied ++ [i] } (.copy hread hexist hact hc) rfl rfl
            rfl (fun k => ?_) (by simp [copyLoop, hread, hexist, hact, hc])
          simp [hcopy.mpr hact]
      · have hnot : ¬ IsCopy fileNode := fun h => hact (hcopy.mp h)
        by_cases hinst : e.strAction = "install".toList
        · exact .next { d with started := d.started ++ [e.source host] } (.other hread hexist hact) rfl
            rfl rfl (by simp [hnot]) (by simp [copyLoop, hread, hexist, hinst])
        · exact .next d (.other hread hexist hact) rfl rfl rfl (by simp [hnot])
            (by simp only [copyLoop, hread, hexist, hact, hinst, Bool.true_eq_false, if_false])

/-- `CopyUnPackageFile` says it is done unless it stops. -/
theorem copyLoop_ok : ∀ (nodes : List Value) (i : ℕ) (d : Disk File),
    (∃ d', copyLoop host i d nodes = some (d', true)) ↔ ¬ Stops host i d.files nodes
  | [], i, d => iff_of_true ⟨d, rfl⟩ fun h => by cases h
  | fileNode :: rest, i, d => by
    cases copyStep host i d fileNode rest with
    | unreadable hread heq =>
      rw [heq]
      exact iff_of_false (by simp) (not_not_intro (.unreadable hread))
    | missing hread hexist heq =>
      refine iff_of_true ⟨d, heq⟩ fun hs => ?_
      cases hs with
      | unreadable hread' => simp_all
      | notCopied hread' hexist' => simp_all
      | next h => cases h <;> simp_all
    | notCopied hread hexist hact hc heq =>
      rw [heq]
      exact iff_of_false (by simp) (not_not_intro (.notCopied hread hexist hact hc))
    | next d' hpass _ _ _ _ heq => rw [heq, copyLoop_ok rest, stops_cons host hpass]

theorem copyLoop_keeps : ∀ (nodes : List Value) {i : ℕ} {d d' : Disk File} {b : Bool},
    copyLoop host i d nodes = some (d', b) →
    d'.unpacked = d.unpacked ∧ d'.dirs = d.dirs ∧ d'.sent = d.sent ∧ ∀ k ∈ d.copied, k ∈ d'.copied
  | [], _, _, _, _, h => by
    cases h
    exact ⟨rfl, rfl, rfl, fun _ hk => hk⟩
  | fileNode :: rest, i, d, d', b, h => by
    cases copyStep host i d fileNode rest with
    | unreadable _ heq => simp [heq] at h
    | missing _ _ heq | notCopied _ _ _ _ heq =>
      rw [heq] at h
      cases h
      exact ⟨rfl, rfl, rfl, fun _ hk => hk⟩
    | next d₁ _ hunpacked hdirs hsent hcopied heq =>
      rw [heq] at h
      obtain ⟨hu, hd, hs, hkeep⟩ := copyLoop_keeps rest h
      refine ⟨hu.trans hunpacked, hd.trans hdirs, hs.trans hsent, fun k hk => ?_⟩
      exact hkeep k ((hcopied k).mpr (.inl hk))

/-- It has copied what it was asked to exactly when it dropped nothing. -/
theorem copyLoop_complete : ∀ (nodes : List Value) {i : ℕ} {d d' : Disk File},
    (∀ k ∈ d.copied, k < i) → copyLoop host i d nodes = some (d', true) →
    ((∀ j, ∀ n ∈ nodes[j]?, IsCopy n → i + j ∈ d'.copied) ↔ ¬ Drops host i d.files nodes)
  | [], _, _, _, _, _ => iff_of_true (by simp) fun h => by cases h
  | fileNode :: rest, i, d, d', hlt, h => by
    cases copyStep host i d fileNode rest with
    | unreadable _ heq => simp [heq] at h
    | notCopied _ _ _ _ heq => simp [heq] at h
    | missing hread hexist heq =>
      rw [heq] at h
      cases h
      have hdrops : Drops host i d.files (fileNode :: rest) ↔ ∃ n ∈ fileNode :: rest, IsCopy n := by
        refine ⟨fun hd => ?_, .missing hread hexist⟩
        cases hd with
        | missing _ _ hex => exact hex
        | next hpass => cases hpass <;> simp_all
      rw [hdrops]
      constructor
      · rintro hall ⟨n, hn, hcopy⟩
        obtain ⟨j, hj⟩ := List.mem_iff_getElem?.mp hn
        have hmem := hlt _ (hall j n hj hcopy)
        omega
      · intro hnone j n hn hcopy
        exact absurd ⟨n, List.mem_of_getElem? hn, hcopy⟩ hnone
    | next d₁ hpass _ _ _ hcopied heq =>
      rw [heq] at h
      have hlt₁ : ∀ k ∈ d₁.copied, k < i + 1 := by
        intro k hk
        rcases (hcopied k).mp hk with hk | ⟨_, rfl⟩
        · exact (hlt k hk).trans (Nat.lt_succ_self i)
        · exact Nat.lt_succ_self k
      rw [drops_cons host hpass, ← copyLoop_complete rest hlt₁ h]
      constructor
      · intro hall j n hn hcopy
        have hmem := hall (j + 1) n hn hcopy
        rwa [← Nat.add_assoc, Nat.add_right_comm] at hmem
      · intro hall j n hn hcopy
        cases j with
        | zero =>
          cases hn
          exact (copyLoop_keeps host rest h).2.2.2 _ ((hcopied _).mpr (.inr ⟨hcopy, rfl⟩))
        | succ j =>
          have hmem := hall j n hn hcopy
          rwa [Nat.add_right_comm, Nat.add_assoc] at hmem

/-! ### Success and completeness -/

/-- The disk when the files of the list are copied. -/
def unzipped (v : Volume File) (items : List ZipItem) : Disk File :=
  (unzipLoop host 0 { toVolume := v } items).1.sendMessage (.unpackage true)

theorem copyUnPackageFile_ok {d d' : Disk File} :
    copyUnPackageFile host d = some (d', true) ↔
      ∃ nodes, fileList host d.files = some (some nodes) ∧
        copyLoop host 0 d nodes = some (d', true) := by
  rw [copyUnPackageFile.eq_def]
  split <;> simp_all

theorem copyUnPackageFile_sent {d d' : Disk File} {b : Bool}
    (h : copyUnPackageFile host d = some (d', b)) : d'.sent = d.sent := by
  rw [copyUnPackageFile.eq_def] at h
  split at h
  · cases h
  · cases h
    rfl
  · exact (copyLoop_keeps host _ h).2.2.1

theorem unzipped_volume {v : Volume File} {items : List ZipItem}
    (hok : ∀ item ∈ items, item.name ≠ none → item.unzip ≠ .failed) :
    (unzipped host v items).toVolume = unpackAll host v items :=
  (unzipLoop_spec host items 0 { toVolume := v } hok).1

/-- A run that says WM_UPDATESUCCESS. -/
theorem run_success {v : Volume File} {items : List ZipItem} {d : Disk File} :
    run host v (some items) = some d ∧ Message.updateSuccess ∈ d.sent ↔
      (∀ item ∈ items, item.name ≠ none → item.unzip ≠ .failed) ∧
      ∃ d', copyUnPackageFile host (unzipped host v items) = some (d', true) ∧
        d = (d'.sendMessage (.copyPackage true)).sendMessage .updateSuccess := by
  have hsent := (unzipLoop_keeps host items 0 { toVolume := v }).2
  rw [← unzipLoop_ok host items 0 { toVolume := v }, run, unzipPackage, unzipped]
  generalize unzipLoop host 0 { toVolume := v } items = r at hsent ⊢
  obtain ⟨d₁, ok⟩ := r
  replace hsent : d₁.sent = [] := hsent
  cases ok with
  | false =>
    refine iff_of_false ?_ (by simp)
    rintro ⟨hd, hmem⟩
    cases hd
    simp [Disk.sendMessage, hsent] at hmem
  | true =>
    cases hcopy : copyUnPackageFile host (d₁.sendMessage (.unpackage true)) with
    | none => simp [hcopy]
    | some r =>
      obtain ⟨d', ok⟩ := r
      have hsent' : d'.sent = [.unpackage true] := by
        rw [copyUnPackageFile_sent host hcopy, Disk.sendMessage, hsent]
        rfl
      simp only [hcopy]
      cases ok with
      | false =>
        refine iff_of_false ?_ (by simp)
        rintro ⟨hd, hmem⟩
        cases hd
        simp [Disk.sendMessage, hsent'] at hmem
      | true =>
        constructor
        · rintro ⟨hd, -⟩
          cases hd
          exact ⟨trivial, d', rfl, rfl⟩
        · rintro ⟨-, d'', hd', rfl⟩
          cases hd'
          exact ⟨rfl, by simp [Disk.sendMessage]⟩

omit [DecidableEq File] in
theorem isThere_congr {v w : Volume File} (h : v.dirs = w.dirs) (item : ZipItem) :
    IsThere host v item ↔ IsThere host w item := by
  rw [IsThere, IsThere, h]

/-- What a successful run has done is complete exactly when nothing was lost or dropped. -/
theorem complete_iff {v : Volume File} {items : List ZipItem}
    (hok : ∀ item ∈ items, item.name ≠ none → item.unzip ≠ .failed) {nodes : List Value}
    (hlist : fileList host (unpackAll host v items).files = some (some nodes)) {d : Disk File}
    (hloop : copyLoop host 0 (unzipped host v items) nodes = some (d, true)) :
    Complete host v items ((d.sendMessage (.copyPackage true)).sendMessage .updateSuccess) ↔
      (∀ item ∈ items, Intact host (unpackAll host v items) item) ∧
        ¬ Drops host 0 (unpackAll host v items).files nodes := by
  obtain ⟨-, hmem⟩ := unzipLoop_spec host items 0 { toVolume := v } hok
  obtain ⟨hsame, hdirs, -, -⟩ := copyLoop_keeps host nodes hloop
  have hunpacked : ∀ k r, (k, r) ∈ d.unpacked ↔
      ∃ item ∈ items[k]?, item.name ≠ none ∧ r = item.unzip := by
    intro k r
    rw [hsame]
    refine (hmem (k, r)).trans ?_
    simp
  have hthere : ∀ item, IsThere host d.toVolume item ↔
      IsThere host (unpackAll host v items) item := by
    rw [← unzipped_volume host hok]
    exact isThere_congr host hdirs
  have hcopied : ∀ k ∈ (unzipped host v items).copied, k < 0 := by
    have hnil : (unzipped host v items).copied = [] :=
      (unzipLoop_keeps host items 0 { toVolume := v }).1
    simp [hnil]
  have hcomplete := copyLoop_complete host nodes hcopied hloop
  rw [unzipped_volume host hok] at hcomplete
  rw [← hcomplete]
  constructor
  · rintro ⟨hfolders, hall, hcopy⟩
    refine ⟨fun item hitem => ?_, fun j n hn hc => ?_⟩
    · cases hdir : item.directory with
      | true =>
        rw [Intact, if_pos hdir, ← hthere]
        exact hfolders item hitem hdir
      | false =>
        obtain ⟨k, hk⟩ := List.mem_iff_getElem?.mp hitem
        obtain ⟨content, hlog, hwhole⟩ := hall k item hk hdir
        obtain ⟨item', hk', hname, hr⟩ := (hunpacked k _).mp hlog
        cases hk.symm.trans hk'
        rw [ZipItem.unzip_file hdir (hok item hitem hname)] at hr
        cases hr
        rw [Intact, if_neg (by simp [hdir])]
        exact ⟨hname, hwhole⟩
    · rw [Nat.zero_add]
      exact hcopy nodes hlist j n hn hc
  · rintro ⟨hall, hcopy⟩
    refine ⟨fun item hitem hdir => ?_, fun k item hk hdir => ?_, fun nodes' hlist' j n hn hc => ?_⟩
    · have hintact := hall item hitem
      rw [Intact, if_pos hdir, ← hthere] at hintact
      exact hintact
    · have hitem := List.mem_of_getElem? hk
      have hintact := hall item hitem
      rw [Intact, if_neg (by simp [hdir])] at hintact
      obtain ⟨hname, hwhole⟩ := hintact
      refine ⟨_, (hunpacked k _).mpr ⟨item, hk, hname, ?_⟩, hwhole⟩
      rw [ZipItem.unzip_file hdir (hok item hitem hname)]
    · cases hlist.symm.trans hlist'
      have hmem := hcopy j n hn hc
      rwa [Nat.zero_add] at hmem

/-- A machine where paths name themselves and everything that is asked for is done. -/
def plainHost : Host WStr where
  unpackagePath := "c:\\u\\".toList
  moduleDir := "c:\\m\\".toList
  rootdir := "c:\\".toList
  fileAt := id
  text := List.map fun byte => Char.ofNat byte.toNat
  ansiToUnicode := id
  canCreateDirectory _ _ := true
  canRead _ := true
  copyFile _ := true

def bytesOf (text : String) : Content := text.toList.map fun c => BitVec.ofNat 8 c.toNat

/-- The update.json that asks for the file a. -/
def updateJson : Content :=
  bytesOf "\x7b\"filelist\":[\x7b\"action\":\"copy\",\"filename\":\"a\"\x7d]\x7d"

/-- A package of update.json and an entry that cannot be read, the file that is to be copied. -/
def brokenPackage : List ZipItem :=
  [{ name := some "update.json".toList, uncompressed_size := updateJson.length,
     crc := crc32 updateJson, reads := [.bytes updateJson true] },
   { name := none, uncompressed_size := 0, crc := 0, reads := [] }]

end UrlTraveler.UpdateExe
