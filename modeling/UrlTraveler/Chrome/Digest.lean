import UrlTraveler.Chrome.Checksum
import UrlTraveler.Chrome.Utf8
import UrlTraveler.Json.Writer
import UrlTraveler.Utility.Md5

/-! The Bookmarks file as Chrome checks it.

        records ──import──▶ root ──StyledStreamWriter──▶ file ──Reader──▶ root'

    Chrome reads the file, takes the MD5 of the id, the title, the type and the URL of every node below
    `roots` in preorder, and compares it with the member `checksum`. -/

namespace UrlTraveler.Chrome
open Json Walk Utility Md5

/-! ### What is hashed -/

/-- The UTF-16 units of a character. -/
def utf16Units (c : Char) : List (BitVec 16) :=
  if c.toNat < 0x10000 then [BitVec.ofNat 16 c.toNat]
  else [BitVec.ofNat 16 (0xD800 + (c.toNat - 0x10000) / 0x400), BitVec.ofNat 16 (0xDC00 + (c.toNat - 0x10000) % 0x400)]

/-- The bytes of a `std::wstring` in memory. -/
def wideBytes (s : WStr) : List Byte :=
  (s.flatMap utf16Units).flatMap fun u : BitVec 16 => [u.setWidth 8, (u >>> 8).setWidth 8]

/-- The bytes of a `std::string` that holds UTF-8. -/
def narrowBytes (s : List Char) : List Byte := (unicodeToUtf8 s).map UInt8.toBitVec

/-- The arguments of `UpdateChecksum` for one node. -/
def Item.pieces (e : Item) : List (List Byte) :=
  [narrowBytes e.id, wideBytes e.title, narrowBytes e.type] ++ e.url.toList.map narrowBytes

/-- `InitializeChecksum`, the updates, and `FinalizeChecksum`. -/
def finalizeChecksum (inBuf : List Byte) (ctx : List Item) : Option (List Char) :=
  (md5Updates (md5Init inBuf) (ctx.flatMap Item.pieces) >>= md5Final).map md5DigestToBase16

/-! ### What Chrome compares -/

/-- `value[key]` of an object. -/
def memberOf (value : Value) (key : List Char) : Value :=
  match value with
  | .object members => (members.lookup key).getD .null
  | _ => .null

/-- The nodes below `roots`. -/
def fileItems (root : Value) : List Item :=
  let roots := memberOf root Key.roots
  items (memberOf roots Key.bookmarkBar) ++ items (memberOf roots Key.other) ++ items (memberOf roots Key.synced)

/-- The MD5 of some nodes in hexadecimal. -/
def checksumOf (nodes : List Item) : List Char :=
  md5DigestToBase16 (digest (nodes.flatMap fun e => e.pieces.flatten))

/-- The checksum in the file is the MD5 of what is in the file. -/
def Verifies (file : List Char) : Prop :=
  parseOk file = true ∧ textOf (parse file) Key.checksum = checksumOf (fileItems (parse file))

/-! ### The file is read back as it was meant -/

theorem normal_members {ms : List (List Char × Value)} (names : List (List Char))
    (hms : ms.map (·.1) = names) (hsorted : names.Pairwise (· < ·)) (hnames : ∀ n ∈ names, cString n = n)
    (h : ∀ e ∈ ms, Normal e.2) : Normal (.object ms) := by
  subst hms
  refine .object ms (List.pairwise_map.mp hsorted) (fun e he => ?_) h
  exact hnames e.1 (List.mem_map_of_mem he)

theorem normal_plain {s : List Char} (h : Plain s) : Normal (.string s) := .string s (cString_plain h)

theorem normal_folderValue {a m : List Char} (ha : Plain a) (hm : Plain m) (n : ℕ) {t : WStr} (ht : Plain t)
    {cs : List Value} (hcs : ∀ c ∈ cs, Normal c) : Normal (folderValue a m n t cs) := by
  refine normal_members [Key.children, Key.dateAdded, Key.dateModified, Key.id, Key.name, Key.type]
    rfl (by decide) (by decide) ?_
  simp only [strings, folderFields, List.map_cons, List.map_nil, List.forall_mem_cons]
  exact ⟨.array cs hcs, normal_plain ha, normal_plain hm, normal_plain (plain_decimal n), normal_plain ht,
    normal_plain (by decide), by simp⟩

theorem normal_urlValue {a : List Char} (ha : Plain a) (n : ℕ) {t u : WStr} (ht : Plain t) (hu : Plain u) :
    Normal (urlValue a n t u) := by
  refine normal_members [Key.dateAdded, Key.id, Key.name, Key.type, Key.url]
    rfl (by decide) (by decide) ?_
  simp only [strings, urlFields, List.map_cons, List.map_nil, List.forall_mem_cons]
  exact ⟨normal_plain ha, normal_plain (plain_decimal n), normal_plain ht, normal_plain (by decide),
    normal_plain hu, by simp⟩

theorem normal_recordValue {r : FavoriteLineData} (hr : PlainRecord r) (n : ℕ) {cs : List Value}
    (hcs : ∀ c ∈ cs, Normal c) : Normal (recordValue r n cs) := by
  rw [recordValue]
  cases hf : r.bFolder with
  | true => exact normal_folderValue (plain_int64ToString _) (plain_int64ToString _) n hr.1 hcs
  | false => exact normal_urlValue (plain_int64ToString _) n hr.1 (hr.2 hf)

/-- The nodes of a plain forest are written as they are. -/
theorem normal_trees {R : List FavoriteLineData} (hR : ∀ r ∈ R, PlainRecord r) (idx : ℤ → ℕ) :
    ∀ (k : ℕ) (p : ℤ), ∀ x ∈ (trees R idx k p).map (build jsonOps fun r id => parse (nodeText r id)), Normal x
  | 0, _ => by simp [trees]
  | k + 1, p => by
    intro x hx
    rw [trees, List.map_map] at hx
    obtain ⟨r, hr, rfl⟩ := List.mem_map.mp hx
    have hplain := hR r (List.mem_of_mem_filter hr)
    rw [Function.comp_apply, build_plain hplain _ fun hf => by simp [hf]]
    refine normal_recordValue hplain _ ?_
    split
    next => exact normal_trees hR idx k r.nId
    next => simp

theorem normal_root {w : Written} {md5 : List Item → List Char} (hmd5 : cString (md5 w.ctx) = md5 w.ctx)
    (hbar : Normal w.bookmark_bar) (hother : Normal w.other) (hsynced : Normal w.synced) :
    Normal (w.root md5) := by
  refine normal_members [Key.checksum, Key.roots, Key.version] rfl (by decide) (by decide) ?_
  simp only [List.forall_mem_cons]
  refine ⟨.string _ hmd5, ?_, .number 1 (by decide) (by decide), by simp⟩
  refine normal_members [Key.bookmarkBar, Key.other, Key.synced] rfl (by decide) (by decide) ?_
  simp only [List.forall_mem_cons]
  exact ⟨hbar, hother, hsynced, by simp⟩

/-! ### The checksum that is stored -/

theorem cString_md5DigestToBase16 (d : List Byte) : cString (md5DigestToBase16 d) = md5DigestToBase16 d := by
  have hdigit : ∀ k, "0123456789abcdef".toList.getD k '0' ≠ '\x00' := by
    intro k
    rcases Nat.lt_or_ge k 16 with hk | hk
    · have hall : ∀ k < 16, "0123456789abcdef".toList.getD k '0' ≠ '\x00' := by decide
      exact hall k hk
    · rw [List.getD_eq_default _ _ (by simpa using hk)]
      decide
  refine List.takeWhile_eq_self_iff.mpr fun c hc => ?_
  obtain ⟨a, -, ha⟩ := List.mem_flatMap.mp hc
  simp only [List.mem_cons, List.not_mem_nil, or_false] at ha
  rcases ha with rfl | rfl
  · simpa using hdigit _
  · simpa using hdigit _

theorem length_wideBytes (s : WStr) : (wideBytes s).length ≤ 4 * s.length := by
  induction s with
  | nil => simp [wideBytes]
  | cons c s ih =>
    have hc : (utf16Units c).length ≤ 2 := by
      rw [utf16Units]
      split <;> simp
    simp only [wideBytes, List.flatMap_cons, List.flatMap_append, List.length_append,
      List.length_cons] at ih ⊢
    have hunits : ∀ l : List (BitVec 16),
        (l.flatMap fun u : BitVec 16 => [u.setWidth 8, (u >>> 8).setWidth 8]).length = 2 * l.length := by
      intro l
      induction l with
      | nil => rfl
      | cons u l ihl => simp only [List.flatMap_cons, List.length_append, ihl, List.length_cons, List.length_nil]; omega
    simp only [hunits] at ih ⊢
    omega

theorem length_narrowBytes (s : List Char) : (narrowBytes s).length ≤ 4 * s.length := by
  induction s with
  | nil => simp [narrowBytes, unicodeToUtf8]
  | cons c s ih =>
    have hc : (String.utf8EncodeChar c).length ≤ 4 := by
      rw [String.length_utf8EncodeChar]
      exact c.utf8Size_le_four
    simp only [narrowBytes, unicodeToUtf8, List.length_map, List.flatMap_cons, List.length_append,
      List.length_cons] at ih ⊢
    omega

/-- The texts of an item are shorter than a node's buffer. -/
def Item.Short (e : Item) : Prop :=
  e.id.length < 2048 ∧ e.title.length < 2048 ∧ e.type.length < 2048 ∧ ∀ u ∈ e.url, u.length < 2048

theorem Item.Short.pieces {e : Item} (h : e.Short) : ∀ p ∈ e.pieces, p.length < 2 ^ 32 := by
  intro p hp
  rw [Item.pieces, List.mem_append] at hp
  rcases hp with hp | hp
  · simp only [List.mem_cons, List.not_mem_nil, or_false] at hp
    rcases hp with rfl | rfl | rfl
    · exact (length_narrowBytes _).trans_lt (by have := h.1; omega)
    · exact (length_wideBytes _).trans_lt (by have := h.2.1; omega)
    · exact (length_narrowBytes _).trans_lt (by have := h.2.2.1; omega)
  · obtain ⟨u, hu, rfl⟩ := List.mem_map.mp hp
    exact (length_narrowBytes u).trans_lt (by have := h.2.2.2 u (Option.mem_toList.mp hu); omega)

theorem flatten_flatMap_pieces (ctx : List Item) :
    (ctx.flatMap Item.pieces).flatten = ctx.flatMap fun e => e.pieces.flatten := by
  induction ctx with
  | nil => rfl
  | cons e ctx ih => rw [List.flatMap_cons, List.flatten_append, ih, List.flatMap_cons]

/-- The stored checksum is the MD5 of the items that were fed. -/
theorem finalizeChecksum_eq {inBuf : List Byte} (hbuf : inBuf.length = 64) {ctx : List Item}
    (hctx : ∀ e ∈ ctx, e.Short) :
    finalizeChecksum inBuf ctx = some (checksumOf ctx) := by
  have hinit : (md5Init inBuf).Has [] := taken_nil hbuf
  have hpieces : ∀ p ∈ ctx.flatMap Item.pieces, p.length < 2 ^ 32 := by
    intro p hp
    obtain ⟨e, he, hpe⟩ := List.mem_flatMap.mp hp
    exact (hctx e he).pieces p hpe
  obtain ⟨c, hc, hhas⟩ := hinit.updates hpieces
  rw [finalizeChecksum, hc, checksumOf, ← flatten_flatMap_pieces]
  exact congrArg _ hhas.final

/-! ### The file verifies -/

theorem length_le_wcslen (s : WStr) : s.length ≤ wcslen s := by
  induction s with
  | nil => simp
  | cons c s ih =>
    simp only [wcslen, List.map_cons, List.sum_cons, List.length_cons] at ih ⊢
    split <;> omega

/-- What is fed for a record whose text fits. -/
theorem recordItem_short {r : FavoriteLineData} {n : ℕ} (hfit : wcslen (nodeText r n) < 2047) :
    (recordItem r n).Short := by
  have hlen := (length_le_wcslen _).trans_lt hfit
  rw [recordItem]
  rw [nodeText] at hlen
  cases hf : r.bFolder with
  | true =>
    simp only [hf, if_true, folderText, folderFields, fieldsText, fieldText, List.length_append,
      List.length_cons] at hlen
    simp only [Item.Short, if_true]
    exact ⟨by omega, by omega, by decide, by simp⟩
  | false =>
    simp only [hf, Bool.false_eq_true, if_false, urlText, urlFields, fieldsText, fieldText,
      List.length_append, List.length_cons] at hlen
    simp only [Item.Short, Bool.false_eq_true, if_false]
    refine ⟨by omega, by omega, by decide, fun u hu => ?_⟩
    obtain rfl := Option.mem_some_iff.mp hu
    omega

theorem special_short {n : ℕ} {pszName : WStr} (hname : pszName.length ≤ 16) (hn : n < 2 ^ 32) :
    ({ id := decimal n, title := pszName, type := Key.folder } : Item).Short := by
  have hid := length_decimal hn
  simp only [Item.Short]
  exact ⟨by omega, by omega, by decide, by simp⟩

theorem fileItems_root (w : Written) (md5 : List Item → List Char) : fileItems (w.root md5) = w.items := rfl

variable {v : List FavoriteLineData}

theorem textOf_id (a m : List Char) (n : ℕ) (t : WStr) (cs : List Value) :
    textOf (folderValue a m n t cs) Key.id = decimal n := cString_plain (plain_decimal n)

/-- The ids of the two empty special folders are 32-bit numbers. -/
theorem importRoots_ids {now : ℕ → ℤ} {nMaxDepth : ℤ} {nIndex : ℕ} {w : Written}
    (h : importRoots now nMaxDepth nIndex v = some (some w)) :
    (∃ n < 2 ^ 32, textOf w.other Key.id = decimal n) ∧ ∃ n < 2 ^ 32, textOf w.synced Key.id = decimal n := by
  have hid : ∀ (now : ℤ) (pszName : WStr) (hname : pszName.length ≤ 16) (hplain : Plain pszName) (n : ℕ)
      (x : Value), makeSpecialFolderNode now pszName (nextIndex n) = some x →
      ∃ k < 2 ^ 32, textOf x Key.id = decimal k := by
    intro now pszName hname hplain n x hx
    rw [makeSpecial_eq now pszName hname hplain (nextIndex_lt n), Option.some.injEq] at hx
    exact ⟨_, nextIndex_lt n, hx ▸ cString_plain (plain_decimal _)⟩
  simp only [importRoots, Option.bind_eq_bind, Option.bind_eq_some_iff] at h
  obtain ⟨bar, -, built, -, h⟩ := h
  split at h
  next =>
    simp only [Option.bind_eq_some_iff] at h
    obtain ⟨other, hother, synced, hsynced, h⟩ := h
    obtain rfl := Option.some.inj (Option.some.inj h)
    exact ⟨hid _ _ (by decide) (by decide) _ _ hother, hid _ _ (by decide) (by decide) _ _ hsynced⟩
  next => exact absurd (Option.some.inj h) (by simp)

/-- The file that the import writes is read back without an error, and its member `checksum` is the MD5
    of its own nodes. -/
theorem bookmarks_verify (hv : IsTree v) (now : ℕ → ℤ) (nMaxDepth : ℤ) {nIndex : ℕ} (hutf8 : ValidUrls v)
    (hfit : TextsFit v nIndex) (hplain : ∀ r ∈ v, r.bDelete = false → PlainRecord r) {inBuf : List Byte}
    (hbuf : inBuf.length = 64) (real : List Char → List Char) :
    ∃ w checksum, importRoots now nMaxDepth nIndex v = some (some w) ∧
      finalizeChecksum inBuf w.ctx = some checksum ∧
      parse (write real (w.root fun _ => checksum)) = w.root (fun _ => checksum) ∧
      Verifies (write real (w.root fun _ => checksum)) := by
  obtain ⟨otherId, syncedId, w, hw, hbar, hother, hsynced, hctx⟩ :=
    hv.importRoots_eq now nMaxDepth hfit
  have hlive : ∀ r ∈ liveWalk v, PlainRecord r := fun r hr =>
    hplain r (mem_liveWalk hr).1 (mem_liveWalk hr).2
  -- the items of the file are those that were fed
  have hitems : w.ctx = w.items := by
    have hforest := items_trees_plain hlive (nodeId v nIndex) (v.length + 1) 0
    rw [← forest, hv.items_forest, List.map_map] at hforest
    rw [hctx hutf8, Written.items, hbar, hother, hsynced, items_folderValue (by decide),
      items_folderValue (by decide), items_folderValue (by decide), hforest]
    simp [elemItems, Function.comp_def]
  have hshort : ∀ e ∈ w.ctx, e.Short := by
    obtain ⟨⟨k, hk, hotherId⟩, m, hm, hsyncedId⟩ := importRoots_ids hw
    rw [hother, textOf_id] at hotherId
    rw [hsynced, textOf_id] at hsyncedId
    intro e he
    rw [hctx hutf8, hotherId, hsyncedId] at he
    simp only [List.cons_append, List.mem_cons, List.mem_append, List.mem_map, List.not_mem_nil,
      or_false] at he
    rcases he with rfl | ⟨r, hr, rfl⟩ | rfl | rfl
    · exact special_short (by decide) (nextIndex_lt nIndex)
    · exact recordItem_short (hfit r (mem_liveWalk hr).1 (mem_liveWalk hr).2)
    · exact special_short (by decide) hk
    · exact special_short (by decide) hm
  have hsum := finalizeChecksum_eq hbuf hshort
  have hnormal : ∀ md5 : List Item → List Char, cString (md5 w.ctx) = md5 w.ctx → Normal (w.root md5) := by
    intro md5 hmd5
    refine normal_root hmd5 ?_ ?_ ?_
    · rw [hbar]
      exact normal_folderValue (plain_int64ToString _) (plain_int64ToString _) _ (by decide)
        (normal_trees hlive _ _ _)
    · rw [hother]
      exact normal_folderValue (plain_int64ToString _) (plain_int64ToString _) _ (by decide) (by simp)
    · rw [hsynced]
      exact normal_folderValue (plain_int64ToString _) (plain_int64ToString _) _ (by decide) (by simp)
  have hroot := hnormal (fun _ => checksumOf w.ctx) (cString_md5DigestToBase16 _)
  have hread := readValue_write real (hroot.writable real)
  rw [hroot.canon_eq] at hread
  have hparse : parse (write real (w.root fun _ => checksumOf w.ctx)) = w.root fun _ => checksumOf w.ctx := by
    rw [parse, hread]
  refine ⟨w, _, hw, hsum, hparse, by rw [parseOk, hread], ?_⟩
  rw [hparse, fileItems_root, ← hitems]
  exact cString_md5DigestToBase16 _

theorem bookmarks_verify_bookmarkFirst : ∃ w checksum,
    importRoots (fun _ => 0) 5 7 bookmarkFirst = some (some w) ∧
      finalizeChecksum (List.replicate 64 0) w.ctx = some checksum ∧
      parse (write id (w.root fun _ => checksum)) = w.root (fun _ => checksum) ∧
      Verifies (write id (w.root fun _ => checksum)) := by
  have hutf8 : ValidUrls bookmarkFirst := by unfold ValidUrls; decide +kernel
  have hfit : TextsFit bookmarkFirst 7 := by unfold TextsFit; decide +kernel
  have hplain : ∀ r ∈ bookmarkFirst, r.bDelete = false → PlainRecord r := by
    unfold PlainRecord; decide +kernel
  exact bookmarks_verify isTree_bookmarkFirst (fun _ => 0) 5 hutf8 hfit hplain List.length_replicate id

end UrlTraveler.Chrome
