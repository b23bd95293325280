import UrlTraveler.Schemes.Buffers
import UrlTraveler.Schemes.Runs
import UrlTraveler.Sogou.Codec

/-! `decode` access by access.

        file_buffer[20] ──▶ key_size

        init_array    | page_index + 1 | key_size bytes | 0 ... |       16 bytes
        encode_page   | block | block | ...                    | 0 ... | 2048 bytes
        page_content  | ^= encode_page               | key_size bytes |  1024 bytes of file_buffer

    Nothing compares `key_size` with the 12 bytes that `init_array` has for it. Inside the buffers
    the run is the function `codeBuffer`; it leaves them when the file has no byte 20, or a page and
    a key of more than 12 bytes. -/

namespace UrlTraveler.Sogou
open Buffers

/-! ### The run -/

/-- The buffers of `decode`. -/
structure DecodeState where
  file_buffer : Bytes
  init_array : Bytes
  encode_page : Bytes

/-- A `DWORD` in memory. -/
def dwordBytes (n : ℕ) : Bytes := List.ofFn fun i : Fin 4 => BitVec.ofNat 8 (n % 2 ^ 32 / 256 ^ i.val)

/-- The page's number and its key are copied to `init_array`. -/
def fillInitArray (key_size page_index : ℕ) (st : DecodeState) : Option Bytes := do
  let init_array ← writeRange st.init_array 0 (dwordBytes (page_index + 1))
  if key_size = 0 then writeRange init_array 4 (List.replicate 0xC 0)
  else
    let key ← readRange st.file_buffer (page_index * pageSize + (pageSize - key_size)) key_size
    let init_array ← writeRange init_array 4 key
    if key_size < 0xC then writeRange init_array (4 + key_size) (List.replicate (0xC - key_size) 0)
    else some init_array

/-- `calc_encode_page` on bytes in memory. -/
def calcBytes (calc_encode_page : Block → Block) (input : Bytes) : Bytes :=
  (calc_encode_page (Vector.ofFn fun i => input.getD i 0)).toList

/-- One round of the loop that fills `encode_page`; `pt` is `16 * i` bytes into it. -/
def keyBlock (calc_encode_page : Block → Block) (arrays : Bytes × Bytes) (i : ℕ) :
    Option (Bytes × Bytes) := do
  let input ← readRange arrays.1 0 16
  let encode_page ← writeRange arrays.2 (16 * i) (calcBytes calc_encode_page input)
  let block ← readRange encode_page (16 * i) 16
  let init_array ← writeRange arrays.1 0 block
  return (init_array, encode_page)

/-- `page_content[m] ^= encode_page[m]` for `n` bytes of the page from `lo` on. -/
def xorPage (page_index lo n : ℕ) (st : DecodeState) : Option DecodeState :=
  if lo + n ≤ pageSize then do
    let key ← readRange st.encode_page lo n
    let file_buffer ← modifyLoop st.file_buffer (page_index * pageSize + lo) n
      fun m byte => byte ^^^ key.getD m 0
    return { st with file_buffer }
  else none

/-- The body of the loop over the pages. -/
def decodePage (calc_encode_page : Block → Block) (key_size : ℕ) (st : DecodeState) (page_index : ℕ) :
    Option DecodeState := do
  let encode_page ← writeRange st.encode_page 0 (List.replicate 0x800 0)
  let init_array ← fillInitArray key_size page_index st
  let (init_array, encode_page) ←
    (List.range 64).foldlM (keyBlock calc_encode_page) (init_array, encode_page)
  let st ← xorPage page_index 0 (pageSize - key_size) { st with init_array, encode_page }
  if page_index = 0 then xorPage page_index 16 8 st else some st

/-- `decode` from the contents of the file on: `file_buffer` at the end. An access outside a buffer,
    or outside the current page, has no result. -/
def decodeBytes (calc_encode_page : Block → Block) (file : Bytes) : Option Bytes := do
  let key_size ← file[20]?
  let st ← (List.range (file.length / pageSize)).foldlM
    (decodePage calc_encode_page key_size.toNat)
    ⟨file, List.replicate 16 0, List.replicate 0x800 0⟩
  return st.file_buffer

/-! ### `init_array` -/

variable (calc_encode_page : Block → Block) {key_size page_index : ℕ}

@[simp] theorem length_dwordBytes (n : ℕ) : (dwordBytes n).length = 4 := List.length_ofFn

theorem toList_initArray (hkey : key_size ≤ 12) {page : Bytes} (hpage : page.length = pageSize) :
    (initArray page_index key_size page).toList =
      dwordBytes (page_index + 1) ++ page.drop (pageSize - key_size) ++
        List.replicate (12 - key_size) 0 := by
  have hsize : pageSize = 1024 := rfl
  have hdrop : (page.drop (pageSize - key_size)).length = key_size := by
    rw [List.length_drop]
    omega
  refine List.ext_getElem (by simp [hdrop]; omega) fun i hi _ => ?_
  have hi : i < 16 := by simpa using hi
  simp only [initArray, Vector.getElem_toList, Vector.getElem_ofFn]
  rcases Nat.lt_or_ge i 4 with h4 | h4
  · rw [if_pos h4, List.getElem_append_left (by simp; omega), List.getElem_append_left (by simpa)]
    simp only [dwordBytes, List.getElem_ofFn]
  · rw [if_neg (by omega)]
    rcases Nat.lt_or_ge (i - 4) key_size with hk | hk
    · rw [if_pos hk, List.getElem_append_left (by simp; omega), List.getElem_append_right (by simpa),
        List.getElem_drop, List.getD_eq_getElem?_getD, List.getElem?_eq_getElem (by omega)]
      simp
    · rw [if_neg (by omega), List.getElem_append_right (by simp; omega), List.getElem_replicate]

/-- The key is read from the end of the page. -/
theorem readRange_key {st : DecodeState} {pre page post : Bytes} (hkey : key_size ≤ pageSize)
    (hfile : st.file_buffer = pre ++ page ++ post) (hpre : pre.length = page_index * pageSize)
    (hpage : page.length = pageSize) :
    readRange st.file_buffer (page_index * pageSize + (pageSize - key_size)) key_size =
      some (page.drop (pageSize - key_size)) := by
  have hsplit : st.file_buffer =
      pre ++ page.take (pageSize - key_size) ++ page.drop (pageSize - key_size) ++ post := by
    rw [hfile, List.append_assoc pre (page.take _), List.take_append_drop]
  rw [hsplit]
  refine readRange_append post ?_ ?_
  · rw [List.length_append, List.length_take, hpre]
    omega
  · rw [List.length_drop]
    omega

/-- A key of up to 12 bytes fits, and `init_array` is what the function on pages takes. -/
theorem fillInitArray_eq {st : DecodeState} {pre page post : Bytes} (hkey : key_size ≤ 12)
    (hinit : st.init_array.length = 16) (hfile : st.file_buffer = pre ++ page ++ post)
    (hpre : pre.length = page_index * pageSize) (hpage : page.length = pageSize) :
    fillInitArray key_size page_index st = some (initArray page_index key_size page).toList := by
  have hsize : pageSize = 1024 := rfl
  obtain ⟨o₁, o₂, o₃, hold, h₁, h₂, h₃⟩ : ∃ o₁ o₂ o₃ : Bytes, st.init_array = o₁ ++ o₂ ++ o₃ ∧
      o₁.length = 4 ∧ o₂.length = key_size ∧ o₃.length = 12 - key_size := by
    refine ⟨st.init_array.take 4, (st.init_array.drop 4).take key_size,
      (st.init_array.drop 4).drop key_size, by simp, ?_⟩
    simp only [List.length_take, List.length_drop]
    omega
  have hdword : writeRange st.init_array 0 (dwordBytes (page_index + 1)) =
      some (dwordBytes (page_index + 1) ++ o₂ ++ o₃) := by
    have h : writeRange ([] ++ o₁ ++ (o₂ ++ o₃)) 0 (dwordBytes (page_index + 1)) =
        some ([] ++ dwordBytes (page_index + 1) ++ (o₂ ++ o₃)) :=
      writeRange_append rfl (by rw [h₁, length_dwordBytes])
    simpa [hold] using h
  rw [toList_initArray hkey hpage, fillInitArray, hdword]
  simp only [Option.bind_eq_bind, Option.bind_some]
  split
  · -- no key
    next h0 =>
    subst h0
    have hnil : page.drop pageSize = [] := List.drop_eq_nil_of_le hpage.le
    have h : writeRange (dwordBytes (page_index + 1) ++ (o₂ ++ o₃) ++ []) 4
        (List.replicate 12 (0 : Byte)) =
          some (dwordBytes (page_index + 1) ++ List.replicate 12 0 ++ []) :=
      writeRange_append (by simp) (by simp [h₂, h₃])
    simpa [hnil] using h
  · have hread := readRange_key (by omega : key_size ≤ pageSize) hfile hpre hpage
    have hdrop : (page.drop (pageSize - key_size)).length = key_size := by
      rw [List.length_drop]
      omega
    have hwrite : writeRange (dwordBytes (page_index + 1) ++ o₂ ++ o₃) 4
        (page.drop (pageSize - key_size)) =
          some (dwordBytes (page_index + 1) ++ page.drop (pageSize - key_size) ++ o₃) :=
      writeRange_append (by simp) (by rw [h₂, hdrop])
    rw [hread, Option.bind_some, hwrite, Option.bind_some]
    split
    · have h : writeRange
          (dwordBytes (page_index + 1) ++ page.drop (pageSize - key_size) ++ o₃ ++ [])
          (4 + key_size) (List.replicate (12 - key_size) (0 : Byte)) =
            some (dwordBytes (page_index + 1) ++ page.drop (pageSize - key_size) ++
              List.replicate (12 - key_size) 0 ++ []) :=
        writeRange_append (by rw [List.length_append, hdrop, length_dwordBytes]) (by simp [h₃])
      simpa using h
    · -- a key of 12 bytes fills the array
      obtain rfl : key_size = 12 := by omega
      rw [List.length_eq_zero_iff.1 h₃]
      rfl

/-- A longer key is written beyond the array. -/
theorem fillInitArray_eq_none {st : DecodeState} (hkey : 12 < key_size)
    (hinit : st.init_array.length = 16) : fillInitArray key_size page_index st = none := by
  have h0 : key_size ≠ 0 := by omega
  rw [fillInitArray]
  cases hdword : writeRange st.init_array 0 (dwordBytes (page_index + 1)) with
  | none => rfl
  | some init_array =>
    cases hread : readRange st.file_buffer (page_index * pageSize + (pageSize - key_size)) key_size with
    | none => simp [h0]
    | some key =>
      have hlen := length_of_writeRange hdword
      have hkeylen := length_of_readRange hread
      have hwrite : writeRange init_array 4 key = none := by
        rw [writeRange, if_neg (by omega)]
      simp [h0, hwrite]

/-! ### `encode_page` -/

theorem length_keyStream : ∀ (n : ℕ) (init_array : Block),
    (keyStream calc_encode_page n init_array).length = 16 * n
  | 0, _ => rfl
  | n + 1, init_array => by
    rw [keyStream, List.length_append, length_keyStream n, Vector.length_toList]
    omega

theorem keyStream_succ : ∀ (n : ℕ) (init_array : Block),
    keyStream calc_encode_page (n + 1) init_array =
      keyStream calc_encode_page n init_array ++ (calc_encode_page^[n + 1] init_array).toList
  | 0, init_array => by simp [keyStream]
  | n + 1, init_array => by
    rw [keyStream, keyStream_succ n, keyStream, List.append_assoc, ← Function.iterate_succ_apply]

theorem calcBytes_toList (init_array : Block) :
    calcBytes calc_encode_page init_array.toList = (calc_encode_page init_array).toList := by
  have hself : (Vector.ofFn fun i : Fin 16 => init_array.toList.getD i 0) = init_array := by
    ext i hi
    simp [List.getD_eq_getElem?_getD]
  rw [calcBytes, hself]

/-- The rounds of the loop write the key stream, block by block. -/
theorem keyBlocks_eq (init_array : Block) : ∀ n ≤ 128,
    (List.range n).foldlM (keyBlock calc_encode_page)
      (init_array.toList, List.replicate 0x800 0) =
        some ((calc_encode_page^[n] init_array).toList,
          keyStream calc_encode_page n init_array ++ List.replicate (0x800 - 16 * n) 0) := by
  intro n
  induction n with
  | zero =>
    intro _
    rw [List.range_zero, List.foldlM_nil, keyStream, List.nil_append, Nat.mul_zero, Nat.sub_zero]
    rfl
  | succ n ih =>
    intro hn
    have hrest : List.replicate (0x800 - 16 * n) (0 : Byte) =
        List.replicate 16 0 ++ List.replicate (0x800 - 16 * (n + 1)) 0 := by
      rw [List.replicate_append_replicate]
      congr 1
      omega
    have hread : readRange (calc_encode_page^[n] init_array).toList 0 16 =
        some (calc_encode_page^[n] init_array).toList := readRange_all Vector.length_toList
    have hkeys := length_keyStream calc_encode_page n init_array
    have hwrite : writeRange (keyStream calc_encode_page n init_array ++ List.replicate 16 0 ++
        List.replicate (0x800 - 16 * (n + 1)) 0) (16 * n)
        (calc_encode_page^[n + 1] init_array).toList =
          some (keyStream calc_encode_page n init_array ++
            (calc_encode_page^[n + 1] init_array).toList ++
            List.replicate (0x800 - 16 * (n + 1)) 0) := writeRange_append hkeys (by simp)
    have hback : readRange (keyStream calc_encode_page n init_array ++
        (calc_encode_page^[n + 1] init_array).toList ++
        List.replicate (0x800 - 16 * (n + 1)) 0) (16 * n) 16 =
          some (calc_encode_page^[n + 1] init_array).toList :=
      readRange_append _ hkeys Vector.length_toList
    have hcopy : writeRange (calc_encode_page^[n] init_array).toList 0
        (calc_encode_page^[n + 1] init_array).toList =
          some (calc_encode_page^[n + 1] init_array).toList := writeRange_all (by simp)
    rw [List.range_succ, List.foldlM_append, ih (by omega), hrest, ← List.append_assoc]
    simp only [Option.bind_eq_bind, Option.bind_some, List.foldlM_cons, List.foldlM_nil, keyBlock]
    rw [hread, Option.bind_some, calcBytes_toList, ← Function.iterate_succ_apply' calc_encode_page,
      hwrite, Option.bind_some, hback, Option.bind_some, hcopy, keyStream_succ]
    rfl

/-! ### A page -/

/-- A part of a page is XORed with the key stream, in its place in the file. -/
theorem xorPage_eq (st : DecodeState) {lo n : ℕ} {pre page post ks rest : Bytes}
    (hn : lo + n ≤ pageSize) (hfile : st.file_buffer = pre ++ page ++ post)
    (hpre : pre.length = page_index * pageSize) (hpage : page.length = pageSize)
    (hkey : st.encode_page = ks ++ rest) (hks : ks.length = pageSize) :
    xorPage page_index lo n st =
      some { st with file_buffer := pre ++ xorRange lo (lo + n) ks page ++ post } := by
  have hread : readRange st.encode_page lo n = some ((ks.drop lo).take n) := by
    have hsplit : ks = ks.take lo ++ (ks.drop lo).take n ++ (ks.drop lo).drop n := by simp
    rw [hkey]
    nth_rewrite 1 [hsplit]
    rw [List.append_assoc _ _ rest]
    refine readRange_append _ ?_ ?_ <;> simp only [List.length_take, List.length_drop] <;> omega
  have hsame : modifyRange lo n (fun m byte => byte ^^^ ((ks.drop lo).take n).getD m 0) page =
      xorRange lo (lo + n) ks page := by
    refine List.ext_getElem? fun i => ?_
    rw [getElem?_modifyRange, getElem?_xorRange]
    cases page[i]? with
    | none => rfl
    | some byte =>
      rw [Option.map_some, Option.map_some]
      split
      next hi =>
        rw [List.getD_eq_getElem?_getD, List.getElem?_take_of_lt (by omega), List.getElem?_drop,
          Nat.add_sub_cancel' hi.1, List.getD_eq_getElem?_getD]
      next hi => rfl
  have hloop := modifyLoop_eq (pre ++ page ++ post) (page_index * pageSize + lo)
    (fun m byte => byte ^^^ ((ks.drop lo).take n).getD m 0) n
  rw [if_pos (.inr (by simp only [List.length_append]; omega)), ← hpre,
    modifyRange_append pre page post lo n _ (by omega), hsame] at hloop
  rw [xorPage, if_pos hn, hread, hfile]
  simp only [Option.bind_eq_bind, Option.bind_some]
  rw [← hpre, hloop]
  rfl

/-- A page with a key of up to 12 bytes: the accesses stay inside, and the page is coded. -/
theorem decodePage_eq {st : DecodeState} {pre page post : Bytes} (hkey : key_size ≤ 12)
    (hinit : st.init_array.length = 16) (hencode : st.encode_page.length = 0x800)
    (hfile : st.file_buffer = pre ++ page ++ post)
    (hpre : pre.length = page_index * pageSize) (hpage : page.length = pageSize) :
    ∃ init_array encode_page, decodePage calc_encode_page key_size st page_index =
      some ⟨pre ++ codePage calc_encode_page key_size page_index page ++ post, init_array, encode_page⟩ ∧
      init_array.length = 16 ∧ encode_page.length = 0x800 := by
  have hsize : pageSize = 1024 := rfl
  have hclear : writeRange st.encode_page 0 (List.replicate 0x800 0) =
      some (List.replicate 0x800 0) := writeRange_all (by rw [hencode, List.length_replicate])
  have hfill := fillInitArray_eq hkey hinit hfile hpre hpage
  have hblocks := keyBlocks_eq calc_encode_page (initArray page_index key_size page) 64 (by decide)
  have hks := length_keyStream calc_encode_page 64 (initArray page_index key_size page)
  rw [decodePage, hclear]
  simp only [Option.bind_eq_bind, Option.bind_some, hfill, hblocks]
  set init := (calc_encode_page^[64] (initArray page_index key_size page)).toList with hinit'
  set ks := keyStream calc_encode_page 64 (initArray page_index key_size page) with hks'
  have hlo : 0 + (pageSize - key_size) ≤ pageSize := by omega
  rw [xorPage_eq ⟨st.file_buffer, init, ks ++ List.replicate (0x800 - 16 * 64) 0⟩ hlo hfile hpre
    hpage rfl hks, Option.bind_some, codePage, Nat.zero_add]
  have hlen : (ks ++ List.replicate (0x800 - 16 * 64) (0 : Byte)).length = 0x800 := by
    rw [List.length_append, List.length_replicate, hks]
  refine ⟨init, ks ++ List.replicate (0x800 - 16 * 64) 0, ?_, by simp [hinit'], hlen⟩
  split
  · -- the first page keeps the bytes 16 to 23
    next h0 =>
    have hpage' : (xorRange 0 (pageSize - key_size) ks page).length = pageSize := by
      simpa [xorRange] using hpage
    have hrange : 16 + 8 ≤ pageSize := by decide
    rw [xorPage_eq _ hrange rfl hpre hpage' rfl hks]
  · rfl

theorem decodePage_eq_none {st : DecodeState} (hkey : 12 < key_size)
    (hinit : st.init_array.length = 16) : decodePage calc_encode_page key_size st page_index = none := by
  rw [decodePage]
  cases writeRange st.encode_page 0 (List.replicate 0x800 (0 : Byte)) with
  | none => rfl
  | some encode_page =>
    rw [fillInitArray_eq_none hkey hinit]
    rfl

/-! ### The file -/

/-- The loop over `n` pages from `page_index` on. -/
theorem decodePages_eq (hkey : key_size ≤ 12) (n page_index : ℕ) (st : DecodeState) {pre buffer : Bytes}
    (hinit : st.init_array.length = 16) (hencode : st.encode_page.length = 0x800)
    (hfile : st.file_buffer = pre ++ buffer) (hpre : pre.length = page_index * pageSize)
    (hlen : n * pageSize ≤ buffer.length) : ∃ st',
      (List.range' page_index n).foldlM (decodePage calc_encode_page key_size) st = some st' ∧
        st'.file_buffer = pre ++ codePages calc_encode_page key_size n page_index buffer := by
  induction n generalizing page_index st pre buffer with
  | zero => exact ⟨st, rfl, hfile⟩
  | succ n ih =>
    rw [Nat.succ_mul] at hlen
    have hpage : (buffer.take pageSize).length = pageSize := by
      rw [List.length_take]
      omega
    have hsplit : st.file_buffer = pre ++ buffer.take pageSize ++ buffer.drop pageSize := by
      rw [hfile, List.append_assoc, List.take_append_drop]
    obtain ⟨init_array, encode_page, hstep, hinit', hencode'⟩ :=
      decodePage_eq calc_encode_page hkey hinit hencode hsplit hpre hpage
    have hpre' : (pre ++ codePage calc_encode_page key_size page_index
        (buffer.take pageSize)).length = (page_index + 1) * pageSize := by
      rw [List.length_append, length_codePage, hpre, hpage, Nat.succ_mul]
    have hlen' : n * pageSize ≤ (buffer.drop pageSize).length := by
      rw [List.length_drop]
      omega
    obtain ⟨st', hrun, hresult⟩ := ih (page_index + 1) ⟨_, init_array, encode_page⟩
      hinit' hencode' rfl hpre' hlen'
    refine ⟨st', ?_, ?_⟩
    · rw [List.range'_succ, Runs.foldlM_cons_some hstep]
      exact hrun
    · rw [hresult, codePages, List.append_assoc]

/-- The run access by access is the function on the file, where it has a result. -/
theorem decodeBytes_eq_codeBuffer (file : Bytes) :
    decodeBytes calc_encode_page file = codeBuffer calc_encode_page file := by
  rw [decodeBytes, codeBuffer]
  cases file[20]? with
  | none => rfl
  | some key_size =>
    simp only [Option.bind_eq_bind, Option.bind_some, List.range_eq_range']
    by_cases hpages : pageSize ≤ file.length
    · by_cases hkey : 12 < key_size.toNat
      · -- the first page already leaves `init_array`
        obtain ⟨n, hn⟩ : ∃ n, file.length / pageSize = n + 1 :=
          Nat.exists_eq_add_one.2 (Nat.div_pos hpages (by decide))
        rw [if_pos ⟨hkey, hpages⟩, hn, List.range'_succ, List.foldlM_cons,
          decodePage_eq_none calc_encode_page hkey (List.length_replicate)]
        rfl
      · obtain ⟨st', hrun, hresult⟩ := decodePages_eq calc_encode_page (not_lt.1 hkey)
          (file.length / pageSize) 0 ⟨file, List.replicate 16 0, List.replicate 0x800 0⟩
          List.length_replicate List.length_replicate (List.nil_append file).symm
          (Nat.zero_mul _).symm (Nat.div_mul_le_self _ _)
        rw [if_neg fun h => hkey h.1, hrun, Option.bind_some, hresult]
        rfl
    · rw [if_neg fun h => hpages h.2, Nat.div_eq_of_lt (not_le.1 hpages)]
      rfl

/-- `decode` stays inside its buffers exactly when the file has a byte 20 and, if it has a page, a
    key of at most 12 bytes. -/
theorem decodeBytes_isSome_iff (file : Bytes) : (decodeBytes calc_encode_page file).isSome ↔
    21 ≤ file.length ∧ (file.length < pageSize ∨ (file.getD 20 0).toNat ≤ 12) := by
  rw [decodeBytes_eq_codeBuffer, codeBuffer, List.getD_eq_getElem?_getD]
  cases hkey : file[20]? with
  | none =>
    have := List.getElem?_eq_none_iff.1 hkey
    simp only [Option.isSome_none, Bool.false_eq_true, false_iff]
    omega
  | some key_size =>
    obtain ⟨hlen, -⟩ := List.getElem?_eq_some_iff.1 hkey
    simp only [Option.getD_some]
    split <;> simp only [Option.isSome_none, Option.isSome_some, Bool.false_eq_true, false_iff,
      true_iff] <;> omega

/-- A page of bytes `0x0D` has a key of 13 bytes. -/
theorem decodeBytes_leaves_buffers :
    ¬ ∀ (calc_encode_page : Block → Block) (file : Bytes), (decodeBytes calc_encode_page file).isSome := by
  intro h
  have hpage := h id (List.replicate 1024 0x0D)
  have h20 : (List.replicate 1024 (0x0D : Byte))[20]? = some 0x0D := rfl
  have hkey : 12 < (0x0D : Byte).toNat ∧ pageSize ≤ (List.replicate 1024 (0x0D : Byte)).length :=
    ⟨by decide, by rw [List.length_replicate]; exact le_rfl⟩
  rw [decodeBytes_eq_codeBuffer, codeBuffer, h20] at hpage
  simp only [if_pos hkey, Option.isSome_none, Bool.false_eq_true] at hpage

end UrlTraveler.Sogou
