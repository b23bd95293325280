import Mathlib

/-! `decode` and `encode`: the pages of Sogou's favorites file.

        page 0   | 16 bytes | 16..23 kept |  ...            | key |
        page 1   | ...                                      | key |
        tail     | kept                                           |

    A page is XORed with a key stream of 64 blocks, each the image of the one before. The first
    block is made from the page's number and its last `key_size` bytes, which are not touched. Byte
    20 of the file holds `key_size`; on the first page it is XORed twice. -/

namespace UrlTraveler.Sogou

abbrev Byte := BitVec 8
abbrev Bytes := List Byte
abbrev Block := Vector Byte 16

def pageSize : ℕ := 1024

/-! ### One page -/

/-- `init_array`: the page's number, counted from 1, as a `DWORD`, and the key. -/
def initArray (page_index key_size : ℕ) (page_content : Bytes) : Block :=
  Vector.ofFn fun i =>
    if i.val < 4 then BitVec.ofNat 8 ((page_index + 1) % 2 ^ 32 / 256 ^ i.val)
    else if i.val - 4 < key_size then page_content.getD (pageSize - key_size + (i.val - 4)) 0
    else 0

/-- `encode_page` from `pt` on: `n` blocks. -/
def keyStream (calc_encode_page : Block → Block) : ℕ → Block → Bytes
  | 0, _ => []
  | n + 1, init_array =>
    (calc_encode_page init_array).toList ++ keyStream calc_encode_page n (calc_encode_page init_array)

/-- Bytes `lo` up to `hi` are XORed with the key stream. -/
def xorRange (lo hi : ℕ) (encode_page page_content : Bytes) : Bytes :=
  page_content.mapIdx fun m b => if lo ≤ m ∧ m < hi then b ^^^ encode_page.getD m 0 else b

/-- The loop body of both functions. -/
def codePage (calc_encode_page : Block → Block) (key_size page_index : ℕ) (page_content : Bytes) :
    Bytes :=
  let encode_page := keyStream calc_encode_page 64 (initArray page_index key_size page_content)
  let page_content := xorRange 0 (pageSize - key_size) encode_page page_content
  if page_index = 0 then xorRange 16 24 encode_page page_content else page_content

/-! ### The file -/

/-- The loop over `n` pages from `page_index` on. -/
def codePages (calc_encode_page : Block → Block) (key_size : ℕ) : ℕ → ℕ → Bytes → Bytes
  | 0, _, buffer => buffer
  | n + 1, page_index, buffer =>
    codePage calc_encode_page key_size page_index (buffer.take pageSize) ++
      codePages calc_encode_page key_size n (page_index + 1) (buffer.drop pageSize)

/-- What both functions make of a buffer. Without byte 20 it is read out of bounds, and with a key of
    more than 12 bytes the first page, if there is one, writes out of bounds. -/
def codeBuffer (calc_encode_page : Block → Block) (buffer : Bytes) : Option Bytes :=
  match buffer[20]? with
  | none => none
  | some key_size =>
    if 12 < key_size.toNat ∧ pageSize ≤ buffer.length then none
    else some (codePages calc_encode_page key_size.toNat (buffer.length / pageSize) 0 buffer)

/-- The file system: the contents of the files that are there. -/
abbrev Files := List Char → Option Bytes

/-- `decode`: `decode_content` and the files afterwards; `some (none, _)` is the result -1. -/
def decode (calc_encode_page : Block → Block) (file_path : List Char) (fs : Files) :
    Option (Option Bytes × Files) :=
  match fs file_path with
  | none => some (none, fs)
  | some file_buffer => (codeBuffer calc_encode_page file_buffer).map fun buffer =>
      (some buffer, Function.update fs ['a', '.', 'd', 'b'] (some buffer))

/-- `encode`: whether the result is 0, and the files afterwards. -/
def encode (calc_encode_page : Block → Block) (encode_content : Bytes) (save_path : List Char)
    (fs : Files) : Option (Bool × Files) :=
  if encode_content = [] then some (false, fs)
  else (codeBuffer calc_encode_page encode_content).map fun buffer =>
    (true, Function.update fs save_path (some buffer))

/-! ### A page is coded twice -/

variable {calc_encode_page : Block → Block} {key_size : ℕ}

theorem getElem?_xorRange (lo hi : ℕ) (ks page : Bytes) (m : ℕ) : (xorRange lo hi ks page)[m]? =
    page[m]?.map fun b => if lo ≤ m ∧ m < hi then b ^^^ ks.getD m 0 else b := by
  rw [xorRange, List.getElem?_mapIdx]

theorem getElem?_xorRange_of_not {lo hi m : ℕ} (h : ¬ (lo ≤ m ∧ m < hi)) (ks page : Bytes) :
    (xorRange lo hi ks page)[m]? = page[m]? := by
  rw [getElem?_xorRange]
  cases page[m]? with
  | none => rfl
  | some b => rw [Option.map_some, if_neg h]

theorem xorRange_xorRange (lo hi : ℕ) (ks page : Bytes) :
    xorRange lo hi ks (xorRange lo hi ks page) = page := by
  refine List.ext_getElem? fun m => ?_
  rw [getElem?_xorRange, getElem?_xorRange, Option.map_map]
  cases page[m]? with
  | none => rfl
  | some b =>
    rw [Option.map_some, Function.comp_apply]
    split
    · rw [BitVec.xor_assoc, BitVec.xor_self, BitVec.xor_zero]
    · rfl

theorem xorRange_comm (lo hi lo' hi' : ℕ) (ks page : Bytes) :
    xorRange lo hi ks (xorRange lo' hi' ks page) = xorRange lo' hi' ks (xorRange lo hi ks page) := by
  refine List.ext_getElem? fun m => ?_
  simp only [getElem?_xorRange, Option.map_map]
  cases page[m]? with
  | none => rfl
  | some b =>
    simp only [Option.map_some, Function.comp_apply]
    split <;> split <;> rfl

theorem length_codePage (page_index : ℕ) (page : Bytes) :
    (codePage calc_encode_page key_size page_index page).length = page.length := by
  rw [codePage]
  split <;> simp [xorRange]

/-- The bytes that a page keeps: the key, and on the first page bytes 16 to 23. -/
theorem codePage_kept {page_index m : ℕ} (hkey : key_size ≤ 12) (page : Bytes)
    (hm : pageSize - key_size ≤ m ∨ page_index = 0 ∧ 16 ≤ m ∧ m < 24) :
    (codePage calc_encode_page key_size page_index page)[m]? = page[m]? := by
  have hsize : pageSize = 1024 := rfl
  rw [codePage]
  split
  next h0 =>
    rcases hm with hm | ⟨_, hlo, hhi⟩
    · rw [getElem?_xorRange_of_not (by omega), getElem?_xorRange_of_not (by omega)]
    · -- bytes 16 to 23 are XORed twice
      rw [getElem?_xorRange, getElem?_xorRange, Option.map_map]
      cases page[m]? with
      | none => rfl
      | some b =>
        rw [Option.map_some, Function.comp_apply, if_pos ⟨hlo, hhi⟩, if_pos (by omega),
          BitVec.xor_assoc, BitVec.xor_self, BitVec.xor_zero]
  next h0 =>
    have hm : pageSize - key_size ≤ m := hm.resolve_right fun h => h0 h.1
    exact getElem?_xorRange_of_not (by omega) _ _

theorem initArray_congr {page_index : ℕ} {page page' : Bytes}
    (h : ∀ m, pageSize - key_size ≤ m → page[m]? = page'[m]?) :
    initArray page_index key_size page = initArray page_index key_size page' := by
  rw [initArray, initArray]
  congr 1
  funext i
  rw [List.getD_eq_getElem?_getD, List.getD_eq_getElem?_getD, h _ (Nat.le_add_right _ _)]

theorem codePage_codePage (hkey : key_size ≤ 12) (page_index : ℕ) (page : Bytes) :
    codePage calc_encode_page key_size page_index
      (codePage calc_encode_page key_size page_index page) = page := by
  have hinit : initArray page_index key_size (codePage calc_encode_page key_size page_index page) =
      initArray page_index key_size page :=
    initArray_congr fun m hm => codePage_kept hkey page (.inl hm)
  conv_lhs => rw [codePage]
  rw [hinit, codePage]
  split
  · rw [xorRange_comm 0, xorRange_xorRange, xorRange_xorRange]
  · rw [xorRange_xorRange]

/-! ### A file is coded twice -/

theorem length_codePages : ∀ (n page_index : ℕ) (buffer : Bytes),
    (codePages calc_encode_page key_size n page_index buffer).length = buffer.length
  | 0, _, _ => rfl
  | n + 1, page_index, buffer => by
    rw [codePages, List.length_append, length_codePage, length_codePages n, ← List.length_append,
      List.take_append_drop]

theorem length_codePage_take {page_index : ℕ} {buffer : Bytes} (hlen : pageSize ≤ buffer.length) :
    (codePage calc_encode_page key_size page_index (buffer.take pageSize)).length = pageSize := by
  rw [length_codePage, List.length_take]
  omega

theorem codePages_codePages (hkey : key_size ≤ 12) (n page_index : ℕ) (buffer : Bytes)
    (hlen : n * pageSize ≤ buffer.length) : codePages calc_encode_page key_size n page_index
      (codePages calc_encode_page key_size n page_index buffer) = buffer := by
  induction n generalizing page_index buffer with
  | zero => rfl
  | succ n ih =>
    rw [Nat.succ_mul] at hlen
    have hpage : (codePage calc_encode_page key_size page_index (buffer.take pageSize)).length =
        pageSize := length_codePage_take (by omega)
    rw [codePages, codePages, List.take_left' hpage, List.drop_left' hpage, codePage_codePage hkey,
      ih _ _ (by rw [List.length_drop]; omega), List.take_append_drop]

/-- The bytes that a file of `n` pages keeps. -/
def Kept (key_size n i : ℕ) : Prop :=
  16 ≤ i ∧ i < 24 ∨ pageSize - key_size ≤ i % pageSize ∨ n * pageSize ≤ i

theorem codePages_kept (hkey : key_size ≤ 12) (n page_index i : ℕ) (buffer : Bytes)
    (hlen : n * pageSize ≤ buffer.length) (hi : page_index = 0 ∧ 16 ≤ i ∧ i < 24 ∨
      pageSize - key_size ≤ i % pageSize ∨ n * pageSize ≤ i) :
    (codePages calc_encode_page key_size n page_index buffer)[i]? = buffer[i]? := by
  induction n generalizing page_index i buffer with
  | zero => rfl
  | succ n ih =>
    have hsize : pageSize = 1024 := rfl
    rw [Nat.succ_mul] at hlen hi
    have hpage : (codePage calc_encode_page key_size page_index (buffer.take pageSize)).length =
        pageSize := length_codePage_take (by omega)
    rw [codePages]
    by_cases hlt : i < pageSize
    · -- in this page
      rw [List.getElem?_append_left (by omega), codePage_kept hkey, List.getElem?_take_of_lt hlt]
      rw [Nat.mod_eq_of_lt hlt] at hi
      omega
    · have hmod : (i - pageSize) % pageSize = i % pageSize := (Nat.mod_eq_sub_mod (by omega)).symm
      rw [List.getElem?_append_right (by omega), hpage,
        ih _ _ _ (by rw [List.length_drop]; omega) (by omega),
        List.getElem?_drop, Nat.add_sub_cancel' (by omega)]

variable (calc_encode_page) in
/-- Coding a buffer: the result has the same key size, keeps what is to be kept, and is coded back
    to the buffer. -/
theorem codeBuffer_spec {buffer : Bytes} {b : Byte} (h20 : buffer[20]? = some b)
    (hkey : b.toNat ≤ 12) : ∃ out, codeBuffer calc_encode_page buffer = some out ∧
      codeBuffer calc_encode_page out = some buffer ∧ out.length = buffer.length ∧
      ∀ i, Kept b.toNat (buffer.length / pageSize) i → out[i]? = buffer[i]? := by
  have hlen := Nat.div_mul_le_self buffer.length pageSize
  have hkept : ∀ i, Kept b.toNat (buffer.length / pageSize) i →
      (codePages calc_encode_page b.toNat (buffer.length / pageSize) 0 buffer)[i]? = buffer[i]? :=
    fun i hi => codePages_kept hkey _ _ _ _ hlen (hi.imp_left fun h => ⟨rfl, h⟩)
  refine ⟨codePages calc_encode_page b.toNat (buffer.length / pageSize) 0 buffer, ?_, ?_,
    length_codePages _ _ _, hkept⟩
  · rw [codeBuffer, h20]
    exact if_neg (by omega)
  · have h20' := (hkept 20 (.inl (by decide))).trans h20
    rw [codeBuffer, h20']
    dsimp only
    rw [if_neg (by omega), length_codePages, codePages_codePages hkey _ _ _ hlen]

/-- What is written with `encode` is read back with `decode`, what is read with `decode` is written
    back with `encode`, and both keep the bytes 16 to 23, the keys and the tail. -/
theorem decode_encode_involution (calc_encode_page : Block → Block) (content : Bytes)
    (hlen : 21 ≤ content.length) (hkey : (content.getD 20 0).toNat ≤ 12) (path path' : List Char)
    (fs : Files) :
    (∃ file fs₁ fs₂, encode calc_encode_page content path fs = some (true, fs₁) ∧
      fs₁ path = some file ∧ decode calc_encode_page path fs₁ = some (some content, fs₂) ∧
      file.length = content.length ∧
      ∀ i, Kept (content.getD 20 0).toNat (content.length / pageSize) i → file[i]? = content[i]?) ∧
    (fs path = some content → ∃ plain fs₁ fs₂,
      decode calc_encode_page path fs = some (some plain, fs₁) ∧
      encode calc_encode_page plain path' fs₁ = some (true, fs₂) ∧ fs₂ path' = some content ∧
      plain.length = content.length ∧
      ∀ i, Kept (content.getD 20 0).toNat (content.length / pageSize) i → plain[i]? = content[i]?) := by
  have h20 : content[20]? = some (content.getD 20 0) := by
    rw [List.getD_eq_getElem?_getD, List.getElem?_eq_getElem (by omega)]
    rfl
  obtain ⟨out, hout, hback, hsame, hkept⟩ := codeBuffer_spec calc_encode_page h20 hkey
  have hne : content ≠ [] := List.ne_nil_of_length_pos (by omega)
  have hne' : out ≠ [] := List.ne_nil_of_length_pos (by omega)
  constructor
  · refine ⟨out, Function.update fs path (some out),
      Function.update (Function.update fs path (some out)) ['a', '.', 'd', 'b'] (some content),
      by rw [encode, if_neg hne, hout]; rfl, Function.update_self .., ?_, hsame, hkept⟩
    rw [decode, Function.update_self]
    dsimp only
    rw [hback]
    rfl
  · intro hfile
    refine ⟨out, Function.update fs ['a', '.', 'd', 'b'] (some out),
      Function.update (Function.update fs ['a', '.', 'd', 'b'] (some out)) path' (some content), ?_,
      by rw [encode, if_neg hne', hback]; rfl, Function.update_self .., hsame, hkept⟩
    rw [decode, hfile]
    dsimp only
    rw [hout]
    rfl

/-- Two pages and a tail of bytes `0x0C`, so with keys of 12 bytes. -/
theorem decode_encode_involution_replicate :
    ∃ file fs₁ fs₂, encode id (List.replicate 2100 0x0C) ['f'] (fun _ => none) = some (true, fs₁) ∧
      fs₁ ['f'] = some file ∧ decode id ['f'] fs₁ = some (some (List.replicate 2100 0x0C), fs₂) ∧
      file.length = 2100 := by
  have hlen : 21 ≤ (List.replicate 2100 (0x0C : Byte)).length := by rw [List.length_replicate]; decide
  have hkey : ((List.replicate 2100 (0x0C : Byte)).getD 20 0).toNat ≤ 12 := by decide
  obtain ⟨file, fs₁, fs₂, h₁, h₂, h₃, h₄, _⟩ :=
    (decode_encode_involution id (List.replicate 2100 0x0C) hlen hkey ['f'] ['f'] fun _ => none).1
  exact ⟨file, fs₁, fs₂, h₁, h₂, h₃, h₄.trans List.length_replicate⟩

end UrlTraveler.Sogou
