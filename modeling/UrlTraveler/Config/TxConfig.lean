import UrlTraveler.Schemes.Maps

/-! `CTxConfig`: the client configuration as a file.

    The file is a header and one item after the other, without padding:

        wMagic  byMajorVer  byMinorVer  wNumOfItems  │  item  item  ..
          2         1           1            2

        byFlag  wKeyLen  key       dwValueLen  value
          1        2     wKeyLen       4       dwValueLen

    Key and value are scrambled with a byte made from their lengths. The parser takes the key out
    with `wcscpy_s`, up to the first wide NUL, and cuts it afterwards. No NUL stands behind the key:
    the copy goes on into `dwValueLen`, whose upper half is 0 for a value below 64 KB, and else into
    the value. When no NUL comes before the buffer is full, the program ends.

    A wide string is a list of 16-bit characters, a `std::string` a list of bytes. Keys have fewer
    than 2^15 characters, so that `wKeyLen` holds their length in bytes. -/

namespace UrlTraveler.Config
open Maps

abbrev WString := List UInt16
abbrev Bytes := List UInt8

/-- `m_mapKey2Value`, in the order it is iterated in. -/
abbrev KeyMap := List (WString × Bytes)

def txConfigMagic : ℕ := 0x4454
def txItemFlag : UInt8 := 0x9

/-! ### Writing -/

def word (n : ℕ) : Bytes := [UInt8.ofNat n, UInt8.ofNat (n / 0x100)]

def dword (n : ℕ) : Bytes := word n ++ word (n / 0x10000)

/-- `LOBYTE(n) ^ HIBYTE(n) ^ ~b`. -/
def scramble (n : ℕ) (b : UInt8) : UInt8 := UInt8.ofNat n ^^^ UInt8.ofNat (n / 0x100) ^^^ ~~~b

/-- The characters of a key as they lie in memory. -/
def wideBytes (key : WString) : Bytes := key.flatMap fun c => word c.toNat

def itemBytes (e : WString × Bytes) : Bytes :=
  let wKeyLen := e.1.length * 2
  let dwValueLen := e.2.length
  txItemFlag :: word wKeyLen ++ (wideBytes e.1).map (scramble wKeyLen) ++
    dword dwValueLen ++ e.2.map (scramble dwValueLen)

/-- `MakeConfig`: what it writes, nothing for an empty map. -/
def makeConfig (m : KeyMap) : Option Bytes :=
  if m.length = 0 then none
  else some (word txConfigMagic ++ [1, 1] ++ word m.length ++ m.flatMap itemBytes)

/-! ### Parsing -/

def readWord (b₀ b₁ : UInt8) : ℕ := b₀.toNat + 0x100 * b₁.toNat

/-- `wcscpy_s(dst, size, src)`: the characters before the first NUL; it must be among the first
    `size`, and inside the memory that is read. -/
def wcscpyS : ℕ → Bytes → Option WString
  | size + 1, b₀ :: b₁ :: src =>
    if b₀ = 0 ∧ b₁ = 0 then some [] else (wcscpyS size src).map (UInt16.ofNat (readWord b₀ b₁) :: ·)
  | _, _ => none

/-- One item from the front of the buffer: its key and value, and what is left. A length that
    reaches past the buffer, or past the end of `szKey`, ends the program. -/
def parseItem (buf : Bytes) : Option ((WString × Bytes) × Bytes) :=
  match buf with
  | _ :: k₀ :: k₁ :: buf =>
    let wKeyLen := readWord k₀ k₁
    let key := (buf.take wKeyLen).map (scramble wKeyLen)
    match buf.drop wKeyLen with
    | d₀ :: d₁ :: d₂ :: d₃ :: buf =>
      let dwValueLen := readWord d₀ d₁ + 0x10000 * readWord d₂ d₃
      let value := (buf.take dwValueLen).map (scramble dwValueLen)
      if dwValueLen ≤ buf.length ∧ wKeyLen / 2 < 260 then
        (wcscpyS 259 (key ++ d₀ :: d₁ :: d₂ :: d₃ :: value ++ buf.drop dwValueLen)).map fun szKey =>
          ((szKey.take (wKeyLen / 2), value), buf.drop dwValueLen)
      else none
    | _ => none
  | _ => none

def parseItems : ℕ → Bytes → KeyMap → Option KeyMap
  | 0, _, m => some m
  | n + 1, buf, m => (parseItem buf).bind fun (e, buf) => parseItems n buf (setKey m e.1 e.2)

/-- `ParseConfig`: its return value and the map, given the map as it was. -/
def parseConfig (m : KeyMap) (buf : Bytes) : Option (Bool × KeyMap) :=
  match buf with
  | m₀ :: m₁ :: buf =>
    if readWord m₀ m₁ = txConfigMagic then
      match buf with
      | _ :: _ :: n₀ :: n₁ :: buf => (parseItems (readWord n₀ n₁) buf m).map fun m => (true, m)
      | _ => none
    else some (false, m)
  | _ => none

/-! ### Bytes -/

theorem toNat_ofNat (n : ℕ) : (UInt8.ofNat n).toNat = n % 256 := by simp

theorem scramble_scramble (n : ℕ) (b : UInt8) : scramble n (scramble n b) = b := by
  simp only [scramble]
  generalize UInt8.ofNat n ^^^ UInt8.ofNat (n / 0x100) = c
  simp only [UInt8.xor_not, UInt8.not_not]
  rw [← UInt8.xor_assoc, UInt8.xor_self, UInt8.zero_xor]

theorem map_scramble (n : ℕ) (l : Bytes) : (l.map (scramble n)).map (scramble n) = l := by
  rw [List.map_map]
  simp [Function.comp_def, scramble_scramble]

theorem readWord_word {n : ℕ} (h : n < 0x10000) :
    readWord (UInt8.ofNat n) (UInt8.ofNat (n / 0x100)) = n := by
  rw [readWord, toNat_ofNat, toNat_ofNat]
  omega

theorem length_wideBytes (key : WString) : (wideBytes key).length = key.length * 2 := by
  induction key with
  | nil => rfl
  | cons c key ih =>
    simp only [wideBytes, List.flatMap_cons, List.length_append, List.length_cons] at ih ⊢
    rw [ih]
    simp only [word, List.length_cons, List.length_nil]
    omega

/-! ### Copying the key -/

/-- A wide NUL, at character `i`. -/
def NulAt (src : Bytes) (i : ℕ) : Prop := src[2 * i]? = some 0 ∧ src[2 * i + 1]? = some 0

theorem nulAt_cons_cons (b₀ b₁ : UInt8) (src : Bytes) (i : ℕ) :
    NulAt (b₀ :: b₁ :: src) (i + 1) ↔ NulAt src i := by
  simp only [NulAt, Nat.mul_add, Nat.mul_one, List.getElem?_cons_succ]

/-- COPY: `wcscpy_s` gets through exactly when a NUL is among the first `size` characters. -/
theorem wcscpyS_isSome_iff : ∀ (size : ℕ) (src : Bytes),
    (wcscpyS size src).isSome ↔ ∃ i < size, NulAt src i := by
  intro size
  induction size with
  | zero => simp [wcscpyS]
  | succ size ih =>
    intro src
    match src with
    | [] => simp [wcscpyS, NulAt]
    | [b] => simp [wcscpyS, NulAt]
    | b₀ :: b₁ :: src =>
      have hsplit : (∃ i < size + 1, NulAt (b₀ :: b₁ :: src) i) ↔
          (b₀ = 0 ∧ b₁ = 0) ∨ ∃ i < size, NulAt src i := by
        constructor
        · rintro ⟨i, hi, h⟩
          cases i with
          | zero => exact .inl (by simpa [NulAt] using h)
          | succ i => exact .inr ⟨i, by omega, (nulAt_cons_cons b₀ b₁ src i).mp h⟩
        · rintro (h | ⟨i, hi, h⟩)
          · exact ⟨0, by omega, by simpa [NulAt] using h⟩
          · exact ⟨i + 1, by omega, (nulAt_cons_cons b₀ b₁ src i).mpr h⟩
      rw [hsplit, wcscpyS, ← ih src]
      by_cases h0 : b₀ = 0 ∧ b₁ = 0
      · simp [h0]
      · simp [h0]

theorem ofNat_readWord (c : UInt16) : UInt16.ofNat (readWord (UInt8.ofNat c.toNat)
    (UInt8.ofNat (c.toNat / 0x100))) = c := by
  rw [readWord_word c.toNat_lt]
  simp

theorem word_ne_zero {c : UInt16} (h : c ≠ 0) :
    ¬ (UInt8.ofNat c.toNat = 0 ∧ UInt8.ofNat (c.toNat / 0x100) = 0) := by
  rintro ⟨h₀, h₁⟩
  have hc := ofNat_readWord c
  rw [h₀, h₁] at hc
  exact h hc.symm

/-- The characters of the key are copied, and the copy goes on behind it. -/
theorem wcscpyS_wideBytes : ∀ (key : WString) (size : ℕ) (src : Bytes), 0 ∉ key →
    wcscpyS (key.length + size) (wideBytes key ++ src) = (wcscpyS size src).map (key ++ ·) := by
  intro key
  induction key with
  | nil =>
    intro size src _
    simp [wideBytes]
  | cons c key ih =>
    intro size src h
    have hc : c ≠ 0 := fun hc => h (hc ▸ List.mem_cons_self)
    have hbytes : wideBytes (c :: key) ++ src =
        UInt8.ofNat c.toNat :: UInt8.ofNat (c.toNat / 0x100) :: (wideBytes key ++ src) := rfl
    rw [hbytes, List.length_cons, show key.length + 1 + size = key.length + size + 1 by omega,
      wcscpyS, if_neg (word_ne_zero hc), ih size src fun hk => h (List.mem_cons_of_mem _ hk),
      Option.map_map, ofNat_readWord]
    rfl

/-! ### One item -/

/-- A key as the map may have it: some characters, no NUL, at most 255. -/
structure KeyOk (key : WString) : Prop where
  nonempty : key ≠ []
  noNul : 0 ∉ key
  length_le : key.length ≤ 255

/-- A NUL comes in time: in the length of the value, or early in the value. -/
def NulBehind (e : WString × Bytes) : Prop :=
  e.2.length < 0x10000 ∨ e.2.length % 0x10000 = 0 ∨ ∃ i ≤ 256 - e.1.length, NulAt e.2 i

theorem ofNat_eq_zero_iff (n : ℕ) : UInt8.ofNat n = 0 ↔ n % 256 = 0 := by
  rw [← UInt8.toNat_inj, toNat_ofNat]
  rfl

theorem word_eq_zero_iff (n : ℕ) :
    UInt8.ofNat n = 0 ∧ UInt8.ofNat (n / 0x100) = 0 ↔ n % 0x10000 = 0 := by
  rw [ofNat_eq_zero_iff, ofNat_eq_zero_iff]
  omega

/-- What the copy finds behind the key. -/
theorem nulBehind_iff {e : WString × Bytes} (hk : e.1.length ≤ 255) (hv : e.2.length < 2 ^ 32)
    (tail : Bytes) : (∃ i < 259 - e.1.length, NulAt (dword e.2.length ++ e.2 ++ tail) i) ↔
      NulBehind e := by
  have hlow : NulAt (dword e.2.length ++ e.2 ++ tail) 0 ↔ e.2.length % 0x10000 = 0 := by
    rw [← word_eq_zero_iff]
    simp [NulAt, dword, word]
  have hhigh : NulAt (dword e.2.length ++ e.2 ++ tail) 1 ↔ e.2.length < 0x10000 := by
    have hdiv : e.2.length / 0x10000 % 0x10000 = 0 ↔ e.2.length < 0x10000 := by omega
    rw [← hdiv, ← word_eq_zero_iff]
    simp [NulAt, dword, word]
  have hvalue : ∀ i, NulAt (dword e.2.length ++ e.2 ++ tail) (i + 2) ↔ NulAt (e.2 ++ tail) i := by
    intro i
    exact (nulAt_cons_cons _ _ _ (i + 1)).trans (nulAt_cons_cons _ _ _ i)
  -- a long value covers all characters the copy can still take
  have hinside : ∀ i ≤ 256 - e.1.length, 0x10000 ≤ e.2.length → (NulAt (e.2 ++ tail) i ↔ NulAt e.2 i) := by
    intro i hi hlong
    rw [NulAt, NulAt, List.getElem?_append_left (by omega), List.getElem?_append_left (by omega)]
  constructor
  · rintro ⟨i, hi, h⟩
    match i with
    | 0 => exact .inr (.inl (hlow.mp h))
    | 1 => exact .inl (hhigh.mp h)
    | i + 2 =>
      rcases Nat.lt_or_ge e.2.length 0x10000 with hshort | hlong
      · exact .inl hshort
      · exact .inr (.inr ⟨i, by omega, (hinside i (by omega) hlong).mp ((hvalue i).mp h)⟩)
  · rintro (h | h | ⟨i, hi, h⟩)
    · exact ⟨1, by omega, hhigh.mpr h⟩
    · exact ⟨0, by omega, hlow.mpr h⟩
    · rcases Nat.lt_or_ge e.2.length 0x10000 with hshort | hlong
      · exact ⟨1, by omega, hhigh.mpr hshort⟩
      · exact ⟨i + 2, by omega, (hvalue i).mpr ((hinside i hi hlong).mpr h)⟩

theorem parseItem_itemBytes {e : WString × Bytes} (hk : e.1.length ≤ 255) (hv : e.2.length < 2 ^ 32)
    (tail : Bytes) : parseItem (itemBytes e ++ tail) =
      (wcscpyS 259 (wideBytes e.1 ++ (dword e.2.length ++ e.2 ++ tail))).map fun szKey =>
        ((szKey.take e.1.length, e.2), tail) := by
  obtain ⟨key, value⟩ := e
  simp only at hk hv ⊢
  let keyBytes := (wideBytes key).map (scramble (key.length * 2))
  let valueBytes := value.map (scramble value.length)
  have hitem : itemBytes (key, value) ++ tail = txItemFlag :: UInt8.ofNat (key.length * 2) ::
      UInt8.ofNat (key.length * 2 / 0x100) :: (keyBytes ++ (dword value.length ++
        (valueBytes ++ tail))) := by
    simp [itemBytes, word, keyBytes, valueBytes]
  have hkey : keyBytes.length = key.length * 2 := by simp [keyBytes, length_wideBytes]
  have hvalue : valueBytes.length = value.length := by simp [valueBytes]
  have hkeyLen := readWord_word (n := key.length * 2) (by omega)
  have hlow : readWord (UInt8.ofNat value.length) (UInt8.ofNat (value.length / 0x100)) =
      value.length % 0x10000 := by
    rw [readWord, toNat_ofNat, toNat_ofNat]
    omega
  have hhigh := readWord_word (n := value.length / 0x10000) (by omega)
  have hvalueLen : value.length % 0x10000 + 0x10000 * (value.length / 0x10000) = value.length := by
    omega
  rw [hitem, parseItem]
  simp only [hkeyLen, List.take_left' hkey, List.drop_left' hkey, dword, word, List.cons_append,
    List.nil_append, hlow, hhigh, hvalueLen, List.take_left' hvalue, List.drop_left' hvalue,
    keyBytes, valueBytes, map_scramble]
  rw [if_pos ⟨by simp, by omega⟩]
  simp

/-- The key is copied as far as it goes, and then what stands behind it. -/
theorem wcscpyS_key {key : WString} (hk : KeyOk key) (tail : Bytes) :
    wcscpyS 259 (wideBytes key ++ tail) = (wcscpyS (259 - key.length) tail).map (key ++ ·) := by
  have hsize : 259 = key.length + (259 - key.length) := by
    have := hk.length_le
    omega
  rw [hsize, wcscpyS_wideBytes key _ _ hk.noNul, Nat.add_sub_cancel_left]

/-- ITEM: an item is read back when a NUL comes in time, and else the program ends. -/
theorem parseItem_some {e : WString × Bytes} (hk : KeyOk e.1) (hv : e.2.length < 2 ^ 32)
    (h : NulBehind e) (tail : Bytes) : parseItem (itemBytes e ++ tail) = some (e, tail) := by
  obtain ⟨more, hmore⟩ := Option.isSome_iff_exists.mp
    ((wcscpyS_isSome_iff _ _).mpr ((nulBehind_iff hk.length_le hv tail).mpr h))
  rw [parseItem_itemBytes hk.length_le hv, wcscpyS_key hk, hmore]
  simp

theorem parseItem_none {e : WString × Bytes} (hk : KeyOk e.1) (hv : e.2.length < 2 ^ 32)
    (h : ¬ NulBehind e) (tail : Bytes) : parseItem (itemBytes e ++ tail) = none := by
  have hnone : wcscpyS (259 - e.1.length) (dword e.2.length ++ e.2 ++ tail) = none := by
    rw [← Option.not_isSome_iff_eq_none, wcscpyS_isSome_iff, nulBehind_iff hk.length_le hv]
    exact h
  rw [parseItem_itemBytes hk.length_le hv, wcscpyS_key hk, hnone]
  rfl

/-! ### The file -/

/-- A map that can be in the program: its values are shorter than 4 GB, the range of `size_t`. -/
structure Storable (m : KeyMap) : Prop where
  keys : Keys m
  keyOk : ∀ e ∈ m, KeyOk e.1
  size : ∀ e ∈ m, e.2.length < 2 ^ 32

theorem parseItems_iff : ∀ (m acc : KeyMap), Keys (acc ++ m) → (∀ e ∈ m, KeyOk e.1) →
    (∀ e ∈ m, e.2.length < 2 ^ 32) →
    (parseItems m.length (m.flatMap itemBytes) acc = some (acc ++ m) ↔ ∀ e ∈ m, NulBehind e) := by
  intro m
  induction m with
  | nil => simp [parseItems]
  | cons e m ih =>
    intro acc hkeys hok hsize
    obtain ⟨hk, hok⟩ := List.forall_mem_cons.mp hok
    obtain ⟨hv, hsize⟩ := List.forall_mem_cons.mp hsize
    rw [List.flatMap_cons, List.length_cons, parseItems]
    by_cases h : NulBehind e
    · have hnew : e.1 ∉ acc.map (·.1) := by
        rw [Keys, List.map_append, List.nodup_append] at hkeys
        exact fun hmem => hkeys.2.2 _ hmem e.1 (by simp) rfl
      have hcons : acc ++ e :: m = acc ++ [(e.1, e.2)] ++ m := by simp
      rw [parseItem_some hk hv h, Option.bind_some]
      simp only [setKey_of_notMem hnew, List.forall_mem_cons, h, true_and]
      rw [hcons]
      exact ih _ (by rwa [← hcons]) hok hsize
    · rw [parseItem_none hk hv h]
      simp [h]

theorem parseConfig_makeConfig {m : KeyMap} (hne : m ≠ []) (hnum : m.length < 0x10000) :
    (makeConfig m).bind (parseConfig []) =
      (parseItems m.length (m.flatMap itemBytes) []).map fun m' => (true, m') := by
  have hlen : m.length ≠ 0 := fun h => hne (List.length_eq_zero_iff.mp h)
  have hmagic := readWord_word (n := txConfigMagic) (by decide)
  rw [makeConfig, if_neg hlen, Option.bind_some]
  simp only [word, List.cons_append, List.nil_append, parseConfig, hmagic, if_true,
    readWord_word hnum]

/-- ROUND TRIP: the file of a map is parsed to this map exactly when behind every key a NUL comes in
    time: each value is shorter than 64 KB, or a multiple of 64 KB long, or has a wide NUL so early
    that it still fits with the key into the buffer. -/
theorem config_roundtrip_iff (m : KeyMap) (hne : m ≠ []) (hnum : m.length < 65536)
    (hm : Storable m) :
    (makeConfig m).bind (parseConfig []) = some (true, m) ↔ ∀ e ∈ m, NulBehind e := by
  rw [parseConfig_makeConfig hne hnum, ← parseItems_iff m [] hm.keys hm.keyOk hm.size]
  simp

/-- A value with a NUL byte and an empty one. -/
def twoKeys : KeyMap := [([97], [0, 1, 255]), ([97, 98], [])]

theorem config_roundtrip_twoKeys :
    (makeConfig twoKeys).bind (parseConfig []) = some (true, twoKeys) := by
  refine (config_roundtrip_iff twoKeys (by decide) (by decide) ⟨?_, ?_, by decide⟩).mpr ?_
  · unfold Keys
    decide
  · have hall : ∀ e ∈ twoKeys, e.1 ≠ [] ∧ 0 ∉ e.1 ∧ e.1.length ≤ 255 := by decide
    exact fun e he => ⟨(hall e he).1, (hall e he).2.1, (hall e he).2.2⟩
  · have hall : ∀ e ∈ twoKeys, e.2.length < 0x10000 := by decide
    exact fun e he => .inl (hall e he)

theorem not_nulBehind (key : WString) {value : Bytes} (hlong : 0x10000 ≤ value.length)
    (hrest : value.length % 0x10000 ≠ 0) (hno : 0 ∉ value) : ¬ NulBehind (key, value) := by
  rintro (h | h | ⟨i, -, h, -⟩)
  · exact absurd h (not_lt.mpr hlong)
  · exact hrest h
  · exact hno (List.mem_of_getElem? h)

theorem single_ends_program {e : WString × Bytes} (hk : KeyOk e.1) (hv : e.2.length < 2 ^ 32)
    (h : ¬ NulBehind e) : (makeConfig [e]).bind (parseConfig []) = none := by
  have hitem := parseItem_none hk hv h []
  rw [List.append_nil] at hitem
  rw [parseConfig_makeConfig (List.cons_ne_nil _ _) (by simp), List.flatMap_singleton,
    List.length_singleton, parseItems, hitem]
  rfl

/-- A value one byte longer than 64 KB, without a NUL. -/
def longValue : KeyMap := [([97], List.replicate 65537 1)]

theorem longValue_ends_program : longValue ≠ [] ∧ longValue.length < 65536 ∧ Storable longValue ∧
    (makeConfig longValue).bind (parseConfig []) = none := by
  have hkey : KeyOk [97] := ⟨by decide, by decide, by decide⟩
  have hlen : (List.replicate 65537 (1 : UInt8)).length = 65537 := List.length_replicate
  have hno : ¬ NulBehind ([97], List.replicate 65537 1) := by
    refine not_nulBehind _ ?_ ?_ fun h => ?_
    · rw [hlen]
      norm_num
    · rw [hlen]
      norm_num
    · exact absurd (List.eq_of_mem_replicate h) (by decide)
  have hsize : (List.replicate 65537 (1 : UInt8)).length < 2 ^ 32 := by
    rw [hlen]
    norm_num
  refine ⟨List.cons_ne_nil _ _, Nat.lt_of_sub_pos (Nat.succ_pos _), ⟨List.nodup_singleton _, ?_, ?_⟩,
    single_ends_program hkey hsize hno⟩
  · intro e he
    rw [List.mem_singleton.mp he]
    exact hkey
  · intro e he
    rw [List.mem_singleton.mp he]
    exact hsize

end UrlTraveler.Config
