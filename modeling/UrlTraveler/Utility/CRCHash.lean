import UrlTraveler.Schemes.Crc

/-! `CCRCHash`: the hash of a title.

    `InitCRC32Table` runs the plain register of the polynomial `0x04C11DB7` on the reflected index
    and reflects the result; `GetCRC` runs the reflected register a byte at a time:

        i ──Reflect 8, << 24──▶ ──8 steps up──▶ ──Reflect 32──▶ m_ulTable[i]
        crc ──▶ (crc >> 8) ^ m_ulTable[(crc & 0xFF) ^ byte]

    The value that `GetHash` stores is the reflected CRC-32 of the bytes. -/

namespace UrlTraveler.Utility

abbrev Ulong := BitVec 32

/-! ### The table -/

/-- The loop of `Reflect` after `i` rounds: `ulRef` and `ulValue`. -/
def reflectLoop (ulRef : Ulong) (ch : ℕ) : ℕ → Ulong × Ulong
  | 0 => (ulRef, 0)
  | i + 1 =>
    let (ulRef, ulValue) := reflectLoop ulRef ch i
    (ulRef >>> 1, if ulRef &&& 1 ≠ 0 then ulValue ||| (1 : Ulong) <<< (ch - (i + 1)) else ulValue)

/-- `Reflect`. -/
def reflect (ulRef : Ulong) (ch : ℕ) : Ulong := (reflectLoop ulRef ch ch).2

def ulPolynomial : Ulong := 0x04C11DB7

/-- The inner loop of `InitCRC32Table` after `j` rounds. -/
def tableLoop (ulEntry : Ulong) : ℕ → Ulong
  | 0 => ulEntry
  | j + 1 =>
    let ulEntry := tableLoop ulEntry j
    (ulEntry <<< 1) ^^^ (if ulEntry &&& ((1 : Ulong) <<< 31) ≠ 0 then ulPolynomial else 0)

/-- `InitCRC32Table`: the table `m_ulTable`. -/
def initCRC32Table : List Ulong :=
  (List.range 256).map fun i => reflect (tableLoop (reflect (BitVec.ofNat 32 i) 8 <<< 24) 8) 32

/-! ### The hash -/

/-- The loop of `GetCRC`; `nLen` is a signed counter that goes through zero by wrapping around. The
    result is `none` when a byte behind the data or an entry behind the table is read. -/
def getCRCLoop (m_ulTable : List Ulong) : BitVec 32 → List (BitVec 8) → Ulong → Option Ulong
  | nLen, byData, ulCRC =>
    if nLen = 0 then some ulCRC
    else match byData with
      | [] => none
      | byte :: byData => do
        let entry ← m_ulTable[((ulCRC &&& 0xFF) ^^^ byte.setWidth 32).toNat]?
        getCRCLoop m_ulTable (nLen - 1) byData ((ulCRC >>> 8) ^^^ entry)
termination_by structural _ byData => byData

/-- `GetCRC`. -/
def getCRC (byData : List (BitVec 8)) (dwSize : BitVec 32) : Option Ulong :=
  (getCRCLoop initCRC32Table dwSize byData 0xFFFFFFFF).map (· ^^^ 0xFFFFFFFF)

/-- A `ULONG` in memory. -/
def ulongBytes (ulValue : Ulong) : List (BitVec 8) :=
  (List.range 4).map fun i => (ulValue >>> (8 * i)).setWidth 8

/-- `GetHash`: the result and the buffer `pbyOutHash` afterwards; a pointer that is `NULL` is
    `none`. -/
def getHash (byInData : Option (List (BitVec 8))) (dwInLen : BitVec 32)
    (pbyOutHash : Option (List (BitVec 8))) (dwOutLen : BitVec 32) :
    Option (Bool × Option (List (BitVec 8))) :=
  match byInData, pbyOutHash with
  | some byData, some buffer =>
    if 0 < dwInLen ∧ 4 ≤ dwOutLen then do
      let ulCRC ← getCRC byData dwInLen
      if buffer.length < 4 then none
      else return (true, some (ulongBytes ulCRC ++ buffer.drop 4))
    else some (false, some buffer)
  | _, pbyOutHash => some (false, pbyOutHash)

/-- The reflected CRC-32. -/
def crc32 (bytes : List (BitVec 8)) : Ulong :=
  Crc.reflected (0x04C11DB7 : Ulong) 0xFFFFFFFF 0xFFFFFFFF bytes

-- the check value of the digits 1 to 9
example : crc32 [0x31, 0x32, 0x33, 0x34, 0x35, 0x36, 0x37, 0x38, 0x39] = 0xCBF43926 := by
  decide +kernel

/-! ### `Reflect` -/

theorem and_one_ne_zero (x : Ulong) : x &&& 1 ≠ 0 ↔ x.getLsbD 0 = true := by
  have h : x &&& 1 = BitVec.setWidth 32 (BitVec.ofBool (x.getLsbD 0)) :=
    BitVec.and_one_eq_setWidth_ofBool_getLsbD
  rw [h]
  cases x.getLsbD 0 <;> decide

theorem getLsbD_one_shiftLeft (n j : ℕ) :
    ((1 : Ulong) <<< n).getLsbD j = (decide (j < 32) && decide (j = n)) := by
  have h1 : (1 : Ulong) = BitVec.twoPow 32 0 := rfl
  rw [BitVec.getLsbD_shiftLeft, h1, BitVec.getLsbD_twoPow]
  by_cases hj : j < 32 <;> by_cases hn : j < n <;> simp [hj, hn] <;> omega

/-- After `i` rounds the lowest `i` bits stand at the top of `ch` bits, in reverse order. -/
theorem reflectLoop_spec (ulRef : Ulong) {ch : ℕ} (hch : ch ≤ 32) : ∀ i ≤ ch,
    (reflectLoop ulRef ch i).1 = ulRef >>> i ∧
      ∀ j, (reflectLoop ulRef ch i).2.getLsbD j =
        (decide (ch - i ≤ j ∧ j < ch) && ulRef.getLsbD (ch - 1 - j)) := by
  intro i
  induction i with
  | zero =>
    intro _
    refine ⟨by simp [reflectLoop], fun j => ?_⟩
    have hout : ¬ (ch - 0 ≤ j ∧ j < ch) := by omega
    rw [decide_eq_false hout]
    exact BitVec.getLsbD_zero
  | succ i ih =>
    intro hi
    obtain ⟨href, hval⟩ := ih (by omega)
    refine ⟨by simp only [reflectLoop, href, BitVec.shiftRight_add], fun j => ?_⟩
    have hlow : (ulRef >>> i).getLsbD 0 = ulRef.getLsbD i := by simp
    simp only [reflectLoop, href, and_one_ne_zero, hlow]
    by_cases hj : j = ch - (i + 1)
    · -- the bit that this round may set
      have hout : ¬ (ch - i ≤ j ∧ j < ch) := by omega
      have hin : ch - (i + 1) ≤ j ∧ j < ch := by omega
      have hidx : ch - 1 - j = i := by omega
      have hj32 : j < 32 := by omega
      have hbit := hval j
      rw [decide_eq_false hout, Bool.false_and] at hbit
      rw [decide_eq_true hin, Bool.true_and, hidx]
      split
      · next hset => rw [BitVec.getLsbD_or, getLsbD_one_shiftLeft, hbit, hset]; simp [hj32, ← hj]
      · next hclear => rw [hbit, Bool.eq_false_of_not_eq_true hclear]
    · have hiff : (ch - (i + 1) ≤ j ∧ j < ch) ↔ (ch - i ≤ j ∧ j < ch) := by omega
      rw [decide_eq_decide.2 hiff, ← hval j]
      split
      · rw [BitVec.getLsbD_or, getLsbD_one_shiftLeft, decide_eq_false hj]; simp
      · rfl

theorem getLsbD_reflect (ulRef : Ulong) {ch : ℕ} (hch : ch ≤ 32) (j : ℕ) :
    (reflect ulRef ch).getLsbD j = (decide (j < ch) && ulRef.getLsbD (ch - 1 - j)) := by
  rw [reflect, (reflectLoop_spec ulRef hch ch le_rfl).2 j]
  simp

theorem reflect_all (x : Ulong) : reflect x 32 = x.reverse := by
  refine BitVec.eq_of_getLsbD_eq fun j hj => ?_
  rw [getLsbD_reflect x le_rfl, BitVec.getLsbD_reverse, BitVec.getMsbD_eq_getLsbD]

/-- A reflected byte at the top of the word is the word reflected. -/
theorem reverse_reflect_byte {x : Ulong} (hx : x.toNat < 256) : (reflect x 8 <<< 24).reverse = x := by
  refine BitVec.eq_of_getLsbD_eq fun j hj => ?_
  rw [BitVec.getLsbD_reverse, BitVec.getMsbD_eq_getLsbD, BitVec.getLsbD_shiftLeft,
    getLsbD_reflect x (by decide)]
  by_cases h8 : j < 8
  · have h1 : 32 - 1 - j - 24 < 8 := by omega
    have h2 : ¬ 32 - 1 - j < 24 := by omega
    have h3 : 8 - 1 - (32 - 1 - j - 24) = j := by omega
    have h4 : 32 - 1 - j < 32 := by omega
    simp [h2, h3, hj, h4]
    omega
  · have h1 : 32 - 1 - j < 24 := by omega
    have hpow : 2 ^ 8 ≤ 2 ^ j := Nat.pow_le_pow_right Nat.two_pos (Nat.not_lt.1 h8)
    have hhigh : x.getLsbD j = false := Nat.testBit_lt_two_pow (hx.trans_le hpow)
    simp [h1, hhigh]

/-! ### The entries of the table -/

theorem and_top_ne_zero (x : Ulong) : x &&& ((1 : Ulong) <<< 31) ≠ 0 ↔ x.msb = true := by
  have h : x &&& ((1 : Ulong) <<< 31) = if x.getLsbD 31 then BitVec.twoPow 32 31 else 0#32 :=
    BitVec.and_twoPow x 31
  rw [h, BitVec.msb_eq_getLsbD_last]
  cases x.getLsbD (32 - 1) <;> decide

theorem tableLoop_succ (x : Ulong) (j : ℕ) :
    tableLoop x (j + 1) = Crc.shiftStep ulPolynomial (tableLoop x j) := by
  simp only [tableLoop, Crc.shiftStep, and_top_ne_zero]

theorem reverse_tableLoop (x : Ulong) : ∀ j,
    (tableLoop x j).reverse = Crc.bitSteps ulPolynomial.reverse j x.reverse := by
  intro j
  rw [← Crc.reverse_shiftSteps]
  congr 1
  induction j with
  | zero => rfl
  | succ j ih => rw [tableLoop_succ, ih, Crc.shiftSteps_succ]

theorem initCRC32Table_getElem? {i : ℕ} (hi : i < 256) : initCRC32Table[i]? =
    some (Crc.bitSteps ulPolynomial.reverse 8 (BitVec.ofNat 32 i)) := by
  have hsmall : (BitVec.ofNat 32 i).toNat < 256 := by simp; omega
  rw [initCRC32Table, List.getElem?_map, List.getElem?_range hi, Option.map_some, reflect_all,
    reverse_tableLoop, reverse_reflect_byte hsmall]

/-! ### A byte, and the message -/

theorem getLsbD_255 (i : ℕ) : (0xFF : Ulong).getLsbD i = decide (i < 8) := by
  have h : (0xFF : Ulong) = BitVec.setWidth 32 (BitVec.allOnes 8) := by decide
  rw [h, BitVec.getLsbD_setWidth, BitVec.getLsbD_allOnes]
  by_cases h8 : i < 8
  · rw [decide_eq_true h8, decide_eq_true (by omega : i < 32), Bool.and_self]
  · rw [decide_eq_false h8, Bool.and_false]

/-- The high bits of the register stand apart from the index of the table. -/
theorem xor_byte_split (crc : Ulong) (byte : BitVec 8) : crc ^^^ byte.setWidth 32 =
    (crc &&& ~~~0xFF) ^^^ ((crc &&& 0xFF) ^^^ byte.setWidth 32) := by
  ext i hi
  simp only [BitVec.getElem_xor, BitVec.getElem_and, BitVec.getElem_not]
  cases crc[i] <;> cases (0xFF : Ulong)[i] <;> simp

theorem index_lt (crc : Ulong) (byte : BitVec 8) :
    ((crc &&& 0xFF) ^^^ byte.setWidth 32).toNat < 256 := by
  have h1 : (crc &&& 0xFF).toNat < 2 ^ 8 := by
    rw [BitVec.toNat_and]
    exact Nat.and_lt_two_pow _ (by decide)
  have h2 : (byte.setWidth 32).toNat < 2 ^ 8 := by
    rw [BitVec.toNat_setWidth]
    exact lt_of_le_of_lt (Nat.mod_le _ _) byte.isLt
  rw [BitVec.toNat_xor]
  exact Nat.xor_lt_two_pow h1 h2

/-- One round of the loop of `GetCRC` is eight bits of the register. -/
theorem byteStep_eq (crc : Ulong) (byte : BitVec 8) : Crc.byteStep ulPolynomial.reverse crc byte =
    (crc >>> 8) ^^^
      Crc.bitSteps ulPolynomial.reverse 8 ((crc &&& 0xFF) ^^^ byte.setWidth 32) := by
  have hlow : ∀ i < 8, (crc &&& ~~~0xFF).getLsbD i = false := by
    intro i hi
    rw [BitVec.getLsbD_and, BitVec.getLsbD_not, getLsbD_255, decide_eq_true hi]
    simp
  have hhigh : (crc &&& ~~~0xFF) >>> 8 = crc >>> 8 := by
    refine BitVec.eq_of_getLsbD_eq fun i hi => ?_
    rw [BitVec.getLsbD_ushiftRight, BitVec.getLsbD_ushiftRight, BitVec.getLsbD_and,
      BitVec.getLsbD_not, getLsbD_255]
    by_cases h : 8 + i < 32
    · simp [h]
    · simp [h, BitVec.getLsbD_of_ge crc (8 + i) (by omega)]
  rw [Crc.byteStep, xor_byte_split, Crc.bitSteps_split _ hlow, hhigh]

/-- The loop of `GetCRC` runs the register over the whole message. -/
theorem getCRCLoop_spec : ∀ (bytes : List (BitVec 8)) (crc : Ulong), bytes.length < 2 ^ 32 →
    getCRCLoop initCRC32Table (BitVec.ofNat 32 bytes.length) bytes crc =
      some (bytes.foldl (Crc.byteStep ulPolynomial.reverse) crc)
  | [], crc, _ => by simp [getCRCLoop]
  | byte :: bytes, crc, h => by
    rw [List.length_cons] at h
    have hne : BitVec.ofNat 32 (bytes.length + 1) ≠ 0 := by
      intro h0
      have := congrArg BitVec.toNat h0
      simp at this
      omega
    have hsub : BitVec.ofNat 32 (bytes.length + 1) - 1 = BitVec.ofNat 32 bytes.length := by
      rw [BitVec.ofNat_add]
      exact BitVec.add_sub_cancel _ _
    rw [getCRCLoop, List.length_cons, if_neg hne]
    simp only [initCRC32Table_getElem? (index_lt crc byte), BitVec.ofNat_toNat,
      BitVec.setWidth_eq, Option.bind_eq_bind, Option.bind_some, hsub]
    rw [getCRCLoop_spec bytes _ (by omega), List.foldl_cons, byteStep_eq]

theorem getCRC_eq_crc32 {bytes : List (BitVec 8)} (h : bytes.length < 2 ^ 32) :
    getCRC bytes (BitVec.ofNat 32 bytes.length) = some (crc32 bytes) := by
  rw [getCRC, getCRCLoop_spec bytes _ h]
  rfl

/-- `GetHash` stores the CRC-32 of the bytes it is given, and nothing behind it. -/
theorem getHash_stores_crc32 (bytes buffer : List (BitVec 8)) (dwOutLen : BitVec 32)
    (hpos : 1 ≤ bytes.length) (hlen : bytes.length < 2 ^ 32) (hout : 4 ≤ dwOutLen)
    (hbuffer : buffer.length = dwOutLen.toNat) :
    getHash (some bytes) (BitVec.ofNat 32 bytes.length) (some buffer) dwOutLen =
      some (true, some (ulongBytes (crc32 bytes) ++ buffer.drop 4)) := by
  have hin : 0 < BitVec.ofNat 32 bytes.length := by
    rw [BitVec.lt_def, BitVec.toNat_ofNat, Nat.mod_eq_of_lt hlen]
    exact hpos
  have hfour : 4 ≤ buffer.length := by
    rw [hbuffer]
    exact BitVec.le_def.1 hout
  simp only [getHash, if_pos (And.intro hin hout), getCRC_eq_crc32 hlen]
  simp [Nat.not_lt.2 hfour]

/-- The hash of the byte `a`. -/
theorem getHash_of_a : getHash (some [0x61]) 1 (some [0, 0, 0, 0]) 4 =
    some (true, some [0x43, 0xBE, 0xB7, 0xE8]) := by
  have h := getHash_stores_crc32 [0x61] [0, 0, 0, 0] 4 (by decide) (by decide) (by decide) rfl
  have hcrc : crc32 [0x61] = 0xE8B7BE43 := by decide +kernel
  rw [hcrc] at h
  exact h

end UrlTraveler.Utility
