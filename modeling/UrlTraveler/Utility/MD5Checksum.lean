import UrlTraveler.Utility.Md5

/-! `CMD5Checksum`, the other digest of the program.

    It is written from the reference code, and the two share nothing: the functions are not
    optimized, bytes and words are converted one by one, and `Final` pads through `Update`.

        Update(x) ─▶ Update(PADDING, n) ─▶ Update(Bits, 8)   =   MD5Update(x) ─▶ MD5Final

    Both give the same digest of every buffer. -/

namespace UrlTraveler.Utility
open Buffers Blocks Md5

/-- `CMD5Checksum`. -/
structure CMD5Checksum where
  m_lpszBuffer : List Byte
  m_nCount0 : Word
  m_nCount1 : Word
  m_lMD5 : Regs

/-- The constructor. -/
def CMD5Checksum.new : CMD5Checksum := ⟨List.replicate 64 0, 0, 0, initial⟩

def rotateLeft (x : Word) (n : ℕ) : Word := x <<< n ||| x >>> (32 - n)

/-! ### The transformation -/

/-- The functions `FF`, `GG`, `HH` and `II`. -/
inductive BasicFn where | FF | GG | HH | II
  deriving DecidableEq

def BasicFn.eval : BasicFn → Word → Word → Word → Word
  | .FF, b, c, d => (b &&& c) ||| (~~~b &&& d)
  | .GG, b, c, d => (b &&& d) ||| (c &&& ~~~d)
  | .HH, b, c, d => b ^^^ c ^^^ d
  | .II, b, c, d => c ^^^ (b ||| ~~~d)

/-- `FF(A, B, C, D, X[k], S, T)` and the like. -/
def basicStep (x : List Word) (r : Regs) (op : Op BasicFn) : Regs :=
  let f := op.fn.eval (r.get op.x) (r.get op.y) (r.get op.z)
  let a := r.get op.w + (f + x.getD op.k 0 + op.t)
  let a := rotateLeft a op.s
  r.set (a + r.get op.x) op.w

def basicSteps : List (Op BasicFn) :=
  [⟨.FF, .a, .b, .c, .d, 0, 0xd76aa478, 7⟩, ⟨.FF, .d, .a, .b, .c, 1, 0xe8c7b756, 12⟩,
   ⟨.FF, .c, .d, .a, .b, 2, 0x242070db, 17⟩, ⟨.FF, .b, .c, .d, .a, 3, 0xc1bdceee, 22⟩,
   ⟨.FF, .a, .b, .c, .d, 4, 0xf57c0faf, 7⟩, ⟨.FF, .d, .a, .b, .c, 5, 0x4787c62a, 12⟩,
   ⟨.FF, .c, .d, .a, .b, 6, 0xa8304613, 17⟩, ⟨.FF, .b, .c, .d, .a, 7, 0xfd469501, 22⟩,
   ⟨.FF, .a, .b, .c, .d, 8, 0x698098d8, 7⟩, ⟨.FF, .d, .a, .b, .c, 9, 0x8b44f7af, 12⟩,
   ⟨.FF, .c, .d, .a, .b, 10, 0xffff5bb1, 17⟩, ⟨.FF, .b, .c, .d, .a, 11, 0x895cd7be, 22⟩,
   ⟨.FF, .a, .b, .c, .d, 12, 0x6b901122, 7⟩, ⟨.FF, .d, .a, .b, .c, 13, 0xfd987193, 12⟩,
   ⟨.FF, .c, .d, .a, .b, 14, 0xa679438e, 17⟩, ⟨.FF, .b, .c, .d, .a, 15, 0x49b40821, 22⟩,
   ⟨.GG, .a, .b, .c, .d, 1, 0xf61e2562, 5⟩, ⟨.GG, .d, .a, .b, .c, 6, 0xc040b340, 9⟩,
   ⟨.GG, .c, .d, .a, .b, 11, 0x265e5a51, 14⟩, ⟨.GG, .b, .c, .d, .a, 0, 0xe9b6c7aa, 20⟩,
   ⟨.GG, .a, .b, .c, .d, 5, 0xd62f105d, 5⟩, ⟨.GG, .d, .a, .b, .c, 10, 0x02441453, 9⟩,
   ⟨.GG, .c, .d, .a, .b, 15, 0xd8a1e681, 14⟩, ⟨.GG, .b, .c, .d, .a, 4, 0xe7d3fbc8, 20⟩,
   ⟨.GG, .a, .b, .c, .d, 9, 0x21e1cde6, 5⟩, ⟨.GG, .d, .a, .b, .c, 14, 0xc33707d6, 9⟩,
   ⟨.GG, .c, .d, .a, .b, 3, 0xf4d50d87, 14⟩, ⟨.GG, .b, .c, .d, .a, 8, 0x455a14ed, 20⟩,
   ⟨.GG, .a, .b, .c, .d, 13, 0xa9e3e905, 5⟩, ⟨.GG, .d, .a, .b, .c, 2, 0xfcefa3f8, 9⟩,
   ⟨.GG, .c, .d, .a, .b, 7, 0x676f02d9, 14⟩, ⟨.GG, .b, .c, .d, .a, 12, 0x8d2a4c8a, 20⟩,
   ⟨.HH, .a, .b, .c, .d, 5, 0xfffa3942, 4⟩, ⟨.HH, .d, .a, .b, .c, 8, 0x8771f681, 11⟩,
   ⟨.HH, .c, .d, .a, .b, 11, 0x6d9d6122, 16⟩, ⟨.HH, .b, .c, .d, .a, 14, 0xfde5380c, 23⟩,
   ⟨.HH, .a, .b, .c, .d, 1, 0xa4beea44, 4⟩, ⟨.HH, .d, .a, .b, .c, 4, 0x4bdecfa9, 11⟩,
   ⟨.HH, .c, .d, .a, .b, 7, 0xf6bb4b60, 16⟩, ⟨.HH, .b, .c, .d, .a, 10, 0xbebfbc70, 23⟩,
   ⟨.HH, .a, .b, .c, .d, 13, 0x289b7ec6, 4⟩, ⟨.HH, .d, .a, .b, .c, 0, 0xeaa127fa, 11⟩,
   ⟨.HH, .c, .d, .a, .b, 3, 0xd4ef3085, 16⟩, ⟨.HH, .b, .c, .d, .a, 6, 0x04881d05, 23⟩,
   ⟨.HH, .a, .b, .c, .d, 9, 0xd9d4d039, 4⟩, ⟨.HH, .d, .a, .b, .c, 12, 0xe6db99e5, 11⟩,
   ⟨.HH, .c, .d, .a, .b, 15, 0x1fa27cf8, 16⟩, ⟨.HH, .b, .c, .d, .a, 2, 0xc4ac5665, 23⟩,
   ⟨.II, .a, .b, .c, .d, 0, 0xf4292244, 6⟩, ⟨.II, .d, .a, .b, .c, 7, 0x432aff97, 10⟩,
   ⟨.II, .c, .d, .a, .b, 14, 0xab9423a7, 15⟩, ⟨.II, .b, .c, .d, .a, 5, 0xfc93a039, 21⟩,
   ⟨.II, .a, .b, .c, .d, 12, 0x655b59c3, 6⟩, ⟨.II, .d, .a, .b, .c, 3, 0x8f0ccc92, 10⟩,
   ⟨.II, .c, .d, .a, .b, 10, 0xffeff47d, 15⟩, ⟨.II, .b, .c, .d, .a, 1, 0x85845dd1, 21⟩,
   ⟨.II, .a, .b, .c, .d, 8, 0x6fa87e4f, 6⟩, ⟨.II, .d, .a, .b, .c, 15, 0xfe2ce6e0, 10⟩,
   ⟨.II, .c, .d, .a, .b, 6, 0xa3014314, 15⟩, ⟨.II, .b, .c, .d, .a, 13, 0x4e0811a1, 21⟩,
   ⟨.II, .a, .b, .c, .d, 4, 0xf7537e82, 6⟩, ⟨.II, .d, .a, .b, .c, 11, 0xbd3af235, 10⟩,
   ⟨.II, .c, .d, .a, .b, 2, 0x2ad7d2bb, 15⟩, ⟨.II, .b, .c, .d, .a, 9, 0xeb86d391, 21⟩]

/-- `ByteToDWord`: every four bytes of the input are shifted together. -/
def byteToDWord : List Byte → List Word
  | b₀ :: b₁ :: b₂ :: b₃ :: input =>
    (b₀.setWidth 32 ||| b₁.setWidth 32 <<< 8 ||| b₂.setWidth 32 <<< 16 ||| b₃.setWidth 32 <<< 24) ::
      byteToDWord input
  | _ => []

/-- `DWordToByte`. -/
def dwordToByte (input : List Word) : List Byte :=
  input.flatMap fun w : Word => [(w &&& 0xff).setWidth 8, ((w >>> 8) &&& 0xff).setWidth 8,
    ((w >>> 16) &&& 0xff).setWidth 8, ((w >>> 24) &&& 0xff).setWidth 8]

/-- `Transform`. -/
def transform (m_lMD5 : Regs) (blk : List Byte) : Regs :=
  m_lMD5.add (basicSteps.foldl (basicStep (byteToDWord blk)) m_lMD5)

/-! ### The interface -/

/-- `for (i = nPartLen; i + 63 < nInputLen; i += 64) Transform(&Input[i]);`, where `i + 63` is
    a 32-bit number; the last `i` comes out too. -/
def transformLoop (input : List Byte) : ℕ → ℕ → Regs → Option (Regs × ℕ)
  | 0, i, r => if (i + 63) % 2 ^ 32 < input.length then none else some (r, i)
  | fuel + 1, i, r =>
    if (i + 63) % 2 ^ 32 < input.length then do
      let blk ← readRange input i 64
      transformLoop input fuel (i + 64) (transform r blk)
    else some (r, i)

/-- `Update`; the loop runs at most once for every 64 bytes. -/
def CMD5Checksum.update (c : CMD5Checksum) (input : List Byte) : Option CMD5Checksum := do
  let nInputLen := BitVec.ofNat 32 input.length
  let nIndex := ((c.m_nCount0 >>> 3) &&& 0x3f).toNat
  let m_nCount0 := c.m_nCount0 + nInputLen <<< 3
  let m_nCount1 := (if m_nCount0 < nInputLen <<< 3 then c.m_nCount1 + 1 else c.m_nCount1) +
    nInputLen >>> 29
  let nPartLen := 64 - nIndex
  let (nIndex, i, m_lpszBuffer, m_lMD5) ←
    if nPartLen ≤ input.length then do
      let part ← readRange input 0 nPartLen
      let m_lpszBuffer ← writeRange c.m_lpszBuffer nIndex part
      let m_lMD5 := transform c.m_lMD5 m_lpszBuffer
      let (m_lMD5, i) ← transformLoop input (input.length / 64) nPartLen m_lMD5
      some (0, i, m_lpszBuffer, m_lMD5)
    else some (nIndex, 0, c.m_lpszBuffer, c.m_lMD5)
  let tail ← readRange input i (input.length - i)
  let m_lpszBuffer ← writeRange m_lpszBuffer nIndex tail
  return ⟨m_lpszBuffer, m_nCount0, m_nCount1, m_lMD5⟩

/-- `PADDING`. -/
def paddingBytes : List Byte := 0x80 :: List.replicate 63 0

/-- `sprintf("%X")` of one byte, with a `0` before a single digit, in lower case. -/
def byteText (b : Byte) : List Char :=
  let digits := (Nat.toDigits 16 b.toNat).map Char.toUpper
  (if b.toNat = 0 then ['0', '0'] else if b.toNat ≤ 15 then ('0' :: digits).take 2
    else digits.take 2).map Char.toLower

/-- `Final`. -/
def CMD5Checksum.final (c : CMD5Checksum) : Option (List Char) := do
  let bits := dwordToByte [c.m_nCount0, c.m_nCount1]
  let nIndex := ((c.m_nCount0 >>> 3) &&& 0x3f).toNat
  let nPadLen := if nIndex < 56 then 56 - nIndex else 120 - nIndex
  let pad ← readRange paddingBytes 0 nPadLen
  let c ← c.update pad
  let c ← c.update bits
  return (dwordToByte [c.m_lMD5.a, c.m_lMD5.b, c.m_lMD5.c, c.m_lMD5.d]).flatMap byteText

/-- `GetMD5` of a buffer. -/
def getMD5 (pBuf : List Byte) : Option (List Char) := (CMD5Checksum.new.update pBuf).bind (·.final)

/-- `GetMD5W` of a file, from what `ReadFile` gives call by call until it gives nothing. -/
def getMD5W (reads : List (List Byte)) : Option (List Char) :=
  ((reads.takeWhile (· ≠ [])).foldlM CMD5Checksum.update CMD5Checksum.new).bind (·.final)

/-! ### The transformation is the digest's compression -/

theorem byteToDWord_eq : ∀ input : List Byte, byteToDWord input = words input
  | b₀ :: b₁ :: b₂ :: b₃ :: input => by
    rw [byteToDWord, words, shifts_eq_word, byteToDWord_eq input]
  | [] | [_] | [_, _] | [_, _, _] => rfl

theorem dwordToByte_eq (input : List Word) : dwordToByte input = input.flatMap wordBytes := by
  have hbyte : ∀ (w : Word) (n : ℕ), ((w >>> n) &&& 0xff).setWidth 8 = w.extractLsb' n 8 := by
    intro w n
    refine BitVec.eq_of_getLsbD_eq fun i hi => ?_
    have hmask : (0xff : Word).getLsbD i = true := by
      interval_cases i <;> rfl
    simp only [BitVec.getLsbD_setWidth, BitVec.getLsbD_and, BitVec.getLsbD_ushiftRight,
      BitVec.getLsbD_extractLsb', hmask, Bool.and_true]
  refine List.flatMap_congr fun w _ => ?_
  have h0 := hbyte w 0
  rw [BitVec.ushiftRight_zero] at h0
  rw [h0, hbyte, hbyte, hbyte]
  rfl

/-- The functions of the four rounds. -/
def basicFns : List BasicFn := [.FF, .GG, .HH, .II]

theorem basicEval_eq : ∀ i < 64, (basicFns.getD (i / 16) .FF).eval = roundFn (i / 16) := by
  intro i hi
  have hq : i / 16 < 4 := by omega
  generalize i / 16 = q at hq
  interval_cases q <;> rfl

theorem basicStep_eq (x : List Word) (r : Regs) {op : Op BasicFn} (hs : op.s < 32) :
    basicStep x r op = op.run BasicFn.eval x r := by
  simp only [basicStep, Op.run, rotateLeft, turn_eq _ hs, ← BitVec.add_assoc]
  rw [BitVec.add_comm (BitVec.rotateLeft _ _)]

theorem basicSteps_eq : basicSteps = (List.range 64).map (opAt basicFns .FF) := rfl

theorem transform_eq (r : Regs) (blk : List Byte) : transform r blk = block r blk := by
  have hs : ∀ op ∈ basicSteps, op.s < 32 := by decide
  rw [transform, byteToDWord_eq, List.foldl_ext _ _ r fun r op hop => basicStep_eq _ r (hs op hop),
    basicSteps_eq, foldl_ops basicEval_eq, block, compress]

/-! ### Messages in pieces -/

/-- What the object has taken up. -/
def CMD5Checksum.Has (c : CMD5Checksum) (msg : List Byte) : Prop :=
  Taken c.m_lMD5 c.m_nCount0 c.m_nCount1 c.m_lpszBuffer msg

theorem readRange_drop {input : List Byte} {i n : ℕ} (h : i + n ≤ input.length) :
    readRange input i n = some ((input.drop i).take n) := if_pos h

/-- As long as `i + 63` does not overflow, the loop takes the whole blocks behind `i`. -/
theorem transformLoop_eq {input : List Byte} (hlen : input.length + 63 < 2 ^ 32) :
    ∀ (fuel i : ℕ) (r : Regs), i ≤ input.length → (input.length - i) / 64 ≤ fuel →
    ∃ j, transformLoop input fuel i r = some (absorb block 64 r (input.drop i), j) ∧
      j ≤ input.length ∧ input.drop j = rest 64 (input.drop i) := by
  intro fuel
  induction fuel with
  | zero =>
    intro i r hi hfuel
    have hshort : (input.drop i).length < 64 := by
      rw [List.length_drop]
      omega
    rw [transformLoop, if_neg (by rw [Nat.mod_eq_of_lt (by omega)]; omega), absorb_of_lt _ hshort,
      rest_of_lt hshort]
    exact ⟨i, rfl, hi, rfl⟩
  | succ fuel ih =>
    intro i r hi hfuel
    rw [transformLoop, Nat.mod_eq_of_lt (by omega : i + 63 < 2 ^ 32)]
    split
    next hlt =>
      obtain ⟨b, hb, hsplit⟩ : ∃ b, b.length = 64 ∧ input.drop i = b ++ input.drop (i + 64) :=
        ⟨(input.drop i).take 64, List.length_take_of_le (by rw [List.length_drop]; omega),
          by rw [← List.drop_drop, List.take_append_drop]⟩
      obtain ⟨j, hj, hle, hrest⟩ := ih (i + 64) (transform r b) (by omega) (by omega)
      rw [readRange_drop (by omega), hsplit, List.take_left' hb, absorb_append_block _ (by decide) hb,
        rest_append_block (by decide) hb, ← transform_eq]
      exact ⟨j, hj, hle, hrest⟩
    next hge =>
      have hshort : (input.drop i).length < 64 := by
        rw [List.length_drop]
        omega
      rw [absorb_of_lt _ hshort, rest_of_lt hshort]
      exact ⟨i, rfl, hi, rfl⟩

theorem readRange_tail {input : List Byte} {i : ℕ} (h : i ≤ input.length) :
    readRange input i (input.length - i) = some (input.drop i) := by
  rw [readRange_drop (by omega), List.take_of_length_le (by rw [List.length_drop])]

/-- One piece more. -/
theorem CMD5Checksum.Has.update {c : CMD5Checksum} {msg : List Byte} (h : c.Has msg) (input : List Byte)
    (hlen : input.length + 63 < 2 ^ 32) : ∃ c', c.update input = some c' ∧ c'.Has (msg ++ input) := by
  have hrest : (rest 64 msg).length = msg.length % 64 := length_rest msg
  have hlt : msg.length % 64 < 64 := Nat.mod_lt _ (by decide)
  have hlow : lowBits (msg ++ input).length = lowBits msg.length + BitVec.ofNat 32 input.length <<< 3 := by
    rw [List.length_append, lowBits_add]
  have hhigh := highBits_add msg.length (m := input.length) (by omega)
  rw [if_congr (carry_comm _ _) rfl rfl, ← List.length_append, ← hlow] at hhigh
  simp only [CMD5Checksum.update, h.low_eq, h.high_eq, waiting_eq, ← hlow, ← hhigh]
  split
  next hlong =>
    obtain ⟨b, ys, hb, rfl⟩ : ∃ b ys, b.length = 64 - msg.length % 64 ∧ input = b ++ ys :=
      ⟨_, _, List.length_take_of_le hlong, (List.take_append_drop _ input).symm⟩
    obtain ⟨buffer, hw, hl, ht⟩ := exists_writeRange c.m_lpszBuffer b (msg.length % 64) (by rw [h.length]; omega)
    have hfull : (rest 64 msg ++ b).length = 64 := by rw [List.length_append]; omega
    have hin : buffer = rest 64 msg ++ b := by
      rw [← h.kept, ← ht, List.take_of_length_le (by rw [hl, h.length]; omega)]
    obtain ⟨j, hloop, hj, hjrest⟩ := transformLoop_eq hlen ((b ++ ys).length / 64)
      (64 - msg.length % 64) (transform c.m_lMD5 buffer) (by omega) (Nat.div_le_div_right (by omega))
    rw [List.drop_left' hb] at hloop hjrest
    have htail : (rest 64 ys).length < 64 := length_rest_lt (by decide) ys
    obtain ⟨buffer', hw', hl', ht'⟩ := exists_writeRange buffer (rest 64 ys) 0
      (by rw [hl, h.length]; omega)
    have hmod : (msg ++ (b ++ ys)).length % 64 = ys.length % 64 := by
      rw [List.length_append, List.length_append, hb]
      omega
    rw [readRange_drop (by omega), List.drop_zero, List.take_left' hb]
    simp only [Option.bind_eq_bind, Option.bind_some, hw, hloop, readRange_tail hj, hjrest, hw']
    refine ⟨_, rfl, ?_, rfl, rfl, hl'.trans (hl.trans h.length), ?_⟩
    · rw [hash_append, ← List.append_assoc (rest 64 msg), absorb_append_block _ (by decide) hfull,
        ← hin, ← h.regs, ← transform_eq]
    · rw [hmod, rest_append (by decide), ← List.append_assoc (rest 64 msg),
        rest_append_block (by decide) hfull, ← length_rest ys]
      simpa using ht'
  next hshort =>
    have hall : (rest 64 msg ++ input).length < 64 := by rw [List.length_append]; omega
    obtain ⟨buffer, hw, hl, ht⟩ := exists_writeRange c.m_lpszBuffer input (msg.length % 64) (by rw [h.length]; omega)
    simp only [Option.bind_eq_bind, Option.bind_some, readRange_tail (Nat.zero_le input.length),
      List.drop_zero, hw]
    refine ⟨_, rfl, ?_, rfl, rfl, hl.trans h.length, ?_⟩
    · rw [hash_append, absorb_of_lt _ hall, ← h.regs]
    · rw [rest_append (by decide), rest_of_lt hall, ← h.kept, ← ht]
      congr 1
      rw [List.length_append] at hall ⊢
      omega

theorem CMD5Checksum.Has.updates : ∀ {pieces : List (List Byte)} {c : CMD5Checksum} {msg : List Byte},
    c.Has msg → (∀ p ∈ pieces, p.length + 63 < 2 ^ 32) →
      ∃ c', pieces.foldlM CMD5Checksum.update c = some c' ∧ c'.Has (msg ++ pieces.flatten)
  | [], c, msg, h, _ => ⟨c, rfl, by simpa using h⟩
  | p :: pieces, c, msg, h, hp => by
    obtain ⟨c₁, h₁, hhas⟩ := h.update p (hp p List.mem_cons_self)
    obtain ⟨c₂, h₂, hhas₂⟩ := hhas.updates fun q hq => hp q (List.mem_cons_of_mem p hq)
    refine ⟨c₂, ?_, by simpa [List.append_assoc] using hhas₂⟩
    rw [List.foldlM_cons, h₁]
    exact h₂

theorem CMD5Checksum.new_has : CMD5Checksum.new.Has [] := taken_nil rfl

/-- Padding through `update` is the padding of the digest. -/
theorem CMD5Checksum.Has.final {c : CMD5Checksum} {msg : List Byte} (h : c.Has msg) :
    c.final = some ((digest msg).flatMap byteText) := by
  have hbits : dwordToByte [c.m_nCount0, c.m_nCount1] =
      wordBytes (lowBits msg.length) ++ wordBytes (highBits msg.length) := by
    rw [dwordToByte_eq, h.low_eq, h.high_eq]
    simp
  have hlt : msg.length % 64 < 64 := Nat.mod_lt _ (by decide)
  have hpad : readRange paddingBytes 0
      (if msg.length % 64 < 56 then 56 - msg.length % 64 else 120 - msg.length % 64) =
      some (0x80 :: List.replicate ((119 - msg.length % 64) % 64) 0) := by
    have hn : (if msg.length % 64 < 56 then 56 - msg.length % 64 else 120 - msg.length % 64) =
        (119 - msg.length % 64) % 64 + 1 := by
      split <;> omega
    have hz : (119 - msg.length % 64) % 64 < 64 := Nat.mod_lt _ (by decide)
    rw [hn, readRange_drop (by simp [paddingBytes]; omega), List.drop_zero, paddingBytes,
      List.take_succ_cons, List.take_replicate, Nat.min_eq_left (by omega)]
  obtain ⟨c₁, h₁, hhas₁⟩ := h.update
    (0x80 :: List.replicate ((119 - msg.length % 64) % 64) 0) (by simp; omega)
  obtain ⟨c₂, h₂, hhas₂⟩ := hhas₁.update
    (wordBytes (lowBits msg.length) ++ wordBytes (highBits msg.length)) (by simp)
  have hall : msg ++ (0x80 :: List.replicate ((119 - msg.length % 64) % 64) 0) ++
      (wordBytes (lowBits msg.length) ++ wordBytes (highBits msg.length)) =
      msg ++ padding msg.length := by
    rw [padding, List.append_assoc]
  have hout : dwordToByte [c₂.m_lMD5.a, c₂.m_lMD5.b, c₂.m_lMD5.c, c₂.m_lMD5.d] = digest msg := by
    rw [dwordToByte_eq, hhas₂.regs, hall, digest, Regs.bytes]
    simp
  rw [CMD5Checksum.final, hbits, h.low_eq, waiting_eq, hpad]
  simp only [Option.bind_eq_bind, Option.bind_some, h₁, h₂, hout]
  rfl

/-! ### The two digests -/

/-- Both print a byte as two digits in lower case. -/
theorem byteText_eq (b : Byte) : md5DigestToBase16 [b] = byteText b := by
  have h : ∀ n : Fin 256, md5DigestToBase16 [BitVec.ofNat 8 n] = byteText (BitVec.ofNat 8 n) := by
    decide +kernel
  have hb := h ⟨b.toNat, b.isLt⟩
  rwa [BitVec.ofNat_toNat, BitVec.setWidth_eq] at hb

theorem base16_eq (bs : List Byte) : md5DigestToBase16 bs = bs.flatMap byteText := by
  induction bs with
  | nil => rfl
  | cons b bs ih =>
    rw [List.flatMap_cons, ← ih, ← byteText_eq]
    simp [md5DigestToBase16]

/-- A message in pieces for the one and in other pieces for the other gives one digest. -/
theorem checksums_agree {inBuf : List Byte} (hbuf : inBuf.length = 64) {pieces pieces' : List (List Byte)}
    (hsame : pieces.flatten = pieces'.flatten) (hp : ∀ p ∈ pieces, p.length + 63 < 2 ^ 32)
    (hp' : ∀ p ∈ pieces', p.length < 2 ^ 32) :
    (pieces.foldlM CMD5Checksum.update CMD5Checksum.new).bind (·.final) =
      (md5Updates (md5Init inBuf) pieces' >>= md5Final).map md5DigestToBase16 := by
  obtain ⟨c, hc, hhas⟩ := CMD5Checksum.new_has.updates hp
  have hinit : (md5Init inBuf).Has [] := taken_nil hbuf
  obtain ⟨ctx, hctx, hhas'⟩ := hinit.updates hp'
  rw [hc, hctx, Option.bind_some, hhas.final, Option.bind_eq_bind, Option.bind_some, hhas'.final,
    Option.map_some, base16_eq, List.nil_append, List.nil_append, hsame]

theorem checksums_agree_ab :
    ([[0x61], [0x62]].foldlM CMD5Checksum.update CMD5Checksum.new).bind (·.final) =
      (md5Updates (md5Init (List.replicate 64 0)) [[0x61, 0x62]] >>= md5Final).map md5DigestToBase16 :=
  checksums_agree rfl rfl (by simp) (by simp)

theorem getMD5_eq {pBuf : List Byte} (h : pBuf.length + 63 < 2 ^ 32) :
    getMD5 pBuf = some ((digest pBuf).flatMap byteText) := by
  obtain ⟨c, hc, hhas⟩ := CMD5Checksum.new_has.update pBuf h
  rw [getMD5, hc, Option.bind_some]
  exact hhas.final

/-- A file is read in pieces, and what counts is its text up to the first empty read. -/
theorem getMD5W_eq {reads : List (List Byte)} (h : ∀ p ∈ reads, p.length ≤ 1024) :
    getMD5W reads = some ((digest (reads.takeWhile (· ≠ [])).flatten).flatMap byteText) := by
  obtain ⟨c, hc, hhas⟩ := CMD5Checksum.new_has.updates
    fun p (hp : p ∈ reads.takeWhile (· ≠ [])) => by have := h p ((List.takeWhile_prefix _).subset hp); omega
  rw [getMD5W, hc, Option.bind_some]
  exact hhas.final

end UrlTraveler.Utility
