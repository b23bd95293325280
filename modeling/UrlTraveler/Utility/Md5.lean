import UrlTraveler.Schemes.Buffers
import UrlTraveler.Schemes.Md5

/-! `md5.cc`: the digest of a message that arrives in pieces.

        MD5Init ─▶ MD5Update(x) ─▶ MD5Update(y) ─▶ ... ─▶ MD5Final   =   digest (x ++ y ++ ...)

    The context is 64 bytes of block buffer, four words and the count of bits in two words. Accesses
    to the block buffer are checked; words lie in memory with their lowest byte first. -/

namespace UrlTraveler.Utility
open Buffers Blocks Md5

/-- `Context`; `inBuf` is the member `in`. -/
structure Context where
  buf : Regs
  bits0 : Word
  bits1 : Word
  inBuf : List Byte

/-- `byteReverse`: `longs` words are put together from their bytes and stored as words. -/
def byteReverse : List Byte → ℕ → List Byte
  | b₀ :: b₁ :: b₂ :: b₃ :: buf, longs + 1 =>
    let t : Word := (b₃.setWidth 32 <<< 8 ||| b₂.setWidth 32) <<< 16 |||
      (b₁.setWidth 32 <<< 8 ||| b₀.setWidth 32)
    wordBytes t ++ byteReverse buf longs
  | buf, _ => buf

/-! ### The core -/

/-- The four core functions, `F1` and `F2` in their optimized form. -/
inductive CoreFn where | F1 | F2 | F3 | F4
  deriving DecidableEq

def f1 (x y z : Word) : Word := z ^^^ (x &&& (y ^^^ z))

def CoreFn.eval : CoreFn → Word → Word → Word → Word
  | .F1, x, y, z => f1 x y z
  | .F2, x, y, z => f1 z x y
  | .F3, x, y, z => x ^^^ y ^^^ z
  | .F4, x, y, z => y ^^^ (x ||| ~~~z)

/-- `MD5STEP(f, w, x, y, z, in[k] + t, s)`. -/
def md5Step (inp : List Word) (r : Regs) (op : Op CoreFn) : Regs :=
  let data := inp.getD op.k 0 + op.t
  let w := r.get op.w + (op.fn.eval (r.get op.x) (r.get op.y) (r.get op.z) + data)
  let w := w <<< op.s ||| w >>> (32 - op.s)
  r.set (w + r.get op.x) op.w

def md5Steps : List (Op CoreFn) :=
  [⟨.F1, .a, .b, .c, .d, 0, 0xd76aa478, 7⟩, ⟨.F1, .d, .a, .b, .c, 1, 0xe8c7b756, 12⟩,
   ⟨.F1, .c, .d, .a, .b, 2, 0x242070db, 17⟩, ⟨.F1, .b, .c, .d, .a, 3, 0xc1bdceee, 22⟩,
   ⟨.F1, .a, .b, .c, .d, 4, 0xf57c0faf, 7⟩, ⟨.F1, .d, .a, .b, .c, 5, 0x4787c62a, 12⟩,
   ⟨.F1, .c, .d, .a, .b, 6, 0xa8304613, 17⟩, ⟨.F1, .b, .c, .d, .a, 7, 0xfd469501, 22⟩,
   ⟨.F1, .a, .b, .c, .d, 8, 0x698098d8, 7⟩, ⟨.F1, .d, .a, .b, .c, 9, 0x8b44f7af, 12⟩,
   ⟨.F1, .c, .d, .a, .b, 10, 0xffff5bb1, 17⟩, ⟨.F1, .b, .c, .d, .a, 11, 0x895cd7be, 22⟩,
   ⟨.F1, .a, .b, .c, .d, 12, 0x6b901122, 7⟩, ⟨.F1, .d, .a, .b, .c, 13, 0xfd987193, 12⟩,
   ⟨.F1, .c, .d, .a, .b, 14, 0xa679438e, 17⟩, ⟨.F1, .b, .c, .d, .a, 15, 0x49b40821, 22⟩,
   ⟨.F2, .a, .b, .c, .d, 1, 0xf61e2562, 5⟩, ⟨.F2, .d, .a, .b, .c, 6, 0xc040b340, 9⟩,
   ⟨.F2, .c, .d, .a, .b, 11, 0x265e5a51, 14⟩, ⟨.F2, .b, .c, .d, .a, 0, 0xe9b6c7aa, 20⟩,
   ⟨.F2, .a, .b, .c, .d, 5, 0xd62f105d, 5⟩, ⟨.F2, .d, .a, .b, .c, 10, 0x02441453, 9⟩,
   ⟨.F2, .c, .d, .a, .b, 15, 0xd8a1e681, 14⟩, ⟨.F2, .b, .c, .d, .a, 4, 0xe7d3fbc8, 20⟩,
   ⟨.F2, .a, .b, .c, .d, 9, 0x21e1cde6, 5⟩, ⟨.F2, .d, .a, .b, .c, 14, 0xc33707d6, 9⟩,
   ⟨.F2, .c, .d, .a, .b, 3, 0xf4d50d87, 14⟩, ⟨.F2, .b, .c, .d, .a, 8, 0x455a14ed, 20⟩,
   ⟨.F2, .a, .b, .c, .d, 13, 0xa9e3e905, 5⟩, ⟨.F2, .d, .a, .b, .c, 2, 0xfcefa3f8, 9⟩,
   ⟨.F2, .c, .d, .a, .b, 7, 0x676f02d9, 14⟩, ⟨.F2, .b, .c, .d, .a, 12, 0x8d2a4c8a, 20⟩,
   ⟨.F3, .a, .b, .c, .d, 5, 0xfffa3942, 4⟩, ⟨.F3, .d, .a, .b, .c, 8, 0x8771f681, 11⟩,
   ⟨.F3, .c, .d, .a, .b, 11, 0x6d9d6122, 16⟩, ⟨.F3, .b, .c, .d, .a, 14, 0xfde5380c, 23⟩,
   ⟨.F3, .a, .b, .c, .d, 1, 0xa4beea44, 4⟩, ⟨.F3, .d, .a, .b, .c, 4, 0x4bdecfa9, 11⟩,
   ⟨.F3, .c, .d, .a, .b, 7, 0xf6bb4b60, 16⟩, ⟨.F3, .b, .c, .d, .a, 10, 0xbebfbc70, 23⟩,
   ⟨.F3, .a, .b, .c, .d, 13, 0x289b7ec6, 4⟩, ⟨.F3, .d, .a, .b, .c, 0, 0xeaa127fa, 11⟩,
   ⟨.F3, .c, .d, .a, .b, 3, 0xd4ef3085, 16⟩, ⟨.F3, .b, .c, .d, .a, 6, 0x04881d05, 23⟩,
   ⟨.F3, .a, .b, .c, .d, 9, 0xd9d4d039, 4⟩, ⟨.F3, .d, .a, .b, .c, 12, 0xe6db99e5, 11⟩,
   ⟨.F3, .c, .d, .a, .b, 15, 0x1fa27cf8, 16⟩, ⟨.F3, .b, .c, .d, .a, 2, 0xc4ac5665, 23⟩,
   ⟨.F4, .a, .b, .c, .d, 0, 0xf4292244, 6⟩, ⟨.F4, .d, .a, .b, .c, 7, 0x432aff97, 10⟩,
   ⟨.F4, .c, .d, .a, .b, 14, 0xab9423a7, 15⟩, ⟨.F4, .b, .c, .d, .a, 5, 0xfc93a039, 21⟩,
   ⟨.F4, .a, .b, .c, .d, 12, 0x655b59c3, 6⟩, ⟨.F4, .d, .a, .b, .c, 3, 0x8f0ccc92, 10⟩,
   ⟨.F4, .c, .d, .a, .b, 10, 0xffeff47d, 15⟩, ⟨.F4, .b, .c, .d, .a, 1, 0x85845dd1, 21⟩,
   ⟨.F4, .a, .b, .c, .d, 8, 0x6fa87e4f, 6⟩, ⟨.F4, .d, .a, .b, .c, 15, 0xfe2ce6e0, 10⟩,
   ⟨.F4, .c, .d, .a, .b, 6, 0xa3014314, 15⟩, ⟨.F4, .b, .c, .d, .a, 13, 0x4e0811a1, 21⟩,
   ⟨.F4, .a, .b, .c, .d, 4, 0xf7537e82, 6⟩, ⟨.F4, .d, .a, .b, .c, 11, 0xbd3af235, 10⟩,
   ⟨.F4, .c, .d, .a, .b, 2, 0x2ad7d2bb, 15⟩, ⟨.F4, .b, .c, .d, .a, 9, 0xeb86d391, 21⟩]

/-- `MD5Transform`. -/
def md5Transform (buf : Regs) (inp : List Word) : Regs := buf.add (md5Steps.foldl (md5Step inp) buf)

/-! ### The interface -/

/-- `MD5Init` leaves the block buffer as it is. -/
def md5Init (inBuf : List Byte) : Context := ⟨initial, 0, 0, inBuf⟩

/-- The last two parts of `MD5Update`: blocks of 64 bytes, then what remains. -/
def md5Blocks (ctx : Context) (buf : List Byte) : Option Context :=
  if 64 ≤ buf.length then do
    let inBuf ← writeRange ctx.inBuf 0 (buf.take 64)
    let inBuf := byteReverse inBuf 16
    md5Blocks { ctx with buf := md5Transform ctx.buf (words inBuf), inBuf } (buf.drop 64)
  else do
    let inBuf ← writeRange ctx.inBuf 0 buf
    return { ctx with inBuf }
termination_by buf.length
decreasing_by
  rw [List.length_drop]
  omega

/-- `MD5Update`; a length is a 32-bit number. -/
def md5Update (ctx : Context) (inbuf : List Byte) : Option Context :=
  let len := BitVec.ofNat 32 inbuf.length
  let t := ctx.bits0
  let bits0 := t + len <<< 3
  let bits1 := (if bits0 < t then ctx.bits1 + 1 else ctx.bits1) + len >>> 29
  let ctx := { ctx with bits0, bits1 }
  let t := ((t >>> 3) &&& 0x3f).toNat
  if t ≠ 0 then
    if inbuf.length < 64 - t then do
      let inBuf ← writeRange ctx.inBuf t inbuf
      return { ctx with inBuf }
    else do
      let inBuf ← writeRange ctx.inBuf t (inbuf.take (64 - t))
      let inBuf := byteReverse inBuf 16
      md5Blocks { ctx with buf := md5Transform ctx.buf (words inBuf), inBuf } (inbuf.drop (64 - t))
  else md5Blocks ctx inbuf

/-- `MD5Final`: the sixteen bytes of the digest. -/
def md5Final (ctx : Context) : Option (List Byte) := do
  let count := ((ctx.bits0 >>> 3) &&& 0x3f).toNat
  let inBuf ← writeRange ctx.inBuf count [0x80]
  let p := count + 1
  let count := 64 - 1 - count
  let (buf, inBuf) ←
    if count < 8 then do
      let inBuf ← writeRange inBuf p (List.replicate count 0)
      let inBuf := byteReverse inBuf 16
      let buf := md5Transform ctx.buf (words inBuf)
      let inBuf ← writeRange inBuf 0 (List.replicate 56 0)
      some (buf, inBuf)
    else do
      let inBuf ← writeRange inBuf p (List.replicate (count - 8) 0)
      some (ctx.buf, inBuf)
  let inBuf := byteReverse inBuf 14
  let inBuf ← writeRange inBuf 56 (wordBytes ctx.bits0)
  let inBuf ← writeRange inBuf 60 (wordBytes ctx.bits1)
  let buf := md5Transform buf (words inBuf)
  return byteReverse buf.bytes 4

/-- `MD5DigestToBase16`. -/
def md5DigestToBase16 (digest : List Byte) : List Char :=
  let zEncode := "0123456789abcdef".toList
  digest.flatMap fun a =>
    [zEncode.getD ((a.toNat >>> 4) &&& 0xf) '0', zEncode.getD (a.toNat &&& 0xf) '0']

/-- `MD5Sum` on a fresh context, whose block buffer holds anything. -/
def md5Sum (inBuf data : List Byte) : Option (List Byte) := md5Update (md5Init inBuf) data >>= md5Final

/-- `MD5String`. -/
def md5String (inBuf str : List Byte) : Option (List Char) := (md5Sum inBuf str).map md5DigestToBase16

/-! ### The core is the digest's compression -/

/-- Storing a word puts its bytes back, whatever order they were taken in. -/
theorem byteReverse_eq : ∀ (buf : List Byte) (longs : ℕ), byteReverse buf longs = buf
  | b₀ :: b₁ :: b₂ :: b₃ :: buf, longs + 1 => by
    have ht : (b₃.setWidth 32 <<< 8 ||| b₂.setWidth 32) <<< 16 |||
        (b₁.setWidth 32 <<< 8 ||| b₀.setWidth 32) = word b₀ b₁ b₂ b₃ := by
      refine BitVec.eq_of_getLsbD_eq fun i hi => ?_
      simp only [word, BitVec.getLsbD_or, BitVec.getLsbD_shiftLeft, BitVec.getLsbD_append,
        BitVec.getLsbD_setWidth]
      grind
    rw [byteReverse, byteReverse_eq buf longs, ht, wordBytes_word]
    rfl
  | [], _ | [_], _ | [_, _], _ | [_, _, _], _ | _ :: _ :: _ :: _ :: _, 0 => by simp [byteReverse]

theorem f1_eq (x y z : Word) : f1 x y z = F x y z := by
  ext i
  simp only [f1, F, BitVec.getElem_xor, BitVec.getElem_and, BitVec.getElem_or, BitVec.getElem_not]
  cases x[i] <;> cases y[i] <;> cases z[i] <;> rfl

theorem eval_F2_eq (x y z : Word) : f1 z x y = G x y z := by
  rw [f1_eq, F, G, BitVec.and_comm z x, BitVec.and_comm (~~~z) y]

/-- The functions of the four rounds. -/
def coreFns : List CoreFn := [.F1, .F2, .F3, .F4]

theorem eval_eq : ∀ i < 64, (coreFns.getD (i / 16) .F1).eval = roundFn (i / 16) := by
  intro i hi
  have hq : i / 16 < 4 := by omega
  generalize i / 16 = q at hq
  interval_cases q
  · exact funext fun x => funext fun y => funext fun z => f1_eq x y z
  · exact funext fun x => funext fun y => funext fun z => eval_F2_eq x y z
  · rfl
  · rfl

theorem md5Step_eq (inp : List Word) (r : Regs) {op : Op CoreFn} (hs : op.s < 32) :
    md5Step inp r op = op.run CoreFn.eval inp r := by
  simp only [md5Step, Op.run, turn_eq _ hs, ← BitVec.add_assoc]
  rw [BitVec.add_comm (BitVec.rotateLeft _ _)]

theorem md5Steps_eq : md5Steps = (List.range 64).map (opAt coreFns .F1) := rfl

theorem md5Transform_eq (buf : Regs) (inp : List Word) : md5Transform buf inp = compress buf inp := by
  have hs : ∀ op ∈ md5Steps, op.s < 32 := by decide
  rw [md5Transform, List.foldl_ext _ _ buf fun r op hop => md5Step_eq inp r (hs op hop), md5Steps_eq,
    foldl_ops eval_eq, compress]

/-! ### Messages in pieces -/

/-- What the context has taken up. -/
def Context.Has (ctx : Context) (msg : List Byte) : Prop :=
  Taken ctx.buf ctx.bits0 ctx.bits1 ctx.inBuf msg

theorem md5Block_eq (buf : Regs) (inBuf : List Byte) :
    md5Transform buf (words (byteReverse inBuf 16)) = block buf inBuf := by
  rw [byteReverse_eq, md5Transform_eq, block]

theorem md5Blocks_eq : ∀ (buf : List Byte) (ctx : Context), ctx.inBuf.length = 64 →
    ∃ inBuf, md5Blocks ctx buf = some { ctx with buf := absorb block 64 ctx.buf buf, inBuf } ∧
      inBuf.length = 64 ∧ inBuf.take (buf.length % 64) = rest 64 buf := by
  intro buf
  induction hlen : buf.length using Nat.strong_induction_on generalizing buf with
  | _ len ih =>
    intro ctx hin
    subst hlen
    rw [md5Blocks]
    rcases block_cases 64 buf with hlt | ⟨b, ys, hb, rfl⟩
    · obtain ⟨inBuf, hw, hl, ht⟩ := exists_writeRange ctx.inBuf buf 0 (by omega)
      rw [if_neg (by omega), hw, absorb_of_lt _ hlt, rest_of_lt hlt, Nat.mod_eq_of_lt hlt]
      exact ⟨inBuf, rfl, hl.trans hin, by simpa using ht⟩
    · have hys : ys.length < (b ++ ys).length := by simp; omega
      have hmod : (b ++ ys).length % 64 = ys.length % 64 := by
        rw [List.length_append, hb, Nat.add_mod_left]
      rw [if_pos (by simp; omega), List.take_left' hb, List.drop_left' hb,
        writeRange_all (by rw [hin, hb])]
      simp only [Option.bind_eq_bind, Option.bind_some]
      rw [md5Block_eq, byteReverse_eq]
      obtain ⟨inBuf, h, hl, ht⟩ := ih ys.length hys ys rfl { ctx with buf := block ctx.buf b, inBuf := b } hb
      refine ⟨inBuf, ?_, hl, ?_⟩
      · rw [absorb_append_block _ (by decide) hb]
        exact h
      · rw [hmod, rest_append_block (by decide) hb, ht]

/-- One piece more. -/
theorem Context.Has.update {ctx : Context} {msg : List Byte} (h : ctx.Has msg) (inbuf : List Byte)
    (hlen : inbuf.length < 2 ^ 32) :
    ∃ ctx', md5Update ctx inbuf = some ctx' ∧ ctx'.Has (msg ++ inbuf) := by
  have hkept := h.kept
  have hrest : (rest 64 msg).length = msg.length % 64 := length_rest msg
  have hlow : lowBits (msg ++ inbuf).length = lowBits msg.length + BitVec.ofNat 32 inbuf.length <<< 3 := by
    rw [List.length_append, lowBits_add]
  have hhigh := highBits_add msg.length hlen
  rw [← List.length_append, ← hlow] at hhigh
  -- the context with the new count, whose buffer is still to be filled
  simp only [md5Update, h.low_eq, h.high_eq, waiting_eq, ← hlow, ← hhigh]
  split
  next hk =>
    split
    next hshort =>
      -- the piece does not fill the block that waits
      obtain ⟨inBuf, hw, hl, ht⟩ := exists_writeRange ctx.inBuf inbuf (msg.length % 64) (by rw [h.length]; omega)
      have hall : (rest 64 msg ++ inbuf).length < 64 := by rw [List.length_append]; omega
      rw [hw]
      refine ⟨_, rfl, ?_, rfl, rfl, hl.trans h.length, ?_⟩
      · rw [hash_append, absorb_of_lt _ hall, ← h.regs]
      · rw [rest_append (by decide), rest_of_lt hall, ← hkept, ← ht]
        congr 1
        rw [List.length_append] at hall ⊢
        omega
    next hlong =>
      -- the block is filled, the others follow
      obtain ⟨b, ys, hb, rfl⟩ : ∃ b ys, b.length = 64 - msg.length % 64 ∧ inbuf = b ++ ys :=
        ⟨_, _, List.length_take_of_le (by omega), (List.take_append_drop _ inbuf).symm⟩
      obtain ⟨inBuf, hw, hl, ht⟩ := exists_writeRange ctx.inBuf b (msg.length % 64) (by rw [h.length]; omega)
      have hfull : (rest 64 msg ++ b).length = 64 := by rw [List.length_append]; omega
      have hin : inBuf = rest 64 msg ++ b := by
        rw [← hkept, ← ht, List.take_of_length_le (by rw [hl, h.length]; omega)]
      have hmod : (msg ++ (b ++ ys)).length % 64 = ys.length % 64 := by
        rw [List.length_append, List.length_append, hb]
        omega
      rw [List.take_left' hb, List.drop_left' hb, hw, hin]
      simp only [Option.bind_eq_bind, Option.bind_some]
      rw [md5Block_eq, byteReverse_eq, h.regs]
      obtain ⟨inBuf', hloop, hl', ht'⟩ := md5Blocks_eq ys ⟨block (hash msg) (rest 64 msg ++ b),
        lowBits (msg ++ (b ++ ys)).length, highBits (msg ++ (b ++ ys)).length, rest 64 msg ++ b⟩ hfull
      refine ⟨_, hloop, ?_, rfl, rfl, hl', ?_⟩
      · rw [hash_append, ← List.append_assoc (rest 64 msg), absorb_append_block _ (by decide) hfull]
      · rw [hmod, ht', rest_append (by decide), ← List.append_assoc (rest 64 msg),
          rest_append_block (by decide) hfull]
  next hk =>
    have hk : msg.length % 64 = 0 := not_not.mp hk
    have hnil : rest 64 msg = [] := List.eq_nil_of_length_eq_zero (hrest.trans hk)
    have hmod : (msg ++ inbuf).length % 64 = inbuf.length % 64 := by
      rw [List.length_append]
      omega
    rw [h.regs]
    obtain ⟨inBuf, hloop, hl, ht⟩ := md5Blocks_eq inbuf
      ⟨hash msg, lowBits (msg ++ inbuf).length, highBits (msg ++ inbuf).length, ctx.inBuf⟩ h.length
    refine ⟨_, hloop, ?_, rfl, rfl, hl, ?_⟩
    · rw [hash_append, hnil, List.nil_append]
    · rw [hmod, ht, rest_append (by decide), hnil, List.nil_append]

/-- The last block: the count is written behind 56 bytes. -/
theorem lastBlock_eq {inBuf p : List Byte} (hl : inBuf.length = 64) (hp : inBuf.take 56 = p)
    (buf : Regs) (lo hi : Word) :
    ((writeRange (byteReverse inBuf 14) 56 (wordBytes lo)).bind fun inBuf =>
      (writeRange inBuf 60 (wordBytes hi)).bind fun inBuf =>
        some (byteReverse (md5Transform buf (words inBuf)).bytes 4)) =
      some (block buf (p ++ (wordBytes lo ++ wordBytes hi))).bytes := by
  obtain ⟨inBuf₁, hw₁, hl₁, ht₁⟩ := exists_writeRange inBuf (wordBytes lo) 56
    (by rw [length_wordBytes]; omega)
  obtain ⟨inBuf₂, hw₂, hl₂, ht₂⟩ := exists_writeRange inBuf₁ (wordBytes hi) 60
    (by rw [length_wordBytes]; omega)
  rw [length_wordBytes] at ht₁ ht₂
  rw [List.take_of_length_le (by omega), ht₁, hp] at ht₂
  rw [byteReverse_eq, hw₁, Option.bind_some, hw₂, ht₂, Option.bind_some, byteReverse_eq, md5Transform_eq,
    block, List.append_assoc]

theorem Context.Has.final {ctx : Context} {msg : List Byte} (h : ctx.Has msg) :
    md5Final ctx = some (digest msg) := by
  have hrest : (rest 64 msg).length = msg.length % 64 := length_rest msg
  have hlt : msg.length % 64 < 64 := Nat.mod_lt _ (by decide)
  obtain ⟨inBuf₁, hw₁, hl₁, ht₁⟩ := exists_writeRange ctx.inBuf [0x80] (msg.length % 64) (by rw [h.length]; simp; omega)
  rw [h.length] at hl₁
  rw [h.kept, List.length_singleton] at ht₁
  have hdigest : digest msg =
      (absorb block 64 (hash msg) (rest 64 msg ++ padding msg.length)).bytes := by
    rw [digest, hash_append]
  simp only [md5Final, h.low_eq, h.high_eq, waiting_eq, hw₁, Option.bind_eq_bind, Option.bind_some]
  split
  next hk =>
    -- the padding takes two blocks
    obtain ⟨inBuf₂, hw₂, hl₂, ht₂⟩ := exists_writeRange inBuf₁ (List.replicate (64 - 1 - msg.length % 64) 0) (msg.length % 64 + 1)
      (by rw [List.length_replicate]; omega)
    rw [List.length_replicate, ht₁, List.take_of_length_le (by omega)] at ht₂
    obtain ⟨inBuf₃, hw₃, hl₃, ht₃⟩ := exists_writeRange inBuf₂ (List.replicate 56 0) 0 (by rw [hl₂, hl₁]; decide)
    have hpad : rest 64 msg ++ padding msg.length = inBuf₂ ++
        (List.replicate 56 0 ++ (wordBytes (lowBits msg.length) ++ wordBytes (highBits msg.length))) := by
      have hz : (119 - msg.length % 64) % 64 = 64 - 1 - msg.length % 64 + 56 := by omega
      rw [padding, hz, List.replicate_add, ht₂]
      simp
    have hlast : (List.replicate 56 0 ++
        (wordBytes (lowBits msg.length) ++ wordBytes (highBits msg.length))).length = 64 := by simp
    rw [hw₂, Option.bind_some, md5Block_eq, byteReverse_eq, hw₃]
    rw [List.length_replicate, List.take_zero, List.nil_append] at ht₃
    refine (lastBlock_eq (hl₃.trans (hl₂.trans hl₁)) ht₃ _ _ _).trans ?_
    rw [hdigest, hpad, absorb_append_block _ (by decide) (hl₂.trans hl₁),
      absorb_block _ (by decide) hlast, h.regs]
  next hk =>
    obtain ⟨inBuf₂, hw₂, hl₂, ht₂⟩ := exists_writeRange inBuf₁ (List.replicate (64 - 1 - msg.length % 64 - 8) 0) (msg.length % 64 + 1)
      (by rw [List.length_replicate]; omega)
    have h56 : msg.length % 64 + 1 + (64 - 1 - msg.length % 64 - 8) = 56 := by omega
    have hz : (119 - msg.length % 64) % 64 = 64 - 1 - msg.length % 64 - 8 := by omega
    rw [List.length_replicate, ht₁, h56, ← hz] at ht₂
    have hpad : rest 64 msg ++ padding msg.length =
        rest 64 msg ++ [0x80] ++ List.replicate ((119 - msg.length % 64) % 64) 0 ++
          (wordBytes (lowBits msg.length) ++ wordBytes (highBits msg.length)) := by
      rw [padding]
      simp
    have hlast : (rest 64 msg ++ padding msg.length).length = 64 := by
      rw [List.length_append, padding]
      simp
      omega
    rw [hw₂]
    refine (lastBlock_eq (hl₂.trans hl₁) ht₂ _ _ _).trans ?_
    rw [hdigest, absorb_block _ (by decide) hlast, hpad, h.regs]

/-- `MD5Update` on every piece. -/
def md5Updates (ctx : Context) (pieces : List (List Byte)) : Option Context := pieces.foldlM md5Update ctx

theorem Context.Has.updates : ∀ {pieces : List (List Byte)} {ctx : Context} {msg : List Byte},
    ctx.Has msg → (∀ p ∈ pieces, p.length < 2 ^ 32) →
      ∃ ctx', md5Updates ctx pieces = some ctx' ∧ ctx'.Has (msg ++ pieces.flatten)
  | [], ctx, msg, h, _ => ⟨ctx, rfl, by simpa using h⟩
  | p :: pieces, ctx, msg, h, hp => by
    obtain ⟨ctx₁, h₁, hhas⟩ := h.update p (hp p List.mem_cons_self)
    obtain ⟨ctx₂, h₂, hhas₂⟩ := hhas.updates fun q hq => hp q (List.mem_cons_of_mem p hq)
    refine ⟨ctx₂, ?_, by simpa [List.append_assoc] using hhas₂⟩
    rw [md5Updates, List.foldlM_cons, h₁]
    exact h₂

/-- However a message is cut into pieces, the context ends up with the digest of the whole, and no
    access leaves its buffers. -/
theorem md5_pieces {inBuf : List Byte} (hbuf : inBuf.length = 64) {pieces : List (List Byte)}
    (hp : ∀ p ∈ pieces, p.length < 2 ^ 32) :
    md5Updates (md5Init inBuf) pieces >>= md5Final = some (digest pieces.flatten) := by
  have hinit : (md5Init inBuf).Has [] := taken_nil hbuf
  obtain ⟨ctx, h, hhas⟩ := hinit.updates hp
  rw [h]
  exact hhas.final

theorem md5_pieces_abc :
    md5Updates (md5Init (List.replicate 64 0)) [[0x61], [0x62, 0x63]] >>= md5Final =
      some (digest [0x61, 0x62, 0x63]) :=
  md5_pieces rfl (by simp)

end UrlTraveler.Utility
