import UrlTraveler.Schemes.Blocks
import Mathlib.Data.BitVec
import Mathlib.Tactic.IntervalCases

/-! The MD5 message digest.

    The message is padded to whole blocks of 64 bytes, and every block changes four words:

        message │ 80 │ 00 ... 00 │ bits, low word │ bits, high word
                 up to 56 mod 64

    One block is 64 operations. In operation `i` the word `a` changes and the words change places;
    code that is written out leaves the words where they are and lets the names move instead. -/

namespace Md5

abbrev Byte := BitVec 8
abbrev Word := BitVec 32

/-- The four words of the digest. -/
structure Regs where
  a : Word
  b : Word
  c : Word
  d : Word
  deriving DecidableEq

/-! ### The operations -/

def F (x y z : Word) : Word := (x &&& y) ||| (~~~x &&& z)
def G (x y z : Word) : Word := (x &&& z) ||| (y &&& ~~~z)
def H (x y z : Word) : Word := x ^^^ y ^^^ z
def I (x y z : Word) : Word := y ^^^ (x ||| ~~~z)

/-- The function of a round. -/
def roundFn : ℕ → Word → Word → Word → Word
  | 0 => F
  | 1 => G
  | 2 => H
  | _ => I

/-- The word of the block that operation `i` takes. -/
def index (i : ℕ) : ℕ :=
  match i / 16 with
  | 0 => i % 16
  | 1 => (5 * i + 1) % 16
  | 2 => (3 * i + 5) % 16
  | _ => 7 * i % 16

/-- How far operation `i` turns. -/
def shift (i : ℕ) : ℕ :=
  ([[7, 12, 17, 22], [5, 9, 14, 20], [4, 11, 16, 23], [6, 10, 15, 21]].getD (i / 16) []).getD (i % 4) 0

/-- The integer parts of `2^32 * |sin i|` for `i` from 1 to 64. -/
def table : List Word :=
  [0xd76aa478, 0xe8c7b756, 0x242070db, 0xc1bdceee, 0xf57c0faf, 0x4787c62a, 0xa8304613, 0xfd469501,
   0x698098d8, 0x8b44f7af, 0xffff5bb1, 0x895cd7be, 0x6b901122, 0xfd987193, 0xa679438e, 0x49b40821,
   0xf61e2562, 0xc040b340, 0x265e5a51, 0xe9b6c7aa, 0xd62f105d, 0x02441453, 0xd8a1e681, 0xe7d3fbc8,
   0x21e1cde6, 0xc33707d6, 0xf4d50d87, 0x455a14ed, 0xa9e3e905, 0xfcefa3f8, 0x676f02d9, 0x8d2a4c8a,
   0xfffa3942, 0x8771f681, 0x6d9d6122, 0xfde5380c, 0xa4beea44, 0x4bdecfa9, 0xf6bb4b60, 0xbebfbc70,
   0x289b7ec6, 0xeaa127fa, 0xd4ef3085, 0x04881d05, 0xd9d4d039, 0xe6db99e5, 0x1fa27cf8, 0xc4ac5665,
   0xf4292244, 0x432aff97, 0xab9423a7, 0xfc93a039, 0x655b59c3, 0x8f0ccc92, 0xffeff47d, 0x85845dd1,
   0x6fa87e4f, 0xfe2ce6e0, 0xa3014314, 0x4e0811a1, 0xf7537e82, 0xbd3af235, 0x2ad7d2bb, 0xeb86d391]

/-- Operation `i` on a block `x`; afterwards every word has moved one place. -/
def operation (x : List Word) (r : Regs) (i : ℕ) : Regs where
  a := r.d
  b := r.b + (r.a + roundFn (i / 16) r.b r.c r.d + x.getD (index i) 0 + table.getD i 0).rotateLeft (shift i)
  c := r.b
  d := r.c

def Regs.add (r r' : Regs) : Regs := ⟨r.a + r'.a, r.b + r'.b, r.c + r'.c, r.d + r'.d⟩

/-- One block of 16 words. -/
def compress (r : Regs) (x : List Word) : Regs := r.add ((List.range 64).foldl (operation x) r)

/-! ### The digest -/

/-- Four bytes make a word, the lowest first. -/
def word (b₀ b₁ b₂ b₃ : Byte) : Word := b₃ ++ b₂ ++ b₁ ++ b₀

def words : List Byte → List Word
  | b₀ :: b₁ :: b₂ :: b₃ :: bs => word b₀ b₁ b₂ b₃ :: words bs
  | _ => []

/-- The bytes of a word, the lowest first. -/
def wordBytes (w : Word) : List Byte := (List.range 4).map fun k => w.extractLsb' (8 * k) 8

/-- The words the digest starts from. -/
def initial : Regs := ⟨0x67452301, 0xefcdab89, 0x98badcfe, 0x10325476⟩

/-- The low and the high word of a length in bits. -/
def lowBits (n : ℕ) : Word := BitVec.ofNat 32 (8 * n)
def highBits (n : ℕ) : Word := BitVec.ofNat 32 (8 * n / 2 ^ 32)

/-- The bytes behind a message of `n` bytes. -/
def padding (n : ℕ) : List Byte :=
  0x80 :: List.replicate ((119 - n % 64) % 64) 0 ++ (wordBytes (lowBits n) ++ wordBytes (highBits n))

/-- One block of 64 bytes. -/
def block (r : Regs) (bs : List Byte) : Regs := compress r (words bs)

/-- The whole blocks of a message. -/
def hash (msg : List Byte) : Regs := Blocks.absorb block 64 initial msg

def Regs.bytes (r : Regs) : List Byte := wordBytes r.a ++ wordBytes r.b ++ wordBytes r.c ++ wordBytes r.d

/-- The digest of a message. -/
def digest (msg : List Byte) : List Byte := (hash (msg ++ padding msg.length)).bytes

theorem extractLsb'_word (b₀ b₁ b₂ b₃ : Byte) {k : ℕ} (hk : k < 4) :
    (word b₀ b₁ b₂ b₃).extractLsb' (8 * k) 8 = [b₀, b₁, b₂, b₃].getD k 0 := by
  refine BitVec.eq_of_getLsbD_eq fun i hi => ?_
  interval_cases k <;> simp [word] <;> grind

theorem wordBytes_word (b₀ b₁ b₂ b₃ : Byte) : wordBytes (word b₀ b₁ b₂ b₃) = [b₀, b₁, b₂, b₃] := by
  rw [wordBytes, List.map_congr_left fun k hk => extractLsb'_word b₀ b₁ b₂ b₃ (List.mem_range.mp hk)]
  rfl

/-- A word is its bytes, shifted to their places. -/
theorem shifts_eq_word (b₀ b₁ b₂ b₃ : Byte) : b₀.setWidth 32 ||| b₁.setWidth 32 <<< 8 |||
    b₂.setWidth 32 <<< 16 ||| b₃.setWidth 32 <<< 24 = word b₀ b₁ b₂ b₃ := by
  refine BitVec.eq_of_getLsbD_eq fun i hi => ?_
  simp only [word, BitVec.getLsbD_or, BitVec.getLsbD_shiftLeft, BitVec.getLsbD_append,
    BitVec.getLsbD_setWidth]
  grind

@[simp] theorem length_wordBytes (w : Word) : (wordBytes w).length = 4 := by
  simp [wordBytes]

/-! ### Operations that are written out -/

inductive Name where | a | b | c | d
  deriving DecidableEq

def Regs.get (r : Regs) : Name → Word
  | .a => r.a
  | .b => r.b
  | .c => r.c
  | .d => r.d

def Regs.set (r : Regs) (w : Word) : Name → Regs
  | .a => { r with a := w }
  | .b => { r with b := w }
  | .c => { r with c := w }
  | .d => { r with d := w }

/-- An operation with the names of its four words, its function, the place of its word in the block,
    its constant and its turn. -/
structure Op (φ : Type) where
  fn : φ
  w : Name
  x : Name
  y : Name
  z : Name
  k : ℕ
  t : Word
  s : ℕ
  deriving DecidableEq

variable {φ : Type}

/-- `w := x + (w + f(x, y, z) + block[k] + t) <<< s`. -/
def Op.run (eval : φ → Word → Word → Word → Word) (block : List Word) (r : Regs) (op : Op φ) : Regs :=
  r.set (r.get op.x + (r.get op.w + eval op.fn (r.get op.x) (r.get op.y) (r.get op.z) +
    block.getD op.k 0 + op.t).rotateLeft op.s) op.w

/-- The names turn backwards. -/
def names (i : ℕ) : List Name :=
  [[.a, .b, .c, .d], [.d, .a, .b, .c], [.c, .d, .a, .b], [.b, .c, .d, .a]].getD (i % 4) []

/-- Operation `i`, written out. -/
def opAt (fns : List φ) (dflt : φ) (i : ℕ) : Op φ where
  fn := fns.getD (i / 16) dflt
  w := (names i).getD 0 .a
  x := (names i).getD 1 .a
  y := (names i).getD 2 .a
  z := (names i).getD 3 .a
  k := index i
  t := table.getD i 0
  s := shift i

/-- The words in the order in which operation `i` names them. -/
def Regs.view (r : Regs) (i : ℕ) : Regs where
  a := r.get ((names i).getD 0 .a)
  b := r.get ((names i).getD 1 .a)
  c := r.get ((names i).getD 2 .a)
  d := r.get ((names i).getD 3 .a)

theorem view_run {eval : φ → Word → Word → Word → Word} {fns : List φ} {dflt : φ}
    (hfn : ∀ i < 64, eval (fns.getD (i / 16) dflt) = roundFn (i / 16)) (block : List Word) (r : Regs)
    {i : ℕ} (hi : i < 64) :
    ((opAt fns dflt i).run eval block r).view (i + 1) = operation block (r.view i) i := by
  have hnames : names (i + 1) = names ((i % 4) + 1) := by
    rw [names, names, Nat.add_mod, Nat.add_mod (i % 4), Nat.mod_mod]
  have hnames' : names i = names (i % 4) := by rw [names, names, Nat.mod_mod]
  have hlt : i % 4 < 4 := Nat.mod_lt _ (by decide)
  simp only [Op.run, opAt, Regs.view, operation, hfn i hi, hnames, hnames']
  generalize i % 4 = m at hlt
  interval_cases m <;> rfl

theorem foldl_view {eval : φ → Word → Word → Word → Word} {fns : List φ} {dflt : φ}
    (hfn : ∀ i < 64, eval (fns.getD (i / 16) dflt) = roundFn (i / 16)) (block : List Word) (r : Regs) :
    ∀ n ≤ 64, (((List.range n).map (opAt fns dflt)).foldl (Op.run eval block) r).view n =
      (List.range n).foldl (operation block) r
  | 0, _ => rfl
  | n + 1, hn => by
    rw [List.range_succ, List.map_append, List.foldl_append, List.foldl_append,
      ← foldl_view hfn block r n (by omega)]
    exact view_run hfn block _ (by omega)

/-- After four operations every word has its own name again. -/
theorem view_of_four_dvd (r : Regs) {i : ℕ} (hi : i % 4 = 0) : r.view i = r := by
  rw [Regs.view, names, hi]
  rfl

theorem turn_eq (w : Word) {s : ℕ} (hs : s < 32) : w <<< s ||| w >>> (32 - s) = w.rotateLeft s := by
  rw [BitVec.rotateLeft_def, Nat.mod_eq_of_lt hs]

/-- The 64 operations written out are the 64 operations. -/
theorem foldl_ops {eval : φ → Word → Word → Word → Word} {fns : List φ} {dflt : φ}
    (hfn : ∀ i < 64, eval (fns.getD (i / 16) dflt) = roundFn (i / 16)) (block : List Word) (r : Regs) :
    ((List.range 64).map (opAt fns dflt)).foldl (Op.run eval block) r =
      (List.range 64).foldl (operation block) r := by
  rw [← foldl_view hfn block r 64 le_rfl, view_of_four_dvd _ (by decide)]

/-! ### Messages that arrive in pieces -/

/-- What a running digest has taken up of a message: the whole blocks, the count of bits in two
    words, and the last bytes at the front of the block buffer. -/
structure Taken (r : Regs) (low high : Word) (buffer msg : List Byte) : Prop where
  regs : r = hash msg
  low_eq : low = lowBits msg.length
  high_eq : high = highBits msg.length
  length : buffer.length = 64
  kept : buffer.take (msg.length % 64) = Blocks.rest 64 msg

theorem lowBits_add (n m : ℕ) : lowBits (n + m) = lowBits n + BitVec.ofNat 32 m <<< 3 := by
  apply BitVec.eq_of_toNat_eq
  simp only [lowBits, BitVec.toNat_add, BitVec.toNat_shiftLeft, BitVec.toNat_ofNat, Nat.shiftLeft_eq]
  omega

/-- The carry of a sum shows in comparison with either summand. -/
theorem carry_comm (x y : Word) : x + y < x ↔ x + y < y := by
  rw [BitVec.lt_def, BitVec.lt_def, BitVec.toNat_add]
  have hx := x.isLt
  have hy := y.isLt
  omega

theorem highBits_add (n : ℕ) {m : ℕ} (hm : m < 2 ^ 32) : highBits (n + m) =
    (if lowBits n + BitVec.ofNat 32 m <<< 3 < lowBits n then highBits n + 1 else highBits n) +
      BitVec.ofNat 32 m >>> 29 := by
  have hcarry : lowBits n + BitVec.ofNat 32 m <<< 3 < lowBits n ↔
      2 ^ 32 ≤ 8 * n % 2 ^ 32 + 8 * m % 2 ^ 32 := by
    rw [BitVec.lt_def]
    simp only [lowBits, BitVec.toNat_add, BitVec.toNat_shiftLeft, BitVec.toNat_ofNat, Nat.shiftLeft_eq]
    omega
  have hone : (1 : Word).toNat = 1 := rfl
  apply BitVec.eq_of_toNat_eq
  simp only [hcarry]
  split <;> simp only [highBits, BitVec.toNat_add, BitVec.toNat_ushiftRight, BitVec.toNat_ofNat, hone,
    Nat.shiftRight_eq_div_pow] <;> omega

/-- The count tells how much of a block waits. -/
theorem waiting_eq (n : ℕ) : ((lowBits n >>> 3) &&& 0x3f).toNat = n % 64 := by
  have hmask : ∀ x : ℕ, x &&& (0x3f : Word).toNat = x % 64 :=
    fun x => Nat.and_two_pow_sub_one_eq_mod x 6
  rw [BitVec.toNat_and, BitVec.toNat_ushiftRight, Nat.shiftRight_eq_div_pow]
  simp only [lowBits, BitVec.toNat_ofNat]
  rw [hmask]
  omega

theorem taken_nil {buffer : List Byte} (h : buffer.length = 64) :
    Taken initial 0 0 buffer [] where
  regs := (Blocks.absorb_of_lt _ (by decide) _).symm
  low_eq := rfl
  high_eq := rfl
  length := h
  kept := rfl

/-- A message that goes on. -/
theorem hash_append (msg bs : List Byte) :
    hash (msg ++ bs) = Blocks.absorb block 64 (hash msg) (Blocks.rest 64 msg ++ bs) :=
  Blocks.absorb_append _ (by decide) bs msg initial

end Md5
