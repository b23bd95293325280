import Mathlib.Data.BitVec
import Mathlib.Data.Fin.VecNotation
import Mathlib.Data.Fintype.Basic
import Mathlib.Data.Fintype.BigOperators
import Mathlib.Tactic.FinCases

/-! The AES block cipher with ten rounds, and its computation by tables of words.

        state   s[r,c] = in[r + 4c]        word c = s[0,c] s[1,c] s[2,c] s[3,c]

        round   SubBytes ─▶ ShiftRows ─▶ MixColumns ─▶ AddRoundKey
        tables  te 0 (s[0,c]) ⊕ te 1 (s[1,c+1]) ⊕ te 2 (s[2,c+2]) ⊕ te 3 (s[3,c+3]) ⊕ key

    The round keys are given; how they come from a cipher key is not part of this. -/

namespace Aes

abbrev Byte := BitVec 8
abbrev Word := BitVec 32

theorem xor_left_comm {n : ℕ} (a b c : BitVec n) : a ^^^ (b ^^^ c) = b ^^^ (a ^^^ c) := by
  rw [← BitVec.xor_assoc, BitVec.xor_comm a b, BitVec.xor_assoc]

/-! ### The field of bytes -/

/-- Multiplication by x modulo x⁸ + x⁴ + x³ + x + 1. -/
def xtime (b : Byte) : Byte := (b <<< 1) ^^^ (if b.msb then 0x1b else 0)

/-- The sum of the multiples of `b` by the lowest `n` powers of x that are in `a`. -/
def gmulLoop : ℕ → Byte → Byte → Byte
  | 0, _, _ => 0
  | n + 1, a, b => (if a.getLsbD 0 then b else 0) ^^^ gmulLoop n (a >>> 1) (xtime b)

/-- Multiplication. -/
def gmul (a b : Byte) : Byte := gmulLoop 8 a b

/-- The inverses of the bytes, 32 to a row; 0 for 0. -/
def invRows : List ℕ :=
  [ 0x00018df6cb527bd1e84f29c0b0e1e5c774b4aa4b992b605f583ffdccff40eeb2,
    0x3a6e5af1554da8c9c10a98153044a2c22c45926cf3396642f235206f77bb5919,
    0x1dfe37672d31f569a764ab135425e909ed5c05ca4c2487bf183e22f051ec6117,
    0x165eafd349a63643f44791df3393213b79b7978510b5ba3cb670d006a1fa8182,
    0x837e7f809673be569b9e95d9f702b9a4de6a326dd88a84722a149f88f9dc899a,
    0xfb7c2ec38fb8654826c8124acee7d2620ce01fef11757871a58e763dbdbc8657,
    0x0b282fa3dad4e40fa92753041bfcace67a07ae63c5dbe2ea948bc4d59df8906b,
    0xb10dd6ebc60ecfad084ed7e35d501eb35b2338346846038cdd9c7da0cd1a411c ]

def inv (b : Byte) : Byte :=
  BitVec.ofNat 8 (invRows.getD (b.toNat / 32) 0 >>> (8 * (31 - b.toNat % 32)))

theorem gmul_inv : ∀ b : Byte, b ≠ 0 → gmul b (inv b) = 1 := by decide +kernel

theorem inv_zero : inv 0 = 0 := by decide +kernel

@[simp] theorem gmul_one (b : Byte) : gmul 1#8 b = b := by simp [gmul, gmulLoop]

@[simp] theorem gmul_two (b : Byte) : gmul 2#8 b = xtime b := by simp [gmul, gmulLoop]

@[simp] theorem gmul_three (b : Byte) : gmul 3#8 b = b ^^^ xtime b := by simp [gmul, gmulLoop]

/-- The S-box: the inverse, then bit i plus the bits i + 4 up to i + 7, plus 0x63. -/
def sbox (b : Byte) : Byte :=
  let b := inv b
  b ^^^ b.rotateLeft 1 ^^^ b.rotateLeft 2 ^^^ b.rotateLeft 3 ^^^ b.rotateLeft 4 ^^^ 0x63

/-! ### The cipher -/

/-- Rows and columns; both are counted modulo 4. -/
abbrev State := Fin 4 → Fin 4 → Byte

def subBytes (s : State) : State := fun r c => sbox (s r c)

def shiftRows (s : State) : State := fun r c => s r (c + r)

def mixColumns (s : State) : State := fun r c =>
  gmul 2 (s r c) ^^^ gmul 3 (s (r + 1) c) ^^^ s (r + 2) c ^^^ s (r + 3) c

def addRoundKey (k s : State) : State := fun r c => s r c ^^^ k r c

def round (k s : State) : State := addRoundKey k (mixColumns (shiftRows (subBytes s)))

def finalRound (k s : State) : State := addRoundKey k (shiftRows (subBytes s))

/-- The first key, and rounds up to number `n`. -/
def rounds (k : ℕ → State) (s : State) : ℕ → State
  | 0 => addRoundKey (k 0) s
  | n + 1 => round (k (n + 1)) (rounds k s n)

/-- Ten rounds, the last without MixColumns. -/
def cipher (k : ℕ → State) (s : State) : State := finalRound (k 10) (rounds k s 9)

/-- The state of a block of input. -/
def load (b : Vector Byte 16) : State := fun r c => b[r.val + 4 * c.val]

/-- The block of output of a state. -/
def store (s : State) : Vector Byte 16 :=
  Vector.ofFn fun i => s ⟨i % 4, Nat.mod_lt _ (by decide)⟩ ⟨i / 4, by omega⟩

theorem load_store (s : State) : load (store s) = s := by
  funext r c
  have hr : (r.val + 4 * c.val) % 4 = r.val := by omega
  have hc : (r.val + 4 * c.val) / 4 = c.val := by omega
  simp [load, store, hr, hc]

/-- The encryption of a block under eleven round keys. -/
def encrypt (k : ℕ → State) (b : Vector Byte 16) : Vector Byte 16 := store (cipher k (load b))

/-! ### Words -/

/-- The word of a column. -/
def pack (col : Fin 4 → Byte) : Word := col 0 ++ col 1 ++ col 2 ++ col 3

/-- The byte of a word that is in row `r`. -/
def row (w : Word) (r : Fin 4) : Byte := w.extractLsb' (8 * (3 - r.val)) 8

/-- The words of a state. -/
def words (s : State) (c : Fin 4) : Word := pack fun r => s r c

@[simp] theorem row_pack (col : Fin 4 → Byte) (r : Fin 4) : row (pack col) r = col r := by
  refine BitVec.eq_of_getLsbD_eq fun i hi => ?_
  fin_cases r <;> simp [row, pack] <;> grind

@[simp] theorem pack_row (w : Word) : pack (row w) = w := by
  refine BitVec.eq_of_getLsbD_eq fun i hi => ?_
  simp [row, pack]
  grind

theorem pack_xor (f g : Fin 4 → Byte) : pack (fun r => f r ^^^ g r) = pack f ^^^ pack g := by
  simp only [pack, ← BitVec.xor_append]

theorem words_addRoundKey (k s : State) (c : Fin 4) :
    words (addRoundKey k s) c = words s c ^^^ words k c :=
  pack_xor (fun r => s r c) (fun r => k r c)

/-! ### Rounds by tables -/

/-- The factors of a column of MixColumns. -/
def coef : Fin 4 → Byte := ![2, 3, 1, 1]

/-- What the byte in row `j` of a column adds to the mixed column. -/
def spread (j : Fin 4) (b : Byte) : Word := pack fun r => gmul (coef (j - r)) b

/-- Table `j`. -/
def te (j : Fin 4) (b : Byte) : Word := spread j (sbox b)

theorem words_mixColumns (s : State) (c : Fin 4) : words (mixColumns s) c =
    spread 0 (s 0 c) ^^^ spread 1 (s 1 c) ^^^ spread 2 (s 2 c) ^^^ spread 3 (s 3 c) := by
  simp only [words, spread, ← pack_xor]
  congr 1
  funext r
  match r with
  | 0 | 1 | 2 | 3 => simp [mixColumns, coef, BitVec.xor_assoc, BitVec.xor_comm, xor_left_comm]

/-- A round on words. -/
def wordRound (k w : Fin 4 → Word) (c : Fin 4) : Word :=
  te 0 (row (w c) 0) ^^^ te 1 (row (w (c + 1)) 1) ^^^ te 2 (row (w (c + 2)) 2) ^^^
    te 3 (row (w (c + 3)) 3) ^^^ k c

/-- The last round on words. -/
def wordFinal (k w : Fin 4 → Word) (c : Fin 4) : Word :=
  pack (fun r => sbox (row (w (c + r)) r)) ^^^ k c

theorem words_round (k s : State) : words (round k s) = wordRound (words k) (words s) := by
  funext c
  rw [round, words_addRoundKey, words_mixColumns]
  simp [wordRound, te, words, shiftRows, subBytes]

theorem words_finalRound (k s : State) :
    words (finalRound k s) = wordFinal (words k) (words s) := by
  funext c
  rw [finalRound, words_addRoundKey]
  simp [wordFinal, words, shiftRows, subBytes]

end Aes
