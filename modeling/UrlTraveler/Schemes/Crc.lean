import Mathlib

/-! Cyclic redundancy checks, one bit at a time.

    A register of `w` bits is shifted by one place for each bit of the message; the polynomial is
    added when a one falls out. The plain register shifts up and the reflected one down:

        plain       x ↦ (x << 1) ^ (msb x ? p : 0)
                    │ reverse                         `reverse_shiftStep`
                    ▼
        reflected   y ↦ (y >> 1) ^ (lsb y ? reverse p : 0)

    The reflected step is linear for xor, so eight of them are a shift by eight places and a value
    that depends on the lowest byte alone: the entry of a table. -/

namespace UrlTraveler.Crc

variable {w : ℕ} (p : BitVec w)

/-- One step of the reflected register. -/
def bitStep (crc : BitVec w) : BitVec w := (crc >>> 1) ^^^ (if crc.getLsbD 0 then p else 0)

def bitSteps : ℕ → BitVec w → BitVec w
  | 0, crc => crc
  | k + 1, crc => bitSteps k (bitStep p crc)

/-- A byte goes into the low end of the register and is shifted out. -/
def byteStep (crc : BitVec w) (byte : BitVec 8) : BitVec w := bitSteps p 8 (crc ^^^ byte.setWidth w)

/-- The reflected check of a message with the polynomial `poly`. -/
def reflected (poly initial xorOut : BitVec w) (bytes : List (BitVec 8)) : BitVec w :=
  bytes.foldl (byteStep poly.reverse) initial ^^^ xorOut

/-- One step of the plain register. -/
def shiftStep (crc : BitVec w) : BitVec w := (crc <<< 1) ^^^ (if crc.msb then p else 0)

def shiftSteps : ℕ → BitVec w → BitVec w
  | 0, crc => crc
  | k + 1, crc => shiftSteps k (shiftStep p crc)

/-! ### Linearity -/

theorem ite_xor (a b : Bool) :
    (if a ^^ b then p else 0) = (if a then p else 0) ^^^ (if b then p else 0) := by
  cases a <;> cases b <;> simp

theorem bitStep_xor (x y : BitVec w) : bitStep p (x ^^^ y) = bitStep p x ^^^ bitStep p y := by
  rw [bitStep, BitVec.getLsbD_xor, ite_xor, BitVec.ushiftRight_xor_distrib]
  simp only [bitStep]
  ac_rfl

theorem bitSteps_xor : ∀ (k : ℕ) (x y : BitVec w),
    bitSteps p k (x ^^^ y) = bitSteps p k x ^^^ bitSteps p k y
  | 0, _, _ => rfl
  | k + 1, x, y => by
    rw [bitSteps, bitStep_xor, bitSteps_xor k]
    rfl

/-- A register whose low bits are clear only moves down. -/
theorem bitSteps_of_low_clear : ∀ (k : ℕ) (x : BitVec w), (∀ i < k, x.getLsbD i = false) →
    bitSteps p k x = x >>> k
  | 0, x, _ => by simp [bitSteps]
  | k + 1, x, h => by
    have h0 : x.getLsbD 0 = false := h 0 (Nat.succ_pos k)
    have hstep : bitStep p x = x >>> 1 := by simp [bitStep, h0]
    rw [bitSteps, hstep, bitSteps_of_low_clear k, ← BitVec.shiftRight_add, Nat.add_comm]
    intro i hi
    rw [BitVec.getLsbD_ushiftRight]
    exact h (1 + i) (by omega)

/-- The rule of the table: the high part moves down, the low part is looked up. -/
theorem bitSteps_split {k : ℕ} {x : BitVec w} (h : ∀ i < k, x.getLsbD i = false) (y : BitVec w) :
    bitSteps p k (x ^^^ y) = (x >>> k) ^^^ bitSteps p k y := by
  rw [bitSteps_xor, bitSteps_of_low_clear p k x h]

/-! ### Reflection -/

theorem reverse_xor (x y : BitVec w) : (x ^^^ y).reverse = x.reverse ^^^ y.reverse := by
  ext i hi
  simp [BitVec.getElem_reverse, BitVec.getMsbD_xor]

theorem reverse_shiftLeft (x : BitVec w) (k : ℕ) : (x <<< k).reverse = x.reverse >>> k := by
  ext i hi
  rw [BitVec.getElem_reverse, BitVec.getElem_ushiftRight, BitVec.getLsbD_reverse]
  simp only [BitVec.getMsbD_shiftLeft, Nat.add_comm]

theorem reverse_shiftStep (x : BitVec w) : (shiftStep p x).reverse = bitStep p.reverse x.reverse := by
  have hlow : x.reverse.getLsbD 0 = x.msb := by rw [BitVec.getLsbD_reverse]; rfl
  rw [shiftStep, bitStep, reverse_xor, reverse_shiftLeft, hlow]
  split
  · rfl
  · exact congrArg (_ ^^^ ·) (BitVec.reverse_eq_zero_iff.2 rfl)

theorem shiftSteps_succ : ∀ (k : ℕ) (x : BitVec w),
    shiftSteps p (k + 1) x = shiftStep p (shiftSteps p k x)
  | 0, _ => rfl
  | k + 1, x => by rw [shiftSteps, shiftSteps_succ k, shiftSteps]

theorem reverse_shiftSteps : ∀ (k : ℕ) (x : BitVec w),
    (shiftSteps p k x).reverse = bitSteps p.reverse k x.reverse
  | 0, _ => rfl
  | k + 1, x => by rw [shiftSteps, bitSteps, reverse_shiftSteps k, reverse_shiftStep]

end UrlTraveler.Crc
