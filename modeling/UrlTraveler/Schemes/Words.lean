import Mathlib

/-! Machine words as integers.

    A result that does not fit into a word loses its high bits:

        signed     int32   ... ─▶ [-2^31, 2^31)
        unsigned   uint32  ... ─▶ [0, 2^32)
        WORD       word    ... ─▶ [0, 2^16)                                                         -/

namespace UrlTraveler.Words

/-- The signed value that 32 bits keep of a number. -/
def int32 (n : ℤ) : ℤ := (n + 2 ^ 31) % 2 ^ 32 - 2 ^ 31

/-- The unsigned value that 32 bits keep of a number. -/
def uint32 (n : ℤ) : ℤ := n % 2 ^ 32

/-- The unsigned value that 16 bits keep of a number. -/
def word (n : ℤ) : ℕ := (n % 2 ^ 16).toNat

theorem int32_of_mem {n : ℤ} (h : -2 ^ 31 ≤ n) (h' : n < 2 ^ 31) : int32 n = n := by
  simp only [int32]
  omega

theorem int32_natCast {n : ℕ} (h : n < 2 ^ 31) : int32 n = n :=
  int32_of_mem (le_trans (by norm_num) (Int.natCast_nonneg n)) (by exact_mod_cast h)

theorem neg_le_int32 (n : ℤ) : -2 ^ 31 ≤ int32 n := by
  simp only [int32]
  omega

theorem int32_lt (n : ℤ) : int32 n < 2 ^ 31 := by
  simp only [int32]
  omega

theorem uint32_of_mem {n : ℤ} (h : 0 ≤ n) (h' : n < 2 ^ 32) : uint32 n = n := Int.emod_eq_of_lt h h'

theorem word_natCast {n : ℕ} (h : n < 2 ^ 16) : word n = n := by
  simp only [word]
  omega

end UrlTraveler.Words
