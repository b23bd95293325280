import Mathlib.Data.List.Basic
import Mathlib.Tactic.Ring

/-! Streams that are worked off in blocks.

    A running computation takes `n` elements at a time and keeps those that fill no block yet:

        |-- n --|-- n --|-- n --|- rest -|
         f       f       f       waits

    What comes later joins the rest, so the result depends on the stream and not on its pieces. -/

namespace Blocks

variable {α σ : Type} (f : σ → List α → σ) (n : ℕ)

/-- The whole blocks of a stream, one after the other. -/
def absorb (s : σ) (xs : List α) : σ :=
  (List.range (xs.length / n)).foldl (fun s i => f s ((xs.drop (n * i)).take n)) s

/-- The elements behind the last whole block. -/
def rest (xs : List α) : List α := xs.drop (n * (xs.length / n))

variable {n}

theorem absorb_of_lt {xs : List α} (h : xs.length < n) (s : σ) : absorb f n s xs = s := by
  rw [absorb, Nat.div_eq_of_lt h]
  rfl

theorem rest_of_lt {xs : List α} (h : xs.length < n) : rest n xs = xs := by
  rw [rest, Nat.div_eq_of_lt h]
  rfl

theorem absorb_append_block (hn : 0 < n) {b : List α} (hb : b.length = n) (s : σ) (xs : List α) :
    absorb f n s (b ++ xs) = absorb f n (f s b) xs := by
  have hq : (b ++ xs).length / n = xs.length / n + 1 := by
    rw [List.length_append, hb, Nat.add_div_left _ hn]
  have hstep : ∀ i, ((b ++ xs).drop (n * (i + 1))).take n = (xs.drop (n * i)).take n := by
    intro i
    rw [show n * (i + 1) = b.length + n * i by rw [hb]; ring, ← List.drop_drop, List.drop_left]
  rw [absorb, hq, List.range_succ_eq_map, List.foldl_cons, List.foldl_map, absorb]
  simp only [hstep, mul_zero, List.drop_zero, List.take_left' hb]

theorem absorb_block (hn : 0 < n) {b : List α} (hb : b.length = n) (s : σ) : absorb f n s b = f s b := by
  rw [← List.append_nil b, absorb_append_block f hn hb, absorb_of_lt f hn, List.append_nil]

theorem rest_append_block (hn : 0 < n) {b : List α} (hb : b.length = n) (xs : List α) :
    rest n (b ++ xs) = rest n xs := by
  rw [rest, List.length_append, hb, Nat.add_div_left _ hn, rest,
    show n * (xs.length / n).succ = b.length + n * (xs.length / n) by rw [hb, Nat.succ_eq_add_one]; ring,
    ← List.drop_drop, List.drop_left]

theorem length_rest (xs : List α) : (rest n xs).length = xs.length % n := by
  rw [rest, List.length_drop, Nat.mod_eq_sub_mul_div]

theorem length_rest_lt (hn : 0 < n) (xs : List α) : (rest n xs).length < n := by
  rw [length_rest]
  exact Nat.mod_lt _ hn

/-- A stream is a block and a stream, or too short for one. -/
theorem block_cases (n : ℕ) (xs : List α) :
    xs.length < n ∨ ∃ b ys, b.length = n ∧ xs = b ++ ys := by
  rcases lt_or_ge xs.length n with h | h
  · exact .inl h
  · exact .inr ⟨xs.take n, xs.drop n, List.length_take_of_le h, (List.take_append_drop n xs).symm⟩

/-- What comes later is taken up from the rest. -/
theorem absorb_append (hn : 0 < n) (ys : List α) : ∀ (xs : List α) (s : σ),
    absorb f n s (xs ++ ys) = absorb f n (absorb f n s xs) (rest n xs ++ ys) := by
  intro xs
  induction hlen : xs.length using Nat.strong_induction_on generalizing xs with
  | _ len ih =>
    intro s
    rcases block_cases n xs with h | ⟨b, zs, hb, rfl⟩
    · rw [absorb_of_lt f h, rest_of_lt h]
    · have hlt : zs.length < len := by
        rw [← hlen, List.length_append]
        omega
      rw [List.append_assoc, absorb_append_block f hn hb, absorb_append_block f hn hb,
        rest_append_block hn hb]
      exact ih zs.length hlt zs rfl (f s b)

theorem rest_append (hn : 0 < n) (ys : List α) : ∀ xs : List α,
    rest n (xs ++ ys) = rest n (rest n xs ++ ys) := by
  intro xs
  induction hlen : xs.length using Nat.strong_induction_on generalizing xs with
  | _ len ih =>
    rcases block_cases n xs with h | ⟨b, zs, hb, rfl⟩
    · rw [rest_of_lt h]
    · have hlt : zs.length < len := by
        rw [← hlen, List.length_append]
        omega
      rw [List.append_assoc, rest_append_block hn hb, rest_append_block hn hb]
      exact ih zs.length hlt zs rfl

end Blocks
