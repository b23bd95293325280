import Mathlib

/-! Bounded queues that overwrite.

    Pushing to a full queue drops the oldest element:

        capacity 3      [a, b, c]  ──push d──▶  [b, c, d]

    Pushing a list leaves the last elements of all that were there and came. -/

namespace UrlTraveler.Circular

variable {α : Type} {cap : ℕ}

/-- `boost::circular_buffer::push_back`. -/
def pushBack (cap : ℕ) (buf : List α) (x : α) : List α :=
  if buf.length < cap then buf ++ [x]
  else if buf = [] then []
  else buf.tail ++ [x]

theorem pushBack_of_lt {buf : List α} (h : buf.length < cap) (x : α) :
    pushBack cap buf x = buf ++ [x] := if_pos h

/-- Pushing a list onto a queue that is within its capacity. -/
theorem foldl_pushBack (hcap : 0 < cap) : ∀ (l buf : List α), buf.length ≤ cap →
    l.foldl (pushBack cap) buf = (buf ++ l).drop (buf.length + l.length - cap)
  | [], buf, h => by simp [Nat.sub_eq_zero_of_le h]
  | x :: l, buf, h => by
    rw [List.foldl_cons, pushBack]
    split
    next hlt =>
      rw [foldl_pushBack hcap l _ (by simpa using hlt)]
      simp [Nat.add_assoc, Nat.add_comm 1]
    next hge =>
      obtain ⟨y, buf, rfl⟩ : ∃ y buf', buf = y :: buf' := by
        cases buf with
        | nil => simp at hge; omega
        | cons y buf => exact ⟨y, buf, rfl⟩
      simp only [List.length_cons] at h hge
      rw [if_neg (by simp), List.tail_cons, foldl_pushBack hcap l _ (by simp; omega)]
      have hlen : (y :: buf).length + (x :: l).length - cap =
          (buf ++ [x]).length + l.length - cap + 1 := by
        simp only [List.length_cons, List.length_append, List.length_nil]
        omega
      rw [hlen, List.cons_append, List.drop_succ_cons, List.append_assoc, List.singleton_append]

end UrlTraveler.Circular
