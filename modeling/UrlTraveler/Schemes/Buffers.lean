import Mathlib

/-! Buffers with checked accesses.

    Every access names its place, and one that leaves the buffer has no result:

        0        off        off + n        length
        |         |------------|             |        `some`
        |                          |------------|     `none`

    So a computation over buffers has a result exactly when all its accesses stay inside. -/

namespace UrlTraveler.Buffers

variable {α : Type}

/-- `n` elements from `off` on. -/
def readRange (buf : List α) (off n : ℕ) : Option (List α) :=
  if off + n ≤ buf.length then some ((buf.drop off).take n) else none

/-- The elements from `off` on are overwritten. -/
def writeRange (buf : List α) (off : ℕ) (xs : List α) : Option (List α) :=
  if off + xs.length ≤ buf.length then some (buf.take off ++ xs ++ buf.drop (off + xs.length)) else none

/-- One element is read and written back. -/
def modifyAt (buf : List α) (i : ℕ) (f : α → α) : Option (List α) :=
  if i < buf.length then some (buf.modify i f) else none

/-- A loop that changes `n` elements one after the other. -/
def modifyLoop (buf : List α) (off n : ℕ) (f : ℕ → α → α) : Option (List α) :=
  (List.range n).foldlM (fun buf m => modifyAt buf (off + m) (f m)) buf

/-- `n` elements from `off` on are changed. -/
def modifyRange (off n : ℕ) (f : ℕ → α → α) (buf : List α) : List α :=
  buf.mapIdx fun i x => if off ≤ i ∧ i < off + n then f (i - off) x else x

/-! ### Ranges -/

theorem length_of_readRange {buf xs : List α} {off n : ℕ} (h : readRange buf off n = some xs) :
    xs.length = n := by
  rw [readRange, Option.ite_none_right_eq_some, Option.some.injEq] at h
  obtain ⟨hle, rfl⟩ := h
  rw [List.length_take, List.length_drop]
  omega

theorem length_of_writeRange {buf buf' xs : List α} {off : ℕ} (h : writeRange buf off xs = some buf') :
    buf'.length = buf.length := by
  rw [writeRange, Option.ite_none_right_eq_some, Option.some.injEq] at h
  obtain ⟨hle, rfl⟩ := h
  simp only [List.length_append, List.length_take, List.length_drop]
  omega

theorem le_of_readRange {buf xs : List α} {off n : ℕ} (h : readRange buf off n = some xs) :
    off + n ≤ buf.length := by
  rw [readRange, Option.ite_none_right_eq_some] at h
  exact h.1

theorem readRange_eq_none_iff {buf : List α} {off n : ℕ} :
    readRange buf off n = none ↔ buf.length < off + n := by
  rw [readRange, ite_eq_right_iff, ← not_le]
  exact ⟨fun h hle => Option.some_ne_none _ (h hle), fun h hle => absurd hle h⟩

theorem getElem?_of_readRange {buf xs : List α} {off n i : ℕ} (h : readRange buf off n = some xs)
    (hi : i < n) : xs[i]? = buf[off + i]? := by
  rw [readRange, Option.ite_none_right_eq_some, Option.some.injEq] at h
  obtain ⟨-, rfl⟩ := h
  rw [List.getElem?_take_of_lt hi, List.getElem?_drop]

/-- A range that is known as a part of the buffer. -/
theorem readRange_append {pre xs : List α} (post : List α) {off n : ℕ} (hoff : pre.length = off)
    (hn : xs.length = n) : readRange (pre ++ xs ++ post) off n = some xs := by
  subst hoff hn
  rw [readRange, if_pos (by simp), List.append_assoc, List.drop_left, List.take_left]

theorem readRange_all {xs : List α} {n : ℕ} (hn : xs.length = n) : readRange xs 0 n = some xs := by
  have h : readRange ([] ++ xs ++ []) 0 n = some xs := readRange_append [] rfl hn
  simpa using h

theorem writeRange_append {pre old xs post : List α} {off : ℕ} (hoff : pre.length = off)
    (hlen : old.length = xs.length) :
    writeRange (pre ++ old ++ post) off xs = some (pre ++ xs ++ post) := by
  subst hoff
  have hpost : (pre ++ old ++ post).drop (pre.length + xs.length) = post := by
    rw [← hlen, ← List.length_append, List.drop_left]
  rw [writeRange, if_pos (by simp; omega), hpost, List.append_assoc pre old, List.take_left]

theorem writeRange_all {old xs : List α} (hlen : old.length = xs.length) :
    writeRange old 0 xs = some xs := by
  have h : writeRange ([] ++ old ++ []) 0 xs = some ([] ++ xs ++ []) := writeRange_append rfl hlen
  simpa using h

/-- After a write inside the buffer, its front is the old front and what was written. -/
theorem exists_writeRange (buf xs : List α) (off : ℕ) (h : off + xs.length ≤ buf.length) :
    ∃ buf', writeRange buf off xs = some buf' ∧ buf'.length = buf.length ∧
      buf'.take (off + xs.length) = buf.take off ++ xs := by
  refine ⟨_, if_pos h, ?_, ?_⟩
  · simp only [List.length_append, List.length_take, List.length_drop]
    omega
  · exact List.take_left' (by rw [List.length_append, List.length_take]; omega)

/-! ### Loops -/

@[simp] theorem length_modifyRange (off n : ℕ) (f : ℕ → α → α) (buf : List α) :
    (modifyRange off n f buf).length = buf.length := List.length_mapIdx

theorem getElem?_modifyRange (off n : ℕ) (f : ℕ → α → α) (buf : List α) (i : ℕ) :
    (modifyRange off n f buf)[i]? =
      buf[i]?.map fun x => if off ≤ i ∧ i < off + n then f (i - off) x else x := by
  rw [modifyRange, List.getElem?_mapIdx]

theorem modifyRange_zero (off : ℕ) (f : ℕ → α → α) (buf : List α) : modifyRange off 0 f buf = buf := by
  refine List.ext_getElem? fun i => ?_
  rw [getElem?_modifyRange]
  cases buf[i]? with
  | none => rfl
  | some x => rw [Option.map_some, if_neg (by omega)]

/-- One more element. -/
theorem modifyRange_succ (off n : ℕ) (f : ℕ → α → α) (buf : List α) :
    (modifyRange off n f buf).modify (off + n) (f n) = modifyRange off (n + 1) f buf := by
  refine List.ext_getElem? fun i => ?_
  rw [List.getElem?_modify, getElem?_modifyRange, getElem?_modifyRange]
  cases buf[i]? with
  | none => rfl
  | some x =>
    simp only [Option.map_some, Option.map_eq_map]
    by_cases hi : off + n = i
    · subst hi
      rw [if_pos rfl, if_neg (by omega), if_pos (by omega), Nat.add_sub_cancel_left]
    · have hiff : (off ≤ i ∧ i < off + (n + 1)) ↔ (off ≤ i ∧ i < off + n) := by omega
      rw [if_neg hi, if_congr hiff rfl rfl]

/-- A loop inside the buffer changes the range; one that leaves it fails. -/
theorem modifyLoop_eq (buf : List α) (off : ℕ) (f : ℕ → α → α) : ∀ n : ℕ,
    modifyLoop buf off n f =
      if n = 0 ∨ off + n ≤ buf.length then some (modifyRange off n f buf) else none
  | 0 => by rw [if_pos (.inl rfl), modifyRange_zero]; rfl
  | n + 1 => by
    have ih := modifyLoop_eq buf off f n
    rw [modifyLoop] at ih ⊢
    rw [List.range_succ, List.foldlM_append, ih]
    by_cases h : off + (n + 1) ≤ buf.length
    · rw [if_pos (.inr (by omega)), if_pos (.inr h), ← modifyRange_succ]
      simp only [Option.bind_eq_bind, Option.bind_some, List.foldlM_cons, List.foldlM_nil]
      rw [modifyAt, if_pos (by rw [length_modifyRange]; omega)]
      rfl
    · rw [if_neg (c := n + 1 = 0 ∨ off + (n + 1) ≤ buf.length) (by omega)]
      split
      · simp only [Option.bind_eq_bind, Option.bind_some, List.foldlM_cons, List.foldlM_nil]
        rw [modifyAt, if_neg (by rw [length_modifyRange]; omega)]
        rfl
      · rfl

theorem modifyLoop_eq_none {buf : List α} {off n : ℕ} (f : ℕ → α → α) (hn : n ≠ 0)
    (h : buf.length < off + n) : modifyLoop buf off n f = none := by
  rw [modifyLoop_eq, if_neg (by omega)]

theorem getElem?_modifyRange_of_le {off n i : ℕ} (f : ℕ → α → α) (buf : List α) (h : off + n ≤ i) :
    (modifyRange off n f buf)[i]? = buf[i]? := by
  rw [getElem?_modifyRange]
  cases buf[i]? with
  | none => rfl
  | some x => rw [Option.map_some, if_neg (by omega)]

/-- A range that lies in one part of the buffer is changed there. -/
theorem modifyRange_append (pre xs post : List α) (off n : ℕ) (f : ℕ → α → α)
    (h : off + n ≤ xs.length) : modifyRange (pre.length + off) n f (pre ++ xs ++ post) =
      pre ++ modifyRange off n f xs ++ post := by
  refine List.ext_getElem? fun i => ?_
  rw [getElem?_modifyRange]
  rcases Nat.lt_or_ge i pre.length with hi | hi
  · rw [List.append_assoc, List.append_assoc, List.getElem?_append_left hi,
      List.getElem?_append_left hi]
    cases pre[i]? with
    | none => rfl
    | some x => rw [Option.map_some, if_neg (by omega)]
  · rw [List.append_assoc, List.append_assoc, List.getElem?_append_right hi,
      List.getElem?_append_right hi]
    rcases Nat.lt_or_ge (i - pre.length) xs.length with hx | hx
    · rw [List.getElem?_append_left hx, List.getElem?_append_left (by rwa [length_modifyRange]),
        getElem?_modifyRange]
      cases xs[i - pre.length]? with
      | none => rfl
      | some x =>
        have hiff : (pre.length + off ≤ i ∧ i < pre.length + off + n) ↔
            (off ≤ i - pre.length ∧ i - pre.length < off + n) := by omega
        rw [Option.map_some, Option.map_some, if_congr hiff rfl rfl, Nat.sub_add_eq]
    · rw [List.getElem?_append_right hx, List.getElem?_append_right (by rwa [length_modifyRange]),
        length_modifyRange]
      cases post[i - pre.length - xs.length]? with
      | none => rfl
      | some x => rw [Option.map_some, if_neg (by omega)]

/-- A loop over one part of the buffer. -/
theorem modifyLoop_append {pre xs : List α} (post : List α) {off n : ℕ} (hoff : pre.length = off)
    (hn : xs.length = n) (g : α → α) :
    modifyLoop (pre ++ xs ++ post) off n (fun _ => g) = some (pre ++ xs.map g ++ post) := by
  subst hoff hn
  have hall : modifyRange 0 xs.length (fun _ => g) xs = xs.map g := by
    refine List.ext_getElem? fun i => ?_
    rw [getElem?_modifyRange, List.getElem?_map]
    cases hi : xs[i]? with
    | none => rfl
    | some x =>
      obtain ⟨hlt, -⟩ := List.getElem?_eq_some_iff.1 hi
      rw [Option.map_some, if_pos (by omega), Option.map_some]
  have happend := modifyRange_append pre xs post 0 xs.length (fun _ => g) (by omega)
  rw [Nat.add_zero, hall] at happend
  rw [modifyLoop_eq, if_pos (.inr (by simp only [List.length_append]; omega)), happend]

end UrlTraveler.Buffers
