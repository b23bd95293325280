import UrlTraveler.Config.TxConfig
import UrlTraveler.Schemes.Buffers

/-! `ParseConfig` access by access.

    The parser walks from item to item by the lengths it finds, decodes in place, and never looks at
    `dwLen`:

        0        6               pos                                  pos + 7 + k + v     dwLen
        | header | item | item | | k | key .. | v | value .. | item |  ..                   |
                                   ^^^^^ read   ^ read
                                       decoded    decoded

    Where an item does not fit, it reads and writes behind the buffer instead of returning `FALSE`.
    The copy of the key, which looks for a wide NUL, leaves the buffer even behind an item that
    fits, or ends the program before the item that does not fit is met. Inside the buffer the run is
    the function `parseConfig`. -/

namespace UrlTraveler.Config
open Buffers Maps

/-! ### The run -/

/-- Why a run stops: an access outside the input or outside `szKey`, or the end of the program in
    `wcscpy_s`. -/
inductive Fault where
  | outside
  | ended
  deriving DecidableEq

/-- An access that must be inside. -/
def inside {α : Type} : Option α → Except Fault α
  | some a => .ok a
  | none => .error .outside

/-- `wcscpy_s(szKey, size, ..)` from the byte `p` of the buffer on: a buffer without a NUL in time
    ends the program. -/
def wcscpyAt (buf : Bytes) : ℕ → ℕ → Except Fault WString
  | 0, _ => .error .ended
  | size + 1, p =>
    match buf[p]?, buf[p + 1]? with
    | some b₀, some b₁ =>
      if b₀ = 0 ∧ b₁ = 0 then .ok []
      else (wcscpyAt buf size (p + 2)).map (UInt16.ofNat (readWord b₀ b₁) :: ·)
    | _, _ => .error .outside

/-- A `WORD` of the buffer. -/
def wordAt (buf : Bytes) (p : ℕ) : ℕ := readWord (buf.getD p 0) (buf.getD (p + 1) 0)

/-- The item at `pos`: what goes into the map, the buffer afterwards, and where the next item is. -/
def parseItemAt (buf : Bytes) (pos : ℕ) : Except Fault ((WString × Bytes) × Bytes × ℕ) := do
  let keyLen ← inside (readRange buf (pos + 1) 2)
  let wKeyLen := wordAt keyLen 0
  let buf ← inside (modifyLoop buf (pos + 3) wKeyLen fun _ => scramble wKeyLen)
  let valueLen ← inside (readRange buf (pos + 3 + wKeyLen) 4)
  let dwValueLen := wordAt valueLen 0 + 0x10000 * wordAt valueLen 2
  let buf ← inside (modifyLoop buf (pos + 3 + wKeyLen + 4) dwValueLen fun _ => scramble dwValueLen)
  let szKey ← wcscpyAt buf 259 (pos + 3)
  if 260 ≤ wKeyLen / 2 then throw .outside
  let strValue ← inside (readRange buf (pos + 3 + wKeyLen + 4) dwValueLen)
  return ((szKey.take (wKeyLen / 2), strValue), buf, pos + 9 + wKeyLen + dwValueLen - 2)

/-- The loop over the items. -/
def parseItemsAt : ℕ → Bytes → ℕ → KeyMap → Except Fault KeyMap
  | 0, _, _, m => .ok m
  | n + 1, buf, pos, m => do
    let (e, buf, pos) ← parseItemAt buf pos
    parseItemsAt n buf pos (setKey m e.1 e.2)

/-- `ParseConfig(pConfigBuf, dwLen)`. -/
def parseConfigRun (m : KeyMap) (pConfigBuf : Bytes) (_dwLen : ℕ) : Except Fault (Bool × KeyMap) := do
  let magic ← inside (readRange pConfigBuf 0 2)
  if wordAt magic 0 ≠ txConfigMagic then return (false, m)
  let num ← inside (readRange pConfigBuf 4 2)
  let m ← parseItemsAt (wordAt num 0) pConfigBuf 6 m
  return (true, m)

/-! ### Items in a file -/

/-- `wKeyLen` of the item at the front. -/
def keyLen (rest : Bytes) : ℕ := wordAt rest 1

/-- `dwValueLen` of the item at the front. -/
def valueLen (rest : Bytes) : ℕ :=
  wordAt rest (3 + keyLen rest) + 0x10000 * wordAt rest (3 + keyLen rest + 2)

def itemSize (rest : Bytes) : ℕ := 7 + keyLen rest + valueLen rest

/-- The item at the front fits into what is left. -/
def ItemFits (rest : Bytes) : Prop := itemSize rest ≤ rest.length

instance (rest : Bytes) : Decidable (ItemFits rest) := inferInstanceAs (Decidable (_ ≤ _))

/-- `n` items, one behind the other, fit. -/
def ItemsFit : ℕ → Bytes → Prop
  | 0, _ => True
  | n + 1, rest => ItemFits rest ∧ ItemsFit n (rest.drop (itemSize rest))

/-- The decoded value of the item at the front. -/
def decodedValue (rest : Bytes) : Bytes :=
  ((rest.drop (7 + keyLen rest)).take (valueLen rest)).map (scramble (valueLen rest))

/-- What the copy of the key sees: the item decoded from its key on, and what is behind it. -/
def decoded (rest : Bytes) : Bytes :=
  ((rest.drop 3).take (keyLen rest)).map (scramble (keyLen rest)) ++
    (rest.drop (3 + keyLen rest)).take 4 ++
    decodedValue rest ++ rest.drop (itemSize rest)

/-- The copy of the key finds a NUL in time. -/
def CopyEnds (rest : Bytes) : Prop := ∃ i < 259, NulAt (decoded rest) i

/-- `n` items fit; the copy of every key ends in the buffer, and the key's own end is in `szKey`. At
    a copy that takes 259 characters from the buffer without an end, the program ends. -/
def ItemsContained : ℕ → Bytes → Prop
  | 0, _ => True
  | n + 1, rest => ItemFits rest ∧
    (CopyEnds rest → keyLen rest / 2 < 260 ∧ ItemsContained n (rest.drop (itemSize rest))) ∧
    (¬ CopyEnds rest → 518 ≤ (decoded rest).length)

/-- A buffer that the parser does not leave, and in which all items fit. -/
def Contained (buf : Bytes) : Prop :=
  2 ≤ buf.length ∧ (wordAt buf 0 = txConfigMagic → 6 ≤ buf.length ∧
    ItemsFit (wordAt buf 4) (buf.drop 6) ∧ ItemsContained (wordAt buf 4) (buf.drop 6))

/-- The parser reads and writes inside only. It returns `FALSE` when an item does not fit: with items
    that do not all fit it neither returns `TRUE` nor ends the program. -/
def StaysInside (m : KeyMap) (buf : Bytes) : Prop :=
  match parseConfigRun m buf buf.length with
  | .ok (ret, _) => ret = true → ItemsFit (wordAt buf 4) (buf.drop 6)
  | .error fault => fault = .ended ∧ ItemsFit (wordAt buf 4) (buf.drop 6)

/-! ### The copy of the key -/

/-- Inside the buffer the copy is the one on lists. -/
theorem wcscpyAt_eq (buf : Bytes) : ∀ size p : ℕ, wcscpyAt buf size p =
    match wcscpyS size (buf.drop p) with
    | some szKey => .ok szKey
    | none => if 2 * size ≤ (buf.drop p).length then .error .ended else .error .outside
  | 0, p => by simp [wcscpyAt, wcscpyS]
  | size + 1, p => by
    have hrest : buf.drop (p + 2) = (buf.drop p).drop 2 := by rw [List.drop_drop]
    have h₀ : buf[p]? = (buf.drop p)[0]? := by rw [List.getElem?_drop, Nat.add_zero]
    have h₁ : buf[p + 1]? = (buf.drop p)[1]? := by rw [List.getElem?_drop]
    have ih := wcscpyAt_eq buf size (p + 2)
    rw [hrest] at ih
    rw [wcscpyAt, h₀, h₁]
    generalize buf.drop p = rest at ih ⊢
    rcases rest with _ | ⟨b₀, _ | ⟨b₁, src⟩⟩
    · simp [wcscpyS]
    · have hshort : ¬ 2 * (size + 1) ≤ 1 := by omega
      simp [wcscpyS, hshort]
    · simp only [List.drop_succ_cons, List.drop_zero] at ih
      simp only [List.getElem?_cons_zero, List.getElem?_cons_succ, wcscpyS, ih]
      by_cases hnul : b₀ = 0 ∧ b₁ = 0
      · rw [if_pos hnul, if_pos hnul]
      · rw [if_neg hnul, if_neg hnul]
        cases wcscpyS size src with
        | some szKey => rfl
        | none =>
          have hiff : 2 * (size + 1) ≤ (b₀ :: b₁ :: src).length ↔ 2 * size ≤ src.length := by
            simp only [List.length_cons]
            omega
          simp only [Option.map_none, hiff]
          split <;> rfl

/-! ### One item -/

variable {rest : Bytes}

theorem wordAt_eq {xs buf : Bytes} {i off : ℕ} (h₀ : xs[i]? = buf[off]?)
    (h₁ : xs[i + 1]? = buf[off + 1]?) : wordAt xs i = wordAt buf off := by
  simp only [wordAt, List.getD_eq_getElem?_getD, h₀, h₁]

/-- The length of the key is read from the item. -/
theorem wordAt_readRange_keyLen {pre len : Bytes}
    (h : readRange (pre ++ rest) (pre.length + 1) 2 = some len) : wordAt len 0 = keyLen rest := by
  have hget : ∀ i, (pre ++ rest)[pre.length + i]? = rest[i]? := fun i => by
    rw [List.getElem?_append_right (by omega), Nat.add_sub_cancel_left]
  refine wordAt_eq ?_ ?_
  · rw [getElem?_of_readRange h (by decide), Nat.add_zero, hget]
  · rw [getElem?_of_readRange h (by decide), Nat.add_assoc, hget]

/-- And the length of the value from the four bytes behind the key. -/
theorem wordAt_valueLen {len : Bytes} (h : ∀ i < 4, len[i]? = rest[3 + keyLen rest + i]?) :
    wordAt len 0 + 0x10000 * wordAt len 2 = valueLen rest := by
  rw [valueLen, wordAt_eq (h 0 (by decide)) (h 1 (by decide)),
    wordAt_eq (h 2 (by decide)) (h 3 (by decide)), Nat.add_zero]

/-- The run of an item that does not fit leaves the buffer. -/
theorem parseItemAt_of_not_fits (pre : Bytes) (h : ¬ ItemFits rest) :
    parseItemAt (pre ++ rest) pre.length = .error .outside := by
  have hlen : (pre ++ rest).length = pre.length + rest.length := List.length_append
  rw [ItemFits, itemSize] at h
  rw [parseItemAt]
  cases hkeyLen : readRange (pre ++ rest) (pre.length + 1) 2 with
  | none => rfl
  | some len =>
    simp only [inside, wordAt_readRange_keyLen hkeyLen, bind, Except.bind]
    cases hkey : modifyLoop (pre ++ rest) (pre.length + 3) (keyLen rest)
        fun _ => scramble (keyLen rest) with
    | none => rfl
    | some buf =>
      rw [modifyLoop_eq, Option.ite_none_right_eq_some, Option.some.injEq] at hkey
      obtain ⟨-, rfl⟩ := hkey
      simp only
      cases hvalueLen : readRange (modifyRange (pre.length + 3) (keyLen rest)
          (fun _ => scramble (keyLen rest)) (pre ++ rest)) (pre.length + 3 + keyLen rest) 4 with
      | none => rfl
      | some len =>
        have hbytes : ∀ i < 4, len[i]? = rest[3 + keyLen rest + i]? := by
          intro i hi
          rw [getElem?_of_readRange hvalueLen hi, getElem?_modifyRange_of_le _ _ (by omega),
            List.getElem?_append_right (by omega)]
          congr 1
          omega
        have hfour := le_of_readRange hvalueLen
        rw [length_modifyRange] at hfour
        -- so the value is what does not fit
        simp only [wordAt_valueLen hbytes]
        rw [modifyLoop_eq_none _ (by omega) (by rw [length_modifyRange]; omega)]

/-- The parts of an item. -/
theorem rest_eq_parts (rest : Bytes) : rest = rest.take 3 ++ (rest.drop 3).take (keyLen rest) ++
    (rest.drop (3 + keyLen rest)).take 4 ++ (rest.drop (7 + keyLen rest)).take (valueLen rest) ++
      rest.drop (itemSize rest) := by
  have h₁ : rest.drop (3 + keyLen rest) = (rest.drop 3).drop (keyLen rest) := by rw [List.drop_drop]
  have h₂ : rest.drop (7 + keyLen rest) = (rest.drop (3 + keyLen rest)).drop 4 := by
    rw [List.drop_drop]
    congr 1
    omega
  have h₃ : rest.drop (itemSize rest) = (rest.drop (7 + keyLen rest)).drop (valueLen rest) := by
    rw [List.drop_drop, itemSize]
  rw [h₃, List.append_assoc, List.take_append_drop, h₂, List.append_assoc, List.take_append_drop, h₁,
    List.append_assoc, List.take_append_drop, List.take_append_drop]

/-- The lengths of the parts of an item that fits. -/
theorem length_parts (h : ItemFits rest) : (rest.take 3).length = 3 ∧
    ((rest.drop 3).take (keyLen rest)).length = keyLen rest ∧
    ((rest.drop (3 + keyLen rest)).take 4).length = 4 ∧
    ((rest.drop (7 + keyLen rest)).take (valueLen rest)).length = valueLen rest := by
  rw [ItemFits, itemSize] at h
  simp only [List.length_take, List.length_drop]
  omega

/-- The item between the two loops: its key is decoded, its value is not. -/
def keyDecoded (rest : Bytes) : Bytes :=
  rest.take 3 ++ ((rest.drop 3).take (keyLen rest)).map (scramble (keyLen rest)) ++
    (rest.drop (3 + keyLen rest)).take 4 ++ (rest.drop (7 + keyLen rest)).take (valueLen rest) ++
      rest.drop (itemSize rest)

theorem modifyLoop_key (pre : Bytes) (h : ItemFits rest) :
    modifyLoop (pre ++ rest) (pre.length + 3) (keyLen rest) (fun _ => scramble (keyLen rest)) =
      some (pre ++ keyDecoded rest) := by
  obtain ⟨hhead, hkey, -, -⟩ := length_parts h
  have hbefore : (pre ++ rest.take 3).length = pre.length + 3 := by rw [List.length_append, hhead]
  have hloop := modifyLoop_append ((rest.drop (3 + keyLen rest)).take 4 ++
    ((rest.drop (7 + keyLen rest)).take (valueLen rest) ++ rest.drop (itemSize rest)))
    hbefore hkey (scramble (keyLen rest))
  rw [keyDecoded]
  nth_rewrite 1 [rest_eq_parts rest]
  simpa only [List.append_assoc] using hloop

/-- What stands before the length of the value, once the key is decoded. -/
theorem length_before_valueLen (pre : Bytes) (h : ItemFits rest) :
    (pre ++ rest.take 3 ++ ((rest.drop 3).take (keyLen rest)).map (scramble (keyLen rest))).length =
      pre.length + 3 + keyLen rest := by
  obtain ⟨hhead, hkey, -, -⟩ := length_parts h
  rw [List.length_append, List.length_append, List.length_map, hhead, hkey]

theorem length_before_value (pre : Bytes) (h : ItemFits rest) :
    (pre ++ rest.take 3 ++ ((rest.drop 3).take (keyLen rest)).map (scramble (keyLen rest)) ++
      (rest.drop (3 + keyLen rest)).take 4).length = pre.length + 3 + keyLen rest + 4 := by
  obtain ⟨-, -, hmid, -⟩ := length_parts h
  rw [List.length_append, length_before_valueLen pre h, hmid]

theorem readRange_valueLen (pre : Bytes) (h : ItemFits rest) :
    readRange (pre ++ keyDecoded rest) (pre.length + 3 + keyLen rest) 4 =
      some ((rest.drop (3 + keyLen rest)).take 4) := by
  obtain ⟨-, -, hmid, -⟩ := length_parts h
  have hread := readRange_append
    ((rest.drop (7 + keyLen rest)).take (valueLen rest) ++ rest.drop (itemSize rest))
    (length_before_valueLen pre h) hmid
  simpa only [keyDecoded, List.append_assoc] using hread

theorem modifyLoop_value (pre : Bytes) (h : ItemFits rest) :
    modifyLoop (pre ++ keyDecoded rest) (pre.length + 3 + keyLen rest + 4) (valueLen rest)
      (fun _ => scramble (valueLen rest)) = some (pre ++ rest.take 3 ++ decoded rest) := by
  obtain ⟨-, -, -, hvalue⟩ := length_parts h
  have hloop := modifyLoop_append (rest.drop (itemSize rest))
    (length_before_value pre h) hvalue (scramble (valueLen rest))
  simpa only [keyDecoded, decoded, decodedValue, List.append_assoc] using hloop

theorem readRange_value (pre : Bytes) (h : ItemFits rest) :
    readRange (pre ++ rest.take 3 ++ decoded rest) (pre.length + 3 + keyLen rest + 4)
      (valueLen rest) = some (decodedValue rest) := by
  obtain ⟨-, -, -, hvalue⟩ := length_parts h
  have hlen : (decodedValue rest).length = valueLen rest := by
    rw [decodedValue, List.length_map, hvalue]
  have hread := readRange_append (rest.drop (itemSize rest)) (length_before_value pre h) hlen
  simpa only [decoded, List.append_assoc] using hread

/-- The run of an item that fits: it is decoded in its place, and its key is copied. -/
theorem parseItemAt_of_fits (pre : Bytes) (h : ItemFits rest) :
    parseItemAt (pre ++ rest) pre.length =
      match wcscpyAt (pre ++ rest.take 3 ++ decoded rest) 259 (pre.length + 3) with
      | .ok szKey =>
        if 260 ≤ keyLen rest / 2 then .error .outside
        else .ok ((szKey.take (keyLen rest / 2), decodedValue rest),
          pre ++ rest.take 3 ++ decoded rest, pre.length + itemSize rest)
      | .error fault => .error fault := by
  have hfits := h
  rw [ItemFits, itemSize] at hfits
  obtain ⟨len, hlen⟩ : ∃ len, readRange (pre ++ rest) (pre.length + 1) 2 = some len :=
    ⟨_, if_pos (by rw [List.length_append]; omega)⟩
  have hbytes : ∀ i < 4, ((rest.drop (3 + keyLen rest)).take 4)[i]? = rest[3 + keyLen rest + i]? :=
    fun i hi => by rw [List.getElem?_take_of_lt hi, List.getElem?_drop]
  have hnext : pre.length + 9 + keyLen rest + valueLen rest - 2 = pre.length + itemSize rest := by
    rw [itemSize]
    omega
  rw [parseItemAt, hlen]
  simp only [inside, wordAt_readRange_keyLen hlen, bind, Except.bind, modifyLoop_key pre h,
    readRange_valueLen pre h, wordAt_valueLen hbytes, modifyLoop_value pre h, readRange_value pre h,
    hnext]
  cases wcscpyAt (pre ++ rest.take 3 ++ decoded rest) 259 (pre.length + 3) with
  | error fault => rfl
  | ok szKey =>
    simp only
    split <;> rfl

/-! ### The items -/

theorem copyEnds_iff (rest : Bytes) : CopyEnds rest ↔ (wcscpyS 259 (decoded rest)).isSome :=
  (wcscpyS_isSome_iff 259 (decoded rest)).symm

/-- The copy starts where the decoded key is. -/
theorem drop_decoded (pre : Bytes) (h : ItemFits rest) :
    (pre ++ rest.take 3 ++ decoded rest).drop (pre.length + 3) = decoded rest := by
  rw [ItemFits, itemSize] at h
  refine List.drop_left' ?_
  rw [List.length_append, List.length_take]
  omega

/-- What has been parsed stays behind the items that are left. -/
theorem exists_next (pre : Bytes) (h : ItemFits rest) : ∃ pre',
    pre ++ rest.take 3 ++ decoded rest = pre' ++ rest.drop (itemSize rest) ∧
      pre'.length = pre.length + itemSize rest := by
  rw [ItemFits, itemSize] at h
  refine ⟨pre ++ rest.take 3 ++ (((rest.drop 3).take (keyLen rest)).map (scramble (keyLen rest)) ++
    (rest.drop (3 + keyLen rest)).take 4 ++ decodedValue rest), ?_, ?_⟩
  · simp only [decoded, List.append_assoc]
  · simp only [decodedValue, List.length_append, List.length_map, List.length_take, List.length_drop,
      itemSize]
    omega

/-- A run over items that does not leave the buffer has contained items. -/
theorem parseItemsAt_ne_outside_iff : ∀ (n : ℕ) (pre rest : Bytes) (m : KeyMap),
    parseItemsAt n (pre ++ rest) pre.length m ≠ .error .outside ↔ ItemsContained n rest
  | 0, _, _, _ => by simp [parseItemsAt, ItemsContained]
  | n + 1, pre, rest, m => by
    rw [parseItemsAt, ItemsContained]
    by_cases hfits : ItemFits rest
    · rw [parseItemAt_of_fits pre hfits, wcscpyAt_eq, drop_decoded pre hfits, copyEnds_iff]
      cases wcscpyS 259 (decoded rest) with
      | none =>
        -- the copy leaves the buffer, or the program ends
        by_cases hlen : 518 ≤ (decoded rest).length <;> simp [hfits, hlen, bind, Except.bind]
      | some szKey =>
        by_cases hkey : 260 ≤ keyLen rest / 2
        · have hnot : ¬ keyLen rest / 2 < 260 := not_lt.2 hkey
          simp [hkey, hnot, bind, Except.bind]
        · have hlt : keyLen rest / 2 < 260 := not_le.1 hkey
          obtain ⟨pre', hbuf, hpos⟩ := exists_next pre hfits
          have ih := parseItemsAt_ne_outside_iff n pre' (rest.drop (itemSize rest))
            (setKey m (szKey.take (keyLen rest / 2)) (decodedValue rest))
          rw [← hbuf, hpos] at ih
          simpa [hkey, hlt, hfits, bind, Except.bind] using ih
    · rw [parseItemAt_of_not_fits pre hfits]
      simp [hfits, bind, Except.bind]

/-- A run over items that comes to its end has seen items that fit. -/
theorem itemsFit_of_parseItemsAt : ∀ (n : ℕ) (pre rest : Bytes) (m m' : KeyMap),
    parseItemsAt n (pre ++ rest) pre.length m = .ok m' → ItemsFit n rest
  | 0, _, _, _, _, _ => trivial
  | n + 1, pre, rest, m, m', h => by
    rw [parseItemsAt] at h
    by_cases hfits : ItemFits rest
    · rw [parseItemAt_of_fits pre hfits] at h
      refine ⟨hfits, ?_⟩
      cases hcopy : wcscpyAt (pre ++ rest.take 3 ++ decoded rest) 259 (pre.length + 3) with
      | error fault =>
        rw [hcopy] at h
        cases h
      | ok szKey =>
        rw [hcopy] at h
        by_cases hkey : 260 ≤ keyLen rest / 2
        · simp only [if_pos hkey] at h
          cases h
        · obtain ⟨pre', hbuf, hpos⟩ := exists_next pre hfits
          simp only [if_neg hkey, bind, Except.bind] at h
          rw [hbuf, ← hpos] at h
          exact itemsFit_of_parseItemsAt n pre' _ _ m' h
    · rw [parseItemAt_of_not_fits pre hfits] at h
      simp [bind, Except.bind] at h

/-- The function on lists in terms of the lengths. -/
theorem parseItem_eq (rest : Bytes) : parseItem rest =
    if ItemFits rest ∧ keyLen rest / 2 < 260 then
      (wcscpyS 259 (decoded rest)).map fun szKey =>
        ((szKey.take (keyLen rest / 2), decodedValue rest), rest.drop (itemSize rest))
    else none := by
  have hshort : ∀ {r : Bytes}, r.length < 7 + keyLen r → ¬ (ItemFits r ∧ keyLen r / 2 < 260) := by
    intro r hr h
    have := h.1
    rw [ItemFits, itemSize] at this
    omega
  match rest with
  | [] => exact (if_neg (hshort (by simp only [List.length_nil]; omega))).symm
  | [_] => exact (if_neg (hshort (by simp only [List.length_singleton]; omega))).symm
  | [_, _] => exact (if_neg (hshort (by simp only [List.length_cons, List.length_nil]; omega))).symm
  | flag :: k₀ :: k₁ :: r =>
    have hkeyLen : keyLen (flag :: k₀ :: k₁ :: r) = readWord k₀ k₁ := by simp [keyLen, wordAt]
    have hdrop : ∀ i, (flag :: k₀ :: k₁ :: r).drop (3 + i) = r.drop i := fun i => by
      rw [Nat.add_comm 3 i]
      rfl
    have hlen : (flag :: k₀ :: k₁ :: r).length = 3 + r.length := by
      simp only [List.length_cons]
      omega
    have hrest : (r.drop (readWord k₀ k₁)).length = r.length - readWord k₀ k₁ := List.length_drop
    rw [parseItem]
    rcases hr : r.drop (readWord k₀ k₁) with _ | ⟨d₀, _ | ⟨d₁, _ | ⟨d₂, _ | ⟨d₃, buf⟩⟩⟩⟩
    case cons.cons.cons.cons =>
      have hbyte : ∀ i, (flag :: k₀ :: k₁ :: r).getD (3 + readWord k₀ k₁ + i) 0 =
          (d₀ :: d₁ :: d₂ :: d₃ :: buf).getD i 0 := fun i => by
        rw [List.getD_eq_getElem?_getD, List.getD_eq_getElem?_getD, ← List.getElem?_drop, hdrop, hr]
      have hvalueLen : valueLen (flag :: k₀ :: k₁ :: r) =
          readWord d₀ d₁ + 0x10000 * readWord d₂ d₃ := by
        have h0 := hbyte 0
        rw [Nat.add_zero] at h0
        rw [valueLen, hkeyLen, wordAt, wordAt, h0, hbyte 1, hbyte 2, Nat.add_assoc _ 2 1, hbyte 3]
        rfl
      have hbuf : (flag :: k₀ :: k₁ :: r).drop (7 + readWord k₀ k₁) = buf := by
        have hseven : 7 + readWord k₀ k₁ = 3 + (readWord k₀ k₁ + 4) := by omega
        rw [hseven, hdrop, ← List.drop_drop, hr]
        rfl
      have htail : (flag :: k₀ :: k₁ :: r).drop (itemSize (flag :: k₀ :: k₁ :: r)) =
          buf.drop (readWord d₀ d₁ + 0x10000 * readWord d₂ d₃) := by
        rw [itemSize, hkeyLen, hvalueLen, ← List.drop_drop, hbuf]
      have hvalue : decodedValue (flag :: k₀ :: k₁ :: r) =
          (buf.take (readWord d₀ d₁ + 0x10000 * readWord d₂ d₃)).map
            (scramble (readWord d₀ d₁ + 0x10000 * readWord d₂ d₃)) := by
        rw [decodedValue, hkeyLen, hvalueLen, hbuf]
      have hdecoded : decoded (flag :: k₀ :: k₁ :: r) =
          (r.take (readWord k₀ k₁)).map (scramble (readWord k₀ k₁)) ++ d₀ :: d₁ :: d₂ :: d₃ ::
            (buf.take (readWord d₀ d₁ + 0x10000 * readWord d₂ d₃)).map
              (scramble (readWord d₀ d₁ + 0x10000 * readWord d₂ d₃)) ++
            buf.drop (readWord d₀ d₁ + 0x10000 * readWord d₂ d₃) := by
        have hthree : (flag :: k₀ :: k₁ :: r).drop 3 = r := rfl
        rw [decoded, hvalue, htail, hkeyLen, hthree, hdrop, hr]
        simp
      have hfits : ItemFits (flag :: k₀ :: k₁ :: r) ↔
          readWord d₀ d₁ + 0x10000 * readWord d₂ d₃ ≤ buf.length := by
        rw [hr, List.length_cons, List.length_cons, List.length_cons, List.length_cons] at hrest
        rw [ItemFits, itemSize, hkeyLen, hvalueLen, hlen]
        omega
      simp only [hfits, hkeyLen, hdecoded, hvalue, htail]
    all_goals
      rw [hr] at hrest
      simp only [List.length_cons, List.length_nil] at hrest
      exact (if_neg (hshort (by rw [hkeyLen, hlen]; omega))).symm

/-- Inside the buffer the run is the function on lists. -/
theorem parseItemsAt_toOption : ∀ (n : ℕ) (pre rest : Bytes) (m : KeyMap),
    (parseItemsAt n (pre ++ rest) pre.length m).toOption = parseItems n rest m
  | 0, _, _, _ => rfl
  | n + 1, pre, rest, m => by
    rw [parseItemsAt, parseItems, parseItem_eq]
    by_cases hfits : ItemFits rest
    · rw [parseItemAt_of_fits pre hfits, wcscpyAt_eq, drop_decoded pre hfits]
      cases wcscpyS 259 (decoded rest) with
      | none =>
        by_cases hlen : 518 ≤ (decoded rest).length <;> simp [hlen, bind, Except.bind, Except.toOption]
      | some szKey =>
        by_cases hkey : keyLen rest / 2 < 260
        · obtain ⟨pre', hbuf, hpos⟩ := exists_next pre hfits
          have ih := parseItemsAt_toOption n pre' (rest.drop (itemSize rest))
            (setKey m (szKey.take (keyLen rest / 2)) (decodedValue rest))
          rw [← hbuf, hpos] at ih
          simpa [hfits, hkey, not_le.2 hkey, bind, Except.bind] using ih
        · simp [hkey, not_lt.1 hkey, bind, Except.bind, Except.toOption]
    · rw [parseItemAt_of_not_fits pre hfits]
      simp [hfits, bind, Except.bind, Except.toOption]

/-! ### The file -/

theorem wordAt_readRange {buf xs : Bytes} {off : ℕ} (h : readRange buf off 2 = some xs) :
    wordAt xs 0 = wordAt buf off :=
  wordAt_eq (getElem?_of_readRange h (by decide)) (getElem?_of_readRange h (by decide))

/-- The run, with what it reads from the header. -/
theorem parseConfigRun_eq (m : KeyMap) (buf : Bytes) (dwLen : ℕ) : parseConfigRun m buf dwLen =
    if 2 ≤ buf.length then
      if wordAt buf 0 = txConfigMagic then
        if 6 ≤ buf.length then
          (parseItemsAt (wordAt buf 4) (buf.take 6 ++ buf.drop 6) (buf.take 6).length m).map fun m =>
            (true, m)
        else .error .outside
      else .ok (false, m)
    else .error .outside := by
  rw [parseConfigRun]
  cases hmagic : readRange buf 0 2 with
  | none =>
    have hlen : ¬ 2 ≤ buf.length := not_le.2 (readRange_eq_none_iff.1 hmagic)
    rw [if_neg hlen]
    rfl
  | some magic =>
    have hlen : 2 ≤ buf.length := le_of_readRange hmagic
    rw [if_pos hlen]
    simp only [inside, bind, Except.bind, wordAt_readRange hmagic]
    by_cases hword : wordAt buf 0 = txConfigMagic
    · cases hnum : readRange buf 4 2 with
      | none =>
        have hlen : ¬ 6 ≤ buf.length := not_le.2 (readRange_eq_none_iff.1 hnum)
        simp [hword, hlen]
      | some num =>
        have hlen : 6 ≤ buf.length := le_of_readRange hnum
        have hsix : (buf.take 6).length = 6 := by
          rw [List.length_take]
          omega
        rw [List.take_append_drop, hsix]
        simp only [hword, hlen, wordAt_readRange hnum, ne_eq, not_true_eq_false, if_false, if_true]
        cases parseItemsAt (wordAt buf 4) buf 6 m <;> rfl
    · simp [hword, pure, Except.pure]

/-- The run access by access is the function on the file, where it has a result. -/
theorem parseConfigRun_toOption (m : KeyMap) (buf : Bytes) (dwLen : ℕ) :
    (parseConfigRun m buf dwLen).toOption = parseConfig m buf := by
  rw [parseConfigRun_eq]
  match buf with
  | [] => rfl
  | [_] => rfl
  | m₀ :: m₁ :: r =>
    have hmagic : wordAt (m₀ :: m₁ :: r) 0 = readWord m₀ m₁ := rfl
    have h2 : 2 ≤ (m₀ :: m₁ :: r).length := by simp
    rw [if_pos h2, hmagic]
    by_cases hword : readWord m₀ m₁ = txConfigMagic
    · rcases r with _ | ⟨v₀, _ | ⟨v₁, _ | ⟨n₀, _ | ⟨n₁, r⟩⟩⟩⟩
      case cons.cons.cons.cons =>
        have h6 : 6 ≤ (m₀ :: m₁ :: v₀ :: v₁ :: n₀ :: n₁ :: r).length := by simp
        have hnum : wordAt (m₀ :: m₁ :: v₀ :: v₁ :: n₀ :: n₁ :: r) 4 = readWord n₀ n₁ := rfl
        have hrun := parseItemsAt_toOption (readWord n₀ n₁) [m₀, m₁, v₀, v₁, n₀, n₁] r m
        simp only [parseConfig, if_pos hword, if_pos h6, hnum, ← hrun, List.take_succ_cons,
          List.take_zero, List.drop_succ_cons, List.drop_zero]
        cases parseItemsAt (readWord n₀ n₁) ([m₀, m₁, v₀, v₁, n₀, n₁] ++ r)
          [m₀, m₁, v₀, v₁, n₀, n₁].length m <;> rfl
      all_goals simp [parseConfig, hword, Except.toOption]
    · simp [parseConfig, hword, Except.toOption]

/-- The parser stays inside its input, and items that do not fit are refused, exactly for the contained
    buffers. -/
theorem parseConfig_staysInside_iff (m : KeyMap) (buf : Bytes) : StaysInside m buf ↔ Contained buf := by
  rw [StaysInside, Contained, parseConfigRun_eq]
  by_cases h2 : 2 ≤ buf.length
  · by_cases hword : wordAt buf 0 = txConfigMagic
    · by_cases h6 : 6 ≤ buf.length
      · have hiff := parseItemsAt_ne_outside_iff (wordAt buf 4) (buf.take 6) (buf.drop 6) m
        have hfit := itemsFit_of_parseItemsAt (wordAt buf 4) (buf.take 6) (buf.drop 6) m
        simp only [h2, h6, hword, if_true, true_and, true_imp_iff, ← hiff]
        cases hrun : parseItemsAt (wordAt buf 4) (buf.take 6 ++ buf.drop 6) (buf.take 6).length m with
        | error fault => cases fault <;> simp [Except.map]
        | ok m' => simp [Except.map, hfit m' hrun]
      · simp [h2, h6, hword]
    · simp [h2, hword]
  · simp [h2]

/-- A header that announces one item, and no item. -/
theorem parseConfig_leaves_input : ¬ ∀ (m : KeyMap) (buf : Bytes), StaysInside m buf := by
  intro h
  have hrun : parseConfigRun [] [0x54, 0x44, 1, 1, 1, 0] 6 = .error .outside := rfl
  have hstays := h [] [0x54, 0x44, 1, 1, 1, 0]
  simp only [StaysInside, List.length_cons, List.length_nil, hrun] at hstays
  exact Fault.noConfusion hstays.1

end UrlTraveler.Config
