import UrlTraveler.Sogou.EncodePage

/-! The block function is AES: each piece of the code is one round on the words of the state.

        called ──firstRound──▶ AtRound 1 ──evenRound──▶ AtHalf 2 ──oddRound──▶ AtRound 3
                                                                                ...
        Encode ◀──lastRound──────────────────────────────────────────────── AtRound 9

    What holds between the rounds is where the four words stand, and where the next key does. -/

namespace UrlTraveler.Sogou
open Aes hiding Byte Word State
open X86

/-! ### Between the rounds -/

/-- At the label: `r` rounds are done, with `n` turns of the loop to go. -/
structure AtRound (Array1 : List Word) (r n : ℕ) (w : Fin 4 → Word) (s : State Area) : Prop where
  eax : s.eax = .ptr .InitArray2 (16 * (r + 1))
  ecx : s.ecx = .num (w 0)
  ebx : s.ebx = .num (w 3)
  edi : s.edi = .num (BitVec.ofNat 32 n)
  ebp : s.ebp = .ptr .Encode 0
  esp : s.esp = .ptr .stack 0
  mem : ∃ (Encode : List (Val Area)) (f : Frame), s.mem = memory Array1 Encode f.cells ∧
    Encode.length = 4 ∧ f.s24 = .num (w 1) ∧ f.s18 = .num (w 2) ∧ f.s1C = .num (w 3)

/-- Between the halves of the loop, where `eax` still is at key `r`; two registers are loaded
    ahead. -/
structure AtHalf (Array1 : List Word) (r n : ℕ) (w : Fin 4 → Word) (s : State Area) : Prop where
  eax : s.eax = .ptr .InitArray2 (16 * r)
  ecx : s.ecx = .num ((byteOf (w 2) 1).setWidth 32)
  edx : s.edx = .num (w 0)
  ebx : s.ebx = .num (w 3)
  esi : s.esi = .num (w 1)
  edi : s.edi = .num (BitVec.ofNat 32 n)
  ebp : s.ebp = .ptr .Encode 0
  esp : s.esp = .ptr .stack 0
  mem : ∃ (Encode : List (Val Area)) (f : Frame), s.mem = memory Array1 Encode f.cells ∧
    Encode.length = 4 ∧ f.s10 = .num (w 1) ∧ f.s14 = .num (w 2)

section Columns

/-- The code takes the tables of a column in two orders. -/
theorem te_order (a b c : Byte) :
    te 2 c ^^^ te 1 b ^^^ te 0 a = te 0 a ^^^ te 1 b ^^^ te 2 c := by ac_rfl

theorem te_order' (a b c : Byte) :
    te 1 b ^^^ te 2 c ^^^ te 0 a = te 0 a ^^^ te 1 b ^^^ te 2 c := by ac_rfl

variable (k w : Fin 4 → Word)

theorem wordRound_zero : wordRound k w 0 = te 0 (byteOf (w 0) 3) ^^^ te 1 (byteOf (w 1) 2) ^^^
    te 2 (byteOf (w 2) 1) ^^^ te 3 (byteOf (w 3) 0) ^^^ k 0 := rfl

theorem wordRound_one : wordRound k w 1 = te 0 (byteOf (w 1) 3) ^^^ te 1 (byteOf (w 2) 2) ^^^
    te 2 (byteOf (w 3) 1) ^^^ te 3 (byteOf (w 0) 0) ^^^ k 1 := rfl

theorem wordRound_two : wordRound k w 2 = te 0 (byteOf (w 2) 3) ^^^ te 1 (byteOf (w 3) 2) ^^^
    te 2 (byteOf (w 0) 1) ^^^ te 3 (byteOf (w 1) 0) ^^^ k 2 := rfl

theorem wordRound_three : wordRound k w 3 = te 0 (byteOf (w 3) 3) ^^^ te 1 (byteOf (w 0) 2) ^^^
    te 2 (byteOf (w 1) 1) ^^^ te 3 (byteOf (w 2) 0) ^^^ k 3 := rfl

end Columns

/-! ### The rounds -/

variable {Array1 : List Word} {r n : ℕ} {w : Fin 4 → Word} {s : State Area}

theorem evenRound_runs (hr : r + 1 ≤ 10) (h : AtRound Array1 r n w s) :
    Runs evenRound (some s) (AtHalf Array1 (r + 1) n (wordRound (keyWords (r + 1)) w)) := by
  rcases s with ⟨eax, ecx, edx, ebx, esi, edi, ebp, esp, zf, mem⟩
  obtain ⟨rfl, rfl, rfl, rfl, rfl, rfl, Encode, f, rfl, hlen, h24, h18, h1C⟩ := h
  have hk0 := cell_keys hr 0 (16 * (r + 1)) rfl
  have hk1 := cell_keys hr 1 (16 * (r + 1) + 4) rfl
  have hk2 := cell_keys hr 2 (16 * (r + 1) + 8) rfl
  have hk3 := cell_keys hr 3 (16 * (r + 1) + 12) rfl
  simp [evenRound, Frame.cells, h24, h18, h1C, hk0, hk1, hk2, hk3]
  simp only [te_order, te_order', ← wordRound_zero (keyWords (r + 1)) w,
    ← wordRound_one (keyWords (r + 1)) w, ← wordRound_two (keyWords (r + 1)) w,
    ← wordRound_three (keyWords (r + 1)) w]
  exact ⟨rfl, rfl, rfl, rfl, rfl, rfl, rfl, rfl, Encode,
    ⟨f.edi, f.esi, f.ebp, f.ebx, _, _, _, _, f.ret, _, f.edi', f.ecx, f.eax⟩, rfl, hlen, rfl, rfl⟩

theorem ofNat_succ_sub_one (n : ℕ) : BitVec.ofNat 32 (n + 1) - 1#32 = BitVec.ofNat 32 n := by
  rw [BitVec.ofNat_add, BitVec.add_sub_cancel]

theorem ofNat_eq_zero {n : ℕ} (hn : n < 2 ^ 32) : BitVec.ofNat 32 n = 0#32 ↔ n = 0 := by
  rw [← BitVec.toNat_inj, BitVec.toNat_ofNat, Nat.mod_eq_of_lt hn]
  rfl

theorem oddRound_runs (hr : r + 1 ≤ 10) (hn : n < 2 ^ 32) (h : AtHalf Array1 r (n + 1) w s) :
    Runs oddRound (some s) fun s =>
      AtRound Array1 (r + 1) n (wordRound (keyWords (r + 1)) w) s ∧ (s.zf = true ↔ n = 0) := by
  rcases s with ⟨eax, ecx, edx, ebx, esi, edi, ebp, esp, zf, mem⟩
  obtain ⟨rfl, rfl, rfl, rfl, rfl, rfl, rfl, rfl, Encode, f, rfl, hlen, h10, h14⟩ := h
  have hk0 := cell_keys hr 0 (16 * r + 16) rfl
  have hk1 := cell_keys hr 1 (16 * r + 20) rfl
  have hk2 := cell_keys hr 2 (16 * r + 24) rfl
  have hk3 := cell_keys hr 3 (16 * r + 28) rfl
  simp [oddRound, Frame.cells, h10, h14, hk0, hk1, hk2, hk3]
  simp only [te_order, te_order', ← wordRound_zero (keyWords (r + 1)) w,
    ← wordRound_one (keyWords (r + 1)) w, ← wordRound_two (keyWords (r + 1)) w,
    ← wordRound_three (keyWords (r + 1)) w]
  simp only [ofNat_succ_sub_one, ofNat_eq_zero hn, and_true]
  refine ⟨?_, rfl, rfl, rfl, rfl, rfl, Encode,
    ⟨f.edi, f.esi, f.ebp, f.ebx, _, _, _, _, f.ret, _, f.edi', f.ecx, f.eax⟩, rfl, hlen, rfl, rfl,
    rfl⟩
  rw [show 16 * (r + 1 + 1) = 16 * r + 32 by omega]

/-- One turn of the loop is two rounds. -/
theorem loop_runs (hr : r + 2 ≤ 10) (hn : n < 2 ^ 32) (h : AtRound Array1 r (n + 1) w s) :
    Runs (evenRound ++ oddRound) (some s) fun s =>
      AtRound Array1 (r + 2) n (wordRound (keyWords (r + 2)) (wordRound (keyWords (r + 1)) w)) s ∧
        (s.zf = true ↔ n = 0) := by
  rw [runs_append]
  exact (evenRound_runs (by omega) h).mono fun s hs => oddRound_runs hr hn hs

/-- At the label with `n` turns to go, the words are those of the state after `9 - 2n` rounds. -/
def LoopInv (Array1 : List Word) (input : Aes.State) (n : ℕ) (s : State Area) : Prop :=
  ∃ r, r + 2 * n = 9 ∧ AtRound Array1 r n (words (rounds roundKeys input r)) s

theorem loop_jnz {input : Aes.State} {fuel : ℕ} (hfuel : 4 ≤ fuel)
    (h : LoopInv Array1 input 4 s) : ∃ s', jnz (evenRound ++ oddRound) fuel s = some s' ∧
      LoopInv Array1 input 0 s' := by
  refine jnz_of_inv (LoopInv Array1 input) (fun n s hs => ?_) 3 (by omega) h
  obtain ⟨r, hr, hs⟩ := hs
  refine (loop_runs (by omega) (by omega) hs).mono fun s ⟨hround, hzf⟩ => ⟨?_, hzf⟩
  refine ⟨r + 2, by omega, ?_⟩
  rw [rounds, words_round, rounds, words_round, words_roundKeys, words_roundKeys]
  exact hround

/-! ### Bytes in and out -/

/-- The swap as the code makes it. -/
@[simp] theorem or_eq_swapBytes (w : Word) :
    w.rotateRight 8 &&& 4278255360#32 ||| w.rotateLeft 8 &&& 16711935#32 = swapBytes w := rfl

/-- The dwords of a block are the words of its state, swapped. -/
theorem dwords_toList (b : Block) : dwords b.toList =
    [swapBytes (words (load b) 0), swapBytes (words (load b) 1), swapBytes (words (load b) 2),
      swapBytes (words (load b) 3)] := by
  have hlist : b.toList = [b[0], b[1], b[2], b[3], b[4], b[5], b[6], b[7], b[8], b[9], b[10],
      b[11], b[12], b[13], b[14], b[15]] := by
    refine List.ext_getElem (by simp) fun i hi _ => ?_
    rw [Vector.length_toList] at hi
    interval_cases i <;> simp
  rw [hlist]
  simp only [dwords, words, pack, swapBytes_append]
  rfl

/-- The masks of the last round put four S-boxes into one word. -/
theorem mask_pack (p q t u : Byte) : (pack fun _ => p) &&& 16711680#32 ^^^
    (pack fun _ => q) &&& 65280#32 ^^^ (pack fun _ => t) &&& 4278190080#32 ^^^ u.setWidth 32 =
      t ++ p ++ q ++ u := by
  refine BitVec.eq_of_getLsbD_eq fun i hi => ?_
  have h1 : ∀ (i : ℕ) (hi : i < 32), (16711680#32)[i] = decide (16 ≤ i ∧ i < 24) := by decide
  have h2 : ∀ (i : ℕ) (hi : i < 32), (65280#32)[i] = decide (8 ≤ i ∧ i < 16) := by decide
  have h3 : ∀ (i : ℕ) (hi : i < 32), (4278190080#32)[i] = decide (24 ≤ i) := by decide
  simp [pack, hi, h1 i hi, h2 i hi, h3 i hi]
  grind

theorem byteOf_pack (b : Byte) : byteOf (pack fun _ => b) 0 = b := row_pack (fun _ => b) 3

section FinalColumns
variable (k w : Fin 4 → Word)

theorem wordFinal_zero : wordFinal k w 0 = (sbox (byteOf (w 0) 3) ++ sbox (byteOf (w 1) 2) ++
    sbox (byteOf (w 2) 1) ++ sbox (byteOf (w 3) 0)) ^^^ k 0 := rfl

theorem wordFinal_one : wordFinal k w 1 = (sbox (byteOf (w 1) 3) ++ sbox (byteOf (w 2) 2) ++
    sbox (byteOf (w 3) 1) ++ sbox (byteOf (w 0) 0)) ^^^ k 1 := rfl

theorem wordFinal_two : wordFinal k w 2 = (sbox (byteOf (w 2) 3) ++ sbox (byteOf (w 3) 2) ++
    sbox (byteOf (w 0) 1) ++ sbox (byteOf (w 1) 0)) ^^^ k 2 := rfl

theorem wordFinal_three : wordFinal k w 3 = (sbox (byteOf (w 3) 3) ++ sbox (byteOf (w 0) 2) ++
    sbox (byteOf (w 1) 1) ++ sbox (byteOf (w 2) 0)) ^^^ k 3 := rfl

end FinalColumns

/-! ### The block function -/

theorem firstRound_runs (Array1 Encode : Block) (caller : State Area) (f : Frame) :
    Runs (callCode ++ firstRound) (some (called Array1 Encode caller f))
      (LoopInv (dwords Array1.toList) (load Array1) 4) := by
  have hk0 := cell_keys (by omega) 0 (r := 0) 0 rfl
  have hk1 := cell_keys (by omega) 1 (r := 0) 4 rfl
  have hk2 := cell_keys (by omega) 2 (r := 0) 8 rfl
  have hk3 := cell_keys (by omega) 3 (r := 0) 12 rfl
  have hk4 := cell_keys (by omega) 0 (r := 1) 16 rfl
  have hk5 := cell_keys (by omega) 1 (r := 1) 20 rfl
  have hk6 := cell_keys (by omega) 2 (r := 1) 24 rfl
  have hk7 := cell_keys (by omega) 3 (r := 1) 28 rfl
  obtain ⟨w, hw⟩ : ∃ w, w = words (addRoundKey (roundKeys 0) (load Array1)) := ⟨_, rfl⟩
  have hadd : ∀ c, words (load Array1) c ^^^ keyWords 0 c = w c := fun c => by
    rw [hw, words_addRoundKey, words_roundKeys]
  simp [callCode, firstRound, called, Frame.cells, dwords_toList, swapBytes_swapBytes, hk0, hk1,
    hk2, hk3, hk4, hk5, hk6, hk7, hadd]
  simp only [te_order, te_order', ← wordRound_zero (keyWords 1) w, ← wordRound_one (keyWords 1) w,
    ← wordRound_two (keyWords 1) w, ← wordRound_three (keyWords 1) w]
  refine ⟨1, rfl, ?_⟩
  rw [rounds, words_round, words_roundKeys, rounds, ← hw]
  exact ⟨rfl, rfl, rfl, rfl, rfl, rfl, _, ⟨_, _, _, _, _, _, _, _, _, _, _, _, _⟩, rfl, rfl, rfl,
    rfl, rfl⟩

theorem lastRound_runs {input : Aes.State} (h : LoopInv Array1 input 0 s) :
    Runs (lastRound ++ returnCode) (some s) fun s =>
      s.mem .Encode = (dwords (store (cipher roundKeys input)).toList).map .num := by
  rcases s with ⟨eax, ecx, edx, ebx, esi, edi, ebp, esp, zf, mem⟩
  obtain ⟨r, rfl, rfl, rfl, rfl, rfl, rfl, rfl, Encode, f, rfl, hlen, h24, h18, h1C⟩ := h
  match Encode, hlen with
  | [e0, e1, e2, e3], _ =>
    have hk0 := cell_keys (by omega) 0 (r := 10) 160 rfl
    have hk1 := cell_keys (by omega) 1 (r := 10) 164 rfl
    have hk2 := cell_keys (by omega) 2 (r := 10) 168 rfl
    have hk3 := cell_keys (by omega) 3 (r := 10) 172 rfl
    obtain ⟨w, hw⟩ : ∃ w, w = words (rounds roundKeys input 9) := ⟨_, rfl⟩
    rw [← hw] at h24 h18 h1C ⊢
    simp [lastRound, returnCode, Frame.cells, h24, h18, h1C, hk0, hk1, hk2, hk3, byteOf_pack,
      mask_pack]
    simp only [← wordFinal_zero (keyWords 10) w, ← wordFinal_one (keyWords 10) w,
      ← wordFinal_two (keyWords 10) w, ← wordFinal_three (keyWords 10) w]
    rw [dwords_toList, load_store, cipher, words_finalRound, words_roundKeys, ← hw]
    rfl

/-- `calc_encode_page` ends with the encryption of `Array1` under the keys of `InitArray2` in
    `Encode`, whatever was there before and in the registers and on the stack. -/
theorem calcEncodePage_eq_encrypt (Array1 Encode : Block) (caller : State Area) (f : Frame) :
    ∃ fuel s, calcEncodePage fuel (called Array1 Encode caller f) = some s ∧
      s.mem .Encode = (dwords (encrypt roundKeys Array1).toList).map .num := by
  obtain ⟨s₁, hfirst, hinv⟩ := firstRound_runs Array1 Encode caller f
  obtain ⟨s₂, hjnz, hinv⟩ := loop_jnz (le_refl 4) hinv
  obtain ⟨s₃, hlast, hmem⟩ := lastRound_runs hinv
  rw [Option.bind_some] at hfirst hlast
  refine ⟨4, s₃, ?_, hmem⟩
  rw [calcEncodePage, hfirst, Option.bind_some, hjnz, Option.bind_some, hlast]

end UrlTraveler.Sogou
