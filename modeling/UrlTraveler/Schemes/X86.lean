import Mathlib.Data.BitVec
import Mathlib.Logic.Function.Basic
import Mathlib.Tactic.IntervalCases

/-! Straight 32-bit x86 code over memory that consists of areas.

        mov  edx, dword ptr [esi*4+T]     .mov edx (.table .esi T)
        xor  edx, dword ptr [esp+0x10]    .xor edx (.dword .esp 0x10)
        jnz  label                        `jnz`: the code from the label on, again

    A dword is a number or an address, which is an area and an offset in bytes. Dwords lie at the
    multiples of 4 of an area; what an access elsewhere, or arithmetic on an address, would do is not
    said: there the step has no result. -/

namespace X86

abbrev Word := BitVec 32

inductive Reg where | eax | ecx | edx | ebx | esi | edi | ebp | esp
  deriving DecidableEq

/-- A dword: a number, or the address of byte `off` of an area. -/
inductive Val (B : Type) where
  | num (w : Word)
  | ptr (b : B) (off : ℕ)

/-- The registers, the zero flag and the dwords of each area. -/
structure State (B : Type) where
  eax : Val B
  ecx : Val B
  edx : Val B
  ebx : Val B
  esi : Val B
  edi : Val B
  ebp : Val B
  esp : Val B
  zf : Bool
  mem : B → List (Val B)

inductive Operand (B : Type) where
  | reg (r : Reg)
  | imm (w : Word)
  /-- The address of an area. -/
  | addr (b : B)
  /-- `dword ptr [r+disp]` -/
  | dword (r : Reg) (disp : ℕ)
  /-- `dword ptr [r-disp]` -/
  | before (r : Reg) (disp : ℕ)
  /-- `dword ptr [r*4+b]` -/
  | table (r : Reg) (b : B)

inductive ByteOperand (B : Type) where
  /-- `ch`, `dh`, `bh` -/
  | high (r : Reg)
  /-- `byte ptr [r+disp]` -/
  | byte (r : Reg) (disp : ℕ)
  /-- `byte ptr [r*4+b]` -/
  | table (r : Reg) (b : B)

inductive Instr (B : Type) where
  | mov (dst src : Operand B)
  | movzx (dst : Operand B) (src : ByteOperand B)
  | xor (dst src : Operand B)
  | and (dst src : Operand B)
  | or (dst src : Operand B)
  | add (dst : Operand B) (n : ℕ)
  | sub (dst : Operand B) (n : ℕ)
  | shr (dst : Operand B) (n : ℕ)
  | ror (dst : Operand B) (n : ℕ)
  | rol (dst : Operand B) (n : ℕ)
  | push (src : Operand B)
  | pop (dst : Operand B)
  | nop

variable {B : Type}

/-! ### Access -/

/-- Bytes as dwords, the least significant byte first. -/
def dwords : List (BitVec 8) → List Word
  | a :: b :: c :: d :: l => (d ++ c ++ b ++ a) :: dwords l
  | _ => []

/-- The dword at a byte offset. -/
def cell {α : Type} : List α → ℕ → Option α
  | v :: _, 0 => some v
  | _ :: l, off + 4 => cell l off
  | _, _ => none

/-- Another dword at a byte offset. -/
def setCell {α : Type} (w : α) : List α → ℕ → Option (List α)
  | _ :: l, 0 => some (w :: l)
  | v :: l, off + 4 => (setCell w l off).map (v :: ·)
  | _, _ => none

@[simp] theorem cell_cons_zero {α : Type} (v : α) (l : List α) : cell (v :: l) 0 = some v := rfl

@[simp] theorem cell_cons_add {α : Type} (v : α) (l : List α) (off : ℕ) :
    cell (v :: l) (off + 4) = cell l off := rfl

@[simp] theorem setCell_cons_zero {α : Type} (w v : α) (l : List α) :
    setCell w (v :: l) 0 = some (w :: l) := rfl

@[simp] theorem setCell_cons_add {α : Type} (w v : α) (l : List α) (off : ℕ) :
    setCell w (v :: l) (off + 4) = (setCell w l off).map (v :: ·) := rfl

/-- The dwords lie at the multiples of 4. -/
theorem cell_mul {α : Type} (l : List α) (i : ℕ) : cell l (4 * i) = l[i]? := by
  induction i generalizing l with
  | zero => cases l <;> rfl
  | succ i ih =>
    cases l with
    | nil => rfl
    | cons v l => exact ih l

theorem cell_map {α β : Type} (f : α → β) (l : List α) (off : ℕ) :
    cell (l.map f) off = (cell l off).map f := by
  fun_induction cell l off with
  | case1 v l => rfl
  | case2 v l off ih => exact ih
  | case3 l off h0 h4 =>
    cases l with
    | nil => rfl
    | cons v l =>
      match off with
      | 0 => exact absurd rfl (h0 v l rfl)
      | 1 | 2 | 3 => rfl
      | off + 4 => exact absurd rfl (h4 v l off rfl)

/-- Byte `k` of a number, counted from the least significant. -/
def byteOf (w : Word) (k : ℕ) : BitVec 8 := w.extractLsb' (8 * k) 8

@[simp] def byteOfVal (k : ℕ) : Val B → Option (BitVec 8)
  | .num w => some (byteOf w k)
  | .ptr _ _ => none

@[simp] def State.get (s : State B) : Reg → Val B
  | .eax => s.eax
  | .ecx => s.ecx
  | .edx => s.edx
  | .ebx => s.ebx
  | .esi => s.esi
  | .edi => s.edi
  | .ebp => s.ebp
  | .esp => s.esp

@[simp] def State.set (s : State B) (v : Val B) : Reg → State B
  | .eax => { s with eax := v }
  | .ecx => { s with ecx := v }
  | .edx => { s with edx := v }
  | .ebx => { s with ebx := v }
  | .esi => { s with esi := v }
  | .edi => { s with edi := v }
  | .ebp => { s with ebp := v }
  | .esp => { s with esp := v }

@[simp] def State.read (s : State B) : Operand B → Option (Val B)
  | .reg r => some (s.get r)
  | .imm w => some (.num w)
  | .addr b => some (.ptr b 0)
  | .dword r disp =>
    match s.get r with
    | .ptr b off => cell (s.mem b) (off + disp)
    | .num _ => none
  | .before r disp =>
    match s.get r with
    | .ptr b off => if disp ≤ off then cell (s.mem b) (off - disp) else none
    | .num _ => none
  | .table r b =>
    match s.get r with
    | .num w => cell (s.mem b) (4 * w.toNat)
    | .ptr _ _ => none

@[simp] def State.readByte (s : State B) : ByteOperand B → Option (BitVec 8)
  | .high r => byteOfVal 1 (s.get r)
  | .byte r disp =>
    match s.get r with
    | .ptr b off =>
      (cell (s.mem b) ((off + disp) / 4 * 4)).bind (byteOfVal ((off + disp) % 4))
    | .num _ => none
  | .table r b =>
    match s.get r with
    | .num w => (cell (s.mem b) (4 * w.toNat)).bind (byteOfVal 0)
    | .ptr _ _ => none

variable [DecidableEq B]

@[simp] def State.store (s : State B) (b : B) (off : ℕ) (v : Val B) : Option (State B) :=
  (setCell v (s.mem b) off).map fun l => { s with mem := Function.update s.mem b l }

@[simp] def State.write (s : State B) (v : Val B) : Operand B → Option (State B)
  | .reg r => some (s.set v r)
  | .dword r disp =>
    match s.get r with
    | .ptr b off => s.store b (off + disp) v
    | .num _ => none
  | _ => none

/-! ### Instructions -/

@[simp] def State.setZf (s : State B) (w : Word) : State B := { s with zf := w = 0 }

/-- An operation on two numbers, which sets the zero flag. -/
@[simp] def State.binary (s : State B) (f : Word → Word → Word) (dst src : Operand B) : Option (State B) :=
  match s.read dst, s.read src with
  | some (.num a), some (.num b) => (s.write (.num (f a b)) dst).map (·.setZf (f a b))
  | _, _ => none

/-- A rotation, which leaves the zero flag. -/
@[simp] def State.rotate (s : State B) (f : Word → Word) (dst : Operand B) : Option (State B) :=
  match s.read dst with
  | some (.num a) => s.write (.num (f a)) dst
  | _ => none

/-- An operation that sets the zero flag, on a number, or on the offset of an address. -/
@[simp] def State.offset (s : State B) (f : Word → Word) (g : ℕ → Option ℕ) (dst : Operand B) :
    Option (State B) :=
  match s.read dst with
  | some (.num a) => (s.write (.num (f a)) dst).map (·.setZf (f a))
  | some (.ptr b off) => (g off).bind fun off => s.write (.ptr b off) dst
  | none => none

@[simp] def step : Instr B → State B → Option (State B)
  | .mov dst src, s => (s.read src).bind (s.write · dst)
  | .movzx dst src, s => (s.readByte src).bind fun b => s.write (.num (b.setWidth 32)) dst
  | .xor dst src, s => s.binary (· ^^^ ·) dst src
  | .and dst src, s => s.binary (· &&& ·) dst src
  | .or dst src, s => s.binary (· ||| ·) dst src
  | .add dst n, s => s.offset (· + BitVec.ofNat 32 n) (fun off => some (off + n)) dst
  | .sub dst n, s =>
    s.offset (· - BitVec.ofNat 32 n) (fun off => if n ≤ off then some (off - n) else none) dst
  | .shr dst n, s => s.offset (· >>> n) (fun _ => none) dst
  | .ror dst n, s => s.rotate (·.rotateRight n) dst
  | .rol dst n, s => s.rotate (·.rotateLeft n) dst
  | .push src, s => (s.read src).bind fun v =>
    (s.offset id (fun off => if 4 ≤ off then some (off - 4) else none) (.reg .esp)).bind fun s =>
      s.write v (.dword .esp 0)
  | .pop dst, s => (s.read (.dword .esp 0)).bind fun v =>
    (s.offset id (fun off => some (off + 4)) (.reg .esp)).bind fun s => s.write v dst
  | .nop, s => some s

/-- Code without jumps. -/
def run : List (Instr B) → State B → Option (State B)
  | [], s => some s
  | i :: is, s => (step i s).bind (run is)

/-- The code from a label up to `jnz label`, `fuel` rounds at most. -/
def jnz (body : List (Instr B)) : ℕ → State B → Option (State B)
  | 0, _ => none
  | fuel + 1, s => (run body s).bind fun s => if s.zf then some s else jnz body fuel s

/-! ### Bytes and tables -/

/-- The bytes of a number in the other order. -/
def swapBytes (w : Word) : Word := (w.rotateRight 8 &&& 0xFF00FF00) ||| (w.rotateLeft 8 &&& 0xFF00FF)

theorem byteOf_swapBytes (w : Word) {k : ℕ} (hk : k < 4) :
    byteOf (swapBytes w) k = byteOf w (3 - k) := by
  refine BitVec.eq_of_getLsbD_eq fun i hi => ?_
  interval_cases k <;> interval_cases i <;> simp [byteOf, swapBytes]

theorem eq_of_byteOf_eq {v w : Word} (h : ∀ k < 4, byteOf v k = byteOf w k) : v = w := by
  refine BitVec.eq_of_getLsbD_eq fun i hi => ?_
  have hbit := congrArg (·.getLsbD (i % 8)) (h (i / 8) (by omega))
  simpa [byteOf, show 8 * (i / 8) + i % 8 = i by omega, show i % 8 < 8 by omega] using hbit

theorem swapBytes_swapBytes (w : Word) : swapBytes (swapBytes w) = w := by
  refine eq_of_byteOf_eq fun k hk => ?_
  rw [byteOf_swapBytes _ hk, byteOf_swapBytes _ (by omega)]
  congr 1
  omega

theorem byteOf_append (a b c d : BitVec 8) :
    byteOf (a ++ b ++ c ++ d) 0 = d ∧ byteOf (a ++ b ++ c ++ d) 1 = c ∧
      byteOf (a ++ b ++ c ++ d) 2 = b ∧ byteOf (a ++ b ++ c ++ d) 3 = a := by
  refine ⟨?_, ?_, ?_, ?_⟩ <;> refine BitVec.eq_of_getLsbD_eq fun i hi => ?_ <;>
    simp [byteOf] <;> grind

theorem swapBytes_append (a b c d : BitVec 8) :
    swapBytes (a ++ b ++ c ++ d) = d ++ c ++ b ++ a := by
  obtain ⟨h0, h1, h2, h3⟩ := byteOf_append a b c d
  obtain ⟨g0, g1, g2, g3⟩ := byteOf_append d c b a
  refine eq_of_byteOf_eq fun k hk => ?_
  rw [byteOf_swapBytes _ hk]
  interval_cases k
  · exact h3.trans g0.symm
  · exact h2.trans g1.symm
  · exact h1.trans g2.symm
  · exact h0.trans g3.symm

@[simp] theorem and_byte (w : Word) : w &&& 255#32 = (byteOf w 0).setWidth 32 := by
  refine BitVec.eq_of_getLsbD_eq fun i hi => ?_
  have hmask : ∀ (i : ℕ) (hi : i < 32), (255#32)[i] = decide (i < 8) := by decide
  simp [byteOf, hmask i hi, hi, Bool.and_comm]

@[simp] theorem shiftRight_byte (w : Word) : w >>> 0x18 = (byteOf w 3).setWidth 32 := by
  refine BitVec.eq_of_getLsbD_eq fun i hi => ?_
  simp [byteOf]
  grind

@[simp] theorem byteOf_shiftRight (w : Word) : byteOf (w >>> 0x10) 0 = byteOf w 2 := by
  refine BitVec.eq_of_getLsbD_eq fun i hi => ?_
  simp [byteOf]

omit [DecidableEq B] in
/-- A table of 256 dwords is read at the number of a byte. -/
theorem cell_table {l : List Word} {f : BitVec 8 → Word}
    (h : l = (List.range 256).map fun n => f (BitVec.ofNat 8 n)) (b : BitVec 8) :
    cell (l.map (Val.num : Word → Val B)) (4 * (b.toNat % 4294967296)) = some (.num (f b)) := by
  have hb : b.toNat < 256 := b.isLt
  rw [cell_mul, h, Nat.mod_eq_of_lt (by omega)]
  simp [List.getElem?_range hb]

/-! ### Rules -/

/-- From a state that is there the code comes to its end, and `post` holds there. -/
def Runs (is : List (Instr B)) (s : Option (State B)) (post : State B → Prop) : Prop :=
  ∃ s', s.bind (run is) = some s' ∧ post s'

@[simp] theorem runs_nil (s : State B) (post : State B → Prop) : Runs [] (some s) post ↔ post s := by
  simp [Runs, run]

@[simp] theorem runs_cons (i : Instr B) (is : List (Instr B)) (s : State B) (post : State B → Prop) :
    Runs (i :: is) (some s) post ↔ Runs is (step i s) post := by
  simp only [Runs, run, Option.bind_some]

theorem runs_append (is js : List (Instr B)) (s : Option (State B)) (post : State B → Prop) :
    Runs (is ++ js) s post ↔ Runs is s fun s => Runs js (some s) post := by
  cases s with
  | none => simp [Runs]
  | some s =>
    induction is generalizing s with
    | nil => rw [List.nil_append, runs_nil]
    | cons i is ih =>
      rw [List.cons_append, runs_cons, runs_cons]
      cases step i s with
      | none => simp [Runs]
      | some s => exact ih s

theorem Runs.mono {is : List (Instr B)} {s : Option (State B)} {post post' : State B → Prop}
    (h : Runs is s post) (himp : ∀ s, post s → post' s) : Runs is s post' := by
  obtain ⟨s', hrun, hpost⟩ := h
  exact ⟨s', hrun, himp s' hpost⟩

/-- A counted loop: `inv n` holds with `n` rounds to go, and only the last round sets the zero
    flag. -/
theorem jnz_of_inv {body : List (Instr B)} (inv : ℕ → State B → Prop)
    (hbody : ∀ n s, inv (n + 1) s → Runs body (some s) fun s => inv n s ∧ (s.zf = true ↔ n = 0))
    (n : ℕ) {fuel : ℕ} (hfuel : n < fuel) {s : State B} (hs : inv (n + 1) s) :
    ∃ s', jnz body fuel s = some s' ∧ inv 0 s' := by
  induction n generalizing fuel s with
  | zero =>
    obtain ⟨fuel, rfl⟩ := Nat.exists_eq_add_of_lt hfuel
    obtain ⟨s', hrun, hinv, hzf⟩ := hbody 0 s hs
    rw [Option.bind_some] at hrun
    exact ⟨s', by simp [jnz, hrun, hzf], hinv⟩
  | succ n ih =>
    obtain ⟨fuel, rfl⟩ : ∃ k, fuel = k + 1 := ⟨fuel - 1, by omega⟩
    obtain ⟨s', hrun, hinv, hzf⟩ := hbody (n + 1) s hs
    rw [Option.bind_some] at hrun
    obtain ⟨t, hjnz, ht⟩ := ih (Nat.lt_of_succ_lt_succ hfuel) hinv
    have hzf' : s'.zf = false := by simpa using hzf
    exact ⟨t, by simp [jnz, hrun, hzf', hjnz], ht⟩

end X86
