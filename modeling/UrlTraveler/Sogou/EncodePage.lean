import UrlTraveler.Sogou.Codec
import UrlTraveler.Sogou.Tables

/-! `calc_encode_page`: the assembly of the block function, and what it computes.

        round 1        sogouexp_004C1B90   words in edx, [esp+10], [esp+14], [esp+1C]
        rounds 2, 3    ┐
        ...            sogouexp_004C1D20   words in ecx, [esp+24], [esp+18], ebx and [esp+1C]
        rounds 8, 9    ┘ four times
        round 10                           bytes swapped back, to [ebp]

    The words of a state go through the rounds; a word has the byte of row 0 on top, so the dwords
    of `Array1` are swapped on the way in and those of `Encode` on the way out. -/

namespace UrlTraveler.Sogou
open Aes hiding Byte Word State
open X86

/-! ### The code -/

/-- The areas that the code reads and writes. -/
inductive Area where
  | Array1 | InitArray2 | Encode | stack | t5B3E18 | t5B4218 | t5B4618 | t5B4A18 | t5B4E18
  deriving DecidableEq

abbrev eax : Operand Area := .reg .eax
abbrev ecx : Operand Area := .reg .ecx
abbrev edx : Operand Area := .reg .edx
abbrev ebx : Operand Area := .reg .ebx
abbrev esi : Operand Area := .reg .esi
abbrev edi : Operand Area := .reg .edi
abbrev ebp : Operand Area := .reg .ebp
abbrev esp : Operand Area := .reg .esp

/-- `calc_encode_page` up to the call, which leaves a return address on the stack. -/
def callCode : List (Instr Area) :=
  [ .push eax, .push ecx, .push edi, .mov ecx (.addr .Array1), .mov eax (.addr .InitArray2),
    .mov edi (.addr .Encode), .push edi, .push (.imm 0) ]

/-- `gen_encode_page` up to the label: the words of the input, and round 1. -/
def firstRound : List (Instr Area) :=
  [ .sub esp 0x10, .push ebx, .mov ebx ecx, .mov ecx (.dword .ebx 0), .mov edx ecx, .ror edx 8,
    .and edx (.imm 0xFF00FF00), .rol ecx 8, .and ecx (.imm 0xFF00FF), .or edx ecx,
    .xor edx (.dword .eax 0), .mov ecx (.dword .ebx 4), .push ebp, .push esi, .push edi,
    .mov edi (.dword .ebx 8), .mov ebx (.dword .ebx 0xC), .mov esi ecx, .ror esi 8,
    .and esi (.imm 0xFF00FF00), .rol ecx 8, .and ecx (.imm 0xFF00FF), .or esi ecx,
    .xor esi (.dword .eax 4), .mov ecx edi, .ror ecx 8, .and ecx (.imm 0xFF00FF00), .rol edi 8,
    .and edi (.imm 0xFF00FF), .or ecx edi, .xor ecx (.dword .eax 8), .mov (.dword .esp 0x10) esi,
    .shr esi 0x10, .and esi (.imm 0xFF), .mov (.dword .esp 0x14) ecx, .mov edi ebx, .ror edi 8,
    .and edi (.imm 0xFF00FF00), .movzx ecx (.high .ecx), .mov ecx (.table .ecx .t5B4618),
    .xor ecx (.table .esi .t5B4218), .rol ebx 8, .and ebx (.imm 0xFF00FF), .or edi ebx,
    .xor edi (.dword .eax 0xC), .mov ebp (.dword .esp 0x24), .mov (.dword .esp 0x1C) edi,
    .and edi (.imm 0xFF), .mov esi edx, .shr esi 0x18, .xor ecx (.table .esi .t5B3E18),
    .movzx esi (.byte .esp 0x1D), .xor ecx (.table .edi .t5B4A18),
    .mov esi (.table .esi .t5B4618), .mov edi (.dword .esp 0x14), .shr edi 0x10,
    .and edi (.imm 0xFF), .xor esi (.table .edi .t5B4218), .mov edi (.dword .esp 0x10),
    .shr edi 0x18, .xor esi (.table .edi .t5B3E18), .xor ecx (.dword .eax 0x10), .mov edi edx,
    .and edi (.imm 0xFF), .xor esi (.table .edi .t5B4A18), .movzx edi (.high .edx),
    .xor esi (.dword .eax 0x14), .mov (.dword .esp 0x24) esi, .mov esi (.dword .esp 0x1C),
    .shr esi 0x10, .and esi (.imm 0xFF), .mov esi (.table .esi .t5B4218),
    .xor esi (.table .edi .t5B4618), .mov edi (.dword .esp 0x14), .shr edi 0x18,
    .xor esi (.table .edi .t5B3E18), .mov edi (.dword .esp 0x10), .and edi (.imm 0xFF),
    .xor esi (.table .edi .t5B4A18), .xor esi (.dword .eax 0x18), .mov (.dword .esp 0x18) esi,
    .movzx esi (.byte .esp 0x11), .mov ebx (.table .esi .t5B4618), .shr edx 0x10,
    .and edx (.imm 0xFF), .xor ebx (.table .edx .t5B4218), .mov edx (.dword .esp 0x1C),
    .shr edx 0x18, .xor ebx (.table .edx .t5B3E18), .mov edx (.dword .esp 0x14),
    .and edx (.imm 0xFF), .xor ebx (.table .edx .t5B4A18), .mov edi (.imm 4),
    .xor ebx (.dword .eax 0x1C), .add eax 0x20, .mov (.dword .esp 0x1C) ebx, .nop ]

/-- The first half of the loop: an even round. -/
def evenRound : List (Instr Area) :=
  [ .movzx edx (.byte .esp 0x19), .mov esi (.dword .esp 0x24), .mov edx (.table .edx .t5B4618),
    .shr esi 0x10, .and esi (.imm 0xFF), .xor edx (.table .esi .t5B4218), .and ebx (.imm 0xFF),
    .mov esi ecx, .shr esi 0x18, .xor edx (.table .esi .t5B3E18), .movzx esi (.byte .esp 0x1D),
    .xor edx (.table .ebx .t5B4A18), .mov esi (.table .esi .t5B4618),
    .mov ebx (.dword .esp 0x18), .shr ebx 0x10, .and ebx (.imm 0xFF),
    .xor esi (.table .ebx .t5B4218), .mov ebx (.dword .esp 0x24), .shr ebx 0x18,
    .xor esi (.table .ebx .t5B3E18), .mov ebx ecx, .and ebx (.imm 0xFF),
    .xor esi (.table .ebx .t5B4A18), .movzx ebx (.high .ecx), .xor esi (.dword .eax 4),
    .xor edx (.dword .eax 0), .mov (.dword .esp 0x10) esi, .mov esi (.dword .esp 0x1C),
    .shr esi 0x10, .and esi (.imm 0xFF), .mov esi (.table .esi .t5B4218),
    .xor esi (.table .ebx .t5B4618), .mov ebx (.dword .esp 0x24), .mov (.dword .esp 0x14) esi,
    .mov esi (.dword .esp 0x18), .shr esi 0x18, .mov esi (.table .esi .t5B3E18),
    .xor (.dword .esp 0x14) esi, .mov esi (.dword .esp 0x14), .and ebx (.imm 0xFF),
    .xor esi (.table .ebx .t5B4A18), .shr ecx 0x10, .xor esi (.dword .eax 8),
    .and ecx (.imm 0xFF), .mov (.dword .esp 0x14) esi, .movzx esi (.byte .esp 0x25),
    .mov ebx (.table .esi .t5B4618), .xor ebx (.table .ecx .t5B4218),
    .mov ecx (.dword .esp 0x1C), .mov esi (.dword .esp 0x10), .shr ecx 0x18,
    .xor ebx (.table .ecx .t5B3E18), .mov ecx (.dword .esp 0x18), .and ecx (.imm 0xFF),
    .xor ebx (.table .ecx .t5B4A18), .movzx ecx (.byte .esp 0x15), .xor ebx (.dword .eax 0xC) ]

/-- The second half of the loop: an odd round. -/
def oddRound : List (Instr Area) :=
  [ .mov ecx (.table .ecx .t5B4618), .shr esi 0x10, .and esi (.imm 0xFF),
    .xor ecx (.table .esi .t5B4218), .mov esi edx, .shr esi 0x18,
    .xor ecx (.table .esi .t5B3E18), .mov esi ebx, .and esi (.imm 0xFF),
    .xor ecx (.table .esi .t5B4A18), .movzx esi (.high .ebx), .mov esi (.table .esi .t5B4618),
    .xor ecx (.dword .eax 0x10), .mov (.dword .esp 0x1C) ebx, .mov ebx (.dword .esp 0x14),
    .shr ebx 0x10, .and ebx (.imm 0xFF), .xor esi (.table .ebx .t5B4218),
    .mov ebx (.dword .esp 0x10), .shr ebx 0x18, .xor esi (.table .ebx .t5B3E18), .mov ebx edx,
    .and ebx (.imm 0xFF), .xor esi (.table .ebx .t5B4A18), .xor esi (.dword .eax 0x14),
    .movzx ebx (.high .edx), .mov (.dword .esp 0x24) esi, .mov esi (.dword .esp 0x1C),
    .shr esi 0x10, .and esi (.imm 0xFF), .mov esi (.table .esi .t5B4218),
    .xor esi (.table .ebx .t5B4618), .mov ebx (.dword .esp 0x14), .shr ebx 0x18,
    .xor esi (.table .ebx .t5B3E18), .mov ebx (.dword .esp 0x10), .and ebx (.imm 0xFF),
    .xor esi (.table .ebx .t5B4A18), .shr edx 0x10, .xor esi (.dword .eax 0x18),
    .and edx (.imm 0xFF), .mov (.dword .esp 0x18) esi, .movzx esi (.byte .esp 0x11),
    .mov ebx (.table .esi .t5B4618), .xor ebx (.table .edx .t5B4218),
    .mov edx (.dword .esp 0x1C), .shr edx 0x18, .xor ebx (.table .edx .t5B3E18),
    .mov edx (.dword .esp 0x14), .and edx (.imm 0xFF), .xor ebx (.table .edx .t5B4A18),
    .add eax 0x20, .xor ebx (.before .eax 4), .sub edi 1, .mov (.dword .esp 0x1C) ebx ]

/-- `gen_encode_page` behind the loop: round 10. -/
def lastRound : List (Instr Area) :=
  [ .mov edx (.dword .esp 0x24), .shr edx 0x10, .and edx (.imm 0xFF),
    .mov esi (.table .edx .t5B4E18), .mov edx (.dword .esp 0x18), .movzx edi (.high .edx),
    .mov edi (.table .edi .t5B4E18), .and esi (.imm 0xFF0000), .and edi (.imm 0xFF00),
    .xor esi edi, .shr edx 0x10, .mov edi ecx, .shr edi 0x18, .mov edi (.table .edi .t5B4E18),
    .and edi (.imm 0xFF000000), .xor esi edi, .and edx (.imm 0xFF), .mov edi ebx,
    .and edi (.imm 0xFF), .movzx edi (.table .edi .t5B4E18), .xor esi edi,
    .xor esi (.dword .eax 0), .mov edi esi, .ror edi 8, .and edi (.imm 0xFF00FF00), .rol esi 8,
    .and esi (.imm 0xFF00FF), .or edi esi, .mov (.dword .ebp 0) edi,
    .mov esi (.table .edx .t5B4E18), .and esi (.imm 0xFF0000), .movzx edx (.high .ebx),
    .mov edx (.table .edx .t5B4E18), .and edx (.imm 0xFF00), .xor esi edx,
    .mov edx (.dword .esp 0x24), .shr edx 0x18, .mov edx (.table .edx .t5B4E18),
    .and edx (.imm 0xFF000000), .xor esi edx, .mov edx ecx, .and edx (.imm 0xFF),
    .movzx edx (.table .edx .t5B4E18), .xor esi edx, .xor esi (.dword .eax 4), .mov edx esi,
    .ror edx 8, .and edx (.imm 0xFF00FF00), .rol esi 8, .and esi (.imm 0xFF00FF), .or edx esi,
    .mov (.dword .ebp 4) edx, .mov edx ebx, .shr edx 0x10, .and edx (.imm 0xFF),
    .mov esi (.table .edx .t5B4E18), .movzx edx (.high .ecx), .mov edx (.table .edx .t5B4E18),
    .and edx (.imm 0xFF00), .and esi (.imm 0xFF0000), .xor esi edx, .mov edx (.dword .esp 0x18),
    .shr edx 0x18, .mov edx (.table .edx .t5B4E18), .and edx (.imm 0xFF000000), .xor esi edx,
    .mov edx (.dword .esp 0x24), .and edx (.imm 0xFF), .movzx edx (.table .edx .t5B4E18),
    .xor esi edx, .xor esi (.dword .eax 8), .shr ecx 0x10, .mov edx esi, .ror edx 8,
    .and edx (.imm 0xFF00FF00), .rol esi 8, .and esi (.imm 0xFF00FF), .or edx esi,
    .and ecx (.imm 0xFF), .mov (.dword .ebp 8) edx, .mov ecx (.table .ecx .t5B4E18),
    .movzx edx (.byte .esp 0x25), .mov edx (.table .edx .t5B4E18), .and edx (.imm 0xFF00),
    .and ecx (.imm 0xFF0000), .xor ecx edx, .shr ebx 0x18, .mov edx (.table .ebx .t5B4E18),
    .and edx (.imm 0xFF000000), .xor ecx edx, .mov edx (.dword .esp 0x18), .and edx (.imm 0xFF),
    .movzx edx (.table .edx .t5B4E18), .xor ecx edx, .xor ecx (.dword .eax 0xC), .pop edi,
    .mov eax ecx, .ror eax 8, .and eax (.imm 0xFF00FF00), .rol ecx 8, .and ecx (.imm 0xFF00FF),
    .or eax ecx, .pop esi, .mov (.dword .ebp 0xC) eax, .pop ebp, .pop ebx, .add esp 0x10 ]

/-- `retn`, and `calc_encode_page` behind the call. -/
def returnCode : List (Instr Area) :=
  [ .add esp 4, .add esp 4, .pop edi, .pop ecx, .pop eax ]

/-- `calc_encode_page`, the loop with at most `fuel` rounds. -/
def calcEncodePage (fuel : ℕ) (s : State Area) : Option (State Area) :=
  (run (callCode ++ firstRound) s).bind fun s =>
    (jnz (evenRound ++ oddRound) fuel s).bind (run (lastRound ++ returnCode))

/-! ### The memory -/

/-- The dwords of `InitArray2`, as numbers. -/
def keys : List (Val Area) := (dwords InitArray2).map .num

/-- The memory around the dwords of `Array1`, `Encode` and the stack. -/
def memory (Array1 : List Word) (Encode stack : List (Val Area)) : Area → List (Val Area)
  | .Array1 => Array1.map .num
  | .InitArray2 => keys
  | .Encode => Encode
  | .stack => stack
  | .t5B3E18 => (dwords t5B3E18).map .num
  | .t5B4218 => (dwords t5B4218).map .num
  | .t5B4618 => (dwords t5B4618).map .num
  | .t5B4A18 => (dwords t5B4A18).map .num
  | .t5B4E18 => (dwords t5B4E18).map .num

/-- The stack of `gen_encode_page` from `esp` on: four registers, four slots, the return address,
    the argument, and the three registers that `calc_encode_page` keeps. -/
structure Frame where
  (edi esi ebp ebx s10 s14 s18 s1C ret s24 edi' ecx eax : Val Area)

def Frame.cells (f : Frame) : List (Val Area) :=
  [f.edi, f.esi, f.ebp, f.ebx, f.s10, f.s14, f.s18, f.s1C, f.ret, f.s24, f.edi', f.ecx, f.eax]

section Memory
variable (Array1 : List Word) (Encode stack l : List (Val Area))

@[simp] theorem memory_Array1 : memory Array1 Encode stack .Array1 = Array1.map .num := rfl

@[simp] theorem memory_InitArray2 : memory Array1 Encode stack .InitArray2 = keys := rfl

@[simp] theorem memory_Encode : memory Array1 Encode stack .Encode = Encode := rfl

@[simp] theorem memory_stack : memory Array1 Encode stack .stack = stack := rfl

@[simp] theorem update_Encode :
    Function.update (memory Array1 Encode stack) .Encode l = memory Array1 l stack := by
  funext area
  cases area <;> rfl

@[simp] theorem update_stack :
    Function.update (memory Array1 Encode stack) .stack l = memory Array1 Encode l := by
  funext area
  cases area <;> rfl

@[simp] theorem cell_t5B3E18 (b : Byte) :
    cell (memory Array1 Encode stack .t5B3E18) (4 * (b.toNat % 4294967296)) = some (.num (te 0 b)) :=
  cell_table dwords_t5B3E18 b

@[simp] theorem cell_t5B4218 (b : Byte) :
    cell (memory Array1 Encode stack .t5B4218) (4 * (b.toNat % 4294967296)) = some (.num (te 1 b)) :=
  cell_table dwords_t5B4218 b

@[simp] theorem cell_t5B4618 (b : Byte) :
    cell (memory Array1 Encode stack .t5B4618) (4 * (b.toNat % 4294967296)) = some (.num (te 2 b)) :=
  cell_table dwords_t5B4618 b

@[simp] theorem cell_t5B4A18 (b : Byte) :
    cell (memory Array1 Encode stack .t5B4A18) (4 * (b.toNat % 4294967296)) = some (.num (te 3 b)) :=
  cell_table dwords_t5B4A18 b

@[simp] theorem cell_t5B4E18 (b : Byte) :
    cell (memory Array1 Encode stack .t5B4E18) (4 * (b.toNat % 4294967296)) =
      some (.num (pack fun _ => sbox b)) :=
  cell_table (f := fun b => pack fun _ => sbox b) dwords_t5B4E18 b

end Memory

/-! ### The round keys -/

/-- The words of round key `r`. -/
def keyWords (r : ℕ) (c : Fin 4) : Word := (dwords InitArray2).getD (4 * r + c) 0

/-- The round keys in `InitArray2`: the byte of row 0 is the most significant of a dword. -/
def roundKeys (r : ℕ) : Aes.State := fun i c => row (keyWords r c) i

theorem words_roundKeys (r : ℕ) : words (roundKeys r) = keyWords r := by
  funext c
  exact pack_row (keyWords r c)

theorem length_dwords_InitArray2 : (dwords InitArray2).length = 44 := by decide +kernel

theorem cell_keys {r : ℕ} (hr : r ≤ 10) (c : Fin 4) (off : ℕ) (hoff : off = 16 * r + 4 * c) :
    cell keys off = some (.num (keyWords r c)) := by
  have hlt : 4 * r + c.val < (dwords InitArray2).length := by
    rw [length_dwords_InitArray2]
    omega
  rw [show off = 4 * (4 * r + c) by omega, keys, cell_map, cell_mul, keyWords,
    List.getD_eq_getElem?_getD, List.getElem?_eq_getElem hlt]
  rfl

/-! ### The call -/

/-- `calc_encode_page` is called: its two arrays, and what the caller left in the registers and on
    the stack. -/
def called (Array1 Encode : Block) (caller : State Area) (f : Frame) : State Area :=
  { caller with
    esp := .ptr .stack 0x34
    mem := memory (dwords Array1.toList) ((dwords Encode.toList).map .num) f.cells }

end UrlTraveler.Sogou
