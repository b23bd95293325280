import UrlTraveler.Json.Layout
import Mathlib.Data.List.Sort

/-! `Json::StyledStreamWriter`, the writer of the Bookmarks files.

        pushValue            what has nothing inside: on the line, or kept for the array around it
        writeArrayValue      on one line as long as it is short and nothing inside it has children
        writeValue           members in the order of their names, one a line

    What is written is a layout of the value; so the reader reads it back. A real number is printed
    by the C library: its text is a parameter. -/

namespace UrlTraveler.Json

/-! ### Strings -/

def isControlCharacter (ch : Char) : Bool := 0 < ch.toNat && ch.toNat ≤ 0x1F

/-- The characters that `strpbrk` looks for. -/
def special : List Char := ['"', '\\', '\x08', '\x0c', '\n', '\r', '\t']

/-- `std::hex << std::uppercase`, one digit. -/
def upperHex (n : ℕ) : Char := if n < 10 then Char.ofNat (48 + n) else Char.ofNat (55 + n)

/-- The loop of `valueToQuotedString` on one character; a control character is below 256. -/
def quoteChar (c : Char) : List Char :=
  if c = '"' then ['\\', '"']
  else if c = '\\' then ['\\', '\\']
  else if c = '\x08' then ['\\', 'b']
  else if c = '\x0c' then ['\\', 'f']
  else if c = '\n' then ['\\', 'n']
  else if c = '\r' then ['\\', 'r']
  else if c = '\t' then ['\\', 't']
  else if isControlCharacter c then
    ['\\', 'u', '0', '0', upperHex (c.toNat / 16), upperHex (c.toNat % 16)]
  else [c]

/-- `valueToQuotedString` on a C string. -/
def valueToQuotedString (value : List Char) : List Char :=
  if !(value.any fun c => special.contains c) && !(value.any isControlCharacter) then
    '"' :: (value ++ ['"'])
  else '"' :: (value.flatMap quoteChar ++ ['"'])

/-! ### Numbers -/

/-- `valueToString` of an integer. -/
def valueToString (value : ℤ) : List Char :=
  if value < 0 then '-' :: Nat.toDigits 10 value.natAbs else Nat.toDigits 10 value.natAbs

/-- The loop of `decodeNumber`; `none` is the way to `decodeDouble`. -/
def decodeNumberLoop (threshold : ℕ) : List Char → ℕ → Option ℕ
  | [], value => some value
  | c :: cs, value =>
    if threshold ≤ value then none
    else decodeNumberLoop threshold cs (value * 10 + (c.toNat - '0'.toNat))

/-- `decodeNumber`: the integer that a number token is read as; a real number otherwise. -/
def decodeNumber (text : List Char) : Option ℤ :=
  let isNegative := text.head? = some '-'
  let digits := if isNegative then text.tail else text
  if digits.all Char.isDigit then
    (decodeNumberLoop (if isNegative then 0x80000000 / 10 else 0xFFFFFFFF / 10) digits 0).map
      fun value => if isNegative then -value else value
  else none

variable (real : List Char → List Char)

/-- `valueToString` of the number that was read from a text. -/
def numberText (text : List Char) : List Char :=
  match decodeNumber text with
  | some value => valueToString value
  | none => real text

/-! ### Values -/

/-- `getMemberNames` goes through a map: the names are in order. -/
def byName {α : Type} (members : List (List Char × α)) : List (List Char × α) :=
  members.insertionSort fun a b => a.1 ≤ b.1

/-- What `writeValue` pushes for a value with nothing inside. -/
def pushValue : Value → List Char
  | .null => ['n', 'u', 'l', 'l']
  | .bool b => boolText b
  | .number text => numberText real text
  | .string s => valueToQuotedString (cString s)
  | .array _ => ['[', ']']
  | .object _ => ['{', '}']

/-- An array or an object that has something in it. -/
def hasChildren : Value → Bool
  | .array (_ :: _) => true
  | .object (_ :: _) => true
  | _ => false

/-- `isMultineArray`, and the texts that it leaves in `childValues_`. -/
def isMultineArray (elems : List Value) : Bool × List (List Char) :=
  if 74 ≤ elems.length * 3 || elems.any hasChildren then (true, [])
  else
    let childValues_ := elems.map (pushValue real)
    let lineLength := 4 + (elems.length - 1) * 2 + (childValues_.map List.length).sum
    (74 ≤ lineLength, childValues_)

/-- `writeIndent`. -/
def writeIndent (indentString_ : List Char) : List Char := '\n' :: indentString_

/-- The elements of an array, one a line. -/
def writeLines (indentString_ : List Char) (texts : List (List Char)) : List Char :=
  [','].intercalate (texts.map fun text => writeIndent indentString_ ++ text)

/-- The members of an object, one a line. -/
def writeMembers (indentString_ : List Char) (members : List (List Char × List Char)) : List Char :=
  [','].intercalate (members.map fun e => writeIndent indentString_ ++ (valueToQuotedString e.1 ++
    ([' ', ':', ' '] ++ e.2)))

/-- `writeArrayValue`; `texts` is what the elements come to one level deeper. -/
def writeArrayValue (indentString_ : List Char) (elems : List Value) (texts : List (List Char)) :
    List Char :=
  let (isArrayMultiLine, childValues_) := isMultineArray real elems
  if isArrayMultiLine then
    writeIndent indentString_ ++ '[' ::
      (writeLines ('\t' :: indentString_) (if childValues_.isEmpty then texts else childValues_) ++
        (writeIndent indentString_ ++ [']']))
  else ['[', ' '] ++ ([',', ' '].intercalate childValues_ ++ [' ', ']'])

/-- The lines of an object between its braces. -/
def writeObjectValue (indentString_ : List Char) (texts : List (List Char × List Char)) : List Char :=
  writeIndent indentString_ ++ '{' ::
    (writeMembers ('\t' :: indentString_) (byName texts) ++ (writeIndent indentString_ ++ ['}']))

mutual
/-- `writeValue` at an indentation. -/
def writeValue (indentString_ : List Char) : Value → List Char
  | .array elems =>
    if elems.isEmpty then pushValue real (.array [])
    else writeArrayValue real indentString_ elems (elemTexts ('\t' :: indentString_) elems)
  | .object members =>
    if members.isEmpty then pushValue real (.object [])
    else writeObjectValue indentString_ (memberTexts ('\t' :: indentString_) members)
  | .null => pushValue real .null
  | .bool b => pushValue real (.bool b)
  | .number text => pushValue real (.number text)
  | .string s => pushValue real (.string s)
termination_by structural value => value
def elemTexts (indentString_ : List Char) : List Value → List (List Char)
  | [] => []
  | x :: elems => writeValue indentString_ x :: elemTexts indentString_ elems
termination_by structural elems => elems
def memberTexts (indentString_ : List Char) : List (List Char × Value) → List (List Char × List Char)
  | [] => []
  | e :: members => memberText indentString_ e :: memberTexts indentString_ members
termination_by structural members => members
def memberText (indentString_ : List Char) : List Char × Value → List Char × List Char
  | (name, x) => (name, writeValue indentString_ x)
termination_by structural e => e
end

/-- `StyledStreamWriter::write`. -/
def write (root : Value) : List Char := writeValue real [] root ++ ['\n']

/-! ### Quoted strings are read back -/

theorem hexDigit_upperHex : ∀ n < 16, hexDigit (upperHex n) = some n := by decide

theorem upperHex_plain : ∀ n < 16, upperHex n ≠ '"' ∧ upperHex n ≠ '\\' := by decide

theorem charOf_toNat (c : Char) : charOf c.toNat = c := by
  rw [charOf, if_pos (show c.toNat.isValidChar from c.valid), Char.ofNat_toNat]

theorem isControlCharacter_lt {c : Char} (h : isControlCharacter c = true) : c.toNat < 32 := by
  simp only [isControlCharacter, Bool.and_eq_true, decide_eq_true_eq] at h
  omega

/-- A character other than NUL comes back from what is written for it. -/
theorem decodeString_quoteChar (c : Char) (rest : List Char) :
    decodeString (quoteChar c ++ rest) = (decodeString rest).map fun s => c :: s := by
  rw [quoteChar]
  split_ifs with h₁ h₂ h₃ h₄ h₅ h₆ h₇ h₈
  iterate 7 (subst_vars; simp only [List.cons_append, List.nil_append]; rw [decodeString] <;> simp [escape])
  · have hc := isControlCharacter_lt h₈
    have hex : hex4 '0' '0' (upperHex (c.toNat / 16)) (upperHex (c.toNat % 16)) = some c.toNat := by
      have h0 : hexDigit '0' = some 0 := rfl
      rw [hex4, h0, hexDigit_upperHex _ (by omega), hexDigit_upperHex _ (by omega)]
      simp only [Option.bind_eq_bind, Option.bind_some, Option.pure_def, Option.some.injEq]
      omega
    have hlow : ¬ (0xD800 ≤ c.toNat ∧ c.toNat ≤ 0xDBFF) := by omega
    simp only [List.cons_append, List.nil_append, decodeString, hex, if_neg hlow, charOf_toNat]
  · rw [List.singleton_append, decodeString_char h₁ h₂]

/-- The closing quote is not looked for in what is written for a character. -/
theorem readString_quoteChar (c : Char) (cs : List Char) : readString (quoteChar c ++ cs) =
    (readString cs).map fun p => (quoteChar c ++ p.1, p.2) := by
  rw [quoteChar]
  split_ifs with h₁ h₂ h₃ h₄ h₅ h₆ h₇ h₈
  iterate 7 (subst_vars; simp only [List.cons_append, List.nil_append, readString])
  · have hc := isControlCharacter_lt h₈
    have hhigh := upperHex_plain (c.toNat / 16) (by omega)
    have hlow := upperHex_plain (c.toNat % 16) (by omega)
    simp only [List.cons_append, List.nil_append]
    rw [readString, readString_char (by decide) (by decide), readString_char (by decide) (by decide),
      readString_char hhigh.1 hhigh.2, readString_char hlow.1 hlow.2]
    simp only [Option.map_map]
    rfl
  · rw [List.singleton_append, readString_char h₁ h₂]
    rfl

theorem quotes_flatMap : ∀ s : List Char, Quotes s (s.flatMap quoteChar)
  | [] => ⟨by rw [List.flatMap_nil, decodeString], fun rest => readString_quote rest⟩
  | c :: s => by
    obtain ⟨hdecode, hread⟩ := quotes_flatMap s
    refine ⟨?_, fun rest => ?_⟩
    · rw [List.flatMap_cons, decodeString_quoteChar, hdecode]
      rfl
    · rw [List.flatMap_cons, List.append_assoc, readString_quoteChar, hread]
      rfl

/-- The short way writes what the loop writes. -/
theorem valueToQuotedString_eq (value : List Char) :
    valueToQuotedString value = '"' :: (value.flatMap quoteChar ++ ['"']) := by
  rw [valueToQuotedString]
  split
  next h =>
    simp only [Bool.and_eq_true, Bool.not_eq_true', List.any_eq_false] at h
    have hself : value.flatMap quoteChar = value := by
      have hc : ∀ c ∈ value, quoteChar c = [c] := by
        intro c hc
        have hs := h.1 c hc
        have hctl := h.2 c hc
        simp only [special, List.contains_eq_mem, List.mem_cons, decide_eq_true_eq, not_or] at hs
        simp [quoteChar, hs, hctl]
      rw [List.flatMap_congr hc]
      simp
    rw [hself]
  next => rfl

/-! ### Numbers -/

theorem isDigit_toDigits (n : ℕ) : ∀ c ∈ Nat.toDigits 10 n, c.isDigit = true := fun _ hc =>
  Nat.isDigit_of_mem_toDigits (by decide) (by decide) hc

theorem toDigits_ne_minus (n : ℕ) : (Nat.toDigits 10 n).head? ≠ some '-' := by
  intro h
  have hd := isDigit_toDigits n '-' (List.mem_of_mem_head? h)
  revert hd
  decide

theorem isNumberChar_of_isDigit {c : Char} (h : c.isDigit = true) : isNumberChar c = true := by
  simp [isNumberChar, h]

theorem numberToken_valueToString (value : ℤ) : NumberToken (valueToString value) := by
  have hdigits := isDigit_toDigits value.natAbs
  rw [valueToString]
  split
  · refine ⟨⟨'-', _, rfl, .inr rfl, fun d hd => isNumberChar_of_isDigit (hdigits d hd)⟩, ?_⟩
    simp only [numberOk, List.head?_cons, if_true, List.tail_cons, Bool.or_eq_true, List.all_eq_true]
    exact .inl hdigits
  · refine ⟨?_, ?_⟩
    · obtain ⟨c, cs, hcs⟩ := List.exists_cons_of_ne_nil (Nat.toDigits_ne_nil (b := 10) (n := value.natAbs))
      rw [hcs] at hdigits ⊢
      exact ⟨c, cs, rfl, .inl (hdigits c List.mem_cons_self),
        fun d hd => isNumberChar_of_isDigit (hdigits d (List.mem_cons_of_mem c hd))⟩
    · simp only [numberOk, if_neg (toDigits_ne_minus value.natAbs), Bool.or_eq_true, List.all_eq_true]
      exact .inl hdigits

/-! ### What is written is a layout -/

mutual
/-- The value that is meant by what is written: strings end at their first NUL, members are in the
    order of their names, numbers are as they are printed. -/
def canon : Value → Value
  | .null => .null
  | .bool b => .bool b
  | .number text => .number (numberText real text)
  | .string s => .string (cString s)
  | .array elems => .array (canonElems elems)
  | .object members => .object (byName (canonMembers members))
termination_by structural value => value
def canonElems : List Value → List Value
  | [] => []
  | x :: elems => canon x :: canonElems elems
termination_by structural elems => elems
def canonMembers : List (List Char × Value) → List (List Char × Value)
  | [] => []
  | e :: members => canonMember e :: canonMembers members
termination_by structural members => members
def canonMember : List Char × Value → List Char × Value
  | (name, x) => (name, canon x)
termination_by structural e => e
end

/-- The names are those of a map of C strings, and real numbers are printed as number tokens. -/
inductive Writable : Value → Prop
  | null : Writable .null
  | bool (b) : Writable (.bool b)
  | number (text) : (decodeNumber text = none → NumberToken (real text)) → Writable (.number text)
  | string (s) : Writable (.string s)
  | array (elems) : (∀ x ∈ elems, Writable x) → Writable (.array elems)
  | object (members) : Names members → (∀ e ∈ members, Writable e.2) → Writable (.object members)

theorem canonElems_eq : ∀ xs : List Value, canonElems real xs = xs.map (canon real)
  | [] => rfl
  | x :: xs => by rw [canonElems, canonElems_eq xs, List.map_cons]

theorem canonMembers_eq : ∀ ms : List (List Char × Value),
    canonMembers real ms = ms.map fun e => (e.1, canon real e.2)
  | [] => rfl
  | (n, x) :: ms => by rw [canonMembers, canonMembers_eq ms, List.map_cons, canonMember]

theorem elemTexts_eq (ind : List Char) : ∀ xs : List Value,
    elemTexts real ind xs = xs.map (writeValue real ind)
  | [] => rfl
  | x :: xs => by rw [elemTexts, elemTexts_eq ind xs, List.map_cons]

theorem memberTexts_eq (ind : List Char) : ∀ ms : List (List Char × Value),
    memberTexts real ind ms = ms.map fun e => (e.1, writeValue real ind e.2)
  | [] => rfl
  | (n, x) :: ms => by rw [memberTexts, memberTexts_eq ind ms, List.map_cons, memberText]

/-- Sorting by names does not look at the rest. -/
theorem byName_map {α β : Type} (f : α → β) (l : List (List Char × α)) :
    byName (l.map fun e => (e.1, f e.2)) = (byName l).map fun e => (e.1, f e.2) :=
  (List.map_insertionSort (r := fun a b : List Char × α => a.1 ≤ b.1)
    (fun a b : List Char × β => a.1 ≤ b.1) (fun e : List Char × α => (e.1, f e.2)) l
    fun _ _ _ _ => Iff.rfl).symm

theorem mem_byName {α : Type} {l : List (List Char × α)} {e : List Char × α} : e ∈ byName l ↔ e ∈ l :=
  List.mem_insertionSort _

/-! ### Rows of texts -/

theorem Elems.blank {ws text : List Char} {xs : List Value} (hws : Blank ws) (h : Elems xs text) :
    Elems xs (ws ++ text) := by
  rcases h with ⟨hx, hb⟩ | ⟨hx, hb, hmore⟩
  · rw [← List.append_assoc]
    exact .last (.blank hws hx) hb
  · rw [← List.append_assoc]
    exact .cons (.blank hws hx) hb hmore

/-- Texts with commas between them, up to the bracket. -/
theorem elems_intercalate {f : Value → Value} {g : Value → List Char} {ws ws' : List Char}
    (hws : Blank ws) (hws' : Blank ws') : ∀ {xs : List Value}, xs ≠ [] →
    (∀ x ∈ xs, Layout (f x) (g x)) →
    Elems (xs.map f) ((',' :: ws).intercalate (xs.map g) ++ (ws' ++ [']']))
  | [], h, _ => absurd rfl h
  | [x], _, hx => by
    simpa [List.intercalate] using Elems.last (hx x List.mem_cons_self) hws'
  | x :: y :: xs, _, hx => by
    have hmore := elems_intercalate hws hws' (List.cons_ne_nil y xs)
      fun z hz => hx z (List.mem_cons_of_mem x hz)
    have h := Elems.cons (hx x List.mem_cons_self) blank_nil (hmore.blank hws)
    simpa [List.intercalate, List.intersperse] using h

theorem blank_writeIndent {ind : List Char} (h : Blank ind) : Blank (writeIndent ind) := by
  intro c hc
  rcases List.mem_cons.mp hc with rfl | hc
  · rfl
  · exact h c hc

theorem blank_tab {ind : List Char} (h : Blank ind) : Blank ('\t' :: ind) := by
  intro c hc
  rcases List.mem_cons.mp hc with rfl | hc
  · rfl
  · exact h c hc

/-- Members, one a line, up to the brace. -/
theorem members_intercalate {f : Value → Value} {g : Value → List Char} {ind ws : List Char}
    (hind : Blank ind) (hws : Blank ws) : ∀ {ms : List (List Char × Value)}, ms ≠ [] →
    (∀ e ∈ ms, Layout (f e.2) (g e.2)) →
    Members (ms.map fun e => (e.1, f e.2))
      (writeMembers ind (ms.map fun e => (e.1, g e.2)) ++ (ws ++ ['}']))
  | [], h, _ => absurd rfl h
  | [e], _, he => by
    have hsp : Blank [' '] := by simp [Blank, isSpace]
    have h := Members.last (blank_writeIndent hind) (quotes_flatMap e.1) hsp
      (.blank hsp (he e List.mem_cons_self)) hws
    simpa [writeMembers, List.intercalate, valueToQuotedString_eq] using h
  | e :: e' :: ms, _, he => by
    have hsp : Blank [' '] := by simp [Blank, isSpace]
    have hmore := members_intercalate hind hws (List.cons_ne_nil e' ms)
      fun d hd => he d (List.mem_cons_of_mem e hd)
    have h := Members.cons (blank_writeIndent hind) (quotes_flatMap e.1) hsp
      (.blank hsp (he e List.mem_cons_self)) blank_nil hmore
    simpa [writeMembers, List.intercalate, List.intersperse, valueToQuotedString_eq] using h

/-! ### The writer -/

theorem numberToken_numberText {text : List Char}
    (h : decodeNumber text = none → NumberToken (real text)) : NumberToken (numberText real text) := by
  rw [numberText]
  split
  next => exact numberToken_valueToString _
  next hnone => exact h hnone

/-- What is pushed for a value with nothing inside is a layout of it. -/
theorem pushValue_layout {v : Value} (hv : Writable real v) (hleaf : hasChildren v = false) :
    Layout (canon real v) (pushValue real v) := by
  rcases hv with - | b | ⟨text, ht⟩ | s | ⟨elems, -⟩ | ⟨members, -, -⟩
  · exact .null
  · exact .bool b
  · exact .number (numberToken_numberText real ht)
  · rw [pushValue, valueToQuotedString_eq]
    exact .string (quotes_flatMap _)
  · rcases elems with - | ⟨x, xs⟩
    · exact .noElems
    · exact absurd hleaf (by simp [hasChildren])
  · rcases members with - | ⟨e, ms⟩
    · exact .noMembers
    · exact absurd hleaf (by simp [hasChildren])

theorem byName_ne_nil {α : Type} {l : List (List Char × α)} (h : l ≠ []) : byName l ≠ [] := by
  intro hnil
  have hlen := List.length_insertionSort (fun a b : List Char × α => a.1 ≤ b.1) l
  rw [show l.insertionSort (fun a b : List Char × α => a.1 ≤ b.1) = [] from hnil] at hlen
  exact h (List.eq_nil_of_length_eq_zero hlen.symm)

theorem names_canon {ms : List (List Char × Value)} (h : Names ms) :
    Names ((byName ms).map fun e => (e.1, canon real e.2)) := by
  refine ⟨?_, ?_⟩
  · rw [List.map_map]
    exact (((List.perm_insertionSort _ ms).map _).nodup_iff).mpr h.1
  · intro e he
    obtain ⟨d, hd, rfl⟩ := List.mem_map.mp he
    exact h.2 d (mem_byName.mp hd)

/-- An array on one line or on many is a layout of the array. -/
theorem writeArrayValue_layout {ind : List Char} (hind : Blank ind) {xs : List Value} (hne : xs ≠ [])
    (hxs : ∀ x ∈ xs, Writable real x)
    (hdeep : ∀ x ∈ xs, Layout (canon real x) (writeValue real ('\t' :: ind) x)) :
    Layout (.array (xs.map (canon real)))
      (writeArrayValue real ind xs (xs.map (writeValue real ('\t' :: ind)))) := by
  -- one element a line, whatever the texts are
  have hlines : ∀ g : Value → List Char, (∀ x ∈ xs, Layout (canon real x) (g x)) →
      Layout (.array (xs.map (canon real))) (writeIndent ind ++ '[' ::
        (writeLines ('\t' :: ind) (xs.map g) ++ (writeIndent ind ++ [']']))) := by
    intro g hg
    have hrow : writeLines ('\t' :: ind) (xs.map g) =
        (',' :: []).intercalate (xs.map fun x => writeIndent ('\t' :: ind) ++ g x) := by
      rw [writeLines, List.map_map]
      rfl
    rw [hrow]
    exact .blank (blank_writeIndent hind) (.elems (elems_intercalate blank_nil (blank_writeIndent hind)
      hne fun x hx => .blank (blank_writeIndent (blank_tab hind)) (hg x hx)))
  rw [writeArrayValue, isMultineArray]
  rcases hlong : (decide (74 ≤ xs.length * 3) || xs.any hasChildren) with - | -
  · -- nothing inside has children: the texts are those that were pushed
    simp only [Bool.or_eq_false_iff, List.any_eq_false, Bool.not_eq_true] at hlong
    have hpush : ∀ x ∈ xs, Layout (canon real x) (pushValue real x) := fun x hx =>
      pushValue_layout real (hxs x hx) (hlong.2 x hx)
    have hsome : (xs.map (pushValue real)).isEmpty = false := by simpa using hne
    simp only [Bool.false_eq_true, if_false, hsome]
    split
    next => exact hlines _ hpush
    next =>
      have hsp : Blank [' '] := by simp [Blank, isSpace]
      exact .elems ((elems_intercalate hsp hsp hne hpush).blank hsp)
  · exact hlines _ hdeep

/-- `writeValue` writes a layout of the value. -/
theorem writeValue_layout {v : Value} (hv : Writable real v) : ∀ {ind : List Char}, Blank ind →
    Layout (canon real v) (writeValue real ind v) := by
  induction hv with
  | null => exact fun _ => .null
  | bool b => exact fun _ => .bool b
  | number text ht => exact fun _ => pushValue_layout real (.number text ht) rfl
  | string s => exact fun _ => pushValue_layout real (.string s) rfl
  | array xs hxs ih =>
    intro ind hind
    rw [canon, canonElems_eq, writeValue, elemTexts_eq]
    split
    next hnil =>
      obtain rfl := List.isEmpty_iff.mp hnil
      exact .noElems
    next hne =>
      exact writeArrayValue_layout real hind (by simpa using hne) hxs fun x hx => ih x hx (blank_tab hind)
  | object ms hnames hms ih =>
    intro ind hind
    rw [canon, canonMembers_eq, byName_map, writeValue, memberTexts_eq]
    split
    next hnil =>
      obtain rfl := List.isEmpty_iff.mp hnil
      exact .noMembers
    next hne =>
      rw [writeObjectValue, byName_map]
      exact .blank (blank_writeIndent hind) (.members (names_canon real hnames)
        (members_intercalate (blank_tab hind) (blank_writeIndent hind)
          (byName_ne_nil (by simpa using hne)) fun e he => ih e (mem_byName.mp he) (blank_tab hind)))

/-! ### Integers are read back -/

theorem decodeNumberLoop_append (threshold : ℕ) (c : Char) : ∀ (cs : List Char) (value : ℕ),
    decodeNumberLoop threshold (cs ++ [c]) value = (decodeNumberLoop threshold cs value).bind fun w =>
      if threshold ≤ w then none else some (w * 10 + (c.toNat - '0'.toNat))
  | [], value => rfl
  | d :: cs, value => by
    rw [List.cons_append, decodeNumberLoop, decodeNumberLoop]
    split
    next => rfl
    next => exact decodeNumberLoop_append threshold c cs _

theorem digitChar_toNat : ∀ d < 10, (Nat.digitChar d).toNat - '0'.toNat = d := by decide

/-- The digits of a number are gone through as long as what stands before the last one is small. -/
theorem decodeNumberLoop_toDigits {threshold : ℕ} (ht : 0 < threshold) (n : ℕ) :
    decodeNumberLoop threshold (Nat.toDigits 10 n) 0 = if n / 10 < threshold then some n else none := by
  induction n using Nat.strongRecOn with
  | ind n ih =>
    rcases Nat.lt_or_ge n 10 with hn | hn
    · rw [Nat.toDigits_of_lt_base hn, decodeNumberLoop, if_neg (by omega), decodeNumberLoop,
        digitChar_toNat n hn, if_pos (by omega)]
      simp
    · rw [Nat.toDigits_of_base_le (by decide) hn, decodeNumberLoop_append, ih (n / 10) (by omega),
        digitChar_toNat _ (Nat.mod_lt n (by decide))]
      by_cases hprefix : n / 10 < threshold
      · rw [if_pos (by omega), if_pos hprefix, Option.bind_some, if_neg (by omega)]
        congr 1
        omega
      · rw [if_neg hprefix]
        split_ifs with h
        · rw [Option.bind_some, if_pos (by omega)]
        · rfl

/-- An integer is read back as an integer unless it is next to the limits of the type: there the reader
    turns to `decodeDouble` ten numbers too early. -/
theorem decodeNumber_valueToString (value : ℤ) : decodeNumber (valueToString value) =
    if -2147483640 < value ∧ value < 4294967290 then some value else none := by
  have hdigits : (Nat.toDigits 10 value.natAbs).all Char.isDigit = true :=
    List.all_eq_true.mpr (isDigit_toDigits value.natAbs)
  rw [decodeNumber, valueToString]
  by_cases hneg : value < 0
  · simp only [if_pos hneg, List.head?_cons, if_true, List.tail_cons, hdigits]
    rw [decodeNumberLoop_toDigits (by decide)]
    by_cases hv : -2147483640 < value
    · rw [if_pos (by omega), if_pos ⟨hv, by omega⟩]
      have hself : -(value.natAbs : ℤ) = value := by omega
      exact congrArg some hself
    · rw [if_neg (by omega), if_neg fun h => hv h.1]
      rfl
  · simp only [if_neg hneg, toDigits_ne_minus value.natAbs, if_false, hdigits, if_true]
    rw [decodeNumberLoop_toDigits (by decide)]
    by_cases hv : value < 4294967290
    · rw [if_pos (by omega), if_pos ⟨by omega, hv⟩]
      have hself : (value.natAbs : ℤ) = value := by omega
      exact congrArg some hself
    · rw [if_neg (by omega), if_neg fun h => hv h.2]
      rfl

/-! ### Round trip -/

/-- The values that are what they are written as. -/
inductive Normal : Value → Prop
  | null : Normal .null
  | bool (b) : Normal (.bool b)
  | number (n : ℤ) : -2147483640 < n → n < 4294967290 → Normal (.number (valueToString n))
  | string (s) : cString s = s → Normal (.string s)
  | array (elems) : (∀ x ∈ elems, Normal x) → Normal (.array elems)
  | object (members) : members.Pairwise (fun a b => a.1 < b.1) → (∀ e ∈ members, cString e.1 = e.1) →
      (∀ e ∈ members, Normal e.2) → Normal (.object members)

theorem Normal.canon_eq {v : Value} (hv : Normal v) : canon real v = v := by
  induction hv with
  | null => rfl
  | bool b => rfl
  | number n hlow hhigh => rw [canon, numberText, decodeNumber_valueToString, if_pos ⟨hlow, hhigh⟩]
  | string s hs => rw [canon, hs]
  | array elems _ ih => rw [canon, canonElems_eq, List.map_congr_left ih, List.map_id']
  | object members hsorted hnames _ ih =>
    have hself : (members.map fun e => (e.1, canon real e.2)) = members := by
      rw [List.map_congr_left (g := id) fun e he => by rw [ih e he]; rfl, List.map_id]
    rw [canon, canonMembers_eq, hself, byName]
    refine congrArg _ (List.Pairwise.insertionSort_eq (hsorted.imp fun h => ?_))
    exact le_of_lt h

theorem Normal.writable {v : Value} (hv : Normal v) : Writable real v := by
  induction hv with
  | null => exact .null
  | bool b => exact .bool b
  | number n hlow hhigh =>
    refine .number _ fun hnone => ?_
    rw [decodeNumber_valueToString, if_pos ⟨hlow, hhigh⟩] at hnone
    exact absurd hnone (by simp)
  | string s _ => exact .string s
  | array elems _ ih => exact .array elems ih
  | object members hsorted hnames _ ih =>
    refine .object members ⟨?_, hnames⟩ ih
    rw [List.Nodup, List.pairwise_map]
    exact hsorted.imp fun h => ne_of_lt h

/-- What `parse` returns: whether the text was read without an error. -/
def parseOk (text : List Char) : Bool := (readValue (2 * text.length + 2) .null text).2.1

theorem readValue_write {v : Value} (hv : Writable real v) :
    readValue (2 * (write real v).length + 2) .null (write real v) = (canon real v, true, ['\n']) := by
  have hstop : Stops ['\n'] := by simp [Stops, isNumberChar, Char.isDigit]
  exact (writeValue_layout real hv blank_nil).read [] ['\n'] _ .null blank_nil hstop
    (by simp [write]; omega)

/-- What is written is read back without an error: it is the value up to NULs in strings, the order of
    the members and the form of the numbers, and the very value where these are normal. -/
theorem parse_write {v : Value} (hv : Writable real v) :
    parseOk (write real v) = true ∧ parse (write real v) = canon real v ∧
      (Normal v → parse (write real v) = v) := by
  have hparse : parse (write real v) = canon real v :=
    (writeValue_layout real hv blank_nil).parse_eq (by simp [Blank, isSpace])
  refine ⟨by rw [parseOk, readValue_write real hv], hparse, fun hnormal => ?_⟩
  rw [hparse, hnormal.canon_eq]

/-- Of the integers, those next to the limits of the type are not read back as they were written. -/
theorem decodeNumber_readsBack (value : ℤ) : decodeNumber (valueToString value) = some value ↔
    -2147483640 < value ∧ value < 4294967290 := by
  rw [decodeNumber_valueToString]
  constructor
  · intro h
    by_contra hout
    rw [if_neg hout] at h
    cases h
  · exact fun hin => if_pos hin

/-- An object with its members out of order, a quote in a string and a real number. -/
def mixed : Value :=
  .object [(['b'], .array [.string ['x', '"'], .null]), (['a'], .number ['1', '.', '5', '0'])]

theorem parse_write_mixed : parse (write (fun _ => ['1', '.', '5']) mixed) =
    .object [(['a'], .number ['1', '.', '5']), (['b'], .array [.string ['x', '"'], .null])] := by
  have hv : Writable (fun _ => ['1', '.', '5']) mixed := by
    refine .object _ ⟨by decide, by decide⟩ fun e he => ?_
    rcases List.mem_cons.mp he with rfl | he
    · refine .array _ fun x hx => ?_
      rcases List.mem_cons.mp hx with rfl | hx
      · exact .string _
      · obtain rfl := List.mem_singleton.mp hx
        exact .null
    · obtain rfl := List.mem_singleton.mp he
      have htail : ∀ d ∈ ['.', '5'], isNumberChar d = true := by simp [isNumberChar]
      exact .number _ fun _ => ⟨⟨'1', ['.', '5'], rfl, .inl rfl, htail⟩, rfl⟩
  exact (parse_write (fun _ => ['1', '.', '5']) hv).2.1

end UrlTraveler.Json
