import UrlTraveler.Schemes.Maps

/-! `Json::Reader`, as far as one value in a text goes.

    The text is the list of its characters; every character the reader looks at is ASCII, so that
    UTF-8 bytes and characters come to the same. After the first error no further value is read:
    what `recoverFromError` skips does not matter, and the value keeps what was read before.

        readToken      the next token, blanks skipped
        readValue      one value; the old value stays where nothing is assigned
        readObject     members up to `}`; a name that comes again is assigned again
        readArray      elements up to `]`; whatever follows an element separates it

    Numbers are kept as their text and comments are dropped. -/

namespace UrlTraveler.Json
open Maps

/-- `Json::Value`; an object is the list of its members. -/
inductive Value where
  | null
  | bool (b : Bool)
  | number (text : List Char)
  | string (s : List Char)
  | array (elems : List Value)
  | object (members : List (List Char × Value))

/-- `value[name] = x` on the members of an object. -/
def assign (members : List (List Char × Value)) (name : List Char) (x : Value) :
    List (List Char × Value) :=
  if (members.lookup name).isSome then members.map fun e => if e.1 = name then (name, x) else e
  else members ++ [(name, x)]

/-! ### Tokens -/

inductive Token where
  | objectBegin
  | objectEnd
  | arrayBegin
  | arrayEnd
  | string (raw : List Char)
  | number (text : List Char)
  | true
  | false
  | null
  | arraySeparator
  | memberSeparator
  | comment
  | endOfStream
  | error

def isSpace (c : Char) : Bool := c = ' ' || c = '\t' || c = '\r' || c = '\n'

def skipSpaces (text : List Char) : List Char := text.dropWhile isSpace

/-- `readString` after the opening quote: the text up to the closing quote, and the rest. -/
def readString : List Char → Option (List Char × List Char)
  | [] => none
  | '"' :: cs => some ([], cs)
  | '\\' :: c :: cs => (readString cs).map fun p => ('\\' :: c :: p.1, p.2)
  | c :: cs => (readString cs).map fun p => (c :: p.1, p.2)

def readCStyleComment : List Char → Option (List Char)
  | [] => none
  | '*' :: '/' :: cs => some cs
  | _ :: cs => readCStyleComment cs

def readCppStyleComment : List Char → List Char
  | [] => []
  | c :: cs => if c = '\r' || c = '\n' then cs else readCppStyleComment cs

def isNumberChar (c : Char) : Bool :=
  c.isDigit || c = '.' || c = 'e' || c = 'E' || c = '+' || c = '-'

/-- `match(pattern)` after the first letter of a word. -/
def readWord (word : List Char) (token : Token) (cs : List Char) : Token × List Char :=
  if word.isPrefixOf cs then (token, cs.drop word.length) else (.error, cs)

def readToken (text : List Char) : Token × List Char :=
  match skipSpaces text with
  | [] => (.endOfStream, [])
  | '{' :: cs => (.objectBegin, cs)
  | '}' :: cs => (.objectEnd, cs)
  | '[' :: cs => (.arrayBegin, cs)
  | ']' :: cs => (.arrayEnd, cs)
  | ',' :: cs => (.arraySeparator, cs)
  | ':' :: cs => (.memberSeparator, cs)
  | '"' :: cs => match readString cs with
    | some p => (.string p.1, p.2)
    | none => (.error, [])
  | '/' :: '*' :: cs => match readCStyleComment cs with
    | some rest => (.comment, rest)
    | none => (.error, [])
  | '/' :: '/' :: cs => (.comment, readCppStyleComment cs)
  | 't' :: cs => readWord ['r', 'u', 'e'] .true cs
  | 'f' :: cs => readWord ['a', 'l', 's', 'e'] .false cs
  | 'n' :: cs => readWord ['u', 'l', 'l'] .null cs
  | c :: cs =>
    if c.isDigit || c = '-' then (.number (c :: cs.takeWhile isNumberChar), cs.dropWhile isNumberChar)
    else if c = '\x00' then (.endOfStream, cs)
    else (.error, cs)

/-- `skipCommentTokens`: the next token that is no comment. -/
def skipComments : ℕ → List Char → Token × List Char
  | 0, text => (.error, text)
  | fuel + 1, text => match readToken text with
    | (.comment, rest) => skipComments fuel rest
    | t => t

/-- A comment has at least two characters, so the length of the text is fuel enough. -/
def nextToken (text : List Char) : Token × List Char := skipComments (text.length + 1) text

/-! ### Strings and numbers -/

def escape : Char → Option Char
  | '"' => some '"'
  | '/' => some '/'
  | '\\' => some '\\'
  | 'b' => some '\x08'
  | 'f' => some '\x0c'
  | 'n' => some '\n'
  | 'r' => some '\r'
  | 't' => some '\t'
  | _ => none

def hexDigit (c : Char) : Option ℕ :=
  if '0' ≤ c ∧ c ≤ '9' then some (c.toNat - '0'.toNat)
  else if 'a' ≤ c ∧ c ≤ 'f' then some (c.toNat - 'a'.toNat + 10)
  else if 'A' ≤ c ∧ c ≤ 'F' then some (c.toNat - 'A'.toNat + 10)
  else none

/-- `decodeUnicodeEscapeSequence`: four hexadecimal digits. -/
def hex4 (a b c d : Char) : Option ℕ := do
  let a ← hexDigit a
  let b ← hexDigit b
  let c ← hexDigit c
  let d ← hexDigit d
  return ((a * 16 + b) * 16 + c) * 16 + d

/-- `codePointToUTF8`; a lone surrogate is no character and reads back as U+FFFD. -/
def charOf (unicode : ℕ) : Char :=
  if unicode.isValidChar then Char.ofNat unicode else '\uFFFD'

/-- `decodeString` on the text between the quotes. -/
def decodeString : List Char → Option (List Char)
  | [] => some []
  | '\\' :: 'u' :: a :: b :: c :: d :: rest => match hex4 a b c d with
    | none => none
    | some unicode =>
      if 0xD800 ≤ unicode ∧ unicode ≤ 0xDBFF then
        match rest with
        | '\\' :: 'u' :: e :: f :: g :: h :: rest => (hex4 e f g h).bind fun surrogatePair =>
          (decodeString rest).map fun s =>
            charOf (0x10000 + unicode % 0x400 * 0x400 + surrogatePair % 0x400) :: s
        | _ => none
      else (decodeString rest).map fun s => charOf unicode :: s
  | '\\' :: c :: rest => (escape c).bind fun e => (decodeString rest).map fun s => e :: s
  | '\\' :: [] => none
  | '"' :: _ => some []
  | c :: rest => (decodeString rest).map fun s => c :: s

/-- Names and strings are read back as C strings: up to the first NUL. -/
def cString (s : List Char) : List Char := s.takeWhile (· ≠ '\x00')

/-- `decodeNumber`: a token that is no plain integer must start like a floating-point number. -/
def numberOk (text : List Char) : Bool :=
  let digits := if text.head? = some '-' then text.tail else text
  digits.all Char.isDigit || match digits with
    | '.' :: c :: _ => c.isDigit
    | c :: _ => c.isDigit
    | [] => true

/-! ### Values -/

mutual
/-- `readValue`: the value, whether it was read without error, and the rest of the text. -/
def readValue : ℕ → Value → List Char → Value × Bool × List Char
  | 0, old, text => (old, false, text)
  | fuel + 1, old, text => match nextToken text with
    | (.objectBegin, rest) => readObject fuel [] [] rest
    | (.arrayBegin, rest) =>
      match skipSpaces rest with
      | ']' :: rest => (.array [], true, rest)
      | _ => readArray fuel [] rest
    | (.number t, rest) => if numberOk t then (.number t, true, rest) else (old, false, rest)
    | (.string raw, rest) => match decodeString raw with
      | some s => (.string s, true, rest)
      | none => (old, false, rest)
    | (.true, rest) => (.bool true, true, rest)
    | (.false, rest) => (.bool false, true, rest)
    | (.null, rest) => (.null, true, rest)
    | (_, rest) => (old, false, rest)

/-- The loop of `readObject`; `name` is the last name that was read. -/
def readObject : ℕ → List Char → List (List Char × Value) → List Char → Value × Bool × List Char
  | 0, _, members, text => (.object members, false, text)
  | fuel + 1, name, members, text => match nextToken text with
    | (.objectEnd, rest) => (.object members, name = [], rest)
    | (.string raw, rest) => match decodeString raw with
      | none => (.object members, false, rest)
      | some name => match readToken rest with
        | (.memberSeparator, rest) =>
          match readValue fuel ((members.lookup (cString name)).getD .null) rest with
          | (x, false, rest) => (.object (assign members (cString name) x), false, rest)
          | (x, true, rest) => match readToken rest with
            | (.objectEnd, rest) => (.object (assign members (cString name) x), true, rest)
            | (.arraySeparator, rest) => readObject fuel name (assign members (cString name) x) rest
            | (.comment, rest) => match nextToken rest with
              | (.objectEnd, rest) => (.object (assign members (cString name) x), true, rest)
              | (_, rest) => readObject fuel name (assign members (cString name) x) rest
            | (_, rest) => (.object (assign members (cString name) x), false, rest)
        | (_, rest) => (.object members, false, rest)
    | (_, rest) => (.object members, false, rest)

/-- The loop of `readArray`. -/
def readArray : ℕ → List Value → List Char → Value × Bool × List Char
  | 0, elems, text => (.array elems, false, text)
  | fuel + 1, elems, text => match readValue fuel .null text with
    | (x, false, rest) => (.array (elems ++ [x]), false, rest)
    | (x, true, rest) => match nextToken rest with
      | (.arrayEnd, rest) => (.array (elems ++ [x]), true, rest)
      | (_, rest) => readArray fuel (elems ++ [x]) rest
end

/-- `parse`: the value that is left, with or without an error. Every call of the three functions
    comes after a token was read, or reads one. -/
def parse (text : List Char) : Value := (readValue (2 * text.length + 2) .null text).1

/-! ### Reading values -/

/-- `value[key]`; a value that is neither null nor an object is an assertion failure. -/
def member : Value → List Char → Option Value
  | .null, _ => some .null
  | .object members, key => some ((members.lookup key).getD .null)
  | _, _ => none

/-- `asString`. -/
def asString : Value → Option (List Char)
  | .null => some []
  | .string s => some (cString s)
  | .bool true => some ['t', 'r', 'u', 'e']
  | .bool false => some ['f', 'a', 'l', 's', 'e']
  | _ => none

/-- `value[key].asString()`. -/
def field (value : Value) (key : List Char) : Option (List Char) := (member value key).bind asString

/-- `empty`. -/
def isEmpty : Value → Bool
  | .null => true
  | .array elems => elems.isEmpty
  | .object members => members.isEmpty
  | _ => false

/-! ### Plain strings are read as they stand -/

/-- Nothing in the string ends it, starts an escape, or ends a C string. -/
def Plain (s : List Char) : Prop := ∀ c ∈ s, c ≠ '"' ∧ c ≠ '\\' ∧ c ≠ '\x00'

instance (s : List Char) : Decidable (Plain s) := List.decidableBAll _ s

theorem Plain.cons {c : Char} {s : List Char} (h : Plain (c :: s)) :
    (c ≠ '"' ∧ c ≠ '\\' ∧ c ≠ '\x00') ∧ Plain s :=
  ⟨h c List.mem_cons_self, fun d hd => h d (List.mem_cons_of_mem _ hd)⟩

theorem readString_quote (rest : List Char) : readString ('"' :: rest) = some ([], rest) := by
  rw [readString]

theorem readString_char {c : Char} (h₁ : c ≠ '"') (h₂ : c ≠ '\\') (cs : List Char) :
    readString (c :: cs) = (readString cs).map fun p => (c :: p.1, p.2) := by
  rw [readString]
  all_goals simp_all

theorem readString_plain : ∀ {s : List Char}, Plain s → ∀ rest,
    readString (s ++ '"' :: rest) = some (s, rest)
  | [], _, rest => readString_quote rest
  | c :: s, h, rest => by
    rw [List.cons_append, readString_char h.cons.1.1 h.cons.1.2.1, readString_plain h.cons.2]
    rfl

theorem decodeString_char {c : Char} (h₁ : c ≠ '"') (h₂ : c ≠ '\\') (cs : List Char) :
    decodeString (c :: cs) = (decodeString cs).map fun s => c :: s := by
  rw [decodeString]
  all_goals simp_all

theorem decodeString_plain : ∀ {s : List Char}, Plain s → decodeString s = some s
  | [], _ => by rw [decodeString]
  | c :: s, h => by
    rw [decodeString_char h.cons.1.1 h.cons.1.2.1, decodeString_plain h.cons.2]
    rfl

theorem cString_plain {s : List Char} (h : Plain s) : cString s = s :=
  List.takeWhile_eq_self_iff.mpr fun c hc => by simpa using (h c hc).2.2

/-- Blanks before a token are skipped. -/
def Blank (ws : List Char) : Prop := ∀ c ∈ ws, isSpace c = true

instance (ws : List Char) : Decidable (Blank ws) := List.decidableBAll _ ws

theorem skipSpaces_blank {ws : List Char} (h : Blank ws) (text : List Char) :
    skipSpaces (ws ++ text) = skipSpaces text := by
  rw [skipSpaces, List.dropWhile_append_of_pos h]
  rfl

theorem readToken_blank {ws : List Char} (h : Blank ws) (text : List Char) :
    readToken (ws ++ text) = readToken text := by
  rw [readToken, skipSpaces_blank h, ← readToken]

theorem readToken_string {s : List Char} (h : Plain s) (rest : List Char) :
    readToken ('"' :: (s ++ '"' :: rest)) = (.string s, rest) := by
  have hskip : skipSpaces ('"' :: (s ++ '"' :: rest)) = '"' :: (s ++ '"' :: rest) := rfl
  simp only [readToken, hskip, readString_plain h]

/-- A token that is no comment is the next one. -/
theorem nextToken_eq {text rest : List Char} {t : Token} (h : readToken text = (t, rest))
    (ht : t ≠ .comment) : nextToken text = (t, rest) := by
  rw [nextToken, skipComments, h]
  cases t <;> simp_all

/-! ### Objects made of plain members -/

/-- `"name": "value"` after blanks. -/
def fieldText (ws : List Char) (f : List Char × List Char) : List Char :=
  ws ++ '"' :: (f.1 ++ '"' :: ':' :: ' ' :: '"' :: (f.2 ++ ['"']))

/-- Fields separated by commas. -/
def fieldsText (ws : List Char) : List (List Char × List Char) → List Char
  | [] => []
  | [f] => fieldText ws f
  | f :: fs => fieldText ws f ++ ',' :: fieldsText ws fs

/-- One member; what follows decides how it goes on. -/
theorem readObject_field {ws : List Char} (hws : Blank ws) {f : List Char × List Char}
    (h₁ : Plain f.1) (h₂ : Plain f.2) (fuel : ℕ) (name : List Char) (members : List (List Char × Value))
    (rest : List Char) : readObject (fuel + 2) name members (fieldText ws f ++ rest) =
      match readToken rest with
      | (.objectEnd, rest) => (.object (assign members f.1 (.string f.2)), true, rest)
      | (.arraySeparator, rest) =>
        readObject (fuel + 1) f.1 (assign members f.1 (.string f.2)) rest
      | (.comment, rest) => match nextToken rest with
        | (.objectEnd, rest) => (.object (assign members f.1 (.string f.2)), true, rest)
        | (_, rest) => readObject (fuel + 1) f.1 (assign members f.1 (.string f.2)) rest
      | (_, rest) => (.object (assign members f.1 (.string f.2)), false, rest) := by
  have hname : nextToken (fieldText ws f ++ rest) =
      (.string f.1, ':' :: ' ' :: '"' :: (f.2 ++ '"' :: rest)) := by
    refine nextToken_eq ?_ (by simp)
    rw [fieldText, List.append_assoc, readToken_blank hws]
    simpa using readToken_string h₁ (':' :: ' ' :: '"' :: (f.2 ++ '"' :: rest))
  have hcolon : readToken (':' :: ' ' :: '"' :: (f.2 ++ '"' :: rest)) =
      (.memberSeparator, ' ' :: '"' :: (f.2 ++ '"' :: rest)) := rfl
  have hvalue : ∀ old, readValue (fuel + 1) old (' ' :: '"' :: (f.2 ++ '"' :: rest)) =
      (.string f.2, true, rest) := by
    intro old
    have htok : nextToken (' ' :: '"' :: (f.2 ++ '"' :: rest)) = (.string f.2, rest) := by
      refine nextToken_eq ?_ (by simp)
      rw [← readToken_string h₂ rest]
      have hblank : Blank [' '] := by simp [Blank, isSpace]
      exact readToken_blank hblank _
    rw [readValue, htok]
    simp only [decodeString_plain h₂]
  rw [readObject, hname]
  simp only [decodeString_plain h₁, hcolon, hvalue, cString_plain h₁]

/-- Plain fields up to the closing brace. -/
theorem readObject_fields {ws cws : List Char} (hws : Blank ws) (hcws : Blank cws) :
    ∀ (fs : List (List Char × List Char)) (fuel : ℕ) (name : List Char)
      (members : List (List Char × Value)) (rest : List Char), fs ≠ [] →
    (∀ f ∈ fs, Plain f.1 ∧ Plain f.2) → fs.length < fuel →
    readObject fuel name members (fieldsText ws fs ++ (cws ++ '}' :: rest)) =
      (.object (fs.foldl (fun m f => assign m f.1 (.string f.2)) members), true, rest)
  | [], _, _, _, _, h, _, _ => absurd rfl h
  | [f], fuel, name, members, rest, _, hp, hfuel => by
    obtain ⟨k, rfl⟩ : ∃ k, fuel = k + 2 := ⟨fuel - 2, by simp at hfuel; omega⟩
    have hf := hp f List.mem_cons_self
    have hend : readToken (cws ++ '}' :: rest) = (.objectEnd, rest) := by
      rw [readToken_blank hcws]
      rfl
    rw [fieldsText, readObject_field hws hf.1 hf.2, hend]
    rfl
  | f :: g :: fs, fuel, name, members, rest, _, hp, hfuel => by
    obtain ⟨k, rfl⟩ : ∃ k, fuel = k + 2 := ⟨fuel - 2, by simp at hfuel; omega⟩
    have hf := hp f List.mem_cons_self
    rw [fieldsText, List.append_assoc, readObject_field hws hf.1 hf.2]
    · have hcomma : readToken ((',' :: fieldsText ws (g :: fs)) ++ (cws ++ '}' :: rest)) =
          (.arraySeparator, fieldsText ws (g :: fs) ++ (cws ++ '}' :: rest)) := rfl
      simp only [hcomma]
      exact readObject_fields hws hcws (g :: fs) (k + 1) f.1 _ rest (by simp)
        (fun x hx => hp x (List.mem_cons_of_mem _ hx)) (by simp at hfuel ⊢; omega)
    · simp

/-- Assigning new names puts the members at the end. -/
theorem foldl_assign_new : ∀ (fs : List (List Char × List Char)) (members : List (List Char × Value)),
    (members.map (·.1) ++ fs.map (·.1)).Nodup →
    fs.foldl (fun m f => assign m f.1 (.string f.2)) members =
      members ++ fs.map fun f => (f.1, .string f.2)
  | [], members, _ => by simp
  | f :: fs, members, h => by
    have hnew : members.lookup f.1 = none := by
      rw [← Option.not_isSome_iff_eq_none, ← mem_keys]
      intro hmem
      exact (List.disjoint_of_nodup_append h) hmem (by simp)
    rw [List.foldl_cons, assign, hnew, foldl_assign_new fs]
    · simp
    · simpa using h

end UrlTraveler.Json
