import UrlTraveler.Json.Reader

/-! Texts that stand for a value, whatever blanks are between their tokens.

        Layout v text        a text of the value, from its first blank to its last token
        Elems xs text        elements with commas, up to the closing bracket
        Members ms text      members with commas, up to the closing brace

    The reader reads a layout back as the value it stands for, and stops behind it. -/

namespace UrlTraveler.Json
open Maps

/-! ### Pieces of a layout -/

/-- A text that is one number token, and is accepted as one. -/
def NumberToken (t : List Char) : Prop :=
  (∃ c cs, t = c :: cs ∧ (c.isDigit = true ∨ c = '-') ∧ ∀ d ∈ cs, isNumberChar d = true) ∧
    numberOk t = true

/-- What stands between the quotes of the string `s`. -/
def Quotes (s raw : List Char) : Prop :=
  decodeString raw = some s ∧ ∀ rest, readString (raw ++ '"' :: rest) = some (raw, rest)

/-- `valueToString` of a truth value. -/
def boolText (value : Bool) : List Char :=
  if value then ['t', 'r', 'u', 'e'] else ['f', 'a', 'l', 's', 'e']

/-- The names of an object are distinct, and C strings. -/
def Names (ms : List (List Char × Value)) : Prop :=
  (ms.map (·.1)).Nodup ∧ ∀ e ∈ ms, cString e.1 = e.1

mutual
/-- The texts of a value. -/
inductive Layout : Value → List Char → Prop
  | blank {ws v text} : Blank ws → Layout v text → Layout v (ws ++ text)
  | null : Layout .null ['n', 'u', 'l', 'l']
  | bool (b) : Layout (.bool b) (boolText b)
  | number {t} : NumberToken t → Layout (.number t) t
  | string {s raw} : Quotes s raw → Layout (.string s) ('"' :: (raw ++ ['"']))
  | noElems : Layout (.array []) ['[', ']']
  | elems {xs text} : Elems xs text → Layout (.array xs) ('[' :: text)
  | noMembers : Layout (.object []) ['{', '}']
  | members {ms text} : Names ms → Members ms text → Layout (.object ms) ('{' :: text)
inductive Elems : List Value → List Char → Prop
  | last {x text ws} : Layout x text → Blank ws → Elems [x] (text ++ (ws ++ [']']))
  | cons {x text ws xs more} : Layout x text → Blank ws → Elems xs more →
      Elems (x :: xs) (text ++ (ws ++ ',' :: more))
inductive Members : List (List Char × Value) → List Char → Prop
  | last {n raw x text ws₁ ws₂ ws₃} : Blank ws₁ → Quotes n raw → Blank ws₂ → Layout x text → Blank ws₃ →
      Members [(n, x)] (ws₁ ++ ('"' :: (raw ++ '"' :: (ws₂ ++ ':' :: (text ++ (ws₃ ++ ['}']))))))
  | cons {n raw x text ws₁ ws₂ ws₃ ms more} : Blank ws₁ → Quotes n raw → Blank ws₂ → Layout x text →
      Blank ws₃ → Members ms more →
      Members ((n, x) :: ms)
        (ws₁ ++ ('"' :: (raw ++ '"' :: (ws₂ ++ ':' :: (text ++ (ws₃ ++ ',' :: more))))))
end

/-! ### Tokens -/

theorem Blank.append {ws ws' : List Char} (h : Blank ws) (h' : Blank ws') : Blank (ws ++ ws') := by
  intro c hc
  rcases List.mem_append.mp hc with hc | hc
  · exact h c hc
  · exact h' c hc

theorem blank_nil : Blank [] := by simp [Blank]

/-- What may follow a number. -/
def Stops (rest : List Char) : Prop := ∀ c ∈ rest.head?, isNumberChar c = false

theorem stops_blank_append {ws rest : List Char} (hws : Blank ws) (hrest : Stops rest) :
    Stops (ws ++ rest) := by
  rcases ws with - | ⟨c, ws⟩
  · exact hrest
  · intro d hd
    obtain rfl : c = d := by simpa using hd
    have hc := hws c List.mem_cons_self
    simp only [isSpace, Bool.or_eq_true, decide_eq_true_eq] at hc
    rcases hc with ((rfl | rfl) | rfl) | rfl <;> decide

theorem stops_nil : Stops [] := by simp [Stops]
theorem stops_comma (rest : List Char) : Stops (',' :: rest) := by simp [Stops]; decide
theorem stops_bracket (rest : List Char) : Stops (']' :: rest) := by simp [Stops]; decide
theorem stops_brace (rest : List Char) : Stops ('}' :: rest) := by simp [Stops]; decide

/-- The token behind some blanks. -/
theorem nextToken_blank {ws text rest : List Char} (hws : Blank ws) {t : Token}
    (h : readToken text = (t, rest)) (ht : t ≠ .comment) : nextToken (ws ++ text) = (t, rest) :=
  nextToken_eq ((readToken_blank hws text).trans h) ht

theorem readToken_quotes {s raw : List Char} (h : Quotes s raw) (rest : List Char) :
    readToken ('"' :: (raw ++ '"' :: rest)) = (.string raw, rest) := by
  have hskip : skipSpaces ('"' :: (raw ++ '"' :: rest)) = '"' :: (raw ++ '"' :: rest) := rfl
  simp only [readToken, hskip, h.2]

theorem digit_cases {c : Char} (h : c.isDigit = true) :
    c = '0' ∨ c = '1' ∨ c = '2' ∨ c = '3' ∨ c = '4' ∨ c = '5' ∨ c = '6' ∨ c = '7' ∨ c = '8' ∨ c = '9' := by
  have hv : 48 ≤ c.toNat ∧ c.toNat ≤ 57 := by
    simp only [Char.isDigit, Bool.and_eq_true, decide_eq_true_eq] at h
    exact ⟨UInt32.le_iff_toNat_le.mp h.1, UInt32.le_iff_toNat_le.mp h.2⟩
  have hall : ∀ n, 48 ≤ n → n ≤ 57 → Char.ofNat n = '0' ∨ Char.ofNat n = '1' ∨ Char.ofNat n = '2' ∨
      Char.ofNat n = '3' ∨ Char.ofNat n = '4' ∨ Char.ofNat n = '5' ∨ Char.ofNat n = '6' ∨
      Char.ofNat n = '7' ∨ Char.ofNat n = '8' ∨ Char.ofNat n = '9' := by
    intro n h₁ h₂
    interval_cases n <;> decide
  have hc := hall c.toNat hv.1 hv.2
  rwa [Char.ofNat_toNat] at hc

theorem readToken_number {t rest : List Char} (h : NumberToken t) (hrest : Stops rest) :
    readToken (t ++ rest) = (.number t, rest) := by
  obtain ⟨⟨c, cs, rfl, hc, hcs⟩, -⟩ := h
  have htake : (cs ++ rest).takeWhile isNumberChar = cs := by
    rw [List.takeWhile_append_of_pos hcs]
    rcases rest with - | ⟨d, rest⟩
    · simp
    · rw [List.takeWhile_cons_of_neg (by simp [hrest d rfl]), List.append_nil]
  have hdrop : (cs ++ rest).dropWhile isNumberChar = rest := by
    rw [List.dropWhile_append_of_pos hcs]
    rcases rest with - | ⟨d, rest⟩
    · rfl
    · rw [List.dropWhile_cons_of_neg (by simp [hrest d rfl])]
  have hstart : ∀ c : Char, c.isDigit = true ∨ c = '-' → readToken (c :: (cs ++ rest)) =
      (.number (c :: (cs ++ rest).takeWhile isNumberChar), (cs ++ rest).dropWhile isNumberChar) := by
    rintro c (hd | rfl)
    · rcases digit_cases hd with rfl | rfl | rfl | rfl | rfl | rfl | rfl | rfl | rfl | rfl <;> rfl
    · rfl
  rw [List.cons_append, hstart c hc, htake, hdrop]

/-! ### Where a value starts -/

/-- The first token of a value is there, and is no closing bracket. -/
theorem Layout.head : ∀ {v : Value} {text : List Char}, Layout v text →
    ∃ ws c cs, text = ws ++ c :: cs ∧ Blank ws ∧ isSpace c = false ∧ c ≠ ']'
  | _, _, @Layout.blank ws₀ _ _ hws h => by
    obtain ⟨ws, c, cs, rfl, hb, hc⟩ := h.head
    exact ⟨ws₀ ++ ws, c, cs, by simp, hws.append hb, hc⟩
  | _, _, .null => ⟨[], 'n', _, rfl, blank_nil, by decide, by decide⟩
  | _, _, .bool true => ⟨[], 't', _, rfl, blank_nil, by decide, by decide⟩
  | _, _, .bool false => ⟨[], 'f', _, rfl, blank_nil, by decide, by decide⟩
  | _, _, .number h => by
    obtain ⟨⟨c, cs, rfl, hc, -⟩, -⟩ := h
    refine ⟨[], c, cs, rfl, blank_nil, ?_⟩
    rcases hc with hd | rfl
    · rcases digit_cases hd with rfl | rfl | rfl | rfl | rfl | rfl | rfl | rfl | rfl | rfl <;> decide
    · decide
  | _, _, .string _ => ⟨[], '"', _, rfl, blank_nil, by decide, by decide⟩
  | _, _, .noElems => ⟨[], '[', _, rfl, blank_nil, by decide, by decide⟩
  | _, _, .elems _ => ⟨[], '[', _, rfl, blank_nil, by decide, by decide⟩
  | _, _, .noMembers => ⟨[], '{', _, rfl, blank_nil, by decide, by decide⟩
  | _, _, .members _ _ => ⟨[], '{', _, rfl, blank_nil, by decide, by decide⟩

theorem Elems.head {xs : List Value} {text : List Char} (h : Elems xs text) (rest : List Char) :
    ∃ c cs, skipSpaces (text ++ rest) = c :: cs ∧ c ≠ ']' := by
  have key : ∀ {x : Value} {t : List Char}, Layout x t → ∀ more,
      ∃ c cs, skipSpaces (t ++ more) = c :: cs ∧ c ≠ ']' := by
    intro x t hx more
    obtain ⟨ws, c, cs, rfl, hws, hc, hne⟩ := hx.head
    refine ⟨c, cs ++ more, ?_, hne⟩
    rw [List.append_assoc, skipSpaces_blank hws, skipSpaces, List.cons_append,
      List.dropWhile_cons_of_neg (by simp [hc])]
  rcases h with ⟨hx, -⟩ | ⟨hx, -, -⟩
  · rw [List.append_assoc]
    exact key hx _
  · rw [List.append_assoc]
    exact key hx _

/-! ### The reader -/

/-- A name that is new goes to the end. -/
theorem assign_new {members : List (List Char × Value)} {name : List Char} (x : Value)
    (h : name ∉ members.map (·.1)) : assign members name x = members ++ [(name, x)] := by
  have hnew : members.lookup name = none := by
    rw [← Option.not_isSome_iff_eq_none, ← mem_keys]
    exact h
  rw [assign, hnew]
  rfl

/-- One member; what follows decides how it goes on. -/
theorem readObject_member {n raw text more ws₁ ws₂ : List Char} {x : Value} {fuel : ℕ}
    {acc : List (List Char × Value)} (hws₁ : Blank ws₁) (hn : Quotes n raw) (hws₂ : Blank ws₂)
    (hread : ∀ old, readValue fuel old ([] ++ (text ++ more)) = (x, true, more))
    (hnew : n ∉ acc.map (·.1) ∧ cString n = n) (name : List Char) :
    readObject (fuel + 1) name acc (ws₁ ++ ('"' :: (raw ++ '"' :: (ws₂ ++ ':' :: (text ++ more))))) =
      match readToken more with
      | (.objectEnd, rest) => (.object (acc ++ [(n, x)]), true, rest)
      | (.arraySeparator, rest) => readObject fuel n (acc ++ [(n, x)]) rest
      | (.comment, rest) => match nextToken rest with
        | (.objectEnd, rest) => (.object (acc ++ [(n, x)]), true, rest)
        | (_, rest) => readObject fuel n (acc ++ [(n, x)]) rest
      | (_, rest) => (.object (acc ++ [(n, x)]), false, rest) := by
  have hname : nextToken (ws₁ ++ ('"' :: (raw ++ '"' :: (ws₂ ++ ':' :: (text ++ more))))) =
      (.string raw, ws₂ ++ ':' :: (text ++ more)) :=
    nextToken_blank hws₁ (readToken_quotes hn _) (by simp)
  have hcolon : readToken (ws₂ ++ ':' :: (text ++ more)) = (.memberSeparator, text ++ more) :=
    readToken_blank hws₂ _
  simp only [List.nil_append] at hread
  rw [readObject, hname]
  cases hmore : readToken more with
  | mk token rest =>
    cases token with
    | comment =>
      cases hnext : nextToken rest with
      | mk token rest' =>
        cases token <;> simp only [hn.1, hcolon, hread, hnew.2, assign_new x hnew.1, hmore, hnext]
    | _ => simp only [hn.1, hcolon, hread, hnew.2, assign_new x hnew.1, hmore]

theorem Names.split {acc ms : List (List Char × Value)} {n : List Char} {x : Value}
    (h : Names (acc ++ (n, x) :: ms)) : n ∉ acc.map (·.1) ∧ cString n = n := by
  refine ⟨fun hn => ?_, h.2 (n, x) (by simp)⟩
  have hnodup := h.1
  rw [List.map_append] at hnodup
  exact List.disjoint_of_nodup_append hnodup hn (by simp)

mutual
/-- A layout is read as its value, behind blanks and whatever follows; every character of it is
    fuel for one call. -/
theorem Layout.read : ∀ {v : Value} {text : List Char}, Layout v text →
    ∀ (ws rest : List Char) (fuel : ℕ) (old : Value), Blank ws → Stops rest → text.length ≤ fuel →
    readValue fuel old (ws ++ (text ++ rest)) = (v, true, rest)
  | _, _, @Layout.blank ws₀ _ _ hws₀ h, ws, rest, fuel, old, hws, hrest, hfuel => by
    rw [List.append_assoc, ← List.append_assoc ws]
    rw [List.length_append] at hfuel
    exact h.read (ws ++ ws₀) rest fuel old (hws.append hws₀) hrest (by omega)
  | _, _, .null, ws, rest, fuel + 1, old, hws, hrest, hfuel => by
    have htok : nextToken (ws ++ (['n', 'u', 'l', 'l'] ++ rest)) = (.null, rest) :=
      nextToken_blank hws rfl (by simp)
    rw [readValue, htok]
  | _, _, .bool true, ws, rest, fuel + 1, old, hws, hrest, hfuel => by
    have htok : nextToken (ws ++ (boolText true ++ rest)) = (.true, rest) :=
      nextToken_blank hws rfl (by simp)
    rw [readValue, htok]
  | _, _, .bool false, ws, rest, fuel + 1, old, hws, hrest, hfuel => by
    have htok : nextToken (ws ++ (boolText false ++ rest)) = (.false, rest) :=
      nextToken_blank hws rfl (by simp)
    rw [readValue, htok]
  | _, _, .number ht, ws, rest, fuel, old, hws, hrest, hfuel => by
    obtain ⟨k, rfl⟩ : ∃ k, fuel = k + 1 := by
      obtain ⟨⟨c, cs, rfl, -⟩, -⟩ := ht
      exact ⟨fuel - 1, by rw [List.length_cons] at hfuel; omega⟩
    rw [readValue, nextToken_blank hws (readToken_number ht hrest) (by simp)]
    simp only [ht.2, if_true]
  | _, _, @Layout.string _ raw hs, ws, rest, fuel + 1, old, hws, hrest, hfuel => by
    have htok : readToken ('"' :: (raw ++ ['"']) ++ rest) = (.string raw, rest) := by
      simpa using readToken_quotes hs rest
    rw [readValue, nextToken_blank hws htok (by simp)]
    simp only [hs.1]
  | _, _, .noElems, ws, rest, fuel + 1, old, hws, hrest, hfuel => by
    have htok : nextToken (ws ++ (['[', ']'] ++ rest)) = (.arrayBegin, ']' :: rest) :=
      nextToken_blank hws rfl (by simp)
    rw [readValue, htok]
    rfl
  | _, _, @Layout.elems _ text h, ws, rest, fuel + 1, old, hws, hrest, hfuel => by
    have htok : nextToken (ws ++ ('[' :: text ++ rest)) = (.arrayBegin, text ++ rest) :=
      nextToken_blank hws rfl (by simp)
    obtain ⟨c, cs, hskip, hne⟩ := h.head rest
    have hread := h.read [] rest fuel (by simpa using hfuel)
    rw [readValue, htok]
    simp only [hskip]
    split
    next heq => exact absurd (List.cons.inj heq).1 hne
    next => simpa using hread
  | _, _, .noMembers, ws, rest, fuel + 2, old, hws, hrest, hfuel => by
    have htok : nextToken (ws ++ (['{', '}'] ++ rest)) = (.objectBegin, '}' :: rest) :=
      nextToken_blank hws rfl (by simp)
    have hend : nextToken ('}' :: rest) = (.objectEnd, rest) := nextToken_eq rfl (by simp)
    rw [readValue, htok]
    simp only [readObject, hend, decide_true]
  | _, _, @Layout.members _ text hnames h, ws, rest, fuel + 1, old, hws, hrest, hfuel => by
    have htok : nextToken (ws ++ ('{' :: text ++ rest)) = (.objectBegin, text ++ rest) :=
      nextToken_blank hws rfl (by simp)
    have hread := h.read [] rest fuel [] (by simpa using hnames) (by simpa using hfuel)
    rw [readValue, htok]
    simpa using hread
theorem Elems.read : ∀ {xs : List Value} {text : List Char}, Elems xs text →
    ∀ (acc : List Value) (rest : List Char) (fuel : ℕ), text.length ≤ fuel →
    readArray fuel acc (text ++ rest) = (.array (acc ++ xs), true, rest)
  | _, _, @Elems.last x text ws hx hws, acc, rest, fuel, hfuel => by
    simp only [List.length_append, List.length_singleton] at hfuel
    obtain ⟨k, rfl⟩ : ∃ k, fuel = k + 1 := ⟨fuel - 1, by omega⟩
    have hread := hx.read [] (ws ++ (']' :: rest)) k .null blank_nil
      (stops_blank_append hws (stops_bracket rest)) (by omega)
    have htok : nextToken (ws ++ (']' :: rest)) = (.arrayEnd, rest) :=
      nextToken_blank hws rfl (by simp)
    rw [List.nil_append] at hread
    simp only [readArray, List.append_assoc, List.cons_append, List.nil_append, hread, htok]
  | _, _, @Elems.cons x text ws xs more hx hws h, acc, rest, fuel, hfuel => by
    simp only [List.length_append, List.length_cons] at hfuel
    obtain ⟨k, rfl⟩ : ∃ k, fuel = k + 1 := ⟨fuel - 1, by omega⟩
    have hread := hx.read [] (ws ++ (',' :: (more ++ rest))) k .null blank_nil
      (stops_blank_append hws (stops_comma _)) (by omega)
    have htok : nextToken (ws ++ (',' :: (more ++ rest))) = (.arraySeparator, more ++ rest) :=
      nextToken_blank hws rfl (by simp)
    have hmore := h.read (acc ++ [x]) rest k (by omega)
    rw [List.nil_append] at hread
    simp only [readArray, List.append_assoc, List.cons_append, hread, htok, hmore, List.nil_append]
theorem Members.read : ∀ {ms : List (List Char × Value)} {text : List Char}, Members ms text →
    ∀ (acc : List (List Char × Value)) (rest : List Char) (fuel : ℕ) (name : List Char),
    Names (acc ++ ms) → text.length ≤ fuel →
    readObject fuel name acc (text ++ rest) = (.object (acc ++ ms), true, rest)
  | _, _, @Members.last _ _ _ _ _ _ ws₃ hws₁ hn hws₂ hx hws₃, acc, rest, fuel, name, hnames, hfuel => by
    simp only [List.length_append, List.length_cons] at hfuel
    obtain ⟨k, rfl⟩ : ∃ k, fuel = k + 1 := ⟨fuel - 1, by omega⟩
    have hread := fun old => hx.read [] (ws₃ ++ ('}' :: rest)) k old blank_nil
      (stops_blank_append hws₃ (stops_brace rest)) (by omega)
    have hend : readToken (ws₃ ++ ('}' :: rest)) = (.objectEnd, rest) := readToken_blank hws₃ _
    have hmember := readObject_member hws₁ hn hws₂ hread hnames.split name
    simp only [hend] at hmember
    simpa using hmember
  | _, _, @Members.cons n _ x _ _ _ ws₃ _ more hws₁ hn hws₂ hx hws₃ h, acc, rest, fuel, name, hnames,
      hfuel => by
    simp only [List.length_append, List.length_cons] at hfuel
    obtain ⟨k, rfl⟩ : ∃ k, fuel = k + 1 := ⟨fuel - 1, by omega⟩
    have hread := fun old => hx.read [] (ws₃ ++ (',' :: (more ++ rest))) k old blank_nil
      (stops_blank_append hws₃ (stops_comma _)) (by omega)
    have hcomma : readToken (ws₃ ++ (',' :: (more ++ rest))) = (.arraySeparator, more ++ rest) :=
      readToken_blank hws₃ _
    have hmember := readObject_member hws₁ hn hws₂ hread hnames.split name
    have hmore := h.read (acc ++ [(n, x)]) rest k n (by simpa using hnames) (by omega)
    simp only [hcomma, hmore] at hmember
    simpa using hmember
end

/-- `parse` on a layout, with blanks behind it. -/
theorem Layout.parse_eq {v : Value} {text rest : List Char} (h : Layout v text) (hrest : Blank rest) :
    parse (text ++ rest) = v := by
  have hread := h.read [] rest (2 * (text ++ rest).length + 2) .null blank_nil
    (by simpa using stops_blank_append hrest stops_nil)
    (by rw [List.length_append]; omega)
  rw [List.nil_append] at hread
  rw [parse, hread]

end UrlTraveler.Json
