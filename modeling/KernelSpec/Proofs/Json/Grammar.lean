import KernelSpec.Proofs.Json.Number

/-! # The grammar of JSON

The grammar of JSON as relations between the characters to read, what they spell and the
characters left. `Spells depth` is the relation of values, built like the reader by recursion on
how many arrays and objects may still open. In the relations no fuel occurs; that every spelling
leaves something behind (`Spells.consumes`) is why the fuel of the reader suffices.
-/

namespace KernelSpec.Json

/-- Relates characters to what a first part of them spells and to the characters after it. -/
abbrev Spelling (α : Type) := List Char → α → List Char → Prop

/-- What a parser reads. -/
def Reads {α : Type} (parser : Parser α) : Spelling α :=
  fun cs a rest => parser cs = .ok (a, rest)

/-- Something is left behind whenever the relation holds. -/
def Consumes {α : Type} (spelling : Spelling α) : Prop :=
  ∀ ⦃cs : List Char⦄ ⦃a : α⦄ ⦃rest : List Char⦄, spelling cs a rest → rest.length < cs.length

theorem skipBlank_length_le (cs : List Char) : (skipBlank cs).length ≤ cs.length :=
  (List.dropWhile_sublist _).length_le

theorem skipBlank_idem (cs : List Char) : skipBlank (skipBlank cs) = skipBlank cs := by
  induction cs with
  | nil => rfl
  | cons c rest ih =>
    by_cases blank : isBlank c = true
    · simpa only [skipBlank, List.dropWhile_cons_of_pos blank] using ih
    · simp only [skipBlank, List.dropWhile_cons_of_neg blank]

/-- What the blanks are followed by is shorter than the text itself. -/
theorem length_lt_of_skipBlank {cs rest : List Char} {c : Char} (found : skipBlank cs = c :: rest) :
    rest.length < cs.length := by
  have bound := skipBlank_length_le cs
  rw [found, List.length_cons] at bound
  omega

/-! ## Strings -/

theorem hexFour_eq_ok {cs rest : List Char} {n : Nat} (read : hexFour cs = .ok (n, rest)) :
    ∃ a b c d, cs = a :: b :: c :: d :: rest ∧ hexValue? a b c d = some n := by
  unfold hexFour at read
  dsimp only at read
  split at read
  · next a b c d tail =>
    split at read
    · next value =>
      cases read
      exact ⟨a, b, c, d, rfl, value⟩
    · split at read <;> cases read
  · split at read <;> cases read

theorem hexFour_cons {a b c d : Char} {n : Nat} (value : hexValue? a b c d = some n)
    (rest : List Char) : hexFour (a :: b :: c :: d :: rest) = .ok (n, rest) := by
  simp [hexFour, value]

theorem lowSurrogate_eq_ok {cs rest : List Char} {n : Nat}
    (read : lowSurrogate cs = .ok (n, rest)) :
    ∃ mid, cs = '\\' :: 'u' :: mid ∧ hexFour mid = .ok (n, rest) ∧ isLowSurrogate n = true := by
  unfold lowSurrogate at read
  split at read
  · cases read
  · next mid =>
    split at read
    · cases read
    · next four =>
      split at read
      · next low =>
        cases read
        exact ⟨mid, rfl, four, low⟩
      · cases read
  · cases read
  · cases read
  · cases read

/-- A `\u` escape is one unit of four digits, or two units that form a pair of surrogates. -/
theorem unicodeEscape_eq_ok {cs rest : List Char} {d : Char}
    (read : unicodeEscape cs = .ok (d, rest)) :
    ∃ n mid, hexFour cs = .ok (n, mid) ∧ isLowSurrogate n = false ∧
      (isHighSurrogate n = false ∧ d = Char.ofNat n ∧ rest = mid ∨
        isHighSurrogate n = true ∧
          ∃ low after, mid = '\\' :: 'u' :: after ∧ hexFour after = .ok (low, rest) ∧
            isLowSurrogate low = true ∧
            d = Char.ofNat (0x10000 + (n - 0xD800) * 0x400 + (low - 0xDC00))) := by
  unfold unicodeEscape at read
  split at read
  · cases read
  · next n mid four =>
    split at read
    · cases read
    · next notLow =>
      refine ⟨n, mid, four, Bool.eq_false_iff.mpr notLow, ?_⟩
      split at read
      · next high =>
        split at read
        · cases read
        · next low tail second =>
          obtain ⟨rfl, rfl⟩ := Prod.mk.inj (Except.ok.inj read)
          obtain ⟨after, rfl, four', isLow⟩ := lowSurrogate_eq_ok second
          exact .inr ⟨high, low, after, rfl, four', isLow, rfl⟩
      · next notHigh =>
        cases read
        exact .inl ⟨Bool.eq_false_iff.mpr notHigh, rfl, rfl⟩

/-- The escapes of one letter, each with the character it stands for. -/
def shortEscapes : List (Char × Char) :=
  [('"', '"'), ('\\', '\\'), ('/', '/'), ('b', '\x08'), ('f', '\x0c'), ('n', '\n'), ('r', '\r'),
    ('t', '\t')]

theorem escape_eq_ok {cs rest : List Char} {d : Char} (read : escape cs = .ok (d, rest)) :
    (∃ c, cs = c :: rest ∧ (c, d) ∈ shortEscapes) ∨
      ∃ after, cs = 'u' :: after ∧ unicodeEscape after = .ok (d, rest) := by
  unfold escape at read
  split at read
  case h_1 => cases read
  case h_10 after => exact .inr ⟨after, rfl, read⟩
  case h_11 => cases read
  all_goals
    cases read
    exact .inl ⟨_, rfl, by decide⟩

/-- The characters of a `\u` escape. -/
def isUnitChar (c : Char) : Bool := (hexDigit? c).isSome || c == '\\' || c == 'u'

theorem isUnitChar_of_hexValue? {a b c d : Char} {n : Nat} (value : hexValue? a b c d = some n) :
    ∀ x ∈ [a, b, c, d], isUnitChar x = true := by
  intro x mem
  simp only [hexValue?, bind, Option.bind_eq_some_iff] at value
  obtain ⟨_, first, _, second, _, third, _, fourth, _⟩ := value
  simp only [List.mem_cons, List.not_mem_nil, or_false] at mem
  rcases mem with rfl | rfl | rfl | rfl <;> simp [isUnitChar, first, second, third, fourth]

/-- A `\u` escape is read from its own characters. -/
theorem unicodeEscape_local {cs rest : List Char} {d : Char}
    (read : unicodeEscape cs = .ok (d, rest)) :
    ∃ used, cs = used ++ rest ∧ (∀ c ∈ used, isUnitChar c = true) ∧
      ∀ other, unicodeEscape (used ++ other) = .ok (d, other) := by
  obtain ⟨n, mid, four, notLow, way⟩ := unicodeEscape_eq_ok read
  obtain ⟨a, b, c, e, rfl, value⟩ := hexFour_eq_ok four
  have units := isUnitChar_of_hexValue? value
  obtain ⟨notHigh, rfl, rfl⟩ | ⟨high, low, after, rfl, four', isLow, spelled⟩ := way
  · refine ⟨[a, b, c, e], rfl, units, fun other => ?_⟩
    simp [unicodeEscape, hexFour_cons value, notLow, notHigh]
  · obtain ⟨a', b', c', e', rfl, value'⟩ := hexFour_eq_ok four'
    have units' := isUnitChar_of_hexValue? value'
    have between : ∀ x ∈ ['\\', 'u'], isUnitChar x = true := by simp [isUnitChar]
    refine ⟨[a, b, c, e] ++ ['\\', 'u'] ++ [a', b', c', e'], rfl, ?_, fun other => ?_⟩
    · exact List.forall_mem_append.mpr ⟨List.forall_mem_append.mpr ⟨units, between⟩, units'⟩
    · simp [unicodeEscape, lowSurrogate, hexFour_cons value, hexFour_cons value', notLow, high,
        isLow, spelled]

/-- An escape is read from its own characters. -/
theorem escape_local {cs rest : List Char} {d : Char} (read : escape cs = .ok (d, rest)) :
    ∃ used, cs = used ++ rest ∧
      ((∃ c, used = [c] ∧ (c, d) ∈ shortEscapes) ∨ ∀ c ∈ used, isUnitChar c = true) ∧
      ∀ other, escape (used ++ other) = .ok (d, other) := by
  obtain ⟨c, rfl, short⟩ | ⟨after, rfl, read⟩ := escape_eq_ok read
  · refine ⟨[c], rfl, .inl ⟨c, rfl, short⟩, fun other => ?_⟩
    simp only [shortEscapes, List.mem_cons, Prod.mk.injEq, List.not_mem_nil, or_false] at short
    obtain ⟨rfl, rfl⟩ | ⟨rfl, rfl⟩ | ⟨rfl, rfl⟩ | ⟨rfl, rfl⟩ | ⟨rfl, rfl⟩ | ⟨rfl, rfl⟩ |
      ⟨rfl, rfl⟩ | ⟨rfl, rfl⟩ := short <;> rfl
  · obtain ⟨used, rfl, units, again⟩ := unicodeEscape_local read
    exact ⟨'u' :: used, rfl, .inr (List.forall_mem_cons.mpr ⟨by decide, units⟩), again⟩

theorem hexFour_consumes : Consumes (Reads hexFour) := by
  intro cs n rest read
  obtain ⟨a, b, c, d, rfl, _⟩ := hexFour_eq_ok read
  simp only [List.length_cons]
  omega

theorem escape_consumes : Consumes (Reads escape) := by
  intro cs d rest read
  obtain ⟨c, rfl, _⟩ | ⟨after, rfl, read⟩ := escape_eq_ok read
  · exact Nat.lt_succ_self _
  · obtain ⟨n, mid, four, _, ⟨_, _, rfl⟩ | ⟨_, low, behind, rfl, four', _⟩⟩ :=
      unicodeEscape_eq_ok read
    · exact Nat.lt_succ_of_lt (hexFour_consumes four)
    · have first := hexFour_consumes four
      have second := hexFour_consumes four'
      simp only [List.length_cons] at first ⊢
      omega

/-- The characters of a string up to and with the closing quote. -/
inductive StringBody : Spelling (List Char)
  | close (rest : List Char) : StringBody ('"' :: rest) [] rest
  | escaped {cs mid rest ds : List Char} {d : Char} (read : escape cs = .ok (d, mid))
      (tail : StringBody mid ds rest) : StringBody ('\\' :: cs) (d :: ds) rest
  | plain {c : Char} {cs rest ds : List Char} (notQuote : c ≠ '"') (notBackslash : c ≠ '\\')
      (printable : 0x20 ≤ c.toNat) (tail : StringBody cs ds rest) :
      StringBody (c :: cs) (c :: ds) rest

theorem StringBody.consumes : Consumes StringBody := by
  intro cs ds rest body
  induction body with
  | close rest => exact Nat.lt_succ_self _
  | escaped read _ ih => exact Nat.lt_succ_of_lt (Nat.lt_trans ih (escape_consumes read))
  | plain _ _ _ _ ih => exact Nat.lt_succ_of_lt ih

theorem hexDigit?_hexChar : ∀ n < 16, hexDigit? (hexChar n) = some n := by decide

/-- A character is written as itself, or as an escape that is read as it. -/
theorem escapeChar_cases (c : Char) :
    escapeChar c = [c] ∧ c ≠ '"' ∧ c ≠ '\\' ∧ 0x20 ≤ c.toNat ∨
      ∃ escaped, escapeChar c = '\\' :: escaped ∧
        ∀ cs, escape (escaped ++ cs) = .ok (c, cs) := by
  unfold escapeChar
  split_ifs with quote backslash b f n r t control
  · subst quote; exact .inr ⟨_, rfl, fun _ => rfl⟩
  · subst backslash; exact .inr ⟨_, rfl, fun _ => rfl⟩
  · subst b; exact .inr ⟨_, rfl, fun _ => rfl⟩
  · subst f; exact .inr ⟨_, rfl, fun _ => rfl⟩
  · subst n; exact .inr ⟨_, rfl, fun _ => rfl⟩
  · subst r; exact .inr ⟨_, rfl, fun _ => rfl⟩
  · subst t; exact .inr ⟨_, rfl, fun _ => rfl⟩
  · have value : hexValue? '0' '0' (hexChar (c.toNat / 16)) (hexChar (c.toNat % 16)) =
        some c.toNat := by
      have high := hexDigit?_hexChar (c.toNat / 16) (by omega)
      have low := hexDigit?_hexChar (c.toNat % 16) (by omega)
      have zero : hexDigit? '0' = some 0 := by decide
      simp only [hexValue?, high, low, zero, bind, Option.bind_some, pure]
      congr 1
      omega
    have notLow : isLowSurrogate c.toNat = false := by simp [isLowSurrogate]; omega
    have notHigh : isHighSurrogate c.toNat = false := by simp [isHighSurrogate]; omega
    refine .inr ⟨_, rfl, fun cs => ?_⟩
    simp [escape, unicodeEscape, hexFour_cons value, notLow, notHigh]
  · exact .inl ⟨rfl, quote, backslash, Nat.not_lt.mp control⟩

/-- A character as it is written in a string is read as itself. -/
theorem StringBody.escapeChar_append (c : Char) {cs ds rest : List Char}
    (tail : StringBody cs ds rest) : StringBody (escapeChar c ++ cs) (c :: ds) rest := by
  obtain ⟨same, notQuote, notBackslash, printable⟩ | ⟨escaped, same, read⟩ := escapeChar_cases c
  · rw [same]
    exact .plain notQuote notBackslash printable tail
  · rw [same]
    exact .escaped (read cs) tail

/-- A text as it is written in a string is read as itself. -/
theorem StringBody.escapeChars_append (text : List Char) {cs ds rest : List Char}
    (tail : StringBody cs ds rest) : StringBody (escapeChars text ++ cs) (text ++ ds) rest := by
  induction text with
  | nil => exact tail
  | cons c text ih =>
    have step := StringBody.escapeChar_append c ih
    simpa [escapeChars] using step

/-! ## Arrays, objects and values -/

/-- The elements of an array after the first, up to the closing bracket. -/
inductive ArrayTail {α : Type} (item : Spelling α) : Spelling (List α)
  | close {cs rest : List Char} (ends : skipBlank cs = ']' :: rest) : ArrayTail item cs [] rest
  | next {cs mid more after rest : List Char} {c : Char} {v : α} {vs : List α}
      (comma : skipBlank cs = ',' :: mid) (starts : skipBlank mid = c :: more) (goesOn : c ≠ ']')
      (head : item (c :: more) v after) (tail : ArrayTail item after vs rest) :
      ArrayTail item cs (v :: vs) rest

/-- An array, after the opening bracket. -/
inductive ArrayBody {α : Type} (item : Spelling α) : Spelling (List α)
  | empty {cs rest : List Char} (ends : skipBlank cs = ']' :: rest) : ArrayBody item cs [] rest
  | items {cs more after rest : List Char} {c : Char} {v : α} {vs : List α}
      (starts : skipBlank cs = c :: more) (goesOn : c ≠ ']') (head : item (c :: more) v after)
      (tail : ArrayTail item after vs rest) : ArrayBody item cs (v :: vs) rest

/-- A member, after the quote that opens its name. -/
inductive Member {α : Type} (item : Spelling α) : Spelling (String × α)
  | mk {cs mid after rest : List Char} {name : String} {v : α}
      (named : StringBody cs name.toList mid) (colon : skipBlank mid = ':' :: after)
      (holds : item after v rest) : Member item cs (name, v) rest

/-- The members of an object after the first, added to those read before. -/
inductive ObjectTail (item : Spelling Value) : Dictionary Value → Spelling (Dictionary Value)
  | close {members : Dictionary Value} {cs rest : List Char}
      (ends : skipBlank cs = '\x7d' :: rest) : ObjectTail item members cs members rest
  | next {members final : Dictionary Value} {cs mid more after rest : List Char} {name : String}
      {v : Value} (comma : skipBlank cs = ',' :: mid) (starts : skipBlank mid = '"' :: more)
      (head : Member item more (name, v) after)
      (tail : ObjectTail item (members.insert name v) after final rest) :
      ObjectTail item members cs final rest

/-- An object, after the opening brace. -/
inductive ObjectBody (item : Spelling Value) : Spelling (Dictionary Value)
  | empty {cs rest : List Char} (ends : skipBlank cs = '\x7d' :: rest) : ObjectBody item cs [] rest
  | members {final : Dictionary Value} {cs more after rest : List Char} {name : String} {v : Value}
      (starts : skipBlank cs = '"' :: more) (head : Member item more (name, v) after)
      (tail : ObjectTail item (Dictionary.insert name v []) after final rest) :
      ObjectBody item cs final rest

/-- The first character of a number. -/
def startsNumber (c : Char) : Bool := c == '-' || c.isDigit

/-- A value whose elements are related by `inner?`; without it no array or object may open. -/
inductive ValueOf (inner? : Option (Spelling Value)) : Spelling Value
  | null {cs rest : List Char} (found : skipBlank cs = 'n' :: 'u' :: 'l' :: 'l' :: rest) :
      ValueOf inner? cs .null rest
  | yes {cs rest : List Char} (found : skipBlank cs = 't' :: 'r' :: 'u' :: 'e' :: rest) :
      ValueOf inner? cs (.bool true) rest
  | no {cs rest : List Char} (found : skipBlank cs = 'f' :: 'a' :: 'l' :: 's' :: 'e' :: rest) :
      ValueOf inner? cs (.bool false) rest
  | string {cs mid rest : List Char} {s : String} (found : skipBlank cs = '"' :: mid)
      (body : StringBody mid s.toList rest) : ValueOf inner? cs (.string s) rest
  | array {cs mid rest : List Char} {vs : List Value} {item : Spelling Value}
      (found : skipBlank cs = '[' :: mid) (opens : inner? = some item)
      (body : ArrayBody item mid vs rest) : ValueOf inner? cs (.array vs) rest
  | object {cs mid rest : List Char} {members : Dictionary Value} {item : Spelling Value}
      (found : skipBlank cs = '\x7b' :: mid) (opens : inner? = some item)
      (body : ObjectBody item mid members rest) : ValueOf inner? cs (.object members) rest
  | number {cs more rest : List Char} {c : Char} {n : Number} (found : skipBlank cs = c :: more)
      (starts : startsNumber c = true) (read : Json.number (c :: more) = .ok (n, rest)) :
      ValueOf inner? cs (.number n) rest

/-- A value in which at most `depth` arrays and objects are open at once. -/
def Spells : Nat → Spelling Value
  | 0 => ValueOf none
  | depth + 1 => ValueOf (some (Spells depth))

/-! ## Members in the order of the text -/

/-- The members of an object after the first, as the text lists them. -/
inductive MembersTail {α : Type} (item : Spelling α) : Spelling (List (String × α))
  | close {cs rest : List Char} (ends : skipBlank cs = '\x7d' :: rest) : MembersTail item cs [] rest
  | next {cs mid more after rest : List Char} {entry : String × α}
      {entries : List (String × α)} (comma : skipBlank cs = ',' :: mid)
      (starts : skipBlank mid = '"' :: more) (head : Member item more entry after)
      (tail : MembersTail item after entries rest) : MembersTail item cs (entry :: entries) rest

/-- The members of an object as the text lists them, after the opening brace. -/
inductive MembersBody {α : Type} (item : Spelling α) : Spelling (List (String × α))
  | empty {cs rest : List Char} (ends : skipBlank cs = '\x7d' :: rest) : MembersBody item cs [] rest
  | members {cs more after rest : List Char} {entry : String × α} {entries : List (String × α)}
      (starts : skipBlank cs = '"' :: more) (head : Member item more entry after)
      (tail : MembersTail item after entries rest) : MembersBody item cs (entry :: entries) rest

theorem objectTail_iff {item : Spelling Value} {members final : Dictionary Value}
    {cs rest : List Char} : ObjectTail item members cs final rest ↔
      ∃ entries, MembersTail item cs entries rest ∧
        entries.foldl (fun d entry => Dictionary.insert entry.1 entry.2 d) members = final := by
  constructor
  · intro tail
    induction tail with
    | close ends => exact ⟨[], .close ends, rfl⟩
    | next comma starts head _ ih =>
      obtain ⟨entries, tail, same⟩ := ih
      exact ⟨_ :: entries, .next comma starts head tail, same⟩
  · rintro ⟨entries, tail, rfl⟩
    induction tail generalizing members with
    | close ends => exact .close ends
    | next comma starts head _ ih => exact .next comma starts head ih

/-- An object holds the members that the text lists, inserted one after another. -/
theorem objectBody_iff {item : Spelling Value} {members : Dictionary Value} {cs rest : List Char} :
    ObjectBody item cs members rest ↔
      ∃ entries, MembersBody item cs entries rest ∧ Dictionary.ofEntries entries = members := by
  constructor
  · rintro (ends | ⟨starts, head, tail⟩)
    · exact ⟨[], .empty ends, rfl⟩
    · obtain ⟨entries, tail, same⟩ := objectTail_iff.mp tail
      exact ⟨_ :: entries, .members starts head tail, same⟩
  · rintro ⟨entries, ends | ⟨starts, head, tail⟩, rfl⟩
    · exact .empty ends
    · exact .members starts head (objectTail_iff.mpr ⟨_, tail, rfl⟩)

/-! ## Every spelling leaves something behind -/

variable {relation : Spelling Value}

theorem Member.consumes (consumes : Consumes relation) : Consumes (Member relation) := by
  rintro cs entry rest ⟨named, colon, holds⟩
  have afterName := StringBody.consumes named
  have afterColon := length_lt_of_skipBlank colon
  have afterValue := consumes holds
  omega

theorem ArrayTail.consumes (consumes : Consumes relation) : Consumes (ArrayTail relation) := by
  intro cs vs rest tail
  induction tail with
  | close ends => exact length_lt_of_skipBlank ends
  | @next cs mid _ _ _ _ _ _ comma starts _ head _ ih =>
    have afterComma := length_lt_of_skipBlank comma
    have afterBlank := skipBlank_length_le mid
    have afterItem := consumes head
    rw [starts] at afterBlank
    omega

theorem ArrayBody.consumes (consumes : Consumes relation) : Consumes (ArrayBody relation) := by
  rintro cs vs rest (ends | ⟨starts, _, head, tail⟩)
  · exact length_lt_of_skipBlank ends
  · have afterBlank := skipBlank_length_le cs
    have afterItem := consumes head
    have afterTail := ArrayTail.consumes consumes tail
    rw [starts] at afterBlank
    omega

theorem ObjectTail.consumes (consumes : Consumes relation) (members : Dictionary Value) :
    Consumes (ObjectTail relation members) := by
  intro cs final rest tail
  induction tail with
  | close ends => exact length_lt_of_skipBlank ends
  | next comma starts head _ ih =>
    have afterComma := length_lt_of_skipBlank comma
    have afterBlank := length_lt_of_skipBlank starts
    have afterMember := Member.consumes consumes head
    omega

theorem ObjectBody.consumes (consumes : Consumes relation) : Consumes (ObjectBody relation) := by
  rintro cs members rest (ends | ⟨starts, head, tail⟩)
  · exact length_lt_of_skipBlank ends
  · have afterBlank := length_lt_of_skipBlank starts
    have afterMember := Member.consumes consumes head
    have afterTail := ObjectTail.consumes consumes _ tail
    omega

theorem ValueOf.consumes {inner? : Option (Spelling Value)}
    (consumes : ∀ item ∈ inner?, Consumes item) : Consumes (ValueOf inner?) := by
  intro cs v rest spelled
  cases spelled with
  | null found =>
    have bound := length_lt_of_skipBlank found
    simp only [List.length_cons] at bound
    omega
  | yes found =>
    have bound := length_lt_of_skipBlank found
    simp only [List.length_cons] at bound
    omega
  | no found =>
    have bound := length_lt_of_skipBlank found
    simp only [List.length_cons] at bound
    omega
  | string found body => exact (StringBody.consumes body).trans (length_lt_of_skipBlank found)
  | array found opens body =>
    exact (ArrayBody.consumes (consumes _ opens) body).trans (length_lt_of_skipBlank found)
  | object found opens body =>
    exact (ObjectBody.consumes (consumes _ opens) body).trans (length_lt_of_skipBlank found)
  | number found starts read =>
    have bound := skipBlank_length_le cs
    rw [found] at bound
    exact (number_length_lt read).trans_le bound

theorem Spells.consumes (depth : Nat) : Consumes (Spells depth) := by
  induction depth with
  | zero => exact ValueOf.consumes (by simp)
  | succ depth ih => exact ValueOf.consumes (by simpa using ih)

end KernelSpec.Json
