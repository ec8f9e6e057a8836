import KernelSpec.Descriptor
import KernelSpec.Proofs.Json.Reader

/-! # Putting the directory into a template

The token of a template is replaced in the text, before the text is read. `read_substitute` says
what the text then spells: the value that the template spells, with the directory in the place of
the token in every string. The token begins with `@`, which stands nowhere in JSON but inside of
strings, so outside of strings the text is copied (`fill_cons`); inside of a string the token
is met in the text exactly where it is met in the characters that are spelled, unless a `\u` escape
spells one of its characters.
-/

namespace KernelSpec.Json

mutual

/-- The value with a function applied to every string in it; names are kept. -/
def Value.mapStrings (f : String → String) : Value → Value
  | .string s => .string (f s)
  | .array items => .array (mapItems f items)
  | .object members => .object (mapMembers f members)
  | v => v

def mapItems (f : String → String) : List Value → List Value
  | [] => []
  | v :: vs => v.mapStrings f :: mapItems f vs

def mapMembers (f : String → String) : List (String × Value) → List (String × Value)
  | [] => []
  | (name, v) :: members => (name, v.mapStrings f) :: mapMembers f members

end

mutual

/-- The names of all members in a value, at any depth. -/
def Value.names : Value → List String
  | .array items => namesOfItems items
  | .object members => namesOfMembers members
  | _ => []

def namesOfItems : List Value → List String
  | [] => []
  | v :: vs => v.names ++ namesOfItems vs

def namesOfMembers : List (String × Value) → List String
  | [] => []
  | (name, v) :: members => name :: v.names ++ namesOfMembers members

end

/-- The code units that `\u` escapes spell in a text. -/
def unicodeUnits : List Char → List Nat
  | '\\' :: 'u' :: a :: b :: c :: d :: rest => (hexValue? a b c d).toList ++ unicodeUnits rest
  | '\\' :: _ :: rest => unicodeUnits rest
  | _ :: rest => unicodeUnits rest
  | [] => []

theorem unicodeUnits_cons {c : Char} (notBackslash : c ≠ '\\') (rest : List Char) :
    unicodeUnits (c :: rest) = unicodeUnits rest := by
  rw [unicodeUnits]
  · exact fun _ _ _ _ _ same => absurd same notBackslash
  · exact fun _ _ same => absurd same notBackslash

theorem unicodeUnits_short {c : Char} (notU : c ≠ 'u') (rest : List Char) :
    unicodeUnits ('\\' :: c :: rest) = unicodeUnits rest := by
  rw [unicodeUnits]
  exact fun _ _ _ _ _ same => absurd same notU

theorem unicodeUnits_four {a b c d : Char} {n : Nat} (value : hexValue? a b c d = some n)
    (rest : List Char) :
    unicodeUnits ('\\' :: 'u' :: a :: b :: c :: d :: rest) = n :: unicodeUnits rest := by
  simp [unicodeUnits, value]

end KernelSpec.Json

namespace KernelSpec.Descriptor

open Json

/-- The characters with others in the place of every token. -/
abbrev fill (new cs : List Char) : List Char := Text.replaceAll token.toList new cs

/-- No `\u` escape in the text spells a character of the token. -/
def Unescaped (cs : List Char) : Prop := ∀ n ∈ unicodeUnits cs, ∀ c ∈ token.toList, c.toNat ≠ n

theorem token_toList : token.toList = '@' :: "KERNEL_INSTALL_DIRECTORY@".toList := by
  decide

theorem token_plain : ∀ c ∈ token.toList,
    c ≠ '"' ∧ c ≠ '\\' ∧ 0x20 ≤ c.toNat ∧ c.toNat < 0x80 := by
  have checked : token.toList.all fun c =>
      c ≠ '"' ∧ c ≠ '\\' ∧ 0x20 ≤ c.toNat ∧ c.toNat < 0x80 := by
    decide
  exact fun c mem => of_decide_eq_true (List.all_eq_true.mp checked c mem)

theorem token_isPrefixOf_cons {c : Char} (other : c ≠ '@') (cs : List Char) :
    token.toList.isPrefixOf (c :: cs) = false := by
  rw [token_toList, List.isPrefixOf_cons_cons, beq_false_of_ne other.symm, Bool.false_and]

theorem fill_cons {new : List Char} {c : Char} (other : c ≠ '@') (cs : List Char) :
    fill new (c :: cs) = c :: fill new cs :=
  Text.replaceAll_cons_of_not_isPrefixOf new (token_isPrefixOf_cons other cs)

theorem fill_append {new used : List Char} (free : ∀ c ∈ used, c ≠ '@') (cs : List Char) :
    fill new (used ++ cs) = used ++ fill new cs := by
  induction used with
  | nil => rfl
  | cons c used ih =>
    obtain ⟨other, free⟩ := List.forall_mem_cons.mp free
    rw [List.cons_append, fill_cons other, ih free, List.cons_append]

theorem fill_token_append (new cs : List Char) :
    fill new (token.toList ++ cs) = new ++ fill new cs := by
  rw [fill, fill, token_toList]
  exact Text.replaceAll_token_append new cs '@' _

/-- A text in which the token does not occur stays as it is. -/
theorem fill_eq_self {new cs : List Char} (absent : ¬ token.toList <:+: cs) : fill new cs = cs := by
  induction cs with
  | nil => rfl
  | cons c rest ih =>
    have notHere : token.toList.isPrefixOf (c :: rest) = false :=
      Bool.eq_false_iff.mpr fun here => absent (List.isPrefixOf_iff_prefix.mp here).isInfix
    rw [fill, Text.replaceAll_cons_of_not_isPrefixOf new notHere]
    exact congrArg (c :: ·) (ih fun later => absent (List.infix_cons later))

/-- One text is the other with the occurrences of the token replaced, found from left to right
and without overlap. -/
inductive Replaced (token new : List Char) : List Char → List Char → Prop
  | nil : Replaced token new [] []
  | here {cs ds : List Char} (later : Replaced token new cs ds) :
      Replaced token new (token ++ cs) (new ++ ds)
  | keep {c : Char} {cs ds : List Char} (absent : ¬ token <+: c :: cs)
      (later : Replaced token new cs ds) : Replaced token new (c :: cs) (c :: ds)

theorem replaced_fill (new cs : List Char) : Replaced token.toList new cs (fill new cs) := by
  by_cases found : token.toList <+: cs
  · obtain ⟨after, rfl⟩ := found
    rw [fill_token_append]
    exact .here (replaced_fill new after)
  · cases cs with
    | nil => exact .nil
    | cons c rest =>
      have absent : token.toList.isPrefixOf (c :: rest) = false :=
        Bool.eq_false_iff.mpr fun here => found (List.isPrefixOf_iff_prefix.mp here)
      rw [fill, Text.replaceAll_cons_of_not_isPrefixOf new absent]
      exact .keep found (replaced_fill new rest)
termination_by cs.length
decreasing_by
  · subst_vars
    rw [token_toList]
    simp only [List.length_append, List.length_cons]
    omega
  · subst_vars
    exact Nat.lt_succ_self _

/-! ## Outside of strings -/

theorem at_ne_blank : isBlank '@' = false := by decide

/-- Blanks stay where they are, and so does what follows them. -/
theorem skipBlank_fill {new cs : List Char} (starts : (skipBlank cs).head? ≠ some '@') :
    skipBlank (fill new cs) = fill new (skipBlank cs) := by
  induction cs with
  | nil => rfl
  | cons c rest ih =>
    by_cases blank : isBlank c = true
    · have other : c ≠ '@' := fun same => by rw [same, at_ne_blank] at blank; cases blank
      rw [fill_cons other]
      simp only [skipBlank, List.dropWhile_cons_of_pos blank] at starts ⊢
      exact ih starts
    · simp only [skipBlank, List.dropWhile_cons_of_neg blank] at starts ⊢
      have other : c ≠ '@' := fun same => starts (by rw [same]; rfl)
      rw [fill_cons other, List.dropWhile_cons_of_neg blank]

theorem skipBlank_fill_cons {new cs rest : List Char} {c : Char} (found : skipBlank cs = c :: rest)
    (other : c ≠ '@') : skipBlank (fill new cs) = c :: fill new rest := by
  have starts : (skipBlank cs).head? ≠ some '@' := by
    rw [found]
    exact fun same => other (Option.some.inj same)
  rw [skipBlank_fill starts, found, fill_cons other]

/-- A word after blanks stays. -/
theorem skipBlank_fill_append {new cs rest : List Char} (c : Char) (letters : List Char)
    (found : skipBlank cs = c :: (letters ++ rest)) (free : ∀ x ∈ c :: letters, x ≠ '@') :
    skipBlank (fill new cs) = c :: (letters ++ fill new rest) := by
  obtain ⟨other, free⟩ := List.forall_mem_cons.mp free
  rw [skipBlank_fill_cons found other, fill_append free]

theorem skipBlank_fill_nil {new cs : List Char} (found : skipBlank cs = []) :
    skipBlank (fill new cs) = [] := by
  have starts : (skipBlank cs).head? ≠ some '@' := by
    rw [found]
    exact Option.some_ne_none _ |>.symm
  rw [skipBlank_fill starts, found]
  rfl

/-- A text whose first character after blanks is not `@` does not begin with `@`. -/
theorem head?_ne_at {cs rest : List Char} {c : Char} (found : skipBlank cs = c :: rest)
    (other : c ≠ '@') : cs.head? ≠ some '@' := by
  intro here
  obtain ⟨tail, rfl⟩ := List.head?_eq_some_iff.mp here
  rw [skipBlank, List.dropWhile_cons_of_neg (Bool.eq_false_iff.mp at_ne_blank)] at found
  exact other (List.cons.inj found).1.symm

theorem head?_fill {new cs : List Char} (starts : cs.head? ≠ some '@') :
    (fill new cs).head? = cs.head? := by
  cases cs with
  | nil => rfl
  | cons c rest =>
    have other : c ≠ '@' := fun same => starts (by rw [same]; rfl)
    rw [fill_cons other]
    rfl

theorem Unescaped.of_cons {c : Char} {cs : List Char} (unescaped : Unescaped (c :: cs))
    (notBackslash : c ≠ '\\') : Unescaped cs := by
  rwa [Unescaped, unicodeUnits_cons notBackslash] at unescaped

theorem Unescaped.of_append {used cs : List Char} (unescaped : Unescaped (used ++ cs))
    (noBackslash : ∀ c ∈ used, c ≠ '\\') : Unescaped cs := by
  induction used with
  | nil => exact unescaped
  | cons c used ih =>
    obtain ⟨here, later⟩ := List.forall_mem_cons.mp noBackslash
    exact ih (unescaped.of_cons here) later

theorem Unescaped.skipBlank {cs : List Char} (unescaped : Unescaped cs) :
    Unescaped (skipBlank cs) := by
  have blanks : ∀ c ∈ cs.takeWhile isBlank, c ≠ '\\' := by
    rintro c mem rfl
    exact absurd (List.mem_takeWhile_imp mem) (by decide)
  refine Unescaped.of_append ?_ blanks
  rwa [Json.skipBlank, List.takeWhile_append_dropWhile]

/-! ## Inside of strings -/

theorem ne_at_of_escape {used : List Char} {d : Char}
    (chars : (∃ c, used = [c] ∧ (c, d) ∈ shortEscapes) ∨ ∀ c ∈ used, isUnitChar c = true) :
    ∀ c ∈ used, c ≠ '@' := by
  rcases chars with ⟨c, rfl, short⟩ | units
  · have other : ∀ entry ∈ shortEscapes, entry.1 ≠ '@' := by decide
    simpa using other _ short
  · rintro c mem rfl
    exact absurd (units _ mem) (by decide)

theorem escape_fill {new cs rest : List Char} {d : Char} (read : escape cs = .ok (d, rest)) :
    escape (fill new cs) = .ok (d, fill new rest) := by
  obtain ⟨used, rfl, chars, again⟩ := escape_local read
  rw [fill_append (ne_at_of_escape chars)]
  exact again _

/-- A number that is no character of the token is not the code of one. -/
theorem ofNat_not_mem_token {n : Nat} (other : ∀ c ∈ token.toList, c.toNat ≠ n) :
    Char.ofNat n ∉ token.toList := by
  intro mem
  by_cases valid : n.isValidChar
  · exact other _ mem (by simp [Char.ofNat, Char.ofNatAux, Char.toNat, valid])
  · have zero : Char.ofNat n = '\x00' := dif_neg valid
    rw [zero] at mem
    exact absurd mem (by decide)

/-- The character of an escape is none of the token. -/
theorem escape_not_mem_token {cs rest : List Char} {d : Char} (read : escape cs = .ok (d, rest))
    (unescaped : Unescaped ('\\' :: cs)) : d ∉ token.toList ∧ Unescaped rest := by
  obtain ⟨c, rfl, short⟩ | ⟨after, rfl, read⟩ := escape_eq_ok read
  · have notU : ∀ entry ∈ shortEscapes, entry.1 ≠ 'u' := by decide
    have notToken : ∀ entry ∈ shortEscapes, entry.2 ∉ token.toList := by decide
    rw [Unescaped, unicodeUnits_short (notU _ short)] at unescaped
    exact ⟨notToken _ short, unescaped⟩
  · obtain ⟨n, mid, four, _, way⟩ := unicodeEscape_eq_ok read
    obtain ⟨_, _, _, _, rfl, value⟩ := hexFour_eq_ok four
    rw [Unescaped, unicodeUnits_four value, List.forall_mem_cons] at unescaped
    obtain ⟨_, rfl, rfl⟩ | ⟨_, low, after, rfl, four', _, spelled⟩ := way
    · exact ⟨ofNat_not_mem_token unescaped.1, unescaped.2⟩
    · obtain ⟨_, _, _, _, rfl, value'⟩ := hexFour_eq_ok four'
      rw [unicodeUnits_four value', List.forall_mem_cons] at unescaped
      rw [spelled]
      refine ⟨ofNat_not_mem_token fun c mem => ?_, unescaped.2.2⟩
      have ascii := (token_plain c mem).2.2.2
      omega

/-- Characters that stand for themselves are read first. -/
theorem stringBody_of_append {used cs ds rest : List Char}
    (plain : ∀ c ∈ used, c ≠ '"' ∧ c ≠ '\\') (body : StringBody (used ++ cs) ds rest) :
    ∃ es, ds = used ++ es ∧ StringBody cs es rest := by
  induction used generalizing ds with
  | nil => exact ⟨ds, rfl, body⟩
  | cons c used ih =>
    obtain ⟨⟨notQuote, notBackslash⟩, plain⟩ := List.forall_mem_cons.mp plain
    cases body with
    | close => exact absurd rfl notQuote
    | escaped => exact absurd rfl notBackslash
    | plain _ _ _ tail =>
      obtain ⟨es, rfl, remaining⟩ := ih plain tail
      exact ⟨es, rfl, remaining⟩

/-- Characters of the token that are spelled stand in the text themselves. -/
theorem prefix_of_stringBody {marks cs ds rest : List Char}
    (ofToken : ∀ c ∈ marks, c ∈ token.toList) (body : StringBody cs ds rest)
    (unescaped : Unescaped cs) (spelled : marks <+: ds) : marks <+: cs := by
  induction marks generalizing cs ds with
  | nil => exact List.nil_prefix
  | cons c marks ih =>
    obtain ⟨member, ofToken⟩ := List.forall_mem_cons.mp ofToken
    cases body with
    | close => cases List.prefix_nil.mp spelled
    | escaped read tail =>
      obtain ⟨rfl, _⟩ := List.cons_prefix_cons.mp spelled
      exact absurd member (escape_not_mem_token read unescaped).1
    | plain notQuote notBackslash printable tail =>
      obtain ⟨rfl, later⟩ := List.cons_prefix_cons.mp spelled
      exact List.cons_prefix_cons.mpr ⟨rfl, ih ofToken tail (unescaped.of_cons notBackslash) later⟩

/-- Inside of a string the token is replaced in the text as it is in what is spelled. -/
theorem stringBody_fill (text : List Char) {cs ds rest : List Char} (body : StringBody cs ds rest)
    (unescaped : Unescaped cs) :
    StringBody (fill (escapeChars text) cs) (fill text ds) (fill (escapeChars text) rest) ∧
      Unescaped rest := by
  -- The token is taken whole where it stands, so the induction is on the length of the text.
  by_cases here : token.toList <+: cs
  · obtain ⟨after, rfl⟩ := here
    obtain ⟨es, rfl, tail⟩ :=
      stringBody_of_append (fun c mem => ⟨(token_plain c mem).1, (token_plain c mem).2.1⟩) body
    have inner := stringBody_fill text tail
      (unescaped.of_append fun c mem => (token_plain c mem).2.1)
    rw [fill_token_append, fill_token_append]
    exact ⟨inner.1.escapeChars_append text, inner.2⟩
  · cases body with
    | close rest =>
      rw [fill_cons (by decide)]
      exact ⟨.close _, unescaped.of_cons (by decide)⟩
    | @escaped cs mid _ ds d read tail =>
      obtain ⟨notToken, unescaped⟩ := escape_not_mem_token read unescaped
      have other : d ≠ '@' := fun same => notToken (by rw [same, token_toList]; exact .head _)
      have inner := stringBody_fill text tail unescaped
      rw [fill_cons (by decide), fill_cons other]
      exact ⟨.escaped (escape_fill read) inner.1, inner.2⟩
    | @plain c cs _ ds notQuote notBackslash printable tail =>
      have inner := stringBody_fill text tail (unescaped.of_cons notBackslash)
      -- A token that is spelled without standing here would have to be spelled by escapes.
      have notSpelled : ¬ token.toList <+: c :: ds := fun spelled =>
        here (prefix_of_stringBody (fun _ mem => mem)
          (.plain notQuote notBackslash printable tail) unescaped spelled)
      rw [fill, fill, Text.replaceAll_cons_of_not_isPrefixOf,
        Text.replaceAll_cons_of_not_isPrefixOf]
      · exact ⟨.plain notQuote notBackslash printable inner.1, inner.2⟩
      · exact Bool.eq_false_iff.mpr fun found => notSpelled (List.isPrefixOf_iff_prefix.mp found)
      · exact Bool.eq_false_iff.mpr fun found => here (List.isPrefixOf_iff_prefix.mp found)
termination_by cs.length
decreasing_by
  · subst_vars
    rw [token_toList]
    simp only [List.length_append, List.length_cons]
    omega
  · subst_vars
    exact Nat.lt_succ_of_lt (escape_consumes read)
  · subst_vars
    exact Nat.lt_succ_self _

/-! ## Values -/

/-- A string with the directory in the place of every token. -/
def fillString (text : List Char) (s : String) : String := String.ofList (fill text s.toList)

/-- The token stands in none of the names. -/
def Free (names : List String) : Prop := ∀ name ∈ names, ¬ token.toList <:+: name.toList

theorem fillString_eq_self {text : List Char} {name : String}
    (absent : ¬ token.toList <:+: name.toList) : fillString text name = name := by
  rw [fillString, fill_eq_self absent, String.ofList_toList]

theorem free_append {names others : List String} :
    Free (names ++ others) ↔ Free names ∧ Free others :=
  List.forall_mem_append

/-- What is spelled is still spelled once the directory is in the text, with the directory in its
strings. A number ends where something else begins, so the text must not go on with the token. A
value with the token in a name is still read, but nothing is said of it: it may be a value that a
later member of the same name replaces. -/
structure Carries (text : List Char) (item : Spelling Value) : Prop where
  starts : ∀ ⦃cs v rest⦄, item cs v rest → cs.head? ≠ some '@'
  unescaped : ∀ ⦃cs v rest⦄, item cs v rest → Unescaped cs → Unescaped rest
  filled : ∀ ⦃cs v rest⦄, item cs v rest → Unescaped cs → rest.head? ≠ some '@' →
    ∃ v', item (fill (escapeChars text) cs) v' (fill (escapeChars text) rest) ∧
      (Free v.names → v' = v.mapStrings (fillString text))

theorem Unescaped.after_blank {cs rest : List Char} {c : Char} (unescaped : Unescaped cs)
    (found : Json.skipBlank cs = c :: rest) (notBackslash : c ≠ '\\') : Unescaped rest := by
  have remaining := unescaped.skipBlank
  rw [found] at remaining
  exact remaining.of_cons notBackslash

theorem Unescaped.of_blank {cs tail : List Char} (unescaped : Unescaped cs)
    (found : Json.skipBlank cs = tail) : Unescaped tail := found ▸ unescaped.skipBlank

theorem arrayTail_starts {item : Spelling Value} {cs rest : List Char} {vs : List Value}
    (tail : ArrayTail item cs vs rest) : cs.head? ≠ some '@' := by
  cases tail with
  | close ends => exact head?_ne_at ends (by decide)
  | next comma => exact head?_ne_at comma (by decide)

theorem objectTail_starts {item : Spelling Value} {members final : Dictionary Value}
    {cs rest : List Char} (tail : ObjectTail item members cs final rest) :
    cs.head? ≠ some '@' := by
  cases tail with
  | close ends => exact head?_ne_at ends (by decide)
  | next comma => exact head?_ne_at comma (by decide)

/-- A name that was read is a name of the object. -/
theorem objectTail_names {item : Spelling Value} {members final : Dictionary Value}
    {cs rest : List Char} (tail : ObjectTail item members cs final rest) {name : String}
    (read : name ∈ members.map Prod.fst) : name ∈ final.map Prod.fst := by
  induction tail with
  | close => exact read
  | next _ _ _ _ ih => exact ih (Dictionary.mem_names_insert.mpr (.inr read))

/-- The same names, each with the value filled, as far as that is said of the value. -/
def Mapped (text : List Char) : Dictionary Value → Dictionary Value → Prop :=
  List.Forall₂ fun entry entry' => entry'.1 = entry.1 ∧
    (Free entry.2.names → entry'.2 = entry.2.mapStrings (fillString text))

theorem Mapped.insert {text : List Char} {members members' : Dictionary Value}
    (mapped : Mapped text members members') (name : String) {v v' : Value}
    (same : Free v.names → v' = v.mapStrings (fillString text)) :
    Mapped text (members.insert name v) (members'.insert name v') := by
  induction mapped with
  | nil => exact .cons ⟨rfl, same⟩ .nil
  | @cons entry entry' members members' related mapped ih =>
    obtain ⟨other, old⟩ := entry
    obtain ⟨other', old'⟩ := entry'
    obtain ⟨rfl, sameOld⟩ := related
    simp only [Dictionary.insert]
    split_ifs
    · exact .cons ⟨rfl, same⟩ mapped
    · exact .cons ⟨rfl, same⟩ (.cons ⟨rfl, sameOld⟩ mapped)
    · exact .cons ⟨rfl, sameOld⟩ ih

theorem free_members {name : String} {v : Value} {members : List (String × Value)} :
    Free (namesOfMembers ((name, v) :: members)) ↔
      ¬ token.toList <:+: name.toList ∧ Free v.names ∧ Free (namesOfMembers members) := by
  rw [namesOfMembers, Free, List.cons_append, List.forall_mem_cons]
  exact and_congr_right fun _ => free_append

theorem free_names {members : Dictionary Value} (free : Free (namesOfMembers members)) :
    Free (members.map Prod.fst) := by
  induction members with
  | nil => exact free
  | cons entry members ih =>
    obtain ⟨absent, _, later⟩ := free_members.mp free
    exact List.forall_mem_cons.mpr ⟨absent, ih later⟩

theorem Mapped.eq_mapMembers {text : List Char} {members members' : Dictionary Value}
    (mapped : Mapped text members members') (free : Free (namesOfMembers members)) :
    members' = mapMembers (fillString text) members := by
  induction mapped with
  | nil => rfl
  | @cons entry entry' _ _ related _ ih =>
    obtain ⟨name, v⟩ := entry
    obtain ⟨name', v'⟩ := entry'
    obtain ⟨rfl, same⟩ := related
    obtain ⟨_, here, later⟩ := free_members.mp free
    rw [mapMembers, ← ih later, ← same here]

theorem Unescaped.after_word {cs rest : List Char} (unescaped : Unescaped cs) (word : List Char)
    (found : Json.skipBlank cs = word ++ rest) (noBackslash : ∀ c ∈ word, c ≠ '\\') :
    Unescaped rest := (unescaped.of_blank found).of_append noBackslash

section Composite

variable {text : List Char} {item : Spelling Value} (carries : Carries text item)

include carries

theorem Carries.ne_at {c : Char} {more after : List Char} {v : Value}
    (head : item (c :: more) v after) : c ≠ '@' :=
  fun same => carries.starts head (by rw [same]; rfl)

theorem arrayTail_fill {cs rest : List Char} {vs : List Value} (tail : ArrayTail item cs vs rest)
    (unescaped : Unescaped cs) :
    Unescaped rest ∧ ∃ vs',
      ArrayTail item (fill (escapeChars text) cs) vs' (fill (escapeChars text) rest) ∧
        (Free (namesOfItems vs) → vs' = mapItems (fillString text) vs) := by
  induction tail with
  | close ends =>
    exact ⟨unescaped.after_blank ends (by decide), [],
      .close (skipBlank_fill_cons ends (by decide)), fun _ => rfl⟩
  | next comma starts goesOn head tail ih =>
    have other := carries.ne_at head
    have unescaped := (unescaped.after_blank comma (by decide)).of_blank starts
    obtain ⟨v', head', same⟩ := carries.filled head unescaped (arrayTail_starts tail)
    obtain ⟨unescaped, vs', tail', same'⟩ := ih (carries.unescaped head unescaped)
    rw [fill_cons other] at head'
    refine ⟨unescaped, v' :: vs', .next (skipBlank_fill_cons comma (by decide))
      (skipBlank_fill_cons starts other) goesOn head' tail', fun free => ?_⟩
    obtain ⟨here, later⟩ := free_append.mp free
    rw [same here, same' later, mapItems]

theorem arrayBody_fill {cs rest : List Char} {vs : List Value} (body : ArrayBody item cs vs rest)
    (unescaped : Unescaped cs) :
    Unescaped rest ∧ ∃ vs',
      ArrayBody item (fill (escapeChars text) cs) vs' (fill (escapeChars text) rest) ∧
        (Free (namesOfItems vs) → vs' = mapItems (fillString text) vs) := by
  cases body with
  | empty ends =>
    exact ⟨unescaped.after_blank ends (by decide), [],
      .empty (skipBlank_fill_cons ends (by decide)), fun _ => rfl⟩
  | items starts goesOn head tail =>
    have other := carries.ne_at head
    have unescaped := unescaped.of_blank starts
    obtain ⟨v', head', same⟩ := carries.filled head unescaped (arrayTail_starts tail)
    obtain ⟨unescaped, vs', tail', same'⟩ :=
      arrayTail_fill carries tail (carries.unescaped head unescaped)
    rw [fill_cons other] at head'
    refine ⟨unescaped, v' :: vs', .items (skipBlank_fill_cons starts other) goesOn head' tail',
      fun free => ?_⟩
    obtain ⟨here, later⟩ := free_append.mp free
    rw [same here, same' later, mapItems]

theorem member_fill {cs rest : List Char} {name : String} {v : Value}
    (entry : Member item cs (name, v) rest) (unescaped : Unescaped cs) :
    Unescaped rest ∧ (rest.head? ≠ some '@' → ∃ v',
      Member item (fill (escapeChars text) cs) (fillString text name, v')
        (fill (escapeChars text) rest) ∧ (Free v.names → v' = v.mapStrings (fillString text))) := by
  cases entry with
  | mk named colon holds =>
    obtain ⟨named', unescaped⟩ := stringBody_fill text named unescaped
    have unescaped := unescaped.after_blank colon (by decide)
    refine ⟨carries.unescaped holds unescaped, fun ends => ?_⟩
    obtain ⟨v', holds', same⟩ := carries.filled holds unescaped ends
    refine ⟨v', .mk ?_ (skipBlank_fill_cons colon (by decide)) holds', same⟩
    rwa [fillString, String.toList_ofList]

/-- The members of an object are filled one by one, whatever was read before them; the names of
the result are the names of all members. -/
theorem objectTail_fill {members final : Dictionary Value} {cs rest : List Char}
    (tail : ObjectTail item members cs final rest) (unescaped : Unescaped cs)
    (members' : Dictionary Value) :
    Unescaped rest ∧ ∃ final',
      ObjectTail item members' (fill (escapeChars text) cs) final' (fill (escapeChars text) rest) ∧
        (Free (final.map Prod.fst) → Mapped text members members' → Mapped text final final') := by
  induction tail generalizing members' with
  | close ends =>
    exact ⟨unescaped.after_blank ends (by decide), members',
      .close (skipBlank_fill_cons ends (by decide)), fun _ mapped => mapped⟩
  | @next members final _ _ _ _ _ name v comma starts head tail ih =>
    have unescaped := (unescaped.after_blank comma (by decide)).after_blank starts (by decide)
    obtain ⟨unescaped, filled⟩ := member_fill carries head unescaped
    obtain ⟨v', head', same⟩ := filled (objectTail_starts tail)
    obtain ⟨unescaped, final', tail', mapped'⟩ :=
      ih unescaped (members'.insert (fillString text name) v')
    refine ⟨unescaped, final', .next (skipBlank_fill_cons comma (by decide))
      (skipBlank_fill_cons starts (by decide)) head' tail', fun free mapped => mapped' free ?_⟩
    have absent := free name (objectTail_names tail (Dictionary.mem_names_insert.mpr (.inl rfl)))
    rw [fillString_eq_self absent]
    exact mapped.insert name same

theorem objectBody_fill {members : Dictionary Value} {cs rest : List Char}
    (body : ObjectBody item cs members rest) (unescaped : Unescaped cs) :
    Unescaped rest ∧ ∃ members',
      ObjectBody item (fill (escapeChars text) cs) members' (fill (escapeChars text) rest) ∧
        (Free (namesOfMembers members) → members' = mapMembers (fillString text) members) := by
  cases body with
  | empty ends =>
    exact ⟨unescaped.after_blank ends (by decide), [],
      .empty (skipBlank_fill_cons ends (by decide)), fun _ => rfl⟩
  | @members _ _ _ _ _ name v starts head tail =>
    have unescaped := unescaped.after_blank starts (by decide)
    obtain ⟨unescaped, filled⟩ := member_fill carries head unescaped
    obtain ⟨v', head', same⟩ := filled (objectTail_starts tail)
    obtain ⟨unescaped, members', tail', mapped⟩ :=
      objectTail_fill carries tail unescaped (Dictionary.insert (fillString text name) v' [])
    refine ⟨unescaped, members', .members (skipBlank_fill_cons starts (by decide)) head' tail',
      fun free => ?_⟩
    have names := free_names free
    have absent := names name (objectTail_names tail (Dictionary.mem_names_insert.mpr (.inl rfl)))
    rw [fillString_eq_self absent] at mapped
    have first : Mapped text [] [] := .nil
    exact (mapped names (first.insert name same)).eq_mapMembers free

end Composite

theorem ne_of_isNumberChar {c d : Char} (char : isNumberChar c = true)
    (other : isNumberChar d = false) : c ≠ d := by
  rintro rfl
  exact absurd char (Bool.eq_false_iff.mp other)

/-- A number is filled like any text outside of strings: it is the same before the same end. -/
theorem number_fill {new cs rest : List Char} {n : Number} (read : number cs = .ok (n, rest))
    (ends : rest.head? ≠ some '@') : number (fill new cs) = .ok (n, fill new rest) := by
  obtain ⟨used, rfl, chars, again⟩ := number_local cs read
  rw [fill_append fun c mem => ne_of_isNumberChar (chars c mem) (by decide)]
  exact again _ (.inl (head?_fill ends))

theorem Unescaped.after_number {cs rest : List Char} {n : Number} (unescaped : Unescaped cs)
    (read : number cs = .ok (n, rest)) : Unescaped rest := by
  obtain ⟨used, rfl, chars, _⟩ := number_local cs read
  exact unescaped.of_append fun c mem => ne_of_isNumberChar (chars c mem) (by decide)

theorem ne_at_of_startsNumber {c : Char} (starts : startsNumber c = true) : c ≠ '@' := by
  rintro rfl
  exact absurd starts (by decide)

theorem Carries.valueOf {text : List Char} {inner? : Option (Spelling Value)}
    (carries : ∀ item ∈ inner?, Carries text item) : Carries text (ValueOf inner?) where
  starts := by
    intro cs v rest spelled
    cases spelled with
    | null found | yes found | no found | string found | array found | object found =>
      exact head?_ne_at found (by decide)
    | number found starts => exact head?_ne_at found (ne_at_of_startsNumber starts)
  unescaped := by
    intro cs v rest spelled unescaped
    cases spelled with
    | null found => exact unescaped.after_word ['n', 'u', 'l', 'l'] found (by simp)
    | yes found => exact unescaped.after_word ['t', 'r', 'u', 'e'] found (by simp)
    | no found => exact unescaped.after_word ['f', 'a', 'l', 's', 'e'] found (by simp)
    | string found body =>
      exact (stringBody_fill text body (unescaped.after_blank found (by decide))).2
    | array found opens body =>
      exact (arrayBody_fill (carries _ opens) body (unescaped.after_blank found (by decide))).1
    | object found opens body =>
      exact (objectBody_fill (carries _ opens) body (unescaped.after_blank found (by decide))).1
    | number found _ read => exact (unescaped.of_blank found).after_number read
  filled := by
    intro cs v rest spelled unescaped ends
    cases spelled with
    | null found =>
      exact ⟨.null, .null (skipBlank_fill_append 'n' ['u', 'l', 'l'] found (by simp)),
        fun _ => rfl⟩
    | yes found =>
      exact ⟨.bool true, .yes (skipBlank_fill_append 't' ['r', 'u', 'e'] found (by simp)),
        fun _ => rfl⟩
    | no found =>
      exact ⟨.bool false, .no (skipBlank_fill_append 'f' ['a', 'l', 's', 'e'] found (by simp)),
        fun _ => rfl⟩
    | @string _ _ _ s found body =>
      refine ⟨.string (fillString text s), .string (skipBlank_fill_cons found (by decide)) ?_,
        fun _ => rfl⟩
      rw [fillString, String.toList_ofList]
      exact (stringBody_fill text body (unescaped.after_blank found (by decide))).1
    | array found opens body =>
      obtain ⟨_, vs', body', same⟩ :=
        arrayBody_fill (carries _ opens) body (unescaped.after_blank found (by decide))
      exact ⟨.array vs', .array (skipBlank_fill_cons found (by decide)) opens body',
        fun free => congrArg Value.array (same free)⟩
    | object found opens body =>
      obtain ⟨_, members', body', same⟩ :=
        objectBody_fill (carries _ opens) body (unescaped.after_blank found (by decide))
      exact ⟨.object members', .object (skipBlank_fill_cons found (by decide)) opens body',
        fun free => congrArg Value.object (same free)⟩
    | @number _ _ _ _ n found starts read =>
      have other := ne_at_of_startsNumber starts
      have read' : number (fill (escapeChars text) _) = _ := number_fill read ends
      rw [fill_cons other] at read'
      exact ⟨.number n, .number (skipBlank_fill_cons found other) starts read', fun _ => rfl⟩

theorem carries_spells (text : List Char) (depth : Nat) : Carries text (Spells depth) := by
  induction depth with
  | zero => exact Carries.valueOf (by simp)
  | succ depth ih => exact Carries.valueOf (by simpa using ih)

/-- Replacing the token in the text replaces it in every string of the value, and nowhere else. -/
theorem read_fill {template : String} {v : Value} (text : List Char)
    (parsed : Json.read template = .ok v) (free : Free v.names)
    (unescaped : Unescaped template.toList) :
    Json.read (String.ofList (fill (escapeChars text) template.toList)) =
      .ok (v.mapStrings (fillString text)) := by
  obtain ⟨rest, spelled, ends⟩ := read_eq_ok_iff.mp parsed
  have notAt : rest.head? ≠ some '@' := by
    intro here
    obtain ⟨tail, rfl⟩ := List.head?_eq_some_iff.mp here
    cases ends
  obtain ⟨v', spelled', same⟩ := (carries_spells text _).filled spelled unescaped notAt
  refine read_eq_ok_iff.mpr ⟨fill (escapeChars text) rest, ?_, skipBlank_fill_nil ends⟩
  rw [String.toList_ofList, ← same free]
  exact spelled'

theorem substitute_eq_ok {template text : String} {dir : Path}
    (utf8 : dir.bytes.text? = some text) :
    substitute template dir =
      .ok (String.ofList (fill (escapeChars text.toList) template.toList)) := by
  rw [substitute, pathFragment, utf8]
  simp only [Except.map, escapeText, String.toList_ofList, fill]

/-- For every directory, a template with the directory in the place of its tokens spells the value
of the template with the directory in the place of the tokens in its strings. -/
theorem read_substitute {template text : String} {v : Value} {dir : Path}
    (parsed : Json.read template = .ok v)
    (names : ∀ name ∈ v.names, ¬ token.toList <:+: name.toList)
    (unescaped : Unescaped template.toList) (utf8 : dir.bytes.text? = some text) :
    ∃ filled f, substitute template dir = .ok filled ∧ Json.read filled = .ok (v.mapStrings f) ∧
      ∀ s : String, Replaced token.toList text.toList s.toList (f s).toList := by
  refine ⟨_, fillString text.toList, substitute_eq_ok utf8, read_fill _ parsed names unescaped, ?_⟩
  intro s
  rw [fillString, String.toList_ofList]
  exact replaced_fill _ _

/-- A template whose string begins with a character of the token, and a directory with a quote, a
backslash, a control character and the token itself. -/
theorem read_substitute_hostile :
    ∃ (filled : String) (f : String → String),
      substitute "\x7b\"argv\": [\"@@KERNEL_INSTALL_DIRECTORY@/a.jar\", -1]\x7d"
        ⟨Bytes.ofString "/q\"\\\t@KERNEL_INSTALL_DIRECTORY@"⟩ = .ok filled ∧
      Json.read filled = .ok (.object [("argv",
        .array [.string (f "@@KERNEL_INSTALL_DIRECTORY@/a.jar"), .number (.integer (-1))])]) ∧
      ∀ s : String, Replaced token.toList "/q\"\\\t@KERNEL_INSTALL_DIRECTORY@".toList s.toList
        (f s).toList :=
  have parsed : Json.read "\x7b\"argv\": [\"@@KERNEL_INSTALL_DIRECTORY@/a.jar\", -1]\x7d" =
      .ok (.object [("argv",
        .array [.string "@@KERNEL_INSTALL_DIRECTORY@/a.jar", .number (.integer (-1))])]) := by
    cbv
  read_substitute parsed (by decide) (by unfold Unescaped; decide) (Bytes.text?_ofString _)

end KernelSpec.Descriptor
