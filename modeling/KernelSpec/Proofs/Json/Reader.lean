import KernelSpec.Proofs.Except
import KernelSpec.Proofs.Json.Grammar

/-! # What the reader accepts

The reader accepts exactly the spellings of the grammar: `reads_value` for values and
`read_eq_ok_iff` for texts. A part that is read with fuel is given the length of its text as fuel,
and each round leaves something behind, so it never runs out.
-/

namespace KernelSpec.Json

theorem stringBody_sound {fuel : Nat} {cs ds rest : List Char}
    (read : stringBody fuel cs = .ok (ds, rest)) : StringBody cs ds rest := by
  induction fuel generalizing cs ds rest with
  | zero => cases cs <;> cases read
  | succ fuel ih =>
    cases cs with
    | nil => cases read
    | cons c tail =>
      simp only [stringBody] at read
      split at read
      · next quote =>
        cases read
        subst quote
        exact .close _
      · next notQuote =>
        split at read
        · next backslash =>
          subst backslash
          split at read
          · cases read
          · next d mid escaped =>
            obtain ⟨⟨es, left⟩, inner, same⟩ := map_eq_ok_iff.mp read
            cases same
            exact .escaped escaped (ih inner)
        · next notBackslash =>
          split at read
          · cases read
          · next printable =>
            obtain ⟨⟨es, left⟩, inner, same⟩ := map_eq_ok_iff.mp read
            cases same
            exact .plain notQuote notBackslash (Nat.not_lt.mp printable) (ih inner)

theorem stringBody_complete {cs ds rest : List Char} (body : StringBody cs ds rest) {fuel : Nat}
    (enough : cs.length ≤ fuel) : stringBody fuel cs = .ok (ds, rest) := by
  induction body generalizing fuel with
  | close rest =>
    obtain ⟨fuel, rfl⟩ := Nat.exists_eq_add_one.mpr (Nat.lt_of_lt_of_le (Nat.succ_pos _) enough)
    simp [stringBody]
  | @escaped cs mid rest ds d read _ ih =>
    obtain ⟨fuel, rfl⟩ := Nat.exists_eq_add_one.mpr (Nat.lt_of_lt_of_le (Nat.succ_pos _) enough)
    have shorter := escape_consumes read
    have inner : stringBody fuel mid = .ok (ds, rest) :=
      ih (by simp only [List.length_cons] at enough; omega)
    simp [stringBody, read, inner, Except.map]
  | @plain c cs rest ds notQuote notBackslash printable _ ih =>
    obtain ⟨fuel, rfl⟩ := Nat.exists_eq_add_one.mpr (Nat.lt_of_lt_of_le (Nat.succ_pos _) enough)
    have inner : stringBody fuel cs = .ok (ds, rest) :=
      ih (by simp only [List.length_cons] at enough; omega)
    simp [stringBody, notQuote, notBackslash, Nat.not_lt.mpr printable, inner, Except.map]

theorem quoted_eq_ok_iff {cs rest : List Char} {s : String} :
    quoted cs = .ok (s, rest) ↔ StringBody cs s.toList rest := by
  unfold quoted
  rw [map_eq_ok_iff]
  constructor
  · rintro ⟨⟨ds, left⟩, read, same⟩
    cases same
    simpa using stringBody_sound read
  · intro body
    exact ⟨(s.toList, rest), stringBody_complete body (Nat.le_refl _), by simp⟩

/-! ## Arrays, objects and values -/

variable {item : Parser Value}

theorem arrayTail_sound {fuel : Nat} {cs rest : List Char} {vs : List Value}
    (read : arrayTail item fuel cs = .ok (vs, rest)) : ArrayTail (Reads item) cs vs rest := by
  induction fuel generalizing cs vs with
  | zero => cases read
  | succ fuel ih =>
    simp only [arrayTail] at read
    split at read
    · cases read
    · next ends =>
      cases read
      exact .close ends
    · next mid comma =>
      split at read
      · cases read
      · cases read
      · next starts goesOn =>
        split at read
        · cases read
        · next v after head =>
          obtain ⟨⟨ws, left⟩, inner, same⟩ := map_eq_ok_iff.mp read
          cases same
          cases following : skipBlank mid with
          | nil => exact absurd following starts
          | cons c more =>
            rw [following] at head
            refine .next comma following (fun bracket => ?_) head (ih inner)
            subst bracket
            exact goesOn more following
    · cases read

theorem arrayTail_complete (consumes : Consumes (Reads item)) {cs rest : List Char}
    {vs : List Value} (tail : ArrayTail (Reads item) cs vs rest) {fuel : Nat}
    (enough : cs.length < fuel) : arrayTail item fuel cs = .ok (vs, rest) := by
  induction tail generalizing fuel with
  | close ends =>
    obtain ⟨fuel, rfl⟩ := Nat.exists_eq_add_one.mpr (Nat.zero_lt_of_lt enough)
    simp [arrayTail, ends]
  | @next cs mid more after rest c v vs comma starts goesOn head _ ih =>
    obtain ⟨fuel, rfl⟩ := Nat.exists_eq_add_one.mpr (Nat.zero_lt_of_lt enough)
    have inner : arrayTail item fuel after = .ok (vs, rest) := by
      apply ih
      have afterComma := length_lt_of_skipBlank comma
      have afterBlank := skipBlank_length_le mid
      have afterItem := consumes head
      rw [starts] at afterBlank
      omega
    have head : item (c :: more) = .ok (v, after) := head
    simp [arrayTail, comma, starts, goesOn, head, inner, Except.map]

theorem arrayBody_eq_ok_iff (consumes : Consumes (Reads item)) {cs rest : List Char}
    {vs : List Value} :
    arrayBody item cs = .ok (vs, rest) ↔ ArrayBody (Reads item) cs vs rest := by
  constructor
  · intro read
    simp only [arrayBody] at read
    split at read
    · cases read
    · next ends =>
      cases read
      exact .empty ends
    · next starts goesOn =>
      split at read
      · cases read
      · next v after head =>
        obtain ⟨⟨ws, left⟩, inner, same⟩ := map_eq_ok_iff.mp read
        cases same
        cases following : skipBlank cs with
        | nil => exact absurd following starts
        | cons c more =>
          rw [following] at head
          refine .items following (fun bracket => ?_) head (arrayTail_sound inner)
          subst bracket
          exact goesOn more following
  · rintro (ends | ⟨starts, goesOn, head, tail⟩)
    · simp [arrayBody, ends]
    · have inner := arrayTail_complete consumes tail (Nat.lt_succ_self _)
      simp only [Reads] at head
      simp [arrayBody, starts, goesOn, head, inner, Except.map]

theorem member_eq_ok_iff {cs rest : List Char} {entry : String × Value} :
    member item cs = .ok (entry, rest) ↔ Member (Reads item) cs entry rest := by
  constructor
  · intro read
    unfold member at read
    split at read
    · cases read
    · next name mid named =>
      split at read
      · cases read
      · next after colon =>
        obtain ⟨⟨v, left⟩, inner, same⟩ := map_eq_ok_iff.mp read
        cases same
        exact .mk (quoted_eq_ok_iff.mp named) colon inner
      · cases read
  · rintro ⟨named, colon, holds⟩
    simp only [Reads] at holds
    simp [member, quoted_eq_ok_iff.mpr named, colon, holds, Except.map]

theorem objectTail_sound {fuel : Nat} {members final : Dictionary Value} {cs rest : List Char}
    (read : objectTail item fuel members cs = .ok (final, rest)) :
    ObjectTail (Reads item) members cs final rest := by
  induction fuel generalizing members cs with
  | zero => cases read
  | succ fuel ih =>
    simp only [objectTail] at read
    split at read
    · cases read
    · next ends =>
      cases read
      exact .close ends
    · next mid comma =>
      split at read
      · cases read
      · next more starts =>
        split at read
        · cases read
        · next name v after head => exact .next comma starts (member_eq_ok_iff.mp head) (ih read)
      · cases read
      · cases read
    · cases read

theorem objectTail_complete (consumes : Consumes (Reads item)) {members final : Dictionary Value}
    {cs rest : List Char} (tail : ObjectTail (Reads item) members cs final rest) {fuel : Nat}
    (enough : cs.length < fuel) : objectTail item fuel members cs = .ok (final, rest) := by
  induction tail generalizing fuel with
  | close ends =>
    obtain ⟨fuel, rfl⟩ := Nat.exists_eq_add_one.mpr (Nat.zero_lt_of_lt enough)
    simp [objectTail, ends]
  | @next members final cs mid more after rest name v comma starts head _ ih =>
    obtain ⟨fuel, rfl⟩ := Nat.exists_eq_add_one.mpr (Nat.zero_lt_of_lt enough)
    have inner : objectTail item fuel (members.insert name v) after = .ok (final, rest) := by
      apply ih
      have afterComma := length_lt_of_skipBlank comma
      have afterBlank := length_lt_of_skipBlank starts
      have afterMember := Member.consumes consumes head
      omega
    simp [objectTail, comma, starts, member_eq_ok_iff.mpr head, inner]

theorem objectBody_eq_ok_iff (consumes : Consumes (Reads item)) {cs rest : List Char}
    {members : Dictionary Value} :
    objectBody item cs = .ok (members, rest) ↔ ObjectBody (Reads item) cs members rest := by
  constructor
  · intro read
    simp only [objectBody] at read
    split at read
    · cases read
    · next ends =>
      cases read
      exact .empty ends
    · next more starts =>
      split at read
      · cases read
      · next name v after head =>
        exact .members starts (member_eq_ok_iff.mp head) (objectTail_sound read)
    · cases read
  · rintro (ends | ⟨starts, head, tail⟩)
    · simp [objectBody, ends]
    · have inner := objectTail_complete consumes tail (Nat.lt_succ_self _)
      simp [objectBody, starts, member_eq_ok_iff.mpr head, inner]

theorem literal_eq_ok {v w : Value} {letters cs rest : List Char}
    (read : literal v letters cs = .ok (w, rest)) : w = v ∧ cs = letters ++ rest := by
  induction letters generalizing cs with
  | nil =>
    cases read
    exact ⟨rfl, rfl⟩
  | cons letter letters ih =>
    cases cs with
    | nil => cases read
    | cons c tail =>
      simp only [literal] at read
      split at read
      · next same =>
        obtain ⟨rfl, rfl⟩ := ih read
        exact ⟨rfl, by rw [same]; rfl⟩
      · cases read

theorem literal_append (v : Value) (letters rest : List Char) :
    literal v letters (letters ++ rest) = .ok (v, rest) := by
  induction letters with
  | nil => rfl
  | cons letter letters ih => simpa [literal] using ih

theorem valueWith_sound {inner? : Option (Parser Value)}
    (consumes : ∀ item ∈ inner?, Consumes (Reads item)) {cs rest : List Char} {v : Value}
    (read : valueWith inner? cs = .ok (v, rest)) : ValueOf (inner?.map Reads) cs v rest := by
  unfold valueWith at read
  split at read
  · cases read
  · next found =>
    obtain ⟨rfl, rfl⟩ := literal_eq_ok read
    exact .null found
  · next found =>
    obtain ⟨rfl, rfl⟩ := literal_eq_ok read
    exact .yes found
  · next found =>
    obtain ⟨rfl, rfl⟩ := literal_eq_ok read
    exact .no found
  · next found =>
    obtain ⟨⟨s, left⟩, inner, same⟩ := map_eq_ok_iff.mp read
    cases same
    exact .string found (quoted_eq_ok_iff.mp inner)
  · next found =>
    split at read
    · cases read
    · next item =>
      obtain ⟨⟨vs, left⟩, inner, same⟩ := map_eq_ok_iff.mp read
      cases same
      exact .array found rfl ((arrayBody_eq_ok_iff (consumes item rfl)).mp inner)
  · next found =>
    split at read
    · cases read
    · next item =>
      obtain ⟨⟨members, left⟩, inner, same⟩ := map_eq_ok_iff.mp read
      cases same
      exact .object found rfl ((objectBody_eq_ok_iff (consumes item rfl)).mp inner)
  · next found =>
    split at read
    · next starts =>
      obtain ⟨⟨n, left⟩, inner, same⟩ := map_eq_ok_iff.mp read
      cases same
      exact .number found starts inner
    · cases read

theorem valueWith_complete {inner? : Option (Parser Value)}
    (consumes : ∀ item ∈ inner?, Consumes (Reads item)) {cs rest : List Char} {v : Value}
    (spelled : ValueOf (inner?.map Reads) cs v rest) : valueWith inner? cs = .ok (v, rest) := by
  cases spelled with
  | null found => simpa [valueWith, found] using literal_append .null ['u', 'l', 'l'] rest
  | yes found => simpa [valueWith, found] using literal_append (.bool true) ['r', 'u', 'e'] rest
  | no found =>
    simpa [valueWith, found] using literal_append (.bool false) ['a', 'l', 's', 'e'] rest
  | string found body => simp [valueWith, found, quoted_eq_ok_iff.mpr body, Except.map]
  | array found opens body =>
    obtain ⟨item, rfl, rfl⟩ := Option.map_eq_some_iff.mp opens
    simp [valueWith, found, (arrayBody_eq_ok_iff (consumes item rfl)).mpr body, Except.map]
  | object found opens body =>
    obtain ⟨item, rfl, rfl⟩ := Option.map_eq_some_iff.mp opens
    simp [valueWith, found, (objectBody_eq_ok_iff (consumes item rfl)).mpr body, Except.map]
  | @number _ more _ c n found starts read =>
    have letters : c ≠ 'n' ∧ c ≠ 't' ∧ c ≠ 'f' ∧ c ≠ '"' ∧ c ≠ '[' ∧ c ≠ '\x7b' := by
      refine ⟨?_, ?_, ?_, ?_, ?_, ?_⟩ <;> rintro rfl <;> exact absurd starts (by decide)
    have starts : (c == '-' || c.isDigit) = true := starts
    simp [valueWith, found, letters, starts, read, Except.map]

theorem reads_valueWith {inner? : Option (Parser Value)}
    (consumes : ∀ item ∈ inner?, Consumes (Reads item)) :
    Reads (valueWith inner?) = ValueOf (inner?.map Reads) := by
  funext cs v rest
  exact propext ⟨valueWith_sound consumes, valueWith_complete consumes⟩

/-- The reader of values accepts exactly the spellings of values. -/
theorem reads_value (depth : Nat) : Reads (value depth) = Spells depth := by
  induction depth with
  | zero => exact reads_valueWith (by simp)
  | succ depth ih =>
    have inner : ∀ item ∈ some (value depth), Consumes (Reads item) := by
      simpa [ih] using Spells.consumes depth
    calc
      Reads (value (depth + 1)) = ValueOf ((some (value depth)).map Reads) := reads_valueWith inner
      _ = Spells (depth + 1) := by rw [Option.map_some, ih]; rfl

/-- A text is read as a value when it spells it and only blanks follow. -/
theorem read_eq_ok_iff {text : String} {v : Value} :
    read text = .ok v ↔ ∃ rest, Spells maxDepth text.toList v rest ∧ skipBlank rest = [] := by
  have located : read text = .ok v ↔ document text.toList = .ok v := by
    unfold read
    cases document text.toList <;> simp [Except.mapError]
  rw [located, ← reads_value]
  unfold document
  constructor
  · intro read
    split at read
    · cases read
    · next w rest spelled =>
      split at read
      · next blank =>
        cases read
        exact ⟨rest, spelled, blank⟩
      · cases read
  · rintro ⟨rest, spelled, blank⟩
    have spelled : value maxDepth text.toList = .ok (v, rest) := spelled
    simp [spelled, blank]

end KernelSpec.Json
