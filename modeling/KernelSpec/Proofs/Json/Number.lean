import KernelSpec.Json.Reader
import KernelSpec.Json.Writer
import Mathlib

/-! # Where a number ends

A number is the longest first part of the text that can be one, so the reader looks at one
character after it. `number_local` says that it depends on nothing else: before other characters
with the same first one, or with a first one that is in no number, the same number is read. An
integer that was written is read again as itself (`number_writeInteger`).
-/

namespace KernelSpec.Json

/-- The characters that numbers are made of. -/
def isNumberChar (c : Char) : Bool :=
  c.isDigit || c == '-' || c == '+' || c == '.' || c == 'e' || c == 'E'

/-- The text after a number cannot be a part of it. -/
def EndsNumber (rest : List Char) : Prop := ∀ c ∈ rest.head?, isNumberChar c = false

theorem endsNumber_nil : EndsNumber [] := fun _ head => nomatch head

/-- The text begins like the other one, or with something that is in no number. -/
def GoesOnLike (other rest : List Char) : Prop := other.head? = rest.head? ∨ EndsNumber other

/-- What the parser reads of the text is made of characters of numbers, and of what follows only
the first character matters. -/
def LocalAt (parser : Parser Number) (cs : List Char) : Prop :=
  ∀ ⦃n : Number⦄ ⦃rest : List Char⦄, parser cs = .ok (n, rest) →
    ∃ used, cs = used ++ rest ∧ (∀ c ∈ used, isNumberChar c = true) ∧
      ∀ other : List Char, GoesOnLike other rest → parser (used ++ other) = .ok (n, other)

theorem isNumberChar_of_isDigit {c : Char} (digit : c.isDigit = true) : isNumberChar c = true := by
  simp [isNumberChar, digit]

theorem EndsNumber.not_isDigit {rest : List Char} (ends : EndsNumber rest) {c : Char}
    (first : c ∈ rest.head?) : ¬ c.isDigit = true := fun digit =>
  absurd (isNumberChar_of_isDigit digit) (Bool.eq_false_iff.mp (ends c first))

theorem GoesOnLike.append {other rest : List Char} (alike : GoesOnLike other rest)
    (used : List Char) : GoesOnLike (used ++ other) (used ++ rest) := by
  cases used with
  | nil => exact alike
  | cons c used => exact .inl rfl

/-- A text that begins like a number begins like the other one. -/
theorem GoesOnLike.head?_eq {c : Char} {more rest : List Char} (alike : GoesOnLike (c :: more) rest)
    (char : isNumberChar c = true) : rest.head? = some c := by
  rcases alike with same | ends
  · exact same.symm
  · exact absurd char (Bool.eq_false_iff.mp (ends c rfl))

/-- The digits at the head of a text are also those of another one that goes on alike. -/
theorem digits_append {cs other : List Char}
    (alike : GoesOnLike other (cs.dropWhile Char.isDigit)) :
    (cs.takeWhile Char.isDigit ++ other).takeWhile Char.isDigit = cs.takeWhile Char.isDigit ∧
      (cs.takeWhile Char.isDigit ++ other).dropWhile Char.isDigit = other := by
  have digits : ∀ c ∈ cs.takeWhile Char.isDigit, c.isDigit = true :=
    fun c mem => List.mem_takeWhile_imp mem
  rw [List.takeWhile_append_of_pos digits, List.dropWhile_append_of_pos digits]
  cases other with
  | nil => simp
  | cons c more =>
    have stops : ¬ c.isDigit = true := by
      intro digit
      have := List.head?_dropWhile_not Char.isDigit cs
      rw [alike.head?_eq (isNumberChar_of_isDigit digit)] at this
      simp [digit] at this
    rw [List.takeWhile_cons_of_neg stops, List.dropWhile_cons_of_neg stops]
    simp

/-! ## Parsers that look at the first character -/

/-- A first character that is read before the rest. -/
theorem LocalAt.cons {parser inner : Parser Number} {c : Char} {cs : List Char}
    (isLocal : LocalAt inner cs) (char : isNumberChar c = true)
    (unfolds : ∀ other, parser (c :: other) = inner other) : LocalAt parser (c :: cs) := by
  intro n rest read
  obtain ⟨used, rfl, chars, again⟩ := isLocal ((unfolds cs).symm.trans read)
  refine ⟨c :: used, rfl, ?_, fun other alike => (unfolds _).trans (again other alike)⟩
  intro d mem
  obtain rfl | mem := List.mem_cons.mp mem
  · exact char
  · exact chars d mem

/-- A parser that goes on as another one on every text that goes on alike. -/
theorem LocalAt.congr {parser inner : Parser Number} {cs : List Char} (isLocal : LocalAt inner cs)
    (unfolds : ∀ other : List Char, GoesOnLike other cs → parser other = inner other) :
    LocalAt parser cs := by
  intro n rest read
  obtain ⟨used, rfl, chars, again⟩ := isLocal ((unfolds _ (.inl rfl)).symm.trans read)
  refine ⟨used, rfl, chars, fun other alike => ?_⟩
  rw [unfolds _ (alike.append used)]
  exact again other alike

/-- What is read after the digits at the head of the text, of which there has to be one. -/
def afterDigits (inner : List Char → Parser Number) : Parser Number := fun cs =>
  if (cs.takeWhile Char.isDigit).isEmpty then missingDigit (cs.dropWhile Char.isDigit)
  else inner (cs.takeWhile Char.isDigit) (cs.dropWhile Char.isDigit)

theorem LocalAt.digits {inner : List Char → Parser Number}
    (isLocal : ∀ digits left, LocalAt (inner digits) left) (cs : List Char) :
    LocalAt (afterDigits inner) cs := by
  intro n rest read
  unfold afterDigits at read ⊢
  split at read
  · cases left : cs.dropWhile Char.isDigit <;> rw [left] at read <;> cases read
  · next some =>
    obtain ⟨used, whole, chars, again⟩ := isLocal _ _ read
    refine ⟨cs.takeWhile Char.isDigit ++ used, ?_, ?_, fun other alike => ?_⟩
    · rw [List.append_assoc, ← whole, List.takeWhile_append_dropWhile]
    · intro c mem
      obtain mem | mem := List.mem_append.mp mem
      · exact isNumberChar_of_isDigit (List.mem_takeWhile_imp mem)
      · exact chars c mem
    · have goesOn : GoesOnLike (used ++ other) (cs.dropWhile Char.isDigit) := by
        rw [whole]
        exact alike.append used
      obtain ⟨taken, left⟩ := digits_append goesOn
      rw [List.append_assoc, taken, left, if_neg some]
      exact again other alike

theorem LocalAt.of_ok (n : Number) (cs : List Char) : LocalAt (fun rest => .ok (n, rest)) cs := by
  intro m rest read
  cases read
  exact ⟨[], rfl, by simp, fun _ _ => rfl⟩

/-! ## Numbers -/

theorem realOf_local (negative : Bool) (g : Nat) (e : Int) (cs : List Char) :
    LocalAt (realOf negative g e) cs := by
  intro n rest read
  unfold realOf at read ⊢
  split at read
  · cases read
  · cases read
    exact ⟨[], rfl, by simp, fun other _ => by simp⟩

theorem exponentValue_local (negative : Bool) (g : Nat) (e : Int) (down : Bool)
    (digits cs : List Char) : LocalAt (exponentValue negative g e down digits) cs := by
  unfold exponentValue
  split
  · exact realOf_local _ _ _ _
  · split
    · intro n rest read
      cases read
    · exact .of_ok _ _

theorem exponentDigits_local (negative : Bool) (g : Nat) (e : Int) (down : Bool)
    (cs : List Char) : LocalAt (exponentDigits negative g e down) cs :=
  .digits (exponentValue_local negative g e down) cs

theorem exponentPart_local (negative : Bool) (g : Nat) (e : Int) (cs : List Char) :
    LocalAt (exponentPart negative g e) cs := by
  by_cases plus : cs.head? = some '+'
  · obtain ⟨tail, rfl⟩ := List.head?_eq_some_iff.mp plus
    exact (exponentDigits_local _ _ _ false tail).cons (by decide) fun _ => rfl
  · by_cases minus : cs.head? = some '-'
    · obtain ⟨tail, rfl⟩ := List.head?_eq_some_iff.mp minus
      exact (exponentDigits_local _ _ _ true tail).cons (by decide) fun _ => rfl
    · refine (exponentDigits_local negative g e false cs).congr fun other alike => ?_
      unfold exponentPart exponentSign
      split
      · exact absurd (alike.head?_eq (by decide)) plus
      · exact absurd (alike.head?_eq (by decide)) minus
      · rfl

theorem afterFraction_local (negative : Bool) (g : Nat) (e : Int) (cs : List Char) :
    LocalAt (afterFraction negative g e) cs := by
  by_cases lower : cs.head? = some 'e'
  · obtain ⟨tail, rfl⟩ := List.head?_eq_some_iff.mp lower
    exact (exponentPart_local _ _ _ tail).cons (by decide) fun _ => rfl
  · by_cases upper : cs.head? = some 'E'
    · obtain ⟨tail, rfl⟩ := List.head?_eq_some_iff.mp upper
      exact (exponentPart_local _ _ _ tail).cons (by decide) fun _ => rfl
    · refine (realOf_local negative g e cs).congr fun other alike => ?_
      unfold afterFraction
      split
      · exact absurd (alike.head?_eq (by decide)) lower
      · exact absurd (alike.head?_eq (by decide)) upper
      · rfl

theorem fractionPart_local (negative : Bool) (g : Nat) (e : Int) (cs : List Char) :
    LocalAt (fractionPart negative g e) cs := by
  have inner (digits left : List Char) : LocalAt (afterFraction negative (gather g digits).1
      (e - (digits.length - (gather g digits).2.length : Nat))) left :=
    afterFraction_local _ _ _ _
  exact .digits inner cs

theorem integerOf_local (negative : Bool) (g : Nat) (cs : List Char) :
    LocalAt (integerOf negative g) cs := by
  unfold integerOf
  split
  · exact .of_ok _ _
  · split
    · exact .of_ok _ _
    · exact realOf_local _ _ _ _

theorem afterInteger_local (negative : Bool) (g dropped : Nat) (cs : List Char) :
    LocalAt (afterInteger negative g dropped) cs := by
  by_cases point : cs.head? = some '.'
  · obtain ⟨tail, rfl⟩ := List.head?_eq_some_iff.mp point
    exact (fractionPart_local _ _ _ tail).cons (by decide) fun _ => rfl
  · by_cases lower : cs.head? = some 'e'
    · obtain ⟨tail, rfl⟩ := List.head?_eq_some_iff.mp lower
      exact (exponentPart_local _ _ _ tail).cons (by decide) fun _ => rfl
    · by_cases upper : cs.head? = some 'E'
      · obtain ⟨tail, rfl⟩ := List.head?_eq_some_iff.mp upper
        exact (exponentPart_local _ _ _ tail).cons (by decide) fun _ => rfl
      · have plain : LocalAt (fun rest =>
            if dropped = 0 then integerOf negative g rest
            else realOf negative g dropped rest) cs := by
          split
          · exact integerOf_local _ _ _
          · exact realOf_local _ _ _ _
        refine plain.congr fun other alike => ?_
        unfold afterInteger
        split
        · exact absurd (alike.head?_eq (by decide)) point
        · exact absurd (alike.head?_eq (by decide)) lower
        · exact absurd (alike.head?_eq (by decide)) upper
        · rfl

theorem unsigned_local (negative : Bool) (cs : List Char) : LocalAt (unsigned negative) cs := by
  cases cs with
  | nil =>
    intro n rest read
    cases read
  | cons c tail =>
    by_cases zero : c = '0'
    · subst zero
      have ends : LocalAt (fun rest =>
          if rest.head?.any Char.isDigit then failAt .invalidNumber rest
          else afterInteger negative 0 0 rest) tail := by
        by_cases digit : tail.head?.any Char.isDigit = true
        · intro n rest read
          simp only [digit, if_true] at read
          cases read
        · refine (afterInteger_local negative 0 0 tail).congr fun other alike => ?_
          cases other with
          | nil => rfl
          | cons d more =>
            have notDigit : ¬ d.isDigit = true := fun isDigit =>
              digit (by simp [alike.head?_eq (isNumberChar_of_isDigit isDigit), isDigit])
            simp [notDigit]
      refine ends.cons (by decide) fun other => ?_
      cases other with
      | nil => rfl
      | cons d more => by_cases digit : d.isDigit = true <;> simp [unsigned, digit]
    · by_cases digit : c.isDigit = true
      · have whole : LocalAt (afterDigits fun digits left =>
            afterInteger negative (gather 0 digits).1 (gather 0 digits).2.length left)
              (c :: tail) :=
          .digits (fun _ left => afterInteger_local negative _ _ left) _
        refine whole.congr fun other alike => ?_
        cases other with
        | nil => rfl
        | cons d more =>
          by_cases isDigit : d.isDigit = true
          · obtain rfl : c = d := Option.some.inj (alike.head?_eq (isNumberChar_of_isDigit isDigit))
            simp [afterDigits, unsigned, digit]
          · rw [unsigned, if_neg isDigit]
            · simp [afterDigits, isDigit, missingDigit]
            · exact fun same => isDigit (by rw [same]; decide)
      · intro n rest read
        simp only [unsigned, digit] at read
        cases read

/-- Only the first character after a number matters to where it ends and what it is. -/
theorem number_local (cs : List Char) : LocalAt number cs := by
  by_cases minus : cs.head? = some '-'
  · obtain ⟨tail, rfl⟩ := List.head?_eq_some_iff.mp minus
    exact (unsigned_local true tail).cons (by decide) fun _ => rfl
  · refine (unsigned_local false cs).congr fun other alike => ?_
    unfold number
    split
    · exact absurd (alike.head?_eq (by decide)) minus
    · rfl

theorem LocalAt.length_le {parser : Parser Number} {cs rest : List Char} {n : Number}
    (isLocal : LocalAt parser cs) (read : parser cs = .ok (n, rest)) : rest.length ≤ cs.length := by
  obtain ⟨used, rfl, _⟩ := isLocal read
  simp

theorem unsigned_length_lt {negative : Bool} {cs rest : List Char} {n : Number}
    (read : unsigned negative cs = .ok (n, rest)) : rest.length < cs.length := by
  simp only [unsigned] at read
  split at read
  · cases read
  · next tail =>
    have afterZero : afterInteger negative 0 0 tail = .ok (n, rest) := by
      split at read
      · split at read
        · cases read
        · exact read
      · exact read
    exact Nat.lt_succ_of_le ((afterInteger_local _ _ _ _).length_le afterZero)
  · next c tail _ =>
    split at read
    · next digit =>
      have bound := (afterInteger_local _ _ _ _).length_le read
      rw [List.dropWhile_cons_of_pos digit] at bound
      exact Nat.lt_succ_of_le (bound.trans (List.dropWhile_sublist _).length_le)
    · cases read

/-- A number takes at least one character. -/
theorem number_length_lt {cs rest : List Char} {n : Number}
    (read : number cs = .ok (n, rest)) : rest.length < cs.length := by
  simp only [number] at read
  split at read
  · exact Nat.lt_succ_of_lt (unsigned_length_lt read)
  · exact unsigned_length_lt read

/-! ## Integers -/

/-- The integers that a number without fraction and exponent can be. -/
def IsWord (n : Int) : Prop := -(2 ^ 63) ≤ n ∧ n < 2 ^ 64

theorem gather_le {g : Nat} (bound : g ≤ maxSignificand) (digits : List Char) :
    (gather g digits).1 ≤ maxSignificand := by
  induction digits generalizing g with
  | nil => exact bound
  | cons d rest ih =>
    simp only [gather]
    split
    · exact bound
    · next fits => exact ih (Nat.not_lt.mp fits)

theorem realOf_isReal {negative : Bool} {g : Nat} {e : Int} {cs rest : List Char} {n : Int} :
    realOf negative g e cs ≠ .ok (.integer n, rest) := by
  unfold realOf
  split <;> simp [failBefore]

theorem exponentPart_isReal {negative : Bool} {g : Nat} {e : Int} {cs rest : List Char} {n : Int} :
    exponentPart negative g e cs ≠ .ok (.integer n, rest) := by
  unfold exponentPart exponentDigits exponentValue
  dsimp only
  split
  · cases List.dropWhile Char.isDigit (exponentSign cs).2 <;> simp [missingDigit, failAt]
  · split
    · exact realOf_isReal
    · split <;> simp [failBefore]

theorem fractionPart_isReal {negative : Bool} {g : Nat} {e : Int} {cs rest : List Char} {n : Int} :
    fractionPart negative g e cs ≠ .ok (.integer n, rest) := by
  unfold fractionPart
  dsimp only
  split
  · cases List.dropWhile Char.isDigit cs <;> simp [missingDigit, failAt]
  · unfold afterFraction
    split
    · exact exponentPart_isReal
    · exact exponentPart_isReal
    · exact realOf_isReal

theorem afterInteger_isWord {negative : Bool} {g dropped : Nat} (bound : g ≤ maxSignificand)
    {cs rest : List Char} {n : Int}
    (read : afterInteger negative g dropped cs = .ok (.integer n, rest)) : IsWord n := by
  unfold afterInteger at read
  split at read
  · exact absurd read fractionPart_isReal
  · exact absurd read exponentPart_isReal
  · exact absurd read exponentPart_isReal
  · split at read
    · unfold integerOf at read
      split at read
      · cases read
        simp only [IsWord, maxSignificand] at bound ⊢
        omega
      · split at read
        · next small =>
          cases read
          simp only [Bool.and_eq_true, decide_eq_true_eq] at small
          simp only [IsWord]
          omega
        · exact absurd read realOf_isReal
    · exact absurd read realOf_isReal

theorem unsigned_isWord {negative : Bool} {cs rest : List Char} {n : Int}
    (read : unsigned negative cs = .ok (.integer n, rest)) : IsWord n := by
  unfold unsigned at read
  split at read
  · cases read
  · split at read
    · split at read
      · cases read
      · exact afterInteger_isWord (Nat.zero_le _) read
    · exact afterInteger_isWord (Nat.zero_le _) read
  · split at read
    · exact afterInteger_isWord (gather_le (Nat.zero_le _) _) read
    · cases read

/-- The integers that are read have 64 bits. -/
theorem number_isWord {cs rest : List Char} {n : Int}
    (read : number cs = .ok (.integer n, rest)) : IsWord n := by
  unfold number at read
  split at read
  · exact unsigned_isWord read
  · exact unsigned_isWord read

theorem gather_eq_of_le {digits : List Char} {g : Nat}
    (fits : Nat.ofDigitChars 10 digits g ≤ maxSignificand) :
    gather g digits = (Nat.ofDigitChars 10 digits g, []) := by
  induction digits generalizing g with
  | nil => simp [gather]
  | cons d rest ih =>
    have step : g * 10 + digitValue d = 10 * g + (d.toNat - '0'.toNat) := by
      rw [digitValue, Nat.mul_comm]
    rw [Nat.ofDigitChars_cons] at fits ⊢
    have small : ¬ maxSignificand < g * 10 + digitValue d := by
      rw [step]
      rw [Nat.ofDigitChars_eq_ofDigitChars_zero] at fits
      have grows : 10 * g + (d.toNat - '0'.toNat) ≤
          10 ^ rest.length * (10 * g + (d.toNat - '0'.toNat)) :=
        Nat.le_mul_of_pos_left _ (Nat.pow_pos (by decide))
      omega
    rw [gather, if_neg small, step, ih fits]

theorem toDigits_head_ne_zero {m : Nat} (positive : 0 < m) :
    (Nat.toDigits 10 m).head? ≠ some '0' := by
  induction m using Nat.strong_induction_on with
  | _ m ih =>
    rw [Nat.toDigits_eq_if (by decide)]
    split
    · next small =>
      interval_cases m <;> decide
    · next large =>
      have shorter := ih (m / 10) (by omega) (by omega)
      cases digits : Nat.toDigits 10 (m / 10) with
      | nil => exact absurd digits Nat.toDigits_ne_nil
      | cons d ds =>
        rw [digits] at shorter
        simpa using shorter

/-- Digits that a text begins with, before something that is no part of a number. -/
theorem takeWhile_toDigits (m : Nat) {rest : List Char} (ends : EndsNumber rest) :
    (Nat.toDigits 10 m ++ rest).takeWhile Char.isDigit = Nat.toDigits 10 m ∧
      (Nat.toDigits 10 m ++ rest).dropWhile Char.isDigit = rest := by
  have digits : ∀ c ∈ Nat.toDigits 10 m, c.isDigit = true :=
    fun c mem => Nat.isDigit_of_mem_toDigits (by decide) (by decide) mem
  rw [List.takeWhile_append_of_pos digits, List.dropWhile_append_of_pos digits]
  cases rest with
  | nil => simp
  | cons c more =>
    have stops : ¬ c.isDigit = true := ends.not_isDigit rfl
    rw [List.takeWhile_cons_of_neg stops, List.dropWhile_cons_of_neg stops]
    simp

theorem afterInteger_ends {negative : Bool} {g : Nat} {rest : List Char} (ends : EndsNumber rest) :
    afterInteger negative g 0 rest = integerOf negative g rest := by
  unfold afterInteger
  split
  · exact absurd (ends '.' rfl) (by decide)
  · exact absurd (ends 'e' rfl) (by decide)
  · exact absurd (ends 'E' rfl) (by decide)
  · rfl

theorem unsigned_toDigits {m : Nat} (bound : m ≤ maxSignificand) (negative : Bool)
    {rest : List Char} (ends : EndsNumber rest) :
    unsigned negative (Nat.toDigits 10 m ++ rest) = integerOf negative m rest := by
  obtain rfl | positive := Nat.eq_zero_or_pos m
  · have noDigit : ∀ c ∈ rest.head?, c.isDigit = false := fun c mem =>
      Bool.eq_false_iff.mpr (ends.not_isDigit mem)
    rw [Nat.toDigits_zero]
    cases rest with
    | nil => rfl
    | cons c more =>
      simp only [List.cons_append, List.nil_append, unsigned, noDigit c rfl]
      exact afterInteger_ends ends
  · obtain ⟨taken, left⟩ := takeWhile_toDigits m ends
    have gathered : gather 0 (Nat.toDigits 10 m) = (m, []) := by
      rw [gather_eq_of_le (by rwa [Nat.ofDigitChars_ten_toDigits]), Nat.ofDigitChars_ten_toDigits]
    have notZero := toDigits_head_ne_zero positive
    cases digits : Nat.toDigits 10 m with
    | nil => exact absurd digits Nat.toDigits_ne_nil
    | cons d ds =>
      have isDigit : d.isDigit = true :=
        Nat.isDigit_of_mem_toDigits (b := 10) (n := m) (by decide) (by decide) (by simp [digits])
      rw [digits] at notZero taken left gathered
      have different : d ≠ '0' := fun same => notZero (by rw [same]; rfl)
      rw [List.cons_append] at taken left ⊢
      rw [unsigned, if_pos isDigit, taken, left, gathered]
      · exact afterInteger_ends ends
      · exact different

/-- An integer of 64 bits is read as it was written. -/
theorem number_writeInteger {n : Int} (word : IsWord n) {rest : List Char}
    (ends : EndsNumber rest) : number (writeInteger n ++ rest) = .ok (.integer n, rest) := by
  unfold IsWord at word
  by_cases negative : n < 0
  · have bound : n.natAbs ≤ maxSignificand := by simp only [maxSignificand]; omega
    have magnitude : (0 < n.natAbs && n.natAbs ≤ 0x8000000000000000) = true := by
      simp only [Bool.and_eq_true, decide_eq_true_eq]
      omega
    have read : number (writeInteger n ++ rest) = integerOf true n.natAbs rest := by
      rw [writeInteger, if_pos negative]
      exact unsigned_toDigits bound true ends
    rw [read, integerOf, if_neg (by decide), if_pos magnitude]
    have value : -(n.natAbs : Int) = n := by omega
    rw [value]
  · have bound : n.natAbs ≤ maxSignificand := by simp only [maxSignificand]; omega
    have read : number (writeInteger n ++ rest) = integerOf false n.natAbs rest := by
      rw [writeInteger, if_neg negative, List.nil_append, ← unsigned_toDigits bound false ends]
      cases digits : Nat.toDigits 10 n.natAbs with
      | nil => exact absurd digits Nat.toDigits_ne_nil
      | cons d ds =>
        have isDigit : d.isDigit = true :=
          Nat.isDigit_of_mem_toDigits (b := 10) (n := n.natAbs) (by decide) (by decide)
            (by simp [digits])
        have notMinus : d ≠ '-' := fun same => by
          rw [same] at isDigit
          exact absurd isDigit (by decide)
        rw [List.cons_append, number]
        exact fun tail same => notMinus (List.cons.inj same).1
    rw [read]
    have value : (n.natAbs : Int) = n := by omega
    simp only [integerOf, Bool.not_false, if_true, value]

/-- Minus zero. -/
def minusZero : Binary64 := ⟨true, 0, Binary64.minExponent⟩

theorem number_writeReal_minusZero {rest : List Char} (ends : EndsNumber rest) :
    number (writeReal minusZero ++ rest) = .ok (.real minusZero, rest) := by
  have written : writeReal minusZero = ['-', '0', '.', '0'] := rfl
  obtain ⟨taken, left⟩ := takeWhile_toDigits 0 ends
  rw [Nat.toDigits_zero] at taken left
  have read : number (writeReal minusZero ++ rest) = afterFraction true 0 (-1) rest := by
    rw [written]
    change fractionPart true 0 0 (['0'] ++ rest) = _
    simp only [fractionPart, taken, left]
    rfl
  rw [read]
  unfold afterFraction
  split
  · exact absurd (ends 'e' rfl) (by decide)
  · exact absurd (ends 'E' rfl) (by decide)
  · rfl

end KernelSpec.Json
