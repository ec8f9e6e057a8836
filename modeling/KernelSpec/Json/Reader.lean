import KernelSpec.Json.Basic

/-! # Reading JSON

A recursive descent over the characters still to read. At most 127 arrays and objects may be open
at once. Inside the reader a failure is a cause together with the number of UTF-8 bytes that were
left; `read` turns that into the line and the column of a `SyntaxError`.

Numbers are not rounded correctly when they have a fraction or an exponent: the significand is
rounded to binary64 first and then multiplied or divided by a rounded power of ten (`scaleTen`).
-/

namespace KernelSpec.Json

/-- Why a text is not JSON. -/
inductive Cause where
  | eofValue
  | eofList
  | eofObject
  | eofString
  | expectedIdent
  | expectedValue
  | expectedColon
  | expectedListCommaOrEnd
  | expectedObjectCommaOrEnd
  | keyMustBeString
  | trailingComma
  | trailingCharacters
  | recursionLimit
  | controlCharacter
  | invalidEscape
  | loneSurrogate
  | unpairedSurrogate
  | invalidNumber
  | numberOutOfRange
deriving DecidableEq, Repr

def Cause.text : Cause → String
  | .eofValue => "EOF while parsing a value"
  | .eofList => "EOF while parsing a list"
  | .eofObject => "EOF while parsing an object"
  | .eofString => "EOF while parsing a string"
  | .expectedIdent => "expected ident"
  | .expectedValue => "expected value"
  | .expectedColon => "expected `:`"
  | .expectedListCommaOrEnd => "expected `,` or `]`"
  | .expectedObjectCommaOrEnd => "expected `,` or `\x7d`"
  | .keyMustBeString => "key must be a string"
  | .trailingComma => "trailing comma"
  | .trailingCharacters => "trailing characters"
  | .recursionLimit => "recursion limit exceeded"
  | .controlCharacter => "control character (\\u0000-\\u001F) found while parsing a string"
  | .invalidEscape => "invalid escape"
  | .loneSurrogate => "lone leading surrogate in hex escape"
  | .unpairedSurrogate => "unexpected end of hex escape"
  | .invalidNumber => "invalid number"
  | .numberOutOfRange => "number out of range"

/-- A cause and how many bytes were left after the place it names. -/
structure ReadError where
  cause : Cause
  left : Nat
deriving DecidableEq, Repr

/-- The number of UTF-8 bytes of the characters. -/
def byteLength (cs : List Char) : Nat := cs.foldl (fun n c => n + c.utf8Size) 0

/-- The part of the characters within the first bytes; a character that the limit cuts counts as
inside. -/
def takeBytes : Nat → List Char → List Char
  | 0, _ => []
  | _, [] => []
  | n + 1, c :: rest => c :: takeBytes (n + 1 - c.utf8Size) rest

/-- The line of a byte offset, from one, and the bytes since the line began. -/
def position (cs : List Char) (offset : Nat) : Nat × Nat :=
  let before := takeBytes offset cs
  let line := (before.reverse.takeWhile (· != '\n')).reverse
  let lineStart := byteLength (before.take (before.length - line.length))
  (before.count '\n' + 1, offset - lineStart)

/-- A cause with its line, from one, and its column, in bytes. -/
structure SyntaxError where
  cause : Cause
  line : Nat
  column : Nat
deriving DecidableEq, Repr

def SyntaxError.message (error : SyntaxError) : String :=
  s!"{error.cause.text} at line {error.line} column {error.column}"

/-- The failure with its place in the characters that were read. -/
def ReadError.locate (error : ReadError) (cs : List Char) : SyntaxError :=
  let place := position cs (byteLength cs - error.left)
  ⟨error.cause, place.1, place.2⟩

/-- Either a value with the characters after it, or a failure. -/
abbrev Outcome (α : Type) := Except ReadError (α × List Char)

abbrev Parser (α : Type) := List Char → Outcome α

/-- Fails at the first of the characters, which counts as read by one byte. -/
def failAt {α : Type} (cause : Cause) (cs : List Char) : Except ReadError α :=
  .error ⟨cause, byteLength cs - 1⟩

/-- Fails before the first of the characters. -/
def failBefore {α : Type} (cause : Cause) (cs : List Char) : Except ReadError α :=
  .error ⟨cause, byteLength cs⟩

def isBlank (c : Char) : Bool := c == ' ' || c == '\n' || c == '\t' || c == '\r'

def skipBlank (cs : List Char) : List Char := cs.dropWhile isBlank

/-- The rest of a literal whose first letter has been read. -/
def literal (value : Value) : List Char → Parser Value
  | [], rest => .ok (value, rest)
  | _ :: _, [] => failAt .eofValue []
  | letter :: letters, c :: rest =>
    if c = letter then literal value letters rest else failAt .expectedIdent (c :: rest)

/-! ## Strings -/

def hexDigit? (c : Char) : Option Nat :=
  if c.isDigit then some (c.toNat - '0'.toNat)
  else if 'a' ≤ c ∧ c ≤ 'f' then some (c.toNat - 'a'.toNat + 10)
  else if 'A' ≤ c ∧ c ≤ 'F' then some (c.toNat - 'A'.toNat + 10)
  else none

def hexValue? (a b c d : Char) : Option Nat := do
  let a ← hexDigit? a
  let b ← hexDigit? b
  let c ← hexDigit? c
  let d ← hexDigit? d
  return ((a * 16 + b) * 16 + c) * 16 + d

/-- Four hexadecimal digits. Four bytes are read before they are looked at, so a failure may lie
inside a character. -/
def hexFour (cs : List Char) : Outcome Nat :=
  let failure : Outcome Nat :=
    if byteLength cs < 4 then failAt .eofString []
    else .error ⟨.invalidEscape, byteLength cs - 4⟩
  match cs with
  | a :: b :: c :: d :: rest =>
    match hexValue? a b c d with
    | some n => .ok (n, rest)
    | none => failure
  | _ => failure

def isHighSurrogate (n : Nat) : Bool := 0xD800 ≤ n && n < 0xDC00

def isLowSurrogate (n : Nat) : Bool := 0xDC00 ≤ n && n < 0xE000

/-- The second half of a surrogate pair. -/
def lowSurrogate : Parser Nat
  | [] => failAt .eofString []
  | '\\' :: 'u' :: rest =>
    match hexFour rest with
    | .error e => .error e
    | .ok (n, rest) => if isLowSurrogate n then .ok (n, rest) else failBefore .loneSurrogate rest
  | ['\\'] => failAt .eofString []
  | '\\' :: rest => failAt .unpairedSurrogate rest
  | rest => failAt .unpairedSurrogate rest

/-- The character of a `\u` escape, after the `u`. -/
def unicodeEscape (cs : List Char) : Outcome Char :=
  match hexFour cs with
  | .error e => .error e
  | .ok (n, rest) =>
    if isLowSurrogate n then failBefore .loneSurrogate rest
    else if isHighSurrogate n then
      match lowSurrogate rest with
      | .error e => .error e
      | .ok (low, rest) => .ok (Char.ofNat (0x10000 + (n - 0xD800) * 0x400 + (low - 0xDC00)), rest)
    else .ok (Char.ofNat n, rest)

/-- The character of an escape, after the backslash. -/
def escape : Parser Char
  | [] => failAt .eofString []
  | '"' :: rest => .ok ('"', rest)
  | '\\' :: rest => .ok ('\\', rest)
  | '/' :: rest => .ok ('/', rest)
  | 'b' :: rest => .ok ('\x08', rest)
  | 'f' :: rest => .ok ('\x0c', rest)
  | 'n' :: rest => .ok ('\n', rest)
  | 'r' :: rest => .ok ('\r', rest)
  | 't' :: rest => .ok ('\t', rest)
  | 'u' :: rest => unicodeEscape rest
  | rest => failAt .invalidEscape rest

/-- The characters of a string up to the closing quote. Every round reads a character, so the
number of characters left is enough fuel. -/
def stringBody : Nat → Parser (List Char)
  | _, [] => failAt .eofString []
  | 0, cs => failAt .eofString cs
  | fuel + 1, c :: rest =>
    if c = '"' then .ok ([], rest)
    else if c = '\\' then
      match escape rest with
      | .error e => .error e
      | .ok (d, rest) => (stringBody fuel rest).map fun (ds, rest) => (d :: ds, rest)
    else if c.toNat < 0x20 then failAt .controlCharacter (c :: rest)
    else (stringBody fuel rest).map fun (ds, rest) => (c :: ds, rest)

/-- A string, after the opening quote. -/
def quoted (cs : List Char) : Outcome String :=
  (stringBody cs.length cs).map fun (ds, rest) => (String.ofList ds, rest)

/-! ## Numbers -/

/-- The largest significand. -/
def maxSignificand : Nat := 0xFFFFFFFFFFFFFFFF

/-- The largest decimal exponent. -/
def maxExponent : Nat := 0x7FFFFFFF

def digitValue (c : Char) : Nat := c.toNat - '0'.toNat

/-- Gathers digits while the significand stays within 64 bits; also the digits left over. -/
def gather : Nat → List Char → Nat × List Char
  | g, [] => (g, [])
  | g, d :: rest =>
    if maxSignificand < g * 10 + digitValue d then (g, d :: rest)
    else gather (g * 10 + digitValue d) rest

/-- `10 ^ n` as a binary64 number, for `n ≤ 308`. -/
def powerOfTen (n : Nat) : Binary64 :=
  (Binary64.ofRatio? false (Nat.pow 10 n) 1).getD ⟨false, 0, Binary64.minExponent⟩

/-- `f * 10 ^ e`, by one multiplication or division after as many divisions by `10 ^ 308` as the
exponent asks; `none` when the result is too large. -/
def scaleTen : Nat → Binary64 → Int → Option Binary64
  | rounds, f, e =>
    if e.natAbs ≤ 308 then
      if 0 ≤ e then f.mul? (powerOfTen e.natAbs) else f.div? (powerOfTen e.natAbs)
    else if f.isZero then some f
    else if 0 ≤ e then none
    else
      match rounds with
      | 0 => some f
      | rounds + 1 =>
        match f.div? (powerOfTen 308) with
        | none => none
        | some g => scaleTen rounds g (e + 308)

/-- The number `± g * 10 ^ e`. -/
def realOf (negative : Bool) (g : Nat) (e : Int) (rest : List Char) : Outcome Number :=
  match (Binary64.ofRatio? false g 1).bind fun f => scaleTen (e.natAbs / 308 + 1) f e with
  | none => failBefore .numberOutOfRange rest
  | some f => .ok (.real { f with negative }, rest)

/-- The digits of an exponent up to the limit, with what is left of them when it is passed. -/
def gatherExponent : Nat → List Char → Nat × Option (List Char)
  | n, [] => (n, none)
  | n, d :: rest =>
    if maxExponent < n * 10 + digitValue d then (n, some rest)
    else gatherExponent (n * 10 + digitValue d) rest

/-- Keeps a decimal exponent within 32 bits. -/
def saturate (e : Int) : Int := max (-0x80000000) (min 0x7FFFFFFF e)

/-- Whether an exponent is negative, and the characters after its sign. -/
def exponentSign : List Char → Bool × List Char
  | '+' :: rest => (false, rest)
  | '-' :: rest => (true, rest)
  | cs => (false, cs)

/-- Fails where a digit has to stand. -/
def missingDigit {α : Type} : List Char → Except ReadError α
  | [] => failAt .eofValue []
  | rest => failAt .invalidNumber rest

/-- The number with the digits of an exponent. An exponent beyond the limit leaves zero, or is out
of range just after the digit that passed it. -/
def exponentValue (negative : Bool) (g : Nat) (e : Int) (down : Bool) (digits rest : List Char) :
    Outcome Number :=
  match gatherExponent 0 digits with
  | (n, none) => realOf negative g (saturate (if down then e - n else e + n)) rest
  | (_, some unread) =>
    if g ≠ 0 && !down then failBefore .numberOutOfRange (unread ++ rest)
    else .ok (.real ⟨negative, 0, Binary64.minExponent⟩, rest)

/-- The exponent part, after the sign. -/
def exponentDigits (negative : Bool) (g : Nat) (e : Int) (down : Bool) (cs : List Char) :
    Outcome Number :=
  let digits := cs.takeWhile Char.isDigit
  let rest := cs.dropWhile Char.isDigit
  if digits.isEmpty then missingDigit rest else exponentValue negative g e down digits rest

/-- The exponent part, after the letter. -/
def exponentPart (negative : Bool) (g : Nat) (e : Int) (cs : List Char) : Outcome Number :=
  exponentDigits negative g e (exponentSign cs).1 (exponentSign cs).2

/-- What follows the digits of a number with significand `g` and decimal exponent `e`: an exponent
part or nothing. -/
def afterFraction (negative : Bool) (g : Nat) (e : Int) : List Char → Outcome Number
  | 'e' :: rest => exponentPart negative g e rest
  | 'E' :: rest => exponentPart negative g e rest
  | rest => realOf negative g e rest

/-- The digits after a point. -/
def fractionPart (negative : Bool) (g : Nat) (e : Int) (cs : List Char) : Outcome Number :=
  let digits := cs.takeWhile Char.isDigit
  let rest := cs.dropWhile Char.isDigit
  if digits.isEmpty then missingDigit rest
  else
    let (g, dropped) := gather g digits
    afterFraction negative g (e - (digits.length - dropped.length : Nat)) rest

/-- An integer without fraction and exponent. Minus zero and integers below `-2 ^ 63` are binary64
numbers. -/
def integerOf (negative : Bool) (g : Nat) (rest : List Char) : Outcome Number :=
  if !negative then .ok (.integer g, rest)
  else if 0 < g && g ≤ 0x8000000000000000 then .ok (.integer (-g), rest)
  else realOf true g 0 rest

/-- What follows the integer digits, of which `dropped` did not fit. -/
def afterInteger (negative : Bool) (g : Nat) (dropped : Nat) : List Char → Outcome Number
  | '.' :: rest => fractionPart negative g dropped rest
  | 'e' :: rest => exponentPart negative g dropped rest
  | 'E' :: rest => exponentPart negative g dropped rest
  | rest => if dropped = 0 then integerOf negative g rest else realOf negative g dropped rest

/-- A number without its sign. -/
def unsigned (negative : Bool) : List Char → Outcome Number
  | [] => failAt .eofValue []
  | '0' :: rest =>
    match rest with
    | d :: _ => if d.isDigit then failAt .invalidNumber rest else afterInteger negative 0 0 rest
    | [] => afterInteger negative 0 0 rest
  | c :: rest =>
    if c.isDigit then
      let (g, dropped) := gather 0 ((c :: rest).takeWhile Char.isDigit)
      afterInteger negative g dropped.length ((c :: rest).dropWhile Char.isDigit)
    else failAt .invalidNumber (c :: rest)

def number : List Char → Outcome Number
  | '-' :: rest => unsigned true rest
  | cs => unsigned false cs

/-! ## Arrays, objects and values -/

/-- The elements of an array after the first, up to the closing bracket. Every round reads a
comma, so the number of characters left is enough fuel. -/
def arrayTail (item : Parser Value) : Nat → Parser (List Value)
  | 0, _ => failAt .eofList []
  | fuel + 1, cs =>
    match skipBlank cs with
    | [] => failAt .eofList []
    | ']' :: rest => .ok ([], rest)
    | ',' :: rest =>
      match skipBlank rest with
      | [] => failAt .eofValue []
      | ']' :: rest => failAt .trailingComma (']' :: rest)
      | rest =>
        match item rest with
        | .error e => .error e
        | .ok (v, rest) => (arrayTail item fuel rest).map fun (vs, rest) => (v :: vs, rest)
    | rest => failAt .expectedListCommaOrEnd rest

/-- An array, after the opening bracket. -/
def arrayBody (item : Parser Value) (cs : List Char) : Outcome (List Value) :=
  match skipBlank cs with
  | [] => failAt .eofList []
  | ']' :: rest => .ok ([], rest)
  | cs =>
    match item cs with
    | .error e => .error e
    | .ok (v, rest) =>
      (arrayTail item (rest.length + 1) rest).map fun (vs, rest) => (v :: vs, rest)

/-- A member, after the quote that opens its name. -/
def member (item : Parser Value) (cs : List Char) : Outcome (String × Value) :=
  match quoted cs with
  | .error e => .error e
  | .ok (name, rest) =>
    match skipBlank rest with
    | [] => failAt .eofObject []
    | ':' :: rest => (item rest).map fun (v, rest) => ((name, v), rest)
    | rest => failAt .expectedColon rest

/-- The members of an object after the first, added to those read before. -/
def objectTail (item : Parser Value) : Nat → Dictionary Value → Parser (Dictionary Value)
  | 0, _, _ => failAt .eofObject []
  | fuel + 1, members, cs =>
    match skipBlank cs with
    | [] => failAt .eofObject []
    | '\x7d' :: rest => .ok (members, rest)
    | ',' :: rest =>
      match skipBlank rest with
      | [] => failAt .eofValue []
      | '"' :: rest =>
        match member item rest with
        | .error e => .error e
        | .ok ((name, v), rest) => objectTail item fuel (members.insert name v) rest
      | '\x7d' :: rest => failAt .trailingComma ('\x7d' :: rest)
      | rest => failAt .keyMustBeString rest
    | rest => failAt .expectedObjectCommaOrEnd rest

/-- An object, after the opening brace. -/
def objectBody (item : Parser Value) (cs : List Char) : Outcome (Dictionary Value) :=
  match skipBlank cs with
  | [] => failAt .eofObject []
  | '\x7d' :: rest => .ok ([], rest)
  | '"' :: rest =>
    match member item rest with
    | .error e => .error e
    | .ok ((name, v), rest) => objectTail item (rest.length + 1) (Dictionary.insert name v []) rest
  | rest => failAt .keyMustBeString rest

/-- A value whose elements are read by `inner?`; without it no array or object may open. -/
def valueWith (inner? : Option (Parser Value)) (cs : List Char) : Outcome Value :=
  match skipBlank cs with
  | [] => failAt .eofValue []
  | 'n' :: rest => literal .null ['u', 'l', 'l'] rest
  | 't' :: rest => literal (.bool true) ['r', 'u', 'e'] rest
  | 'f' :: rest => literal (.bool false) ['a', 'l', 's', 'e'] rest
  | '"' :: rest => (quoted rest).map fun (s, rest) => (.string s, rest)
  | '[' :: rest =>
    match inner? with
    | none => failAt .recursionLimit ('[' :: rest)
    | some item => (arrayBody item rest).map fun (vs, rest) => (.array vs, rest)
  | '\x7b' :: rest =>
    match inner? with
    | none => failAt .recursionLimit ('\x7b' :: rest)
    | some item => (objectBody item rest).map fun (members, rest) => (.object members, rest)
  | c :: rest =>
    if c == '-' || c.isDigit then (number (c :: rest)).map fun (n, rest) => (.number n, rest)
    else failAt .expectedValue (c :: rest)

/-- A value in which at most `depth` arrays and objects are open at once. -/
def value : Nat → Parser Value
  | 0 => valueWith none
  | depth + 1 => valueWith (some (value depth))

/-- How many arrays and objects may be open at once. -/
def maxDepth : Nat := 127

/-- The value that the characters spell, with nothing but blanks after it. -/
def document (cs : List Char) : Except ReadError Value :=
  match value maxDepth cs with
  | .error e => .error e
  | .ok (v, rest) =>
    match skipBlank rest with
    | [] => .ok v
    | rest => failAt .trailingCharacters rest

/-- The value that a text spells. -/
def read (text : String) : Except SyntaxError Value :=
  (document text.toList).mapError (·.locate text.toList)

end KernelSpec.Json
