import KernelSpec.Json.Basic
import KernelSpec.Number.Shortest

/-! # Writing JSON

The members of every object are sorted by name first. Four blanks for each level, one element on a
line, `[]` and `{}` for what is empty, and no newline at the end. In strings only the quote, the
backslash and the characters below U+0020 are escaped.
-/

namespace KernelSpec.Json

def hexChar (n : Nat) : Char := (Nat.toDigits 16 n).getD 0 '0'

/-- A character as it stands in a string. -/
def escapeChar (c : Char) : List Char :=
  if c = '"' then ['\\', '"']
  else if c = '\\' then ['\\', '\\']
  else if c = '\x08' then ['\\', 'b']
  else if c = '\x0c' then ['\\', 'f']
  else if c = '\n' then ['\\', 'n']
  else if c = '\r' then ['\\', 'r']
  else if c = '\t' then ['\\', 't']
  else if c.toNat < 0x20 then
    ['\\', 'u', '0', '0', hexChar (c.toNat / 16), hexChar (c.toNat % 16)]
  else [c]

/-- The characters of a text as they stand between quotes. -/
def escapeChars (cs : List Char) : List Char := cs.flatMap escapeChar

/-- The text as it stands between quotes. -/
def escapeText (s : String) : String := String.ofList (escapeChars s.toList)

def writeString (s : String) : List Char := '"' :: escapeChars s.toList ++ ['"']

/-! ## Numbers -/

/-- Decimal digits are written without exponent up to this power of ten. -/
def maxPoint : Int := 16

/-- Decimal digits are written without exponent above this power of ten. -/
def minPoint : Int := -5

/-- Digits with a point, or with an exponent when the number is very large or very small. A sign
stands before a positive exponent, and a single digit has no point before an exponent. -/
def layout (d : Decimal) : List Char :=
  let count : Int := d.digits.length
  if count ≤ d.point ∧ d.point ≤ maxPoint then
    d.digits ++ List.replicate (d.point - count).toNat '0' ++ ['.', '0']
  else if 0 < d.point ∧ d.point ≤ maxPoint then
    d.digits.take d.point.toNat ++ '.' :: d.digits.drop d.point.toNat
  else if minPoint < d.point ∧ d.point ≤ 0 then
    '0' :: '.' :: List.replicate (-d.point).toNat '0' ++ d.digits
  else
    let fraction := if d.digits.length = 1 then [] else '.' :: d.digits.drop 1
    let exponent := Nat.toDigits 10 (d.point - 1).natAbs
    let sign := if 0 < d.point then '+' else '-'
    d.digits.take 1 ++ fraction ++ 'e' :: sign :: exponent

def writeReal (x : Binary64) : List Char :=
  let sign := if x.negative then ['-'] else []
  sign ++ if x.isZero then ['0', '.', '0'] else layout (Decimal.shortest x)

def writeInteger (n : Int) : List Char :=
  (if n < 0 then ['-'] else []) ++ Nat.toDigits 10 n.natAbs

def writeNumber : Number → List Char
  | .integer n => writeInteger n
  | .real x => writeReal x

/-! ## Values -/

/-- The blanks of a level. -/
def indentWidth : Nat := 4

/-- A new line at the given level. -/
def newline (level : Nat) : List Char := '\n' :: List.replicate (indentWidth * level) ' '

mutual

/-- The characters of a value that stands at the given level. -/
def writeValue (level : Nat) : Value → List Char
  | .null => ['n', 'u', 'l', 'l']
  | .bool true => ['t', 'r', 'u', 'e']
  | .bool false => ['f', 'a', 'l', 's', 'e']
  | .number n => writeNumber n
  | .string s => writeString s
  | .array [] => ['[', ']']
  | .array (v :: vs) =>
    '[' :: newline (level + 1) ++ writeValue (level + 1) v ++ writeItems (level + 1) vs ++
      newline level ++ [']']
  | .object [] => ['\x7b', '\x7d']
  | .object ((name, v) :: members) =>
    '\x7b' :: newline (level + 1) ++ writeString name ++ [':', ' '] ++ writeValue (level + 1) v ++
      writeMembers (level + 1) members ++ newline level ++ ['\x7d']

/-- The elements after the first. -/
def writeItems (level : Nat) : List Value → List Char
  | [] => []
  | v :: vs => ',' :: newline level ++ writeValue level v ++ writeItems level vs

/-- The members after the first. -/
def writeMembers (level : Nat) : List (String × Value) → List Char
  | [] => []
  | (name, v) :: members =>
    ',' :: newline level ++ writeString name ++ [':', ' '] ++ writeValue level v ++
      writeMembers level members

end

/-! ## The order of members -/

mutual

/-- The value with the members of every object, at any depth, in the order of their names. -/
def sortKeys : Value → Value
  | .array items => .array (sortItems items)
  | .object members => .object (Dictionary.sortEntries (sortMembers members))
  | v => v

/-- The elements, each with the members of its objects in order. -/
def sortItems : List Value → List Value
  | [] => []
  | v :: vs => sortKeys v :: sortItems vs

/-- The members as they are listed, each with the members of its objects in order. -/
def sortMembers : List (String × Value) → List (String × Value)
  | [] => []
  | (name, v) :: members => (name, sortKeys v) :: sortMembers members

end

/-- The text of a value, with the members of its objects in order. -/
def write (v : Value) : String := String.ofList (writeValue 0 (sortKeys v))

end KernelSpec.Json
