/-! # Durations

A duration is an optional minus, decimal digits that form a signed 64-bit number, any characters
that are not of words, and optionally the name of a time unit in any case. `check` says whether a
text is a duration and, if not, why.
-/

namespace KernelSpec

/-- Why a value of a setting is refused. -/
inductive ValueError where
  | invalidDuration (value : String)
  | unknownTimeUnit (unit : String)
deriving DecidableEq, Repr

namespace Duration

def timeUnits : List String :=
  ["NANOSECONDS", "MICROSECONDS", "MILLISECONDS", "SECONDS", "MINUTES", "HOURS", "DAYS"]

/-- The text of characters in upper case, by the ASCII letters only. -/
def upper (cs : List Char) : List Char := cs.map Char.toUpper

def isKnownUnit (unit : List Char) : Bool := timeUnits.any fun name => name.toList == upper unit

/-- ASCII letters, digits and the underscore. -/
def isWordChar (c : Char) : Bool := c.isAlphanum || c == '_'

/-- The sign and the characters after it. -/
def splitSign : List Char → Bool × List Char
  | '-' :: rest => (true, rest)
  | cs => (false, cs)

/-- The number that decimal digits spell. -/
def decimalValue (digits : List Char) : Nat :=
  digits.foldl (fun n d => n * 10 + (d.toNat - '0'.toNat)) 0

/-- Whether the number with this sign and these digits is within 64 bits. -/
def fits (negative : Bool) (digits : List Char) : Bool :=
  decimalValue digits ≤ if negative then 0x8000000000000000 else 0x7FFFFFFFFFFFFFFF

/-- The unit that follows the amount: what is left after the characters that are not of words. -/
def unitAfter (cs : List Char) : List Char := cs.dropWhile fun c => !isWordChar c

/-- Accepts exactly the durations. A unit of letters only is named when it is unknown; anything
else makes the whole value invalid. -/
def check (value : String) : Except ValueError Unit :=
  let (negative, unsigned) := splitSign value.toList
  let digits := unsigned.takeWhile Char.isDigit
  let unit := unitAfter (unsigned.dropWhile Char.isDigit)
  if digits.isEmpty || !fits negative digits then .error (.invalidDuration value)
  else if unit.isEmpty then .ok ()
  else if !unit.all Char.isAlpha then .error (.invalidDuration value)
  else if isKnownUnit unit then .ok ()
  else .error (.unknownTimeUnit (String.ofList unit))

end Duration

def ValueError.message : ValueError → String
  | .invalidDuration value =>
    s!"'{value}' is not a duration; expected a whole number optionally followed by a time unit " ++
      "(e.g. 5000, -1, \"30 SECONDS\", 30SECONDS)"
  | .unknownTimeUnit unit =>
    s!"unknown time unit '{unit}'; expected one of " ++ ", ".intercalate Duration.timeUnits

end KernelSpec
