/-! # Byte strings and their text

Paths, arguments, variables and file contents are byte strings. `text?` is the exact view: it
exists only for valid UTF-8. `display` is the view used in messages: it exists for every byte
string and shows each broken sequence as one U+FFFD. Nothing is claimed about bytes that
`display` has replaced; programs that go on working with a byte string keep the bytes.
-/

namespace KernelSpec

/-- A path, an argument, a variable or a file content: any bytes at all. -/
abbrev Bytes := List UInt8

namespace Bytes

/-- The UTF-8 bytes of a text. -/
def ofString (s : String) : Bytes := s.toByteArray.data.toList

/-- The text that the bytes spell, when they are UTF-8. -/
def text? (b : Bytes) : Option String := String.fromUTF8? ⟨b.toArray⟩

theorem text?_ofString (s : String) : text? (ofString s) = some s := by
  have bytes : (⟨(ofString s).toArray⟩ : ByteArray) = s.toByteArray := by simp [ofString]
  simp [text?, bytes, String.fromUTF8?, String.fromUTF8, s.isValidUTF8]

theorem ofString_of_text? {b : Bytes} {s : String} (found : text? b = some s) : ofString s = b := by
  unfold text? String.fromUTF8? at found
  split at found
  · cases found
    simp [ofString, String.fromUTF8]
  · cases found

theorem ofString_injective {s t : String} (same : ofString s = ofString t) : s = t := by
  have texts := congrArg text? same
  rw [text?_ofString, text?_ofString] at texts
  exact Option.some.inj texts

theorem ofString_append (s t : String) : ofString (s ++ t) = ofString s ++ ofString t := by
  simp [ofString]

/-- A trailing octet of a character, where no narrower range applies. -/
def anyTail : UInt8 × UInt8 := (0x80, 0xBF)

/-- The ranges of the octets that follow a first octet in UTF-8; `none` when the octet starts no
character. The second octet is narrower after E0, ED, F0 and F4, which excludes overlong forms,
surrogates and code points above U+10FFFF. -/
def tails? (lead : UInt8) : Option (List (UInt8 × UInt8)) :=
  if lead < 0x80 then some []
  else if lead < 0xC2 then none
  else if lead < 0xE0 then some [anyTail]
  else if lead = 0xE0 then some [(0xA0, 0xBF), anyTail]
  else if lead = 0xED then some [(0x80, 0x9F), anyTail]
  else if lead < 0xF0 then some [anyTail, anyTail]
  else if lead = 0xF0 then some [(0x90, 0xBF), anyTail, anyTail]
  else if lead < 0xF4 then some [anyTail, anyTail, anyTail]
  else if lead = 0xF4 then some [(0x80, 0x8F), anyTail, anyTail]
  else none

/-- How many of the leading octets fit the ranges, one range for each. -/
def fitting : List (UInt8 × UInt8) → Bytes → Nat
  | (low, high) :: ranges, b :: rest =>
    if low ≤ b ∧ b ≤ high then fitting ranges rest + 1 else 0
  | _, _ => 0

/-- The code point of a complete sequence: six bits of each trailing octet after the bits that the
first octet has left. -/
def codePoint (lead : UInt8) (tail : Bytes) : Nat :=
  let start := if tail.isEmpty then lead.toNat else lead.toNat % Nat.pow 2 (6 - tail.length)
  tail.foldl (fun acc b => acc * 64 + b.toNat % 64) start

/-- Shown in the place of a broken sequence. -/
def replacement : Char := '\ufffd'

/-- The first character shown and how many octets after the first it covers. A broken sequence
covers the longest part of it that could have started a character. -/
def shownHead (lead : UInt8) (rest : Bytes) : Char × Nat :=
  match tails? lead with
  | none => (replacement, 0)
  | some ranges =>
    let count := fitting ranges rest
    if count = ranges.length then (Char.ofNat (codePoint lead (rest.take count)), count)
    else (replacement, count)

/-- The characters shown for the bytes, after skipping octets already covered. -/
def shown : Nat → Bytes → List Char
  | _, [] => []
  | skip + 1, _ :: rest => shown skip rest
  | 0, b :: rest => (shownHead b rest).1 :: shown (shownHead b rest).2 rest

/-- The text of the bytes for a message. -/
def display (b : Bytes) : String := String.ofList (shown 0 b)

end Bytes

end KernelSpec
