import KernelSpec.Path
import Mathlib

/-! # The bytes of a text

The bytes of a text are those of its characters one after another (`ofString_eq`). A smaller
character has smaller bytes, whatever follows them, so texts are ordered like their bytes
(`ofString_lt_ofString`).
-/

namespace KernelSpec.Bytes

theorem ofString_ofList (cs : List Char) :
    ofString (String.ofList cs) = cs.flatMap String.utf8EncodeChar := by
  simp [ofString, List.utf8Encode]

theorem ofString_eq (s : String) : ofString s = s.toList.flatMap String.utf8EncodeChar := by
  rw [← ofString_ofList, String.ofList_toList]

/-- A character whose first byte is one of ASCII has the code point of this byte. -/
theorem toNat_of_head? {c : Char} {b : UInt8} (head : (String.utf8EncodeChar c).head? = some b)
    (ascii : b.toNat < 128) : c.toNat = b.toNat := by
  have byte (n : Nat) (same : UInt8.ofNat n = b) : n % 256 = b.toNat := congrArg UInt8.toNat same
  change c.val.toNat = b.toNat
  unfold String.utf8EncodeChar at head
  dsimp only at head
  split_ifs at head <;>
  · have value := byte _ (Option.some.inj head)
    omega

/-- Only the slash is written with the byte of the slash at its head. -/
theorem eq_slash_of_head? {c : Char}
    (slash : (String.utf8EncodeChar c).head? = some Path.slash) : c = '/' :=
  Char.toNat_inj.mp (toNat_of_head? slash (by decide))

/-! ## Order -/

/-- Numbers are ordered like their digits to base 64. -/
theorem lt_digits {m n : Nat} (less : m < n) :
    m / 262144 < n / 262144 ∨ m / 262144 = n / 262144 ∧
      (m / 4096 % 64 < n / 4096 % 64 ∨ m / 4096 % 64 = n / 4096 % 64 ∧
        (m / 64 % 64 < n / 64 % 64 ∨ m / 64 % 64 = n / 64 % 64 ∧ m % 64 < n % 64)) := by
  omega

theorem codePoint_lt (c : Char) : c.val.toNat < 0x110000 := by
  rcases c.valid with low | ⟨_, high⟩
  · exact low.trans (by decide)
  · exact high

theorem utf8EncodeChar_append_lt {c d : Char} (less : c < d) (after other : Bytes) :
    String.utf8EncodeChar c ++ after < String.utf8EncodeChar d ++ other := by
  have codes : c.val.toNat < d.val.toNat := UInt32.lt_iff_toNat_lt.mp less
  have digits := lt_digits codes
  have lead (c : Char) : (c.val.toNat / 262144 % 8 + 240) % 256 = c.val.toNat / 262144 + 240 := by
    have bound := codePoint_lt c
    omega
  have tail (n : Nat) : (n % 64 + 128) % 256 = n % 64 + 128 := by omega
  unfold String.utf8EncodeChar
  dsimp only
  -- A longer sequence has a larger first byte; in one of the same length the bytes are digits.
  split_ifs <;>
    simp only [List.cons_append, List.cons_lt_cons_iff, UInt8.lt_iff_toNat_lt, ← UInt8.toNat_inj,
      UInt8.toNat_ofNat', lead, tail] <;>
    omega

theorem flatMap_utf8EncodeChar_lt {cs ds : List Char} (less : cs < ds) :
    cs.flatMap String.utf8EncodeChar < ds.flatMap String.utf8EncodeChar := by
  induction less with
  | @nil d ds =>
    rw [List.flatMap_cons]
    have bytes := String.utf8EncodeChar_ne_nil (c := d)
    cases encoded : String.utf8EncodeChar d with
    | nil => exact absurd encoded bytes
    | cons b more => exact .nil
  | cons _ ih =>
    rw [List.flatMap_cons, List.flatMap_cons]
    exact List.append_left_lt ih
  | rel less =>
    rw [List.flatMap_cons, List.flatMap_cons]
    exact utf8EncodeChar_append_lt less _ _

/-- A smaller text has smaller bytes. -/
theorem ofString_lt_ofString {s t : String} (less : s < t) : ofString s < ofString t := by
  rw [ofString_eq, ofString_eq]
  exact flatMap_utf8EncodeChar_lt (String.lt_iff_toList_lt.mp less)

end KernelSpec.Bytes
