import KernelSpec.Number.Binary64

/-! # Shortest decimal digits

The decimal digits written for a binary64 number: the fewest that round back to it, of those the
nearest to it, and at equal distance the even ones. Whether digits round back is asked of
`Binary64.ofRatio?` itself, on exact ratios.
-/

namespace KernelSpec

/-- The positive number `0.d₁d₂… * 10 ^ point`, with `d₁` the first digit. -/
structure Decimal where
  digits : List Char
  point : Int
deriving DecidableEq, Repr

namespace Decimal

/-- The number of decimal digits of a positive number. -/
def width (n : Nat) : Nat := (Nat.toDigits 10 n).length

/-- The point of `num / den`: the power of ten just above it. -/
def pointOf (num den : Nat) : Int :=
  if den ≤ num then width (num / den) else 1 - (width ((den - 1) / num) : Int)

/-- The ratio `num / den` divided by `10 ^ e`, as a numerator and a denominator. -/
def scaleBy (num den : Nat) (e : Int) : Nat × Nat :=
  if 0 ≤ e then (num, den * Nat.pow 10 e.toNat) else (num * Nat.pow 10 (-e).toNat, den)

/-- Whether `n * 10 ^ e` rounds to the number. -/
def readsBack (x : Binary64) (n : Nat) (e : Int) : Bool :=
  let ratio := scaleBy n 1 (-e)
  Binary64.ofRatio? x.negative ratio.1 ratio.2 == some x

/-- The neighbour of the number on the grid `10 ^ e` that reads back, if there is one; of two the
nearer, and the even one at equal distance. -/
def onGrid? (x : Binary64) (e : Int) : Option Nat :=
  let scaled := scaleBy x.magnitude.1 x.magnitude.2 e
  let low := scaled.1 / scaled.2
  match readsBack x low e, readsBack x (low + 1) e with
  | true, true => some (Binary64.roundHalfEven scaled.1 scaled.2)
  | true, false => some low
  | false, true => some (low + 1)
  | false, false => none

/-- The digits of `n * 10 ^ e` without the zeros at the end. -/
def ofGrid (n : Nat) (e : Int) : Decimal :=
  let digits := Nat.toDigits 10 n
  ⟨(digits.reverse.dropWhile (· == '0')).reverse, e + digits.length⟩

/-- Seventeen digits always read back. -/
def maxDigits : Nat := 17

/-- The shortest digits of a nonzero number. -/
def shortest (x : Binary64) : Decimal :=
  let point := pointOf x.magnitude.1 x.magnitude.2
  let found := (List.range maxDigits).findSome? fun count =>
    let e := point - (count + 1 : Nat)
    (onGrid? x e).map (ofGrid · e)
  found.getD (ofGrid 0 0)

end Decimal

end KernelSpec
