/-! # Binary64 numbers

A finite binary64 number is a sign, a significand and an exponent. Every operation is the exact
result, a ratio of natural numbers, rounded once to the nearest number with ties going to the even
significand; `none` stands for a result beyond the largest finite number. No operation here
produces an infinity or a NaN as a value.
-/

namespace KernelSpec

/-- The number `± significand * 2 ^ exponent`. Values built by `ofRatio?` have
`significand < 2 ^ 53`, `-1074 ≤ exponent`, and the exponent is least unless the significand
has 53 bits. -/
structure Binary64 where
  negative : Bool
  significand : Nat
  exponent : Int
deriving DecidableEq, Repr

namespace Binary64

/-- The exponent of the smallest positive number. -/
def minExponent : Int := -1074

/-- The exponent of the largest finite number. -/
def maxExponent : Int := 971

/-- The ratio `num / den` divided by `2 ^ e`, as a numerator and a denominator. -/
def scaleBy (num den : Nat) (e : Int) : Nat × Nat :=
  if 0 ≤ e then (num, den * Nat.pow 2 e.toNat) else (num * Nat.pow 2 (-e).toNat, den)

/-- The integer nearest to `num / den`; a half goes to the even neighbour. -/
def roundHalfEven (num den : Nat) : Nat :=
  let floor := num / den
  let twice := 2 * (num % den)
  if twice < den then floor
  else if den < twice then floor + 1
  else floor + floor % 2

/-- The exponent at which `num / den` has 53 bits before the point, or the least exponent. The
difference of the bit lengths is that exponent or one below it. -/
def exponentFor (num den : Nat) : Int :=
  let least := max minExponent ((num.log2 : Int) - den.log2 - 53)
  let scaled := scaleBy num den least
  if scaled.1 / scaled.2 < Nat.pow 2 53 then least else least + 1

/-- The number nearest to `± num / den`, for a positive `den`; `none` when it is too large. -/
def ofRatio? (negative : Bool) (num den : Nat) : Option Binary64 :=
  if num = 0 then some ⟨negative, 0, minExponent⟩
  else
    let e := exponentFor num den
    let scaled := scaleBy num den e
    let m := roundHalfEven scaled.1 scaled.2
    let rounded : Binary64 :=
      if m = Nat.pow 2 53 then ⟨negative, Nat.pow 2 52, e + 1⟩ else ⟨negative, m, e⟩
    if maxExponent < rounded.exponent then none else some rounded

/-- The absolute value as a numerator and a positive denominator. -/
def magnitude (x : Binary64) : Nat × Nat := scaleBy x.significand 1 (-x.exponent)

def isZero (x : Binary64) : Bool := x.significand == 0

def mul? (x y : Binary64) : Option Binary64 :=
  ofRatio? (x.negative != y.negative) (x.magnitude.1 * y.magnitude.1)
    (x.magnitude.2 * y.magnitude.2)

/-- The quotient, for a nonzero `y`. -/
def div? (x y : Binary64) : Option Binary64 :=
  ofRatio? (x.negative != y.negative) (x.magnitude.1 * y.magnitude.2)
    (x.magnitude.2 * y.magnitude.1)

/-- The sum of two numbers that are not negative. -/
def add? (x y : Binary64) : Option Binary64 :=
  ofRatio? false (x.magnitude.1 * y.magnitude.2 + y.magnitude.1 * x.magnitude.2)
    (x.magnitude.2 * y.magnitude.2)

/-- Order of two numbers that are not negative. -/
def lt (x y : Binary64) : Bool :=
  decide (x.magnitude.1 * y.magnitude.2 < y.magnitude.1 * x.magnitude.2)

end Binary64

end KernelSpec
