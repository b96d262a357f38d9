/-!
# Numeral/Binary64 — the finite doubles, and rounding to them

A `Binary64` is a sign and a magnitude `mantissa * 2 ^ exponent`. Every operation computes the exact
quotient of two natural numbers and rounds it once, to the nearest double and to the even one of two
equally near (`roundQuotient`); a magnitude beyond the largest double has no rounding.
-/

namespace RefTree

/-- A finite double: `± mantissa * 2 ^ exponent`, with `mantissa < 2 ^ 53`. Zero keeps its sign. -/
structure Binary64 where
  negative : Bool
  mantissa : Nat
  exponent : Int
  deriving DecidableEq, Repr, Inhabited

namespace Binary64

/-- The exponent of the subnormal doubles, the smallest there is. -/
def minExponent : Int := -1074

/-- The exponent of the largest doubles. -/
def maxExponent : Int := 971

/-- Zero, with its sign. -/
def zero (negative : Bool) : Binary64 := ⟨negative, 0, minExponent⟩

/-- `num / den`, to the nearest integer, a half to the even neighbour. -/
def roundHalfEven (num den : Nat) : Nat :=
  let quotient := num / den
  let remainder := num % den
  if 2 * remainder > den || (2 * remainder == den && quotient % 2 == 1) then quotient + 1
  else quotient

/-- `num / den * 2 ^ (-exponent)` as a numerator and a denominator. -/
def scale (num den : Nat) (exponent : Int) : Nat × Nat :=
  if 0 ≤ exponent then (num, den * Nat.pow 2 exponent.toNat)
  else (num * Nat.pow 2 (-exponent).toNat, den)

/-- The exponent at which `num / den` has a mantissa of 53 bits, or the smallest exponent. -/
def exponentOf (num den : Nat) : Int :=
  let guess : Int := (num.log2 : Int) - den.log2 - 53
  let (n, d) := scale num den guess
  max (if n / d < Nat.pow 2 53 then guess else guess + 1) minExponent

/-- **The double nearest to `± num / den`**, if there is one that is not infinite. -/
def roundQuotient (negative : Bool) (num den : Nat) : Option Binary64 :=
  if num = 0 then some (zero negative)
  else
    let exponent := exponentOf num den
    let (n, d) := scale num den exponent
    let mantissa := roundHalfEven n d
    let (mantissa, exponent) :=
      if mantissa = Nat.pow 2 53 then (Nat.pow 2 52, exponent + 1) else (mantissa, exponent)
    if exponent > maxExponent then none else some ⟨negative, mantissa, exponent⟩

/-- The double nearest to a natural number. -/
def ofNat (n : Nat) : Option Binary64 := roundQuotient false n 1

/-- The magnitude as a quotient of natural numbers. -/
def quotient (x : Binary64) : Nat × Nat :=
  if 0 ≤ x.exponent then (x.mantissa * Nat.pow 2 x.exponent.toNat, 1)
  else (x.mantissa, Nat.pow 2 (-x.exponent).toNat)

def isZero (x : Binary64) : Bool := x.mantissa == 0

def neg (x : Binary64) : Binary64 := { x with negative := !x.negative }

/-- The rounded product, unless it overflows. -/
def mul? (x y : Binary64) : Option Binary64 :=
  let (a, b) := x.quotient
  let (c, d) := y.quotient
  roundQuotient (x.negative != y.negative) (a * c) (b * d)

/-- The rounded quotient by a double that is not zero, unless it overflows. -/
def div? (x y : Binary64) : Option Binary64 :=
  let (a, b) := x.quotient
  let (c, d) := y.quotient
  roundQuotient (x.negative != y.negative) (a * d) (b * c)

/-- The numbers are equal: zero equals zero whatever the signs. -/
def same (x y : Binary64) : Bool := x == y || (x.isZero && y.isZero)

/-- The double nearest to `± digits * 10 ^ exponent`, unless it overflows. Exponents that decide the
answer by themselves are cut off before a power is computed. -/
def ofDecimal (negative : Bool) (digits : Nat) (exponent : Int) : Option Binary64 :=
  if digits = 0 then some (zero negative)
  else if exponent > 400 then none
  else if exponent + (digits.log2 : Int) < -1200 then some (zero negative)
  else if 0 ≤ exponent then roundQuotient negative (digits * Nat.pow 10 exponent.toNat) 1
  else roundQuotient negative digits (Nat.pow 10 (-exponent).toNat)

end Binary64

end RefTree
