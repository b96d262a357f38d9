import RefTree.Numeral.Binary64

/-!
# Numeral/Shortest — the fewest decimal digits that read back as a double

The reals that round to a double form an interval around it. On the grid of the multiples of
`10 ^ k` the double has two neighbours; the coarsest grid with a neighbour inside the interval
gives the digits, of two neighbours the nearer, of two equally near the even one. `Layout` then
decides how the digits are written.
-/

namespace RefTree

/-- A decimal magnitude `digits * 10 ^ exponent`. -/
structure Decimal where
  digits : Nat
  exponent : Int
  deriving DecidableEq, Repr

namespace Binary64

/-- A numerator and a denominator of `2 ^ two / 10 ^ ten`. -/
def powerQuotient (two ten : Int) : Nat × Nat :=
  (Nat.pow 2 two.toNat * Nat.pow 10 (-ten).toNat, Nat.pow 2 (-two).toNat * Nat.pow 10 ten.toNat)

/-- The neighbour of `x` on the multiples of `10 ^ k` that rounds to `x`, if one does. Lengths are
counted in quarters of the last mantissa bit, so the ends of the interval are whole numbers. -/
def onGrid? (x : Binary64) (k : Int) : Option Nat :=
  let (a, b) := powerQuotient (x.exponent - 2) k
  let value := 4 * x.mantissa
  let below := if x.mantissa = Nat.pow 2 52 && x.exponent > minExponent then 1 else 2
  let ends := x.mantissa % 2 == 0
  let down := value * a / b
  let up := down + 1
  let low := (value - below) * a
  let high := (value + 2) * a
  let downFits := if ends then down * b ≥ low else down * b > low
  let upFits := if ends then up * b ≤ high else up * b < high
  let toDown := value * a - down * b
  let toUp := up * b - value * a
  match decide downFits, decide upFits with
  | true, true =>
    if toDown < toUp then some down
    else if toUp < toDown then some up
    else if down % 2 = 0 then some down else some up
  | true, false => some down
  | false, true => some up
  | false, false => none

/-- The first grid with a hit, from `10 ^ k` downwards. -/
def coarsest (x : Binary64) : Nat → Int → Decimal
  | 0, k => ⟨0, k⟩
  | n + 1, k =>
    match x.onGrid? k with
    | some digits => ⟨digits, k⟩
    | none => x.coarsest n (k - 1)

/-- **The shortest decimal that reads back as `x`.** The search starts above the first digit, and 17
digits always suffice. -/
def shortest (x : Binary64) : Decimal :=
  if x.isZero then ⟨0, 0⟩
  else
    let bits : Int := (x.mantissa.log2 : Int) + x.exponent + 1
    x.coarsest 25 (bits * 30103 / 100000 + 1)

end Binary64

/-- How digits become text. Exponents are those of the first digit. -/
structure Layout where
  /-- The smallest exponent that is written without an exponent part. -/
  plainFrom : Int
  /-- The smallest exponent above it that is written with one again. -/
  plainBelow : Int
  /-- What a whole number written without an exponent part ends in. -/
  wholeMark : String
  /-- The sign of an exponent that is not negative. -/
  exponentPlus : String

namespace Layout

/-- The text of a magnitude other than zero. -/
def positional (layout : Layout) (d : Decimal) : String :=
  let digits := Nat.repr d.digits
  let lead : Int := (digits.length : Int) - 1 + d.exponent
  let zeros (n : Int) : List Char := List.replicate n.toNat '0'
  if layout.plainFrom ≤ lead && lead < layout.plainBelow then
    if 0 ≤ d.exponent then
      String.ofList (digits.toList ++ zeros d.exponent) ++ layout.wholeMark
    else if 0 ≤ lead then
      String.ofList (digits.toList.take (lead.toNat + 1) ++ '.' ::
        digits.toList.drop (lead.toNat + 1))
    else
      String.ofList ('0' :: '.' :: zeros (-lead - 1) ++ digits.toList)
  else
    let fraction := digits.toList.drop 1
    String.ofList (digits.toList.take 1 ++ (if fraction.isEmpty then [] else '.' :: fraction)) ++
      "e" ++ (if lead < 0 then "-" else layout.exponentPlus) ++ Nat.repr lead.natAbs

/-- The text of a double. -/
def text (layout : Layout) (x : Binary64) : String :=
  (if x.negative then "-" else "") ++
    if x.isZero then "0" ++ layout.wholeMark else layout.positional x.shortest

end Layout

end RefTree
