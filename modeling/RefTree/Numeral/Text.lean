import RefTree.Numeral.Binary64

/-!
# Numeral/Text — doubles from decimal text

A decimal text is digits, with a point among, before or after them, and may have a sign in front and
an exponent behind. It is rounded once, to the nearest double.
-/

namespace RefTree.Binary64

/-- The sign at the front of a text, `true` for minus. -/
def signOf : List Char → Bool × List Char
  | '-' :: cs => (true, cs)
  | '+' :: cs => (false, cs)
  | cs => (false, cs)

/-- The number that decimal digits spell. -/
def naturalOf (digits : List Char) : Nat := digits.foldl (fun n c => 10 * n + (c.toNat - 48)) 0

/-- The exponent behind the digits; nothing is the exponent zero. -/
def exponentPart? : List Char → Option Int
  | [] => some 0
  | c :: cs =>
    let (down, digits) := signOf cs
    if (c == 'e' || c == 'E') && !digits.isEmpty && digits.all Char.isDigit then
      some (if down then -(naturalOf digits : Int) else naturalOf digits)
    else none

/-- The digits of a decimal text without its sign, and where its point stands. -/
def magnitude? (cs : List Char) : Option (Nat × Int) :=
  let whole := cs.takeWhile Char.isDigit
  let rest := cs.dropWhile Char.isDigit
  let (fraction, rest) :=
    match rest with
    | '.' :: rest => (rest.takeWhile Char.isDigit, rest.dropWhile Char.isDigit)
    | rest => ([], rest)
  if whole.isEmpty && fraction.isEmpty then none
  else
    (exponentPart? rest).map fun exponent =>
      (naturalOf (whole ++ fraction), exponent - fraction.length)

/-- **The double nearest to a decimal text.** The outer option is `none` if the text is no decimal,
the inner one if the double would be infinite. -/
def ofText? (cs : List Char) : Option (Option Binary64) :=
  let (negative, cs) := signOf cs
  (magnitude? cs).map fun (digits, exponent) => ofDecimal negative digits exponent

end RefTree.Binary64
