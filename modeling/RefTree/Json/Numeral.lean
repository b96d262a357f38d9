import RefTree.Number

/-!
# Json/Numeral — the numerals of JSON text

An integer that fits 64 bits is read exactly. Any other numeral is read as a double in two rounding
steps: the leading digits that fit 64 bits make a significand, and that is multiplied or divided by
a power of ten. A numeral beyond the range of the doubles is refused, one below it is zero.
-/

namespace RefTree.Json

/-- The value of a decimal digit. -/
def digitValue (c : Char) : Nat := c.toNat - '0'.toNat

/-- The number that decimal digits spell. -/
def digitsValue (digits : List Char) : Nat := digits.foldl (fun n c => 10 * n + digitValue c) 0

/-- The leading digits are taken into `significand` as long as it stays below `2 ^ 64`; the count is
that of the digits left out. -/
def absorb (significand : Nat) : List Char → Nat × Nat
  | [] => (significand, 0)
  | c :: cs =>
    let next := 10 * significand + digitValue c
    if next < Nat.pow 2 64 then absorb next cs else (significand, cs.length + 1)

/-- `10 ^ n` as a double, for the powers that are in range. -/
def powerOfTen (n : Nat) : Binary64 := (Binary64.ofDecimal false 1 n).getD (.zero false)

/-- `f * 10 ^ exponent`, in steps of at most 308 decimal places downwards. -/
def shift : Nat → Binary64 → Int → Option Binary64
  | 0, f, _ => some f
  | steps + 1, f, exponent =>
    if exponent.natAbs ≤ 308 then
      if 0 ≤ exponent then f.mul? (powerOfTen exponent.natAbs)
      else f.div? (powerOfTen exponent.natAbs)
    else if f.isZero then some f
    else if 0 ≤ exponent then none
    else (f.div? (powerOfTen 308)).bind fun g => shift steps g (exponent + 308)

/-- The double of a significand below `2 ^ 64` and a decimal exponent. Three steps down take every
significand to zero. -/
def double (negative : Bool) (significand : Nat) (exponent : Int) : Option Number :=
  (Binary64.ofNat significand).bind fun f =>
    (shift 4 f exponent).map fun g => .float { g with negative := negative }

/-- The decimal digits at the front. -/
def digits (cs : List Char) : List Char × List Char :=
  (cs.takeWhile Char.isDigit, cs.dropWhile Char.isDigit)

/-- One digit or more. -/
def someDigits (cs : List Char) : Option (List Char × List Char) :=
  match digits cs with
  | ([], _) => none
  | found => some found

/-- The sign of an exponent, `true` for minus. -/
def exponentSign : List Char → Bool × List Char
  | '-' :: cs => (true, cs)
  | '+' :: cs => (false, cs)
  | cs => (false, cs)

/-- The exponent part after its mark, and the double it completes. An exponent of more than 31 bits
decides the answer by its sign. -/
def withExponent (negative : Bool) (significand : Nat) (exponent : Int) (cs : List Char) :
    Option (Number × List Char) :=
  let (down, cs) := exponentSign cs
  (someDigits cs).bind fun (ds, rest) =>
    let power := digitsValue ds
    if power < Nat.pow 2 31 then
      (double negative significand (if down then exponent - power else exponent + power)).map
        (·, rest)
    else if significand = 0 || down then some (.float (.zero negative), rest)
    else none

/-- What follows the digits of the significand: an exponent part, or nothing. -/
def fractional (negative : Bool) (significand : Nat) (exponent : Int) :
    List Char → Option (Number × List Char)
  | 'e' :: cs => withExponent negative significand exponent cs
  | 'E' :: cs => withExponent negative significand exponent cs
  | cs => (double negative significand exponent).map (·, cs)

/-- The integer with these digits, if it fits 64 bits. Minus zero is no integer. -/
def integer? (negative : Bool) (ds : List Char) : Option Number :=
  let n := digitsValue ds
  if negative then
    if 0 < n && n ≤ Nat.pow 2 63 then some (.integer (-(n : Int))) else none
  else if n < Nat.pow 2 64 then some (.integer n) else none

/-- A numeral without its sign. Its integer part has no needless leading zero. -/
def unsigned (negative : Bool) (cs : List Char) : Option (Number × List Char) :=
  (someDigits cs).bind fun (ds, rest) =>
    if ds.head? = some '0' && ds.length ≠ 1 then none
    else
      let (significand, dropped) := absorb 0 ds
      match rest with
      | '.' :: cs =>
        (someDigits cs).bind fun (fs, rest) =>
          let (significand, left) := absorb significand fs
          fractional negative significand (dropped - (fs.length - left : Nat)) rest
      | 'e' :: _ => fractional negative significand dropped rest
      | 'E' :: _ => fractional negative significand dropped rest
      | _ =>
        match integer? negative ds with
        | some n => some (n, rest)
        | none => fractional negative significand dropped rest

/-- **The numeral at the front of the text.** -/
def numeral : List Char → Option (Number × List Char)
  | '-' :: cs => unsigned true cs
  | cs => unsigned false cs

end RefTree.Json
