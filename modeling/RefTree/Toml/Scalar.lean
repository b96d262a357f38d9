import RefTree.Number
import RefTree.Numeral.Text
import RefTree.Regex.Reader

/-!
# Toml/Scalar — the scalars of TOML documents

Strings between quotes, numbers, and times. Each reader takes a scalar off the front of a text.
-/

namespace RefTree.Toml

/-- A blank inside a line. -/
def isBlank (c : Char) : Bool := c = ' ' || c = '\t'

/-- The text without blanks at its front. -/
def skipBlanks (cs : List Char) : List Char := cs.dropWhile isBlank

/-- A control character that may not stand in a text. -/
def isControl (c : Char) : Bool := (c.toNat < 32 && c ≠ '\t') || c.toNat = 127

/-! ## Strings -/

/-- The character that an escape of one letter stands for. -/
def escape? : Char → Option Char
  | 'b' => some '\x08'
  | 't' => some '\t'
  | 'n' => some '\n'
  | 'f' => some '\x0c'
  | 'r' => some '\r'
  | '"' => some '"'
  | '\\' => some '\\'
  | _ => none

/-- An escape, after its backslash. -/
def escaped : List Char → Option (Char × List Char)
  | 'u' :: cs => codePoint 4 cs
  | 'U' :: cs => codePoint 8 cs
  | c :: cs => (escape? c).map (·, cs)
  | [] => none
where
  codePoint (width : Nat) (cs : List Char) : Option (Char × List Char) :=
    if (cs.take width).length < width then none
    else (Regex.hexChar? (cs.take width)).map (·, cs.drop width)

/-- Put a character in front of what a reader has found. -/
def consTo (c : Char) : Option (List Char × List Char) → Option (List Char × List Char) :=
  Option.map fun (text, rest) => (c :: text, rest)

/-- What stands between double quotes on one line, after the first. -/
def basic : Nat → List Char → Option (List Char × List Char)
  | 0, _ => none
  | _ + 1, [] => none
  | _ + 1, '"' :: cs => some ([], cs)
  | fuel + 1, '\\' :: cs => (escaped cs).bind fun (c, rest) => consTo c (basic fuel rest)
  | fuel + 1, c :: cs => if isControl c then none else consTo c (basic fuel cs)

/-- What stands between single quotes on one line, after the first. -/
def literal : List Char → Option (List Char × List Char)
  | [] => none
  | '\'' :: cs => some ([], cs)
  | c :: cs => if isControl c then none else consTo c (literal cs)

/-- A line break. -/
def lineBreak? : List Char → Option (List Char)
  | '\n' :: cs => some cs
  | '\r' :: '\n' :: cs => some cs
  | _ => none

/-- The text without blanks and line breaks at its front. -/
def skipLines : List Char → List Char
  | '\r' :: '\n' :: cs => skipLines cs
  | c :: cs => if isBlank c || c = '\n' then skipLines cs else c :: cs
  | [] => []

/-- The end of a text between three quotes: up to two more quotes belong to the text. -/
def tripleEnd? (quote : Char) (cs : List Char) : Option (List Char × List Char) :=
  let quotes := (cs.takeWhile (· = quote)).length
  if quotes < 3 then none
  else
    let extra := min (quotes - 3) 2
    some (List.replicate extra quote, cs.drop (3 + extra))

/-- What stands between three quotes, after the first three and a line break. Escapes are read if
`escapes`; a backslash at the end of a line takes the break and the blanks after it away. -/
def triple (quote : Char) (escapes : Bool) : Nat → List Char → Option (List Char × List Char)
  | 0, _ => none
  | fuel + 1, cs =>
    match tripleEnd? quote cs with
    | some found => some found
    | none =>
      match cs with
      | [] => none
      | c :: rest =>
        match lineBreak? cs with
        | some after => consTo '\n' (triple quote escapes fuel after)
        | none =>
          if c = '\\' && escapes then
            match lineBreak? (skipBlanks rest) with
            | some after => triple quote escapes fuel (skipLines after)
            | none =>
              (escaped rest).bind fun (d, after) => consTo d (triple quote escapes fuel after)
          else if isControl c then none
          else consTo c (triple quote escapes fuel rest)

/-- The text without a line break at its front. -/
def dropBreak (cs : List Char) : List Char := (lineBreak? cs).getD cs

/-- A string on one line. -/
def lineString : List Char → Option (String × List Char)
  | '"' :: cs => (basic (cs.length + 1) cs).map fun (text, rest) => (String.ofList text, rest)
  | '\'' :: cs => (literal cs).map fun (text, rest) => (String.ofList text, rest)
  | _ => none

/-- **A string**, on one line or over several. -/
def string (cs : List Char) : Option (String × List Char) :=
  match cs with
  | '"' :: '"' :: '"' :: rest => lines '"' true rest
  | '\'' :: '\'' :: '\'' :: rest => lines '\'' false rest
  | cs => lineString cs
where
  lines (quote : Char) (escapes : Bool) (rest : List Char) : Option (String × List Char) :=
    (triple quote escapes (rest.length + 1) (dropBreak rest)).map fun (text, rest) =>
      (String.ofList text, rest)

/-! ## Numbers -/

/-- Digits with single underscores between them, without the underscores. -/
def digits? (isDigit : Char → Bool) : List Char → Option (List Char)
  | [] => none
  | [c] => if isDigit c then some [c] else none
  | c :: '_' :: rest => if isDigit c then (digits? isDigit rest).map (c :: ·) else none
  | c :: rest => if isDigit c then (digits? isDigit rest).map (c :: ·) else none

/-- Decimal digits that begin with zero only if they are zero. -/
def wholeDigits? (cs : List Char) : Option (List Char) :=
  (digits? Char.isDigit cs).filter fun ds => ds.length = 1 || ds.head? ≠ some '0'

/-- The number with the digits of a base that is a power of two. -/
def based? (base : Nat) (cs : List Char) : Option Nat :=
  let value? (c : Char) : Option Nat := (Regex.hexDigit? c).filter (· < base)
  (digits? (fun c => (value? c).isSome) cs).map fun ds =>
    ds.foldl (fun n c => base * n + (value? c).getD 0) 0

/-- An integer of 64 bits with its sign. -/
def integer? (cs : List Char) : Option Int :=
  let found : Option Int :=
    match cs with
    | '0' :: 'x' :: ds => (based? 16 ds).map Int.ofNat
    | '0' :: 'o' :: ds => (based? 8 ds).map Int.ofNat
    | '0' :: 'b' :: ds => (based? 2 ds).map Int.ofNat
    | cs =>
      let (negative, ds) := Binary64.signOf cs
      (wholeDigits? ds).map fun ds =>
        let n : Int := Binary64.naturalOf ds
        if negative then -n else n
  found.filter fun n => -(Nat.pow 2 63 : Int) ≤ n && n < Nat.pow 2 63

/-- A double: an integer with a fraction, an exponent, or both. -/
def double? (cs : List Char) : Option Binary64 :=
  let (negative, rest) := Binary64.signOf cs
  let isMark (c : Char) : Bool := c = 'e' || c = 'E'
  let mantissa := rest.takeWhile fun c => !isMark c
  let exponent := rest.drop mantissa.length
  let whole := mantissa.takeWhile (· ≠ '.')
  let fraction := mantissa.drop whole.length
  if fraction.isEmpty && exponent.isEmpty then none
  else do
    let whole ← wholeDigits? whole
    let fraction ←
      match fraction with
      | [] => some []
      | _ :: ds => digits? Char.isDigit ds
    let power ←
      match exponent with
      | [] => some (0 : Int)
      | _ :: ds =>
        let (down, ds) := Binary64.signOf ds
        (digits? Char.isDigit ds).map fun ds =>
          let n : Int := Binary64.naturalOf ds
          if down then -n else n
    Binary64.ofDecimal negative (Binary64.naturalOf (whole ++ fraction)) (power - fraction.length)

/-! ## Times -/

/-- A number of exactly `width` digits. -/
def fixed? (width : Nat) (cs : List Char) : Option (Nat × List Char) :=
  let ds := cs.take width
  if ds.length = width && ds.all Char.isDigit then some (Binary64.naturalOf ds, cs.drop width)
  else none

/-- The days of a month. -/
def daysOf (year month : Nat) : Nat :=
  if month = 2 then
    if year % 4 = 0 && (year % 100 ≠ 0 || year % 400 = 0) then 29 else 28
  else if month = 4 || month = 6 || month = 9 || month = 11 then 30
  else 31

/-- The text that `n` characters were taken of. -/
def taken (cs rest : List Char) : List Char := cs.take (cs.length - rest.length)

/-- A date. -/
def date? (cs : List Char) : Option (List Char × List Char) := do
  let (year, cs₁) ← fixed? 4 cs
  let cs₁ ← cs₁.head?.bind fun c => if c = '-' then some (cs₁.drop 1) else none
  let (month, cs₂) ← fixed? 2 cs₁
  let cs₂ ← cs₂.head?.bind fun c => if c = '-' then some (cs₂.drop 1) else none
  let (day, rest) ← fixed? 2 cs₂
  if 1 ≤ month && month ≤ 12 && 1 ≤ day && day ≤ daysOf year month then some (taken cs rest, rest)
  else none

/-- The fraction of a second, without zeros at its end and with nine digits at most. -/
def fraction? : List Char → Option (List Char × List Char)
  | '.' :: cs =>
    let ds := cs.takeWhile Char.isDigit
    let kept := ((ds.take 9).reverse.dropWhile (· = '0')).reverse
    if ds.isEmpty then none
    else some (if kept.isEmpty then [] else '.' :: kept, cs.drop ds.length)
  | cs => some ([], cs)

/-- The time of a day. -/
def time? (cs : List Char) : Option (List Char × List Char) := do
  let (hour, cs₁) ← fixed? 2 cs
  let cs₁ ← cs₁.head?.bind fun c => if c = ':' then some (cs₁.drop 1) else none
  let (minute, cs₂) ← fixed? 2 cs₁
  let cs₂ ← cs₂.head?.bind fun c => if c = ':' then some (cs₂.drop 1) else none
  let (second, rest) ← fixed? 2 cs₂
  let (part, after) ← fraction? rest
  if hour < 24 && minute < 60 && second ≤ 60 then some (taken cs rest ++ part, after) else none

/-- The distance from universal time. -/
def offset? : List Char → Option (List Char × List Char)
  | [] => some ([], [])
  | c :: cs =>
    if c = 'Z' || c = 'z' then some (['Z'], cs)
    else if c = '+' || c = '-' then do
      let (hour, cs₁) ← fixed? 2 cs
      let cs₁ ← cs₁.head?.bind fun c => if c = ':' then some (cs₁.drop 1) else none
      let (minute, rest) ← fixed? 2 cs₁
      let sign := if hour = 0 && minute = 0 then '+' else c
      if hour < 24 && minute < 60 then some (sign :: taken cs rest, rest) else none
    else some ([], c :: cs)

/-- A date, a time, or both with or without a distance from universal time. -/
def moment? (cs : List Char) : Option (List Char × List Char) :=
  match date? cs with
  | some (date, rest) =>
    match rest with
    | c :: after =>
      if c = 'T' || c = 't' || (c = ' ' && after.head?.any Char.isDigit) then do
        let (time, rest) ← time? after
        let (offset, rest) ← offset? rest
        some (date ++ 'T' :: time ++ offset, rest)
      else some (date, rest)
    | [] => some (date, rest)
  | none => time? cs

end RefTree.Toml
