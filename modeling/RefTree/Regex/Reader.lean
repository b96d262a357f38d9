import RefTree.Regex.Basic

/-!
# Regex/Reader — regular expressions from their text

The text of an expression is alternatives with bars between them; an alternative is a sequence of
items, each followed by any number of repetitions. Flags in parentheses hold to the end of the group
they stand in, across its bars. Look-around, references to groups, repetitions of nothing, reversed
bounds and names given twice are refused.

Three things that such texts may hold elsewhere are not part of this dialect, and a text with one of
them is refused: classes by a property of characters (`\p` and `\P`), the flag `R` for other line
ends, and `u` behind a minus, for classes of ASCII. So classes, cases and word boundaries are those
of Unicode throughout, and nothing is said of expressions that need one of the three. On the other
hand nothing limits the size of an expression or the nesting of its groups.

A reader returns what it has read and the rest of the text. Fuel bounds the nesting of its calls,
each of which takes a character or passes on to the next kind of reader (`fuelFor`).
-/

namespace RefTree.Regex

/-- What flags change: the case of letters, what line ends are, what the dot holds, which repetition
is the greedy one, and whether blanks and comments are skipped. -/
structure Flags where
  caseless : Bool := false
  lines : Bool := false
  dotAll : Bool := false
  swapGreed : Bool := false
  spaced : Bool := false
  deriving DecidableEq, Repr

/-- The rest of a text from its next line on. -/
def afterLine : List Char → List Char
  | [] => []
  | c :: cs => if c = '\n' then cs else afterLine cs

theorem length_afterLine_le (cs : List Char) : (afterLine cs).length ≤ cs.length := by
  induction cs with
  | nil => exact Nat.le_refl _
  | cons c cs ih =>
    simp only [afterLine, List.length_cons]
    split <;> omega

/-- The text without blanks and comments at its front. -/
def skipSpace (cs : List Char) : List Char :=
  match cs with
  | [] => []
  | c :: cs =>
    if Unicode.isBlank c then skipSpace cs
    else if c = '#' then skipSpace (afterLine cs)
    else c :: cs
termination_by cs.length
decreasing_by
  · exact Nat.lt_succ_self _
  · exact Nat.lt_succ_of_le (length_afterLine_le _)

/-- The text without what the flags skip. -/
def Flags.skip (flags : Flags) (cs : List Char) : List Char :=
  if flags.spaced then skipSpace cs else cs

/-! ## Escapes -/

/-- What an escape stands for. -/
inductive Escaped where
  | char (c : Char)
  | set (s : CharSet)
  | look (l : Look)

/-- The value of a hexadecimal digit. -/
def hexDigit? (c : Char) : Option Nat :=
  if '0' ≤ c ∧ c ≤ '9' then some (c.toNat - 48)
  else if 'a' ≤ c ∧ c ≤ 'f' then some (c.toNat - 87)
  else if 'A' ≤ c ∧ c ≤ 'F' then some (c.toNat - 55)
  else none

/-- The character with a code point, if there is one. -/
def charAt? (n : Nat) : Option Char := if h : n.isValidChar then some (Char.ofNatAux n h) else none

/-- The character whose code point hexadecimal digits spell. -/
def hexChar? (digits : List Char) : Option Char :=
  (digits.foldl (fun n c => n.bind fun n => (hexDigit? c).map (16 * n + ·)) (some 0)).bind charAt?

/-- The code point after the mark of an escape: digits in braces, or `width` digits. -/
def hexEscape (width : Nat) (cs : List Char) : Option (Char × List Char) :=
  match cs with
  | '\x7b' :: cs =>
    let digits := cs.takeWhile (· != '\x7d')
    match cs.drop digits.length with
    | _ :: rest => if digits.isEmpty then none else (hexChar? digits).map (·, rest)
    | [] => none
  | cs =>
    let digits := cs.take width
    if digits.length = width then (hexChar? digits).map (·, cs.drop width) else none

/-- An ASCII character that is neither a letter nor a digit stands for itself after a backslash,
unless it has a meaning of its own there. -/
def isPlainEscape (c : Char) : Bool := c.toNat < 128 && !c.isAlphanum

/-- The condition with a name in braces. -/
def namedBoundary? (name : List Char) : Option Look :=
  match String.ofList name with
  | "start" => some .wordStart
  | "end" => some .wordEnd
  | "start-half" => some .wordStartHalf
  | "end-half" => some .wordEndHalf
  | _ => none

/-- A word boundary, after its letter. Braces that do not begin with a name are left to the
repetitions. -/
def boundary (cs : List Char) : Option (Escaped × List Char) :=
  match cs with
  | '\x7b' :: inner =>
    let name := inner.takeWhile fun c => c.isAlpha || c = '-'
    if name.isEmpty then some (.look .wordBoundary, cs)
    else
      match inner.drop name.length with
      | '\x7d' :: rest => (namedBoundary? name).map (.look ·, rest)
      | _ => none
  | _ => some (.look .wordBoundary, cs)

/-- An escape, after its backslash. -/
def escaped : List Char → Option (Escaped × List Char)
  | [] => none
  | c :: cs =>
    match c with
    | 'd' => some (.set .digit, cs)
    | 'D' => some (.set (.compl .digit), cs)
    | 's' => some (.set .blank, cs)
    | 'S' => some (.set (.compl .blank), cs)
    | 'w' => some (.set .word, cs)
    | 'W' => some (.set (.compl .word), cs)
    | 'x' => (hexEscape 2 cs).map fun (c, cs) => (.char c, cs)
    | 'u' => (hexEscape 4 cs).map fun (c, cs) => (.char c, cs)
    | 'U' => (hexEscape 8 cs).map fun (c, cs) => (.char c, cs)
    | 'a' => some (.char '\x07', cs)
    | 'f' => some (.char '\x0c', cs)
    | 't' => some (.char '\t', cs)
    | 'n' => some (.char '\n', cs)
    | 'r' => some (.char '\r', cs)
    | 'v' => some (.char '\x0b', cs)
    | 'A' => some (.look .textStart, cs)
    | 'z' => some (.look .textEnd, cs)
    | 'b' => boundary cs
    | '<' => some (.look .wordStart, cs)
    | '>' => some (.look .wordEnd, cs)
    | 'B' => some (.look .wordInside, cs)
    | c => if isPlainEscape c then some (.char c, cs) else none

/-! ## Bracketed classes -/

/-- The operations between the parts of a class. -/
inductive SetOp where
  | inter
  | diff
  | symmDiff

/-- The two sides of an operation; cases are folded before it is done. -/
def SetOp.apply (op : SetOp) (caseless : Bool) (a b : CharSet) : CharSet :=
  let a := a.foldIf caseless
  let b := b.foldIf caseless
  match op with
  | inter => .inter a b
  | diff => .diff a b
  | symmDiff => .symmDiff a b

/-- The part before an operation, if there is one, with the part after it. -/
def closePart (caseless : Bool) (part : CharSet) : Option (CharSet × SetOp) → CharSet
  | none => part
  | some (before, op) => op.apply caseless before part

/-- The name of an ASCII class up to its end, with the rest of the text. -/
def className (cs : List Char) : Option (List Char × List Char) :=
  let name := cs.takeWhile (· != ':')
  match cs.drop name.length with
  | ':' :: ']' :: rest => some (name, rest)
  | _ => none

/-- A class of ASCII characters by its name, after the opening bracket. -/
def asciiClass (flags : Flags) : List Char → Option (CharSet × List Char)
  | ':' :: '^' :: cs =>
    (className cs).bind fun (name, rest) =>
      (CharSet.named? name).map fun s => (.compl (s.foldIf flags.caseless), rest)
  | ':' :: cs =>
    (className cs).bind fun (name, rest) =>
      (CharSet.named? name).map fun s => (s.foldIf flags.caseless, rest)
  | _ => none

/-- One member of a class: a character or a set. -/
def member : List Char → Option (Escaped × List Char)
  | [] => none
  | '\\' :: cs =>
    match escaped cs with
    | some (.look _, _) => none
    | found => found
  | c :: cs => some (.char c, cs)

/-- The set that a member adds. -/
def Escaped.toSet : Escaped → CharSet
  | char c => .single c
  | set s => s
  | look _ => .empty

/-- A hyphen that does not stand between two ends: it closes the class or begins a difference. -/
def isLoneHyphen (flags : Flags) (afterHyphen : List Char) : Bool :=
  match flags.skip afterHyphen with
  | c :: _ => c == ']' || c == '-'
  | [] => false

/-- A member of a class, or a range from one character to another. -/
def memberOrRange (flags : Flags) (cs : List Char) : Option (CharSet × List Char) :=
  (member cs).bind fun (first, rest) =>
    match flags.skip rest with
    | '-' :: afterHyphen =>
      if isLoneHyphen flags afterHyphen then some (first.toSet, '-' :: afterHyphen)
      else
        (member (flags.skip afterHyphen)).bind fun (last, rest) =>
          match first, last with
          | .char a, .char b => if a ≤ b then some (.range a b, rest) else none
          | _, _ => none
    | rest => some (first.toSet, rest)

/-- The hyphens at the front of a class, which stand for themselves. -/
def skipHyphens (flags : Flags) : Nat → List Char → Bool × List Char
  | fuel + 1, '-' :: cs => (true, (skipHyphens flags fuel (flags.skip cs)).2)
  | _, cs => (false, cs)

/-- The caret after an opening bracket. -/
def negation (flags : Flags) (cs : List Char) : Bool × List Char :=
  match flags.skip cs with
  | '^' :: cs => (true, flags.skip cs)
  | cs => (false, cs)

mutual

/-- A class, after its opening bracket. Hyphens at its front, or a closing bracket there, stand for
themselves. -/
def bracketClass (flags : Flags) : Nat → List Char → Option (CharSet × List Char)
  | 0, _ => none
  | fuel + 1, cs =>
    let (negated, cs) := negation flags cs
    let (hyphen, cs) := skipHyphens flags cs.length cs
    let found :=
      if hyphen then classParts flags fuel none (.single '-') cs
      else
        match cs with
        | ']' :: rest => classParts flags fuel none (.single ']') rest
        | cs => classParts flags fuel none .empty cs
    found.map fun (s, rest) => ((s.foldIf flags.caseless).complIf negated, rest)

/-- The parts of a class up to its closing bracket: `before` holds what stands before the last
operation, `part` what has been read after it. -/
def classParts (flags : Flags) : Nat → Option (CharSet × SetOp) → CharSet → List Char →
    Option (CharSet × List Char)
  | 0, _, _, _ => none
  | fuel + 1, before, part, cs =>
    let close := closePart flags.caseless part before
    match flags.skip cs with
    | [] => none
    | ']' :: rest => some (close, rest)
    | '&' :: '&' :: rest => classParts flags fuel (some (close, .inter)) .empty rest
    | '-' :: '-' :: rest => classParts flags fuel (some (close, .diff)) .empty rest
    | '~' :: '~' :: rest => classParts flags fuel (some (close, .symmDiff)) .empty rest
    | '[' :: rest =>
      match asciiClass flags rest with
      | some (s, rest) => classParts flags fuel before (.union part s) rest
      | none =>
        (bracketClass flags fuel rest).bind fun (s, rest) =>
          classParts flags fuel before (.union part s) rest
    | cs =>
      (memberOrRange flags cs).bind fun (s, rest) =>
        classParts flags fuel before (.union part s) rest

end

/-! ## Repetitions -/

/-- A decimal number with blanks around it. -/
def count (flags : Flags) (cs : List Char) : Option Nat × List Char :=
  let cs := cs.dropWhile Unicode.isBlank
  let (digits, rest) := digitsOf cs.length cs
  (if digits.isEmpty then none else some (digits.foldl (fun n c => 10 * n + (c.toNat - 48)) 0),
    rest.dropWhile Unicode.isBlank)
where
  digitsOf : Nat → List Char → List Char × List Char
    | fuel + 1, c :: cs =>
      if c.isDigit then
        let (ds, rest) := digitsOf fuel (flags.skip cs)
        (c :: ds, rest)
      else ([], c :: cs)
    | _, cs => ([], cs)

/-- The bounds of a counted repetition, after the opening brace and up to the closing one. Counts
have 32 bits, and the lower bound comes first. -/
def bounds (flags : Flags) (cs : List Char) : Option ((Nat × Option Nat) × List Char) :=
  match count flags (flags.skip cs) with
  | (some least, '\x7d' :: rest) =>
    if least < Nat.pow 2 32 then some ((least, some least), rest) else none
  | (some least, ',' :: rest) =>
    match flags.skip rest with
    | '\x7d' :: rest => if least < Nat.pow 2 32 then some ((least, none), rest) else none
    | rest =>
      match count flags rest with
      | (some most, '\x7d' :: rest) =>
        if least ≤ most ∧ most < Nat.pow 2 32 then some ((least, some most), rest) else none
      | _ => none
  | _ => none

/-- The mark of a repetition that prefers fewer rounds, and whether the repetition is greedy. -/
def greed (flags : Flags) : List Char → Bool × List Char
  | '?' :: cs => (flags.swapGreed, cs)
  | cs => (!flags.swapGreed, cs)

/-- The repetitions that follow an item. -/
def repetitions (flags : Flags) : Nat → Regex → List Char → Option (Regex × List Char)
  | 0, _, _ => none
  | fuel + 1, r, cs =>
    match flags.skip cs with
    | '*' :: cs =>
      let (greedy, rest) := greed flags cs
      repetitions flags fuel (.times 0 none greedy r) rest
    | '+' :: cs =>
      let (greedy, rest) := greed flags cs
      repetitions flags fuel (.times 1 none greedy r) rest
    | '?' :: cs =>
      let (greedy, rest) := greed flags cs
      repetitions flags fuel (.times 0 (some 1) greedy r) rest
    | '\x7b' :: cs =>
      (bounds flags cs).bind fun ((least, most), rest) =>
        let (greedy, rest) := greed flags (flags.skip rest)
        repetitions flags fuel (.times least most greedy r) rest
    | cs => some (r, cs)

/-! ## Groups and flags -/

/-- What one flag letter changes. The flag `u` is set from the start and cannot be taken back. -/
def Flags.with? (flags : Flags) (value : Bool) : Char → Option Flags
  | 'i' => some { flags with caseless := value }
  | 'm' => some { flags with lines := value }
  | 's' => some { flags with dotAll := value }
  | 'U' => some { flags with swapGreed := value }
  | 'x' => some { flags with spaced := value }
  | 'u' => if value then some flags else none
  | _ => none

/-- Flags up to the colon or the parenthesis that ends them, which comes with the result. `seen` are
the letters before; none is given twice, and a letter follows the minus. -/
def flagLetters (flags : Flags) (seen : List Char) : List Char → Option (Flags × Char × List Char)
  | [] => none
  | c :: cs =>
    if c = ':' || c = ')' then
      if seen.head? = some '-' then none else some (flags, c, cs)
    else if c ∈ seen then none
    else if c = '-' then flagLetters flags (c :: seen) cs
    else (flags.with? (!seen.contains '-') c).bind fun flags => flagLetters flags (c :: seen) cs

/-- A character that the name of a group can begin with. -/
def isNameStart (c : Char) : Bool := c == '_' || c.isAlpha || (c.toNat ≥ 128 && Unicode.isWord c)

/-- A character that the name of a group can go on with. -/
def isNameRest (c : Char) : Bool :=
  isNameStart c || c.isDigit || c == '.' || c == '[' || c == ']'

/-- The name of a group up to the bracket that closes it. -/
def groupName (cs : List Char) : Option (List Char × List Char) :=
  let name := cs.takeWhile (· != '>')
  match name, cs.drop name.length with
  | c :: more, _ :: rest => if isNameStart c && more.all isNameRest then some (name, rest) else none
  | _, _ => none

/-- What an opening parenthesis begins. -/
inductive Opening where
  /-- Flags for the rest of the enclosing group. -/
  | flags (flags : Flags)
  /-- A group, with the flags inside it and its name. -/
  | group (flags : Flags) (name : Option String)

/-- What follows an opening parenthesis. Flags without a group are not empty. -/
def opening (flags : Flags) (cs : List Char) : Option (Opening × List Char) :=
  match flags.skip cs with
  | '?' :: 'P' :: '<' :: cs => named cs
  | '?' :: '<' :: '=' :: _ => none
  | '?' :: '<' :: '!' :: _ => none
  | '?' :: '<' :: cs => named cs
  | '?' :: ')' :: _ => none
  | '?' :: cs =>
    (flagLetters flags [] cs).map fun (changed, last, rest) =>
      (if last = ')' then .flags changed else .group changed none, rest)
  | cs => some (.group flags none, cs)
where
  named (cs : List Char) : Option (Opening × List Char) :=
    (groupName cs).map fun (name, rest) => (.group flags (some (String.ofList name)), rest)

/-! ## Expressions -/

/-- How far the text of an expression has been read. -/
structure Reading where
  rest : List Char
  flags : Flags
  /-- The names of the groups so far. -/
  names : List String

/-- A group with the name it may have. -/
def nameIf : Option String → Regex → Regex
  | none, r => r
  | some name, r => .named name r

/-- The set of one character, in every case if the flags say so. -/
def literal (flags : Flags) (c : Char) : Regex := .set ((CharSet.single c).foldIf flags.caseless)

/-- What an escape matches. -/
def Escaped.toRegex (flags : Flags) : Escaped → Regex
  | char c => literal flags c
  | set s => .set s
  | look l => .look l

/-- An item that is not a group. An operator of a repetition is none. -/
def item (flags : Flags) (fuel : Nat) : List Char → Option (Regex × List Char)
  | [] => none
  | '\\' :: cs => (escaped cs).map fun (e, rest) => (e.toRegex flags, rest)
  | '[' :: cs => (bracketClass flags fuel cs).map fun (s, rest) => (.set s, rest)
  | '.' :: cs =>
    some (.set (if flags.dotAll then .compl .empty else .compl (.single '\n')), cs)
  | '^' :: cs => some (.look (if flags.lines then .lineStart else .textStart), cs)
  | '$' :: cs => some (.look (if flags.lines then .lineEnd else .textEnd), cs)
  | c :: cs =>
    if c = '*' || c = '+' || c = '?' || c = '\x7b' then none else some (literal flags c, cs)

mutual

/-- Alternatives, up to a closing parenthesis or the end. -/
def alternatives : Nat → Reading → Option (Regex × Reading)
  | 0, _ => none
  | fuel + 1, s =>
    (items fuel s).bind fun (r, s) =>
      match s.rest with
      | '|' :: rest =>
        (alternatives fuel { s with rest := rest }).map fun (q, s) => (.alt r q, s)
      | _ => some (r, s)

/-- The items of one alternative. -/
def items : Nat → Reading → Option (Regex × Reading)
  | 0, _ => none
  | fuel + 1, s =>
    match s.flags.skip s.rest with
    | [] => some (.empty, { s with rest := [] })
    | ')' :: rest => some (.empty, { s with rest := ')' :: rest })
    | '|' :: rest => some (.empty, { s with rest := '|' :: rest })
    | '(' :: rest =>
      match opening s.flags rest with
      | none => none
      | some (.flags flags, rest) => items fuel { s with rest := rest, flags := flags }
      | some (.group flags name, rest) =>
        if name.any s.names.contains then none
        else
          let inner : Reading := ⟨rest, flags, name.toList ++ s.names⟩
          match alternatives fuel inner with
          | some (r, ⟨')' :: rest, _, names⟩) =>
            itemsAfter fuel (nameIf name r) ⟨rest, s.flags, names⟩
          | _ => none
    | rest =>
      (item s.flags fuel rest).bind fun (r, rest) => itemsAfter fuel r { s with rest := rest }

/-- An item with its repetitions, and the items after it. -/
def itemsAfter : Nat → Regex → Reading → Option (Regex × Reading)
  | 0, _, _ => none
  | fuel + 1, r, s =>
    (repetitions s.flags fuel r s.rest).bind fun (r, rest) =>
      (items fuel { s with rest := rest }).map fun (q, s) => (.cat r q, s)

end

/-- Enough fuel for a text: no character is passed on more than three times. -/
def fuelFor (cs : List Char) : Nat := 4 * cs.length + 8

/-- **The expression that a text spells**, if the text is well formed. -/
def parse (text : String) : Option Regex :=
  match alternatives (fuelFor text.toList) ⟨text.toList, {}, []⟩ with
  | some (r, ⟨[], _, _⟩) => some r
  | _ => none

end RefTree.Regex
