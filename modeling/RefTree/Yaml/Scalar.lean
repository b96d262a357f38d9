import RefTree.Regex.Reader

/-!
# Yaml/Scalar — the text of scalars

The lines of a scalar that goes over several are folded: one line break becomes a blank, and of more
in a row the first is dropped. Each reader here takes a scalar off the front of a text; how far a
scalar without an end mark goes is decided by `Line`s, which know their indentation.
-/

namespace RefTree.Yaml

/-- A blank inside a line. -/
def isBlank (c : Char) : Bool := c = ' ' || c = '\t'

/-- What separates tokens: a blank, a line break, or the end of the text. -/
def isGap : List Char → Bool
  | [] => true
  | c :: _ => isBlank c || c = '\n'

/-- The text without blanks at its end. -/
def trimEnd (cs : List Char) : List Char := (cs.reverse.dropWhile isBlank).reverse

/-- The text without blanks at its front. -/
def trimStart (cs : List Char) : List Char := cs.dropWhile isBlank

/-! ## Folding -/

/-- What the breaks between two lines become, `blanks` lines between them being empty. -/
def folded (blanks : Nat) : List Char :=
  if blanks = 0 then [' '] else List.replicate blanks '\n'

/-- The lines of a scalar, one after the other; `blanks` counts the empty lines before the next. -/
def foldLines (blanks : Nat) : List (List Char) → List Char
  | [] => []
  | [] :: rest => foldLines (blanks + 1) rest
  | line :: rest => folded blanks ++ line ++ foldLines 0 rest

/-- The pieces of a text between its line breaks. -/
def linesOf : List Char → List (List Char)
  | [] => [[]]
  | c :: cs =>
    if c = '\n' then [] :: linesOf cs
    else
      match linesOf cs with
      | [] => [[c]]
      | line :: rest => (c :: line) :: rest

/-- Every line but the last without the blanks at its end, every line but the first without those
at its front. -/
def trimInner : List (List Char) → List (List Char)
  | [] => []
  | [line] => [trimStart line]
  | line :: rest => trimEnd (trimStart line) :: trimInner rest

/-- The text between quotes with its lines folded. -/
def foldQuoted (cs : List Char) : List Char :=
  match linesOf cs with
  | [] => []
  | [line] => line
  | line :: rest => trimEnd line ++ foldTail 0 (trimInner rest)
where
  /-- The last line counts even if it is empty. -/
  foldTail (blanks : Nat) : List (List Char) → List Char
    | [] => []
    | [line] => folded blanks ++ line
    | [] :: rest => foldTail (blanks + 1) rest
    | line :: rest => folded blanks ++ line ++ foldTail 0 rest

/-! ## Quoted scalars -/

/-- What stands between single quotes, after the first; two quotes in a row are one. -/
def singleQuoted : List Char → Option (List Char × List Char)
  | [] => none
  | '\'' :: '\'' :: cs => (singleQuoted cs).map fun (text, rest) => ('\'' :: text, rest)
  | '\'' :: cs => some ([], cs)
  | c :: cs => (singleQuoted cs).map fun (text, rest) => (c :: text, rest)

/-- What stands between double quotes, after the first, with its escapes as they are written. -/
def doubleQuoted : List Char → Option (List Char × List Char)
  | [] => none
  | '\\' :: c :: cs => (doubleQuoted cs).map fun (text, rest) => ('\\' :: c :: text, rest)
  | '"' :: cs => some ([], cs)
  | c :: cs => (doubleQuoted cs).map fun (text, rest) => (c :: text, rest)

/-- The line breaks with a backslash before them, and the blanks after those, taken out. -/
def joinEscapedBreaks : List Char → List Char
  | [] => []
  | '\\' :: '\n' :: cs => joinEscapedBreaks cs
  | '\\' :: c :: cs => '\\' :: c :: joinEscapedBreaks cs
  | c :: cs => c :: joinEscapedBreaks cs

/-- The character that an escape of one letter stands for. -/
def escape? : Char → Option Char
  | '0' => some '\x00'
  | 'a' => some '\x07'
  | 'b' => some '\x08'
  | 't' => some '\t'
  | '\t' => some '\t'
  | 'n' => some '\n'
  | 'v' => some '\x0b'
  | 'f' => some '\x0c'
  | 'r' => some '\r'
  | 'e' => some '\x1b'
  | ' ' => some ' '
  | '"' => some '"'
  | '/' => some '/'
  | '\\' => some '\\'
  | 'N' => some '\u0085'
  | '_' => some '\u00a0'
  | 'L' => some '\u2028'
  | 'P' => some '\u2029'
  | _ => none

/-- The digits of an escape that names a code point. -/
def codeWidth? : Char → Option Nat
  | 'x' => some 2
  | 'u' => some 4
  | 'U' => some 8
  | _ => none

/-- The text with its escapes replaced. `fuel` bounds its length. -/
def unescape : Nat → List Char → Option (List Char)
  | 0, cs => if cs.isEmpty then some [] else none
  | _ + 1, [] => some []
  | fuel + 1, '\\' :: c :: cs =>
    match codeWidth? c with
    | some width =>
      if (cs.take width).length < width then none
      else
        (Regex.hexChar? (cs.take width)).bind fun d => (unescape fuel (cs.drop width)).map (d :: ·)
    | none => (escape? c).bind fun d => (unescape fuel cs).map (d :: ·)
  | fuel + 1, c :: cs => (unescape fuel cs).map (c :: ·)

/-- **A scalar between quotes**, after the first quote. -/
def quoted (quote : Char) (cs : List Char) : Option (String × List Char) :=
  if quote = '\'' then
    (singleQuoted cs).map fun (text, rest) => (String.ofList (foldQuoted text), rest)
  else
    (doubleQuoted cs).bind fun (text, rest) =>
      let text := foldQuoted (joinEscapedBreaks text)
      (unescape text.length text).map fun text => (String.ofList text, rest)

/-! ## Plain scalars -/

/-- The characters that end a plain scalar between brackets. -/
def isFlowMark (c : Char) : Bool :=
  c = ',' || c = '[' || c = ']' || c = '\x7b' || c = '\x7d'

/-- A plain scalar's text on one line, and where it stops: at a colon or a comment that a blank sets
off, and between brackets also at their marks and at a colon before one of them. -/
def plainLine (flow : Bool) : List Char → List Char × List Char
  | [] => ([], [])
  | c :: cs =>
    if c = '\n' ||
        (c = ':' && (isGap cs || (flow && cs.head?.any fun d => isFlowMark d || d = '?'))) ||
        (flow && isFlowMark c) || (isBlank c && cs.head? = some '#') then ([], c :: cs)
    else
      let (text, rest) := plainLine flow cs
      (c :: text, rest)

/-- A plain scalar can begin here. -/
def startsPlain : List Char → Bool
  | [] => false
  | c :: cs =>
    if c = '-' || c = '?' || c = ':' then !isGap cs
    else !isBlank c && !",[]\x7b\x7d#&*!|>'\"%@`\n".toList.contains c

/-- The indentation of a line, and what stands in it and after it. -/
def indentation : List Char → Nat × List Char
  | ' ' :: cs =>
    let (n, rest) := indentation cs
    (n + 1, rest)
  | cs => (0, cs)

/-- The next line that is not empty after a line break: the empty lines before it, its indentation,
and the text from its first character on. -/
def nextLine : Nat → List Char → Option (Nat × Nat × List Char)
  | 0, _ => none
  | fuel + 1, '\n' :: cs =>
    let (indent, rest) := indentation cs
    match rest with
    | [] => none
    | '\n' :: _ => (nextLine fuel rest).map fun (blanks, found) => (blanks + 1, found)
    | _ => some (0, indent, rest)
  | _, _ => none

/-- The further lines of a plain scalar: those indented by more than `parent`. -/
def plainMore (flow : Bool) (parent : Int) : Nat → List Char → List Char × List Char
  | 0, cs => ([], cs)
  | fuel + 1, cs =>
    match nextLine cs.length cs with
    | none => ([], cs)
    | some (blanks, indent, rest) =>
      if (!flow && (indent : Int) ≤ parent) || rest.head? = some '#' then ([], cs)
      else
        let (line, rest) := plainLine flow rest
        if line.isEmpty then ([], cs)
        else
          let (more, rest) := plainMore flow parent fuel rest
          (folded blanks ++ trimEnd line ++ more, rest)

/-- **A plain scalar** in a node that is indented by more than `parent`. -/
def plainScalar (flow : Bool) (parent : Int) (cs : List Char) : String × List Char :=
  let (line, rest) := plainLine flow cs
  let (more, rest) := plainMore flow parent rest.length rest
  (String.ofList (trimEnd line ++ more), rest)

/-! ## Block scalars -/

/-- What becomes of the line breaks at the end of a block scalar. -/
inductive Chomping where
  | strip
  | clip
  | keep

/-- The marks after the opening mark of a block scalar: its chomping and its own indentation. -/
def blockHeader : List Char → Option ((Chomping × Option Nat) × List Char)
  | '-' :: c :: cs => if isIndent c then some ((.strip, some (c.toNat - 48)), cs) else
      some ((.strip, none), c :: cs)
  | '+' :: c :: cs => if isIndent c then some ((.keep, some (c.toNat - 48)), cs) else
      some ((.keep, none), c :: cs)
  | '-' :: cs => some ((.strip, none), cs)
  | '+' :: cs => some ((.keep, none), cs)
  | c :: cs =>
    if isIndent c then
      match cs with
      | '-' :: rest => some ((.strip, some (c.toNat - 48)), rest)
      | '+' :: rest => some ((.keep, some (c.toNat - 48)), rest)
      | _ => some ((.clip, some (c.toNat - 48)), cs)
    else some ((.clip, none), c :: cs)
  | [] => some ((.clip, none), [])
where
  isIndent (c : Char) : Bool := '1' ≤ c && c ≤ '9'

/-- The rest of the line holds nothing but blanks and a comment. -/
def endsLine (cs : List Char) : Bool :=
  match trimStart (cs.takeWhile (· != '\n')) with
  | [] => true
  | c :: _ => c = '#' && cs.head?.any isBlank

/-- The lines of a block scalar that is indented by `indent`, each without its indentation, and the
text from the first line that is not its own, with the line break before it. -/
def blockLines (indent : Nat) : Nat → List Char → List (List Char) × List Char
  | 0, cs => ([], cs)
  | fuel + 1, cs =>
    match cs with
    | '\n' :: after =>
      let (n, rest) := indentation after
      let ends := match rest with
        | [] => true
        | c :: _ => c = '\n'
      if after.isEmpty then ([], cs)
      else if n < indent && !ends then ([], cs)
      else
        let line := (after.drop (min n indent)).takeWhile (· != '\n')
        let (more, rest) :=
          blockLines indent fuel ((after.drop (min n indent)).dropWhile (· != '\n'))
        (line :: more, rest)
    | _ => ([], cs)

/-- The indentation of the first line with text. -/
def blockIndent (cs : List Char) : Nat :=
  match nextLine cs.length cs with
  | some (_, indent, _) => indent
  | none => 0

/-- The lines of a literal scalar, each with its line break. -/
def literalText (lines : List (List Char)) : List Char := lines.flatMap (· ++ ['\n'])

/-- A line that keeps its line breaks when a block is folded. -/
def isSpaced (line : List Char) : Bool := line.head?.any isBlank

/-- The lines of a folded scalar, with the last line break. `blanks` counts the empty lines since
the line before, which kept its breaks if `spaced`. -/
def foldedText (first spaced : Bool) (blanks : Nat) : List (List Char) → List Char
  | [] => if first then [] else ['\n']
  | [] :: rest => foldedText first spaced (blanks + 1) rest
  | line :: rest =>
    let breaks :=
      if first then List.replicate blanks '\n'
      else if spaced || isSpaced line then List.replicate (blanks + 1) '\n'
      else folded blanks
    breaks ++ line ++ foldedText false (isSpaced line) 0 rest

/-- The empty lines at the end, and the lines before them. -/
def splitTail (lines : List (List Char)) : List (List Char) × Nat :=
  let body := (lines.reverse.dropWhile List.isEmpty).reverse
  (body, lines.length - body.length)

/-- **A block scalar** after its opening mark, in a node that is indented by more than `parent`. -/
def blockScalar (literal : Bool) (parent : Int) (cs : List Char) : Option (String × List Char) :=
  (blockHeader cs).bind fun ((chomping, own), rest) =>
    if !endsLine rest then none
    else
      let rest := rest.dropWhile (· != '\n')
      let least : Int := max (parent + 1) 1
      let indent : Int :=
        match own with
        | some n => max parent 0 + n
        | none => max (blockIndent rest : Int) least
      let (lines, rest) := blockLines indent.toNat (rest.length + 1) rest
      let (body, tail) := splitTail lines
      let text := if literal then literalText body else foldedText true false 0 body
      let text := if rest.isEmpty && tail = 0 then text.dropLast else text
      let text :=
        match chomping with
        | .strip => if text.getLast? = some '\n' then text.dropLast else text
        | .clip => text
        | .keep => text ++ List.replicate tail '\n'
      some (String.ofList text, rest)

end RefTree.Yaml
