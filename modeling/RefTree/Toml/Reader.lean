import RefTree.Toml.Scalar
import RefTree.Toml.Table

/-!
# Toml/Reader — TOML documents

A document is a table: lines with a key and a value, and headers that open further tables. Values
are scalars, lists and tables in braces; a moment of time becomes a mapping with one entry of its
own name. Keys that are written twice are refused, and so are numbers that are not finite.
-/

namespace RefTree.Toml

/-- What ends a line: blanks, a comment, and a line break or the end of the text. -/
def endLine (cs : List Char) : Option (List Char) :=
  match skipBlanks cs with
  | [] => some []
  | '#' :: cs =>
    let comment := cs.takeWhile fun c => c ≠ '\n' && c ≠ '\r'
    if comment.any isControl then none
    else
      match cs.drop comment.length with
      | [] => some []
      | rest => lineBreak? rest
  | cs => lineBreak? cs

/-- The text without blanks, comments and line breaks at its front. -/
def skipVoid : Nat → List Char → List Char
  | 0, cs => cs
  | fuel + 1, cs =>
    match skipBlanks cs with
    | [] => []
    | rest =>
      match endLine rest with
      | some after => skipVoid fuel after
      | none => rest

/-! ## Keys -/

/-- A character of a key without quotes. -/
def isBare (c : Char) : Bool := c.isAlphanum || c = '_' || c = '-'

/-- One part of a key. -/
def simpleKey (cs : List Char) : Option (String × List Char) :=
  match lineString cs with
  | some found => some found
  | none =>
    let name := cs.takeWhile isBare
    if name.isEmpty then none else some (String.ofList name, cs.drop name.length)

/-- The parts of a key, with dots between them, and what follows the key and blanks. -/
def dottedKey : Nat → List Char → Option (List String × List Char)
  | 0, _ => none
  | fuel + 1, cs =>
    (simpleKey (skipBlanks cs)).bind fun (name, rest) =>
      match skipBlanks rest with
      | '.' :: rest => (dottedKey fuel rest).map fun (names, rest) => (name :: names, rest)
      | rest => some ([name], rest)

/-- The path and the last part of a key. -/
def splitKey (names : List String) : List String × String :=
  (names.dropLast, names.getLast?.getD "")

/-! ## Values -/

/-- The name of the entry that holds a moment of time. -/
def momentKey : String := "$__toml_private_datetime"

/-- A character of a number or a word. -/
def isWordChar (c : Char) : Bool := c.isAlphanum || c = '_' || c = '-' || c = '+' || c = '.'

/-- A number, a truth value or a moment. -/
def word (cs : List Char) : Option (Value × List Char) :=
  match moment? cs with
  | some (text, rest) => some (.map [(momentKey, .string (String.ofList text))], rest)
  | none =>
    let name := cs.takeWhile isWordChar
    let rest := cs.drop name.length
    if name = "true".toList then some (.bool true, rest)
    else if name = "false".toList then some (.bool false, rest)
    else
      match integer? name with
      | some n => some (.number (.integer n), rest)
      | none => (double? name).map fun x => (.number (.float x), rest)

/-- Elements between brackets, after the opening one. A comma may follow the last. -/
def elements (value : List Char → Option (Value × List Char)) :
    Nat → List Char → Option (List Value × List Char)
  | 0, _ => none
  | fuel + 1, cs =>
    match skipVoid cs.length cs with
    | ']' :: rest => some ([], rest)
    | cs =>
      (value cs).bind fun (v, rest) =>
        match skipVoid rest.length rest with
        | ']' :: rest => some ([v], rest)
        | ',' :: rest => (elements value fuel rest).map fun (vs, rest) => (v :: vs, rest)
        | _ => none

/-- Entries between braces, all on one line, after the opening one. -/
def entries (value : List Char → Option (Value × List Char)) :
    Nat → Entries → List Char → Option (Entries × List Char)
  | 0, _, _ => none
  | fuel + 1, table, cs =>
    (dottedKey cs.length cs).bind fun (names, rest) =>
      match rest with
      | '=' :: rest =>
        (value (skipBlanks rest)).bind fun (v, rest) =>
          let (path, key) := splitKey names
          (assign path key (.value v) table).bind fun table =>
            match skipBlanks rest with
            | '\x7d' :: rest => some (table, rest)
            | ',' :: rest => entries value fuel table rest
            | _ => none
      | _ => none

/-- **A value**, nested at most `room` deep. -/
def value (room : Nat) (cs : List Char) : Option (Value × List Char) :=
  match cs with
  | '"' :: _ => text cs
  | '\'' :: _ => text cs
  | '[' :: rest =>
    match room with
    | 0 => none
    | room + 1 => (elements (value room) rest.length rest).map fun (vs, rest) => (.list vs, rest)
  | '\x7b' :: rest =>
    match room with
    | 0 => none
    | room + 1 =>
      match skipBlanks rest with
      | '\x7d' :: rest => some (.empty, rest)
      | rest =>
        (entries (value room) rest.length [] rest).map fun (table, rest) =>
          (.map (entriesToValues table), rest)
  | cs => word cs
where
  text (cs : List Char) : Option (Value × List Char) :=
    (string cs).map fun (s, rest) => (.string s, rest)

/-- The deepest nesting of a value. -/
def maxNesting : Nat := 79

/-! ## Documents -/

/-- What has been read of a document: its table, and the header that is open. -/
structure Reading where
  table : Entries
  header : List String

/-- A header, after its opening brackets: what it opens, up to the closing ones. -/
def header (isItem : Bool) (cs : List Char) (table : Entries) : Option (Reading × List Char) :=
  (dottedKey cs.length cs).bind fun (names, rest) =>
    let (path, key) := splitKey names
    let opened := if isItem then openItem path key table else openTable path key table
    let closed :=
      match isItem, rest with
      | true, ']' :: ']' :: rest => some rest
      | false, ']' :: rest => some rest
      | _, _ => none
    closed.bind fun rest => opened.map fun table => (⟨table, names⟩, rest)

/-- A key and its value, in the table that is open. -/
def keyValue (s : Reading) (cs : List Char) : Option (Reading × List Char) :=
  (dottedKey cs.length cs).bind fun (names, rest) =>
    match rest with
    | '=' :: rest =>
      (value maxNesting (skipBlanks rest)).bind fun (v, rest) =>
        let (path, key) := splitKey names
        (within s.header (assign path key (.value v)) s.table).map fun table =>
          (⟨table, s.header⟩, rest)
    | _ => none

/-- What one line holds. -/
def line (s : Reading) (cs : List Char) : Option (Reading × List Char) :=
  match cs with
  | '[' :: '[' :: rest => header true rest s.table
  | '[' :: rest => header false rest s.table
  | cs => keyValue s cs

/-- The lines of a document. -/
def lines : Nat → Reading → List Char → Option Entries
  | 0, _, _ => none
  | fuel + 1, s, cs =>
    match skipVoid cs.length cs with
    | [] => some s.table
    | cs =>
      (line s cs).bind fun (s, rest) => (endLine rest).bind fun rest => lines fuel s rest

/-- **The tree that a text spells.** -/
def parseValue (text : String) : Option Value :=
  let cs := match text.toList with | '\ufeff' :: cs => cs | cs => cs
  (lines (cs.length + 1) ⟨[], []⟩ cs).map fun table => .map (entriesToValues table)

end RefTree.Toml
