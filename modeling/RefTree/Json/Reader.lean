import RefTree.Json.Numeral
import RefTree.Json.Quoted
import RefTree.Value

/-!
# Json/Reader — property trees from JSON text

A reader takes what it wants from the front of a text and returns the rest. `value room` reads a
tree nested at most `room` deep; lists and mappings share `elements`, which reads what stands
between commas up to a closing bracket. `parseEntries` accepts one tree with nothing but blanks
around it and keeps every entry that is written; `parse` merges entries with one key.
-/

namespace RefTree.Json

/-- The blanks of JSON. -/
def isBlank (c : Char) : Bool := c = ' ' || c = '\t' || c = '\n' || c = '\r'

/-- The text without the blanks at its front. -/
def skipBlanks (cs : List Char) : List Char := cs.dropWhile isBlank

/-- One element or more, with commas between them and `close` after the last. `fuel` bounds the
number of elements; each takes a character at least, so the length of the text is enough. -/
def elements {α : Type} (element : List Char → Option (α × List Char)) (close : Char) :
    Nat → List Char → Option (List α × List Char)
  | 0, _ => none
  | fuel + 1, cs =>
    (element cs).bind fun (x, rest) =>
      match skipBlanks rest with
      | [] => none
      | c :: rest =>
        if c = close then some ([x], rest)
        else if c = ',' then
          (elements element close fuel rest).map fun (xs, rest) => (x :: xs, rest)
        else none

/-- What stands between an opening bracket and `close`: nothing, or elements. -/
def bracketed {α : Type} (element : List Char → Option (α × List Char)) (close : Char)
    (cs : List Char) : Option (List α × List Char) :=
  match skipBlanks cs with
  | [] => none
  | c :: rest => if c = close then some ([], rest) else elements element close cs.length cs

/-- An entry of a mapping, its value read by `item`. -/
def entry {α : Type} (item : List Char → Option (α × List Char)) (cs : List Char) :
    Option ((String × α) × List Char) :=
  match skipBlanks cs with
  | '"' :: rest =>
    (unquote none rest).bind fun (key, rest) =>
      match skipBlanks rest with
      | ':' :: rest => (item rest).map fun (v, rest) => ((String.ofList key, v), rest)
      | _ => none
  | _ => none

/-- **The tree at the front of the text**, nested at most `room` deep. -/
def value (room : Nat) (cs : List Char) : Option (Value × List Char) :=
  match skipBlanks cs with
  | 'n' :: 'u' :: 'l' :: 'l' :: rest => some (.null, rest)
  | 't' :: 'r' :: 'u' :: 'e' :: rest => some (.bool true, rest)
  | 'f' :: 'a' :: 'l' :: 's' :: 'e' :: rest => some (.bool false, rest)
  | '"' :: rest => (unquote none rest).map fun (s, rest) => (.string (String.ofList s), rest)
  | '[' :: rest =>
    match room with
    | 0 => none
    | room + 1 => (bracketed (value room) ']' rest).map fun (xs, rest) => (.list xs, rest)
  | '\x7b' :: rest =>
    match room with
    | 0 => none
    | room + 1 =>
      (bracketed (entry (value room)) '\x7d' rest).map fun (es, rest) => (.map es, rest)
  | rest => (numeral rest).map fun (n, rest) => (.number n, rest)

/-- The tree that a whole text spells, nested at most `room` deep, with every entry as it is
written. -/
def parseWithin (room : Nat) (text : String) : Option Value :=
  (value room text.toList).bind fun (v, rest) => if (skipBlanks rest).isEmpty then some v else none

/-- The deepest nesting of a document. -/
def maxNesting : Nat := 127

/-- The tree of a document, with every entry as it is written. -/
def parseEntries (text : String) : Option Value := parseWithin maxNesting text

/-- **The tree that a document spells.** -/
def parse (text : String) : Option Value := (parseEntries text).map Value.merge

end RefTree.Json
