import RefTree.Json.Quoted
import RefTree.Value

/-!
# Json/Printer — JSON text of property trees

`compact` writes no blanks. `pretty` puts every element and entry on a line of its own, indented by
two blanks for each level; an empty list or mapping stays on one line.
-/

namespace RefTree.Json

mutual

/-- **The text of a tree without blanks.** -/
def compact : Value → List Char
  | .null => "null".toList
  | .bool true => "true".toList
  | .bool false => "false".toList
  | .number n => n.text.toList
  | .string s => quote s
  | .list [] => ['[', ']']
  | .list (x :: xs) => '[' :: compact x ++ compactItems xs
  | .map [] => ['\x7b', '\x7d']
  | .map ((key, v) :: es) => '\x7b' :: quote key ++ ':' :: compact v ++ compactEntries es

/-- The further elements of a list, and its end. -/
def compactItems : List Value → List Char
  | [] => [']']
  | x :: xs => ',' :: compact x ++ compactItems xs

/-- The further entries of a mapping, and its end. -/
def compactEntries : List (String × Value) → List Char
  | [] => ['\x7d']
  | (key, v) :: es => ',' :: quote key ++ ':' :: compact v ++ compactEntries es

end

/-- A new line at a level. -/
def newline (level : Nat) : List Char := '\n' :: List.replicate (2 * level) ' '

mutual

/-- The text of a tree that stands at a level, one element or entry a line. -/
def pretty (level : Nat) : Value → List Char
  | .null => "null".toList
  | .bool true => "true".toList
  | .bool false => "false".toList
  | .number n => n.text.toList
  | .string s => quote s
  | .list [] => ['[', ']']
  | .list (x :: xs) => '[' :: newline (level + 1) ++ pretty (level + 1) x ++ prettyItems level xs
  | .map [] => ['\x7b', '\x7d']
  | .map ((key, v) :: es) =>
    '\x7b' :: newline (level + 1) ++ quote key ++ ':' :: ' ' :: pretty (level + 1) v ++
      prettyEntries level es

/-- The further elements of a list that opened at `level`, and its end. -/
def prettyItems (level : Nat) : List Value → List Char
  | [] => newline level ++ [']']
  | x :: xs => ',' :: newline (level + 1) ++ pretty (level + 1) x ++ prettyItems level xs

/-- The further entries of a mapping that opened at `level`, and its end. -/
def prettyEntries (level : Nat) : List (String × Value) → List Char
  | [] => newline level ++ ['\x7d']
  | (key, v) :: es =>
    ',' :: newline (level + 1) ++ quote key ++ ':' :: ' ' :: pretty (level + 1) v ++
      prettyEntries level es

end

end RefTree.Json

namespace RefTree.Value

/-- The compact JSON text of a tree. -/
def toJson (v : Value) : String := String.ofList (Json.compact v)

/-- The indented JSON text of a tree. -/
def toPrettyJson (v : Value) : String := String.ofList (Json.pretty 0 v)

end RefTree.Value
