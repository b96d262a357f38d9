import RefTree.Value

/-!
# Value/Inspect — values written out with their kinds

The inspected text names the kind of every node, so that `1`, `"1"` and `[1]` are told apart.
-/

namespace RefTree

/-- A text between quotes, with a backslash before every quote and backslash. -/
def inspectText (s : String) : String :=
  let escape (c : Char) : List Char := if c = '"' || c = '\\' then ['\\', c] else [c]
  "\"" ++ String.ofList (s.toList.flatMap escape) ++ "\""

/-- The word for a truth value. -/
def inspectBool : Bool → String
  | true => "true"
  | false => "false"

namespace Value

mutual

/-- **A value with the kinds of its nodes.** -/
def inspect : Value → String
  | .null => "Null"
  | .bool b => "Bool(" ++ inspectBool b ++ ")"
  | .number n => "Number(Number(" ++ n.text ++ "))"
  | .string s => "String(" ++ inspectText s ++ ")"
  | .list [] => "List([])"
  | .list (x :: xs) => "List([" ++ inspect x ++ inspectItems xs
  | .map [] => "Map(\x7b\x7d)"
  | .map ((key, v) :: es) => "Map(\x7b" ++ inspectText key ++ ": " ++ inspect v ++ inspectEntries es

/-- The further elements of a list, and its end. -/
def inspectItems : List Value → String
  | [] => "])"
  | x :: xs => ", " ++ inspect x ++ inspectItems xs

/-- The further entries of a mapping, and its end. -/
def inspectEntries : List (String × Value) → String
  | [] => "\x7d)"
  | (key, v) :: es => ", " ++ inspectText key ++ ": " ++ inspect v ++ inspectEntries es

end

end Value

end RefTree
