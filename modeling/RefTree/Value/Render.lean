import RefTree.Json.Printer

/-!
# Value/Render — the text a value leaves in a longer string

A string stands for itself, null for nothing, a list for its rendered elements with commas between
them; a mapping is written as compact JSON.
-/

namespace RefTree.Value

mutual

/-- **The text that replaces a reference to the value.** -/
def render : Value → String
  | .null => ""
  | .bool true => "true"
  | .bool false => "false"
  | .number n => n.text
  | .string s => s
  | .list [] => ""
  | .list (x :: xs) => render x ++ renderItems xs
  | .map es => toJson (.map es)

/-- The further elements of a list, each after a comma. -/
def renderItems : List Value → String
  | [] => ""
  | x :: xs => "," ++ render x ++ renderItems xs

end

end RefTree.Value
