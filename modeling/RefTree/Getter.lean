import RefTree.Options
import RefTree.Text.Pieces

/-!
# Getter — ways to find the value of a key

A key that names nothing has the value null.
-/

namespace RefTree.Getter

/-- The key is the name of an entry at the top of the tree. -/
def direct : Getter := fun tree key _ => .ok ((tree.get? key).getD .null)

/-- The segments of a key between its separators. -/
def segments (config : Config) (key : String) : List String :=
  (Text.split config.grammar.separator.toList key.toList).map String.ofList

/-- **The key is the name of an entry at the top or, if there is none, a path from the top.** -/
def keyPath : Getter := fun tree key config =>
  match tree.get? key with
  | some v => .ok v
  | none => .ok ((tree.getPath? (segments config key)).getD .null)

/-- The key is looked up in a table, whatever the tree holds. -/
def memory (table : List (String × Value)) : Getter := fun _ key _ =>
  .ok ((table.lookup key).getD .null)

end RefTree.Getter
