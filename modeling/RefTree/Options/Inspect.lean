import RefTree.Options
import RefTree.Value.Inspect

/-!
# Options/Inspect — options written out

Every field is named. Of a function that is supplied only that it is there can be told.
-/

namespace RefTree

/-- A record with its name and its fields. -/
def inspectRecord (name : String) (fields : List (String × String)) : String :=
  name ++ " \x7b " ++ ", ".intercalate (fields.map fun (field, text) => field ++ ": " ++ text) ++
    " \x7d"

/-- Something that is there only by its mark. -/
def inspectPresence (mark : String) : Bool → String
  | true => "Some(" ++ inspectText mark ++ ")"
  | false => "None"

def GetterMode.inspect : GetterMode → String
  | fallback => "Default"
  | required => "Required"

def BasePolicy.inspect : BasePolicy → String
  | contextual => "Contextual"
  | always => "Always"

def UpLevelMode.inspect : UpLevelMode → String
  | sibling => "Sibling"
  | parent => "Parent"

def Grammar.inspect (g : Grammar) : String :=
  inspectRecord "ReferenceSyntax"
    [("reference_pattern", inspectText g.referencePattern),
      ("key_pattern", inspectText g.keyPattern), ("separator", inspectText g.separator),
      ("up_level_token", inspectText g.upLevelToken)]

/-- **Options with the names of their fields.** -/
def Options.inspect (o : Options) : String :=
  inspectRecord "PropRefOptions"
    [("getter", inspectPresence "<getter>" o.getter.isSome),
      ("post_parser", inspectPresence "<post-parser>" o.postParser.isSome),
      ("syntax", o.grammar.inspect), ("key_base", inspectText o.keyBase),
      ("preserve_data_type", inspectBool o.keepTypes), ("getter_mode", o.getterMode.inspect),
      ("key_base_policy", o.basePolicy.inspect), ("up_level_mode", o.upLevelMode.inspect),
      ("max_depth", Nat.repr o.maxDepth)]

end RefTree
