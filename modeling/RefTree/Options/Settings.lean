import RefTree.Json.Printer
import RefTree.Options

/-!
# Options/Settings — configurations changed by a document

`Settings` hold the fields of a configuration that a document may set; a field that is not set
leaves the configuration as it is. A document is a mapping of field names, or a list of fields in
their order. How a field is read from the nodes of a document is a `Decoder`, so that every format
of documents shares `Settings.decode`.
-/

namespace RefTree

namespace GetterMode

def name : GetterMode → String
  | fallback => "default"
  | required => "required"

def ofName? : String → Option GetterMode
  | "default" => some fallback
  | "required" => some required
  | _ => none

theorem ofName?_name (m : GetterMode) : ofName? m.name = some m := by cases m <;> rfl

end GetterMode

namespace BasePolicy

def name : BasePolicy → String
  | contextual => "contextual"
  | always => "always"

def ofName? : String → Option BasePolicy
  | "contextual" => some contextual
  | "always" => some always
  | _ => none

theorem ofName?_name (p : BasePolicy) : ofName? p.name = some p := by cases p <;> rfl

end BasePolicy

namespace UpLevelMode

def name : UpLevelMode → String
  | sibling => "sibling"
  | parent => "parent"

def ofName? : String → Option UpLevelMode
  | "sibling" => some sibling
  | "parent" => some parent
  | _ => none

theorem ofName?_name (m : UpLevelMode) : ofName? m.name = some m := by cases m <;> rfl

end UpLevelMode

/-- The fields of a configuration that a document sets. -/
structure Settings where
  referencePattern : Option String := none
  keyPattern : Option String := none
  separator : Option String := none
  upLevelToken : Option String := none
  keyBase : Option String := none
  keepTypes : Option Bool := none
  getterMode : Option GetterMode := none
  basePolicy : Option BasePolicy := none
  upLevelMode : Option UpLevelMode := none
  maxDepth : Option Nat := none
  deriving DecidableEq, Repr

/-- How the nodes `ν` of a document are read. -/
structure Decoder (ν : Type) where
  /-- The node stands for a field that is not set. -/
  absent : ν → Bool
  text? : ν → Option String
  bool? : ν → Option Bool
  natural? : ν → Option Nat
  /-- The name of one of several cases. -/
  name? : ν → Option String

namespace Decoder

variable {ν : Type} (d : Decoder ν)

/-- A field, unless it is not set. -/
def field {α : Type} (read? : ν → Option α) (node : ν) : Option (Option α) :=
  if d.absent node then some none else (read? node).map some

/-- A depth has 64 bits. -/
def depth? (node : ν) : Option Nat := (d.natural? node).filter (· < Nat.pow 2 64)

end Decoder

namespace Settings

/-- The names of the fields, in their order. -/
def names : List String :=
  ["reference-pattern", "key-pattern", "separator", "up-level-token", "key-base",
    "preserve-data-type", "getter-mode", "key-base-policy", "up-level-mode", "max-depth"]

variable {ν : Type}

/-- Set one field; a name that is not a field is refused. -/
def set (d : Decoder ν) (s : Settings) (name : String) (node : ν) : Option Settings :=
  match name with
  | "reference-pattern" => (d.field d.text? node).map ({ s with referencePattern := · })
  | "key-pattern" => (d.field d.text? node).map ({ s with keyPattern := · })
  | "separator" => (d.field d.text? node).map ({ s with separator := · })
  | "up-level-token" => (d.field d.text? node).map ({ s with upLevelToken := · })
  | "key-base" => (d.field d.text? node).map ({ s with keyBase := · })
  | "preserve-data-type" => (d.field d.bool? node).map ({ s with keepTypes := · })
  | "getter-mode" =>
    (d.field (d.name? · |>.bind GetterMode.ofName?) node).map ({ s with getterMode := · })
  | "key-base-policy" =>
    (d.field (d.name? · |>.bind BasePolicy.ofName?) node).map ({ s with basePolicy := · })
  | "up-level-mode" =>
    (d.field (d.name? · |>.bind UpLevelMode.ofName?) node).map ({ s with upLevelMode := · })
  | "max-depth" => (d.field d.depth? node).map ({ s with maxDepth := · })
  | _ => none

/-- **The settings of a mapping**, in which no field stands twice. -/
def decode (d : Decoder ν) (entries : List (String × ν)) : Option Settings :=
  if (entries.map Prod.fst).Nodup then
    entries.foldlM (fun s (name, node) => s.set d name node) {}
  else none

/-- The settings of a list of fields, in the order of `names`. -/
def decodeList (d : Decoder ν) (nodes : List ν) : Option Settings :=
  if nodes.length ≤ names.length then decode d (names.zip nodes) else none

/-- **The configuration with the fields that are set.** -/
def «over» (s : Settings) (config : Config) : Config :=
  { grammar :=
      { referencePattern := s.referencePattern.getD config.grammar.referencePattern
        keyPattern := s.keyPattern.getD config.grammar.keyPattern
        separator := s.separator.getD config.grammar.separator
        upLevelToken := s.upLevelToken.getD config.grammar.upLevelToken }
    keyBase := s.keyBase.getD config.keyBase
    keepTypes := s.keepTypes.getD config.keepTypes
    getterMode := s.getterMode.getD config.getterMode
    basePolicy := s.basePolicy.getD config.basePolicy
    upLevelMode := s.upLevelMode.getD config.upLevelMode
    maxDepth := s.maxDepth.getD config.maxDepth }

end Settings

/-! ## Documents of values -/

namespace Value

/-- The name of a case: a string, or the only key of a mapping to null. -/
def caseName? : Value → Option String
  | string s => some s
  | map [(key, null)] => some key
  | _ => none

/-- A number that is a natural one. -/
def toNatural? : Value → Option Nat
  | number (.integer (.ofNat n)) => some n
  | _ => none

/-- Values as the nodes of a document. -/
def decoder : Decoder Value := ⟨isNull, toText?, toBool?, toNatural?, caseName?⟩

end Value

/-- The settings that a tree spells. -/
def Settings.ofValue? : Value → Option Settings
  | .map entries => decode Value.decoder entries
  | .list nodes => decodeList Value.decoder nodes
  | _ => none

/-- A value for a field, null where it is not set. -/
def Value.ofOption : Option String → Value
  | none => null
  | some s => string s

/-- The tree of the settings, with every field. -/
def Settings.toValue (s : Settings) : Value :=
  .map (names.zip
    [.ofOption s.referencePattern, .ofOption s.keyPattern, .ofOption s.separator,
      .ofOption s.upLevelToken, .ofOption s.keyBase,
      (match s.keepTypes with | some b => .bool b | none => .null),
      .ofOption (s.getterMode.map GetterMode.name), .ofOption (s.basePolicy.map BasePolicy.name),
      .ofOption (s.upLevelMode.map UpLevelMode.name),
      (match s.maxDepth with | some n => .number (.integer n) | none => .null)])

namespace Grammar

/-- The names of the fields, in their order. -/
def names : List String := Settings.names.take 4

/-- The tree of a grammar. -/
def toValue (g : Grammar) : Value :=
  .map (names.zip
    [.string g.referencePattern, .string g.keyPattern, .string g.separator, .string g.upLevelToken])

/-- The field `name`, or what stands in for it where it is absent. -/
def field? (entries : List (String × Value)) (name standIn : String) : Option String :=
  match entries.lookup name with
  | some v => v.toText?
  | none => some standIn

/-- The grammar of a mapping; other names in it are of no account. -/
def ofEntries? (entries : List (String × Value)) : Option Grammar := do
  let standIn : Grammar := {}
  return {
    referencePattern := ← field? entries "reference-pattern" standIn.referencePattern
    keyPattern := ← field? entries "key-pattern" standIn.keyPattern
    separator := ← field? entries "separator" standIn.separator
    upLevelToken := ← field? entries "up-level-token" standIn.upLevelToken }

/-- **The grammar that a tree spells**: a mapping, or a list of fields in their order. -/
def ofValue? : Value → Option Grammar
  | .map entries => ofEntries? entries
  | .list fields => if fields.length ≤ names.length then ofEntries? (names.zip fields) else none
  | _ => none

end Grammar

end RefTree
