import RefTree.Json.Reader
import RefTree.Text.Pieces
import RefTree.Toml.Reader
import RefTree.Yaml.Reader

/-!
# Format — the formats of documents

A document is JSON, YAML or TOML, as the extension of its path says.
-/

namespace RefTree

/-- A format of documents. -/
inductive Format where
  | json
  | yaml
  | toml
  deriving DecidableEq, Repr

namespace Format

/-- The last part of a path, unless it leads upwards. -/
def fileName? (path : String) : Option (List Char) :=
  let parts := (Text.pieces ['/'] path.toList).filter fun part => part ≠ [] && part ≠ ['.']
  parts.getLast?.filter (· ≠ ['.', '.'])

/-- What stands after the last dot of a file's name, if something stands before it. -/
def extension? (path : String) : Option String :=
  (fileName? path).bind fun name =>
    match (Text.pieces ['.'] name).reverse with
    | last :: before :: more =>
      if before = [] && more = [] then none else some (String.ofList last)
    | _ => none

/-- **The format that a path names**, whatever the case of its extension. -/
def ofPath? (path : String) : Option Format :=
  match (extension? path).map fun e => String.ofList (e.toList.map Char.toLower) with
  | some "json" => some json
  | some "yaml" => some yaml
  | some "yml" => some yaml
  | some "toml" => some toml
  | _ => none

/-- The tree of a document. -/
def readTree : Format → String → Option Value
  | json => Json.parse
  | yaml => Yaml.parseValue
  | toml => Toml.parseValue

/-- The settings of a document. -/
def readSettings : Format → String → Option Settings
  | json => fun text => (Json.parseEntries text).bind Settings.ofValue?
  | yaml => Yaml.parseSettings
  | toml => fun text => (Toml.parseValue text).bind Settings.ofValue?

end Format

end RefTree
