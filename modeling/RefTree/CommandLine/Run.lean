import RefTree.CommandLine.Arguments
import RefTree.Format
import RefTree.Resolver

/-!
# CommandLine/Run — from arguments to a report

A run reads a tree, changes the options by the settings and then by the arguments, and resolves the
tree or one key of it. Where files come from is a parameter; the first thing that goes wrong is the
report.
-/

namespace RefTree.CommandLine

/-- What goes wrong in a run. -/
inductive Trouble where
  | formatUnknown (path : String)
  | unreadable (path : String)
  | malformed (path : String)
  | optionsRefused (failure : Failure)
  | keyFailed (key : String) (failure : Failure)
  | treeFailed (path : String) (failure : Failure)
  | endless (path : String)
  deriving DecidableEq, Repr

namespace Trouble

/-- What was tried. -/
def headline : Trouble → String
  | formatUnknown path =>
    "Cannot infer format of '" ++ path ++ "' (expected .json, .yaml, .yml or .toml)"
  | unreadable path => "Failed to read '" ++ path ++ "'"
  | malformed path => "Failed to parse '" ++ path ++ "'"
  | optionsRefused _ => "Invalid resolver options"
  | keyFailed key _ => "Failed to resolve key '" ++ key ++ "'"
  | treeFailed path _ => "Failed to resolve '" ++ path ++ "'"
  | endless path => "Failed to resolve '" ++ path ++ "'"

/-- Why it failed, where that is known. -/
def cause? : Trouble → Option String
  | optionsRefused failure => some failure.message
  | keyFailed _ failure => some failure.message
  | treeFailed _ failure => some failure.message
  | _ => none

/-- The text with four blanks before each of its lines. -/
def indented (text : String) : String :=
  String.ofList (text.toList.foldr (fun c cs =>
    if c = '\n' then '\n' :: ' ' :: ' ' :: ' ' :: ' ' :: cs else c :: cs) []
    |> ("    ".toList ++ ·))

/-- **The report of a trouble.** -/
def report (t : Trouble) : String :=
  "Error: " ++ t.headline ++
    match t.cause? with
    | some cause => "\n\nCaused by:\n" ++ indented cause ++ "\n"
    | none => "\n"

end Trouble

/-- The version. -/
def versionText : String := "propref 0.1.0\n"

/-- How the program is called. -/
def usageLine : String := "Usage: propref [OPTIONS] <INPUT>\n"

/-- An option and what it does. -/
def helpEntry (names help : String) : String := "  " ++ names ++ "\n          " ++ help ++ "\n"

/-- What the program does, and its arguments. -/
def helpText : String :=
  "Resolve @\x7b key \x7d references inside a JSON, YAML or TOML file\n\n" ++ usageLine ++
  "\nArguments:\n  <INPUT>  JSON, YAML or TOML file (format from extension)\n\nOptions:\n" ++
  helpEntry "-k, --key <KEY>" "Resolve only this key instead of the whole tree" ++
  helpEntry "    --key-base <KEY_BASE>" "Implicit root prefix for relative keys" ++
  helpEntry "    --separator <SEPARATOR>" "Path separator" ++
  helpEntry "    --up-level <UP_LEVEL>" "Up-level token" ++
  helpEntry "    --up-level-mode <UP_LEVEL_MODE>"
    "How up-level tokens count levels [possible values: sibling, parent]" ++
  helpEntry "    --settings <SETTINGS>" "TOML, JSON or YAML file with resolver settings" ++
  helpEntry "    --no-preserve-types" "Always splice references as text" ++
  helpEntry "    --compact" "Compact JSON output" ++
  helpEntry "-h, --help" "Print help" ++
  helpEntry "-V, --version" "Print version"

/-- How a run ends. -/
structure Report where
  exit : Nat
  output : String
  errors : String
  deriving DecidableEq, Repr

variable {m : Type → Type} [Monad m]

/-- A document, read by `decode` in the format that its path names. `read` finds the text of a
file. -/
def document {α : Type} (read : String → m (Option String)) (decode : Format → String → Option α)
    (path : String) : ExceptT Trouble m α := do
  let some format := Format.ofPath? path | throw (.formatUnknown path)
  let some text ← read path | throw (.unreadable path)
  let some found := decode format text | throw (.malformed path)
  return found

/-- The options that the arguments leave after the settings. -/
def Arguments.«over» (a : Arguments) (config : Config) : Config :=
  { config with
    keyBase := a.keyBase.getD config.keyBase
    grammar :=
      { config.grammar with
        separator := a.separator.getD config.grammar.separator
        upLevelToken := a.upLevel.getD config.grammar.upLevelToken }
    upLevelMode := a.upLevelMode.getD config.upLevelMode
    keepTypes := config.keepTypes && !a.spliceAlways }

/-- What the arguments ask to resolve. -/
def Arguments.resolved (a : Arguments) (rescans : Nat) (r : Resolver) : Except Trouble Value :=
  match a.key with
  | some key =>
    match r.get rescans key with
    | .done v => .ok v
    | .failed e => .error (.keyFailed key e)
    | .exhausted => .error (.endless a.input)
  | none =>
    match r.resolve rescans with
    | .done v => .ok v
    | .failed e => .error (.treeFailed a.input e)
    | .exhausted => .error (.endless a.input)

/-- The text of the resolved value. -/
def Arguments.output (a : Arguments) (rescans : Nat) (read : String → m (Option String)) :
    ExceptT Trouble m String := do
  let tree ← document read Format.readTree a.input
  let settings ←
    match a.settings with
    | some path => document read Format.readSettings path
    | none => pure {}
  let config := a.«over» (settings.«over» {})
  match Resolver.ofTree tree { toConfig := config } with
  | .error fault => throw (.optionsRefused (.configuration fault))
  | .ok r =>
    match a.resolved rescans r with
    | .error trouble => throw trouble
    | .ok v => return (if a.compact then v.toJson else v.toPrettyJson) ++ "\n"

/-- **The report of a command line.** -/
def run (rescans : Nat) (read : String → m (Option String)) (args : List String) : m Report := do
  match Request.parse args with
  | none => return ⟨2, "", usageLine ++ "\nFor more information, try '--help'.\n"⟩
  | some .help => return ⟨0, helpText, ""⟩
  | some .version => return ⟨0, versionText, ""⟩
  | some (.run a) =>
    match ← (a.output rescans read).run with
    | .ok text => return ⟨0, text, ""⟩
    | .error trouble => return ⟨1, "", trouble.report⟩

end RefTree.CommandLine
