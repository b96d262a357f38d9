import RefTree.Options

/-!
# CommandLine/Arguments — what the command line asks for

Arguments are read from left to right. An option has a long name and may have a short one; its value
stands in the same argument or is the next one, which then does not begin with a dash. Nothing may
be given twice. After two dashes every argument is the input. Help and version are answered where
they stand, before what is missing or wrong behind them.
-/

namespace RefTree.CommandLine

/-- What to resolve, and how. -/
structure Arguments where
  input : String
  key : Option String := none
  keyBase : Option String := none
  separator : Option String := none
  upLevel : Option String := none
  upLevelMode : Option UpLevelMode := none
  settings : Option String := none
  spliceAlways : Bool := false
  compact : Bool := false
  deriving DecidableEq, Repr

/-- What a command line asks for. -/
inductive Request where
  | help
  | version
  | run (arguments : Arguments)
  deriving DecidableEq, Repr

/-- An option without a value. -/
inductive Flag where
  | spliceAlways
  | compact
  | help
  | version

/-- An option with a value. -/
inductive Setter where
  | key
  | keyBase
  | separator
  | upLevel
  | upLevelMode
  | settings

/-- An option. -/
inductive Switch where
  | flag (f : Flag)
  | setter (s : Setter)

namespace Switch

/-- The option with a long name. -/
def ofLong? : String → Option Switch
  | "key" => some (setter .key)
  | "key-base" => some (setter .keyBase)
  | "separator" => some (setter .separator)
  | "up-level" => some (setter .upLevel)
  | "up-level-mode" => some (setter .upLevelMode)
  | "settings" => some (setter .settings)
  | "no-preserve-types" => some (flag .spliceAlways)
  | "compact" => some (flag .compact)
  | "help" => some (flag .help)
  | "version" => some (flag .version)
  | _ => none

/-- The option with a short name. -/
def ofShort? : Char → Option Switch
  | 'k' => some (setter .key)
  | 'h' => some (flag .help)
  | 'V' => some (flag .version)
  | _ => none

end Switch

/-- The arguments read so far: the input is still missing or has been given. -/
structure Given where
  input : Option String := none
  rest : Arguments := { input := "" }

namespace Given

/-- Fill a place that is still empty. -/
def fill {α : Type} (old : Option α) (new : α) : Option (Option α) :=
  if old.isSome then none else some (some new)

/-- A path, which is not empty. -/
def path? (value : String) : Option String := if value = "" then none else some value

/-- Give an option its value. -/
def set (g : Given) (value : String) : Setter → Option Given
  | .key => (fill g.rest.key value).map fun v => { g with rest := { g.rest with key := v } }
  | .keyBase =>
    (fill g.rest.keyBase value).map fun v => { g with rest := { g.rest with keyBase := v } }
  | .separator =>
    (fill g.rest.separator value).map fun v => { g with rest := { g.rest with separator := v } }
  | .upLevel =>
    (fill g.rest.upLevel value).map fun v => { g with rest := { g.rest with upLevel := v } }
  | .upLevelMode =>
    (match value with
      | "sibling" => some UpLevelMode.sibling
      | "parent" => some UpLevelMode.parent
      | _ => none).bind fun mode =>
    (fill g.rest.upLevelMode mode).map fun v => { g with rest := { g.rest with upLevelMode := v } }
  | .settings =>
    (path? value).bind fun path =>
    (fill g.rest.settings path).map fun v => { g with rest := { g.rest with settings := v } }

/-- Give the input. -/
def setInput (g : Given) (value : String) : Option Given :=
  (path? value).bind fun path => (fill g.input path).map fun v => { g with input := v }

/-- What the arguments ask for once all are read. -/
def request (g : Given) : Option Request :=
  g.input.map fun path => .run { g.rest with input := path }

end Given

/-- What comes of an option: reading goes on, a value is missing, or the request is known. -/
inductive Progress where
  | read (g : Given)
  | wants (s : Setter) (g : Given)
  | answered (r : Request)

/-- A flag. -/
def Given.raise (g : Given) : Flag → Option Progress
  | .spliceAlways =>
    if g.rest.spliceAlways then none
    else some (.read { g with rest := { g.rest with spliceAlways := true } })
  | .compact =>
    if g.rest.compact then none
    else some (.read { g with rest := { g.rest with compact := true } })
  | .help => some (.answered .help)
  | .version => some (.answered .version)

/-- An option by its long name, with the value after an equals sign. -/
def Given.long (g : Given) (text : List Char) : Option Progress :=
  let name := text.takeWhile (· ≠ '=')
  let value := text.drop name.length
  match Switch.ofLong? (String.ofList name), value with
  | some (.flag f), [] => g.raise f
  | some (.setter s), [] => some (.wants s g)
  | some (.setter s), _ :: value => (g.set (String.ofList value) s).map .read
  | _, _ => none

/-- Options by their short names. What follows one with a value is its value. -/
def Given.short (g : Given) : List Char → Option Progress
  | [] => some (.read g)
  | c :: cs =>
    match Switch.ofShort? c with
    | some (.flag f) =>
      match g.raise f with
      | some (.read g) => g.short cs
      | other => other
    | some (.setter s) =>
      match cs with
      | [] => some (.wants s g)
      | '=' :: value => (g.set (String.ofList value) s).map .read
      | value => (g.set (String.ofList value) s).map .read
    | none => none

/-- The argument is an option, or two dashes. -/
def isDashed (arg : String) : Bool :=
  match arg.toList with
  | '-' :: _ :: _ => true
  | _ => false

/-- The arguments after two dashes. -/
def Given.onlyInput (g : Given) : List String → Option Request
  | [] => g.request
  | arg :: rest => (g.setInput arg).bind (·.onlyInput rest)

/-- The arguments from left to right. -/
def Given.parse (g : Given) : List String → Option Request
  | [] => g.request
  | arg :: rest =>
    let progress :=
      match arg.toList with
      | '-' :: '-' :: name => g.long name
      | '-' :: c :: cs => g.short (c :: cs)
      | _ => (g.setInput arg).map .read
    if arg = "--" then g.onlyInput rest
    else
      match progress, rest with
      | none, _ => none
      | some (.answered r), _ => some r
      | some (.read g), rest => g.parse rest
      | some (.wants _ _), [] => none
      | some (.wants s g), value :: rest =>
        if isDashed value then none else (g.set value s).bind (·.parse rest)

/-- **What a command line asks for**, if it is well formed. -/
def Request.parse (args : List String) : Option Request := ({} : Given).parse args

end RefTree.CommandLine
