import RefTree.Value

/-!
# Options — how references are written and resolved

A `Grammar` says what a reference marker and a key look like; a `Config` adds how keys are read and
how far a resolution may go. `Options` are a configuration with the two functions that a caller may
supply: a getter, which finds the raw value of a key, and a post-parser, which sees every string
once its references are gone.
-/

namespace RefTree

/-- What happens when no getter is supplied: a getter by key path takes its place, or the options
are refused. -/
inductive GetterMode where
  | fallback
  | required
  deriving DecidableEq, Repr

/-- When the key base is put in front of a key: unless the key is absolute, or always. -/
inductive BasePolicy where
  | contextual
  | always
  deriving DecidableEq, Repr

/-- How up-level tokens climb. Among siblings one token stays and two climb one level; with parents
every token climbs one level. -/
inductive UpLevelMode where
  | sibling
  | parent
  deriving DecidableEq, Repr

/-- The texts and patterns of reference markers and keys. -/
structure Grammar where
  /-- The pattern of a marker, with a place for the key. -/
  referencePattern : String := "@\\\x7b\\s*\x7bkey\x7d\\s*\\\x7d"
  /-- The pattern of one segment of a key. -/
  keyPattern : String := "[a-zA-Z0-9_]+"
  /-- What stands between the segments of a key. -/
  separator : String := "."
  /-- What climbs, in front of a separator. -/
  upLevelToken : String := "-"
  deriving DecidableEq, Repr

/-- Everything about references that is plain data. -/
structure Config where
  grammar : Grammar := {}
  /-- The key in front of keys that are not absolute. -/
  keyBase : String := ""
  /-- A string that is one marker becomes the referenced value itself, whatever its kind. -/
  keepTypes : Bool := true
  getterMode : GetterMode := .fallback
  basePolicy : BasePolicy := .contextual
  upLevelMode : UpLevelMode := .sibling
  /-- The greatest length of a chain of references. -/
  maxDepth : Nat := 64
  deriving DecidableEq, Repr

/-- Finds the raw value of a key in a tree, or says why it cannot. -/
abbrev Getter := Value → String → Config → Except String Value

/-- Turns a string without references into its final value, or says why it cannot. -/
abbrev PostParser := Value → String → Config → Except String Value

/-- A configuration with the functions supplied to it. -/
structure Options extends Config where
  getter : Option Getter := none
  postParser : Option PostParser := none

end RefTree
