/-!
# Failure — why options are refused and why resolutions fail

Each way to fail is a case of its own, and holds what its report names. `Failure.message` words
them.
-/

namespace RefTree

/-- Why options are refused. -/
inductive Fault where
  | getterMissing
  | separatorEmpty
  | tokenEmpty
  | overlap (separator token : String)
  | placeholders (pattern : String) (found : Nat)
  | keyPatternEmpty
  | keyPatternInvalid (pattern : String)
  | referencePatternInvalid (pattern : String)
  deriving DecidableEq, Repr

/-- What stands for the key in a reference pattern. -/
def keyPlaceholder : String := "\x7bkey\x7d"

/-- The wording of a fault. -/
def Fault.message : Fault → String
  | getterMissing => "a getter is required to look up referenced property values"
  | separatorEmpty => "separator must not be empty"
  | tokenEmpty => "up-level token must not be empty"
  | overlap separator token =>
    "separator '" ++ separator ++ "' and up-level token '" ++ token ++ "' must not overlap"
  | placeholders pattern found =>
    "reference pattern '" ++ pattern ++ "' must contain '" ++ keyPlaceholder ++
      "' exactly once (found " ++ Nat.repr found ++ ")"
  | keyPatternEmpty => "key pattern must not be empty"
  | keyPatternInvalid pattern => "invalid key pattern '" ++ pattern ++ "'"
  | referencePatternInvalid pattern => "invalid reference pattern '" ++ pattern ++ "'"

/-- Why a resolution fails. -/
inductive Failure where
  /-- The options are refused. -/
  | configuration (fault : Fault)
  /-- The getter failed for a key. -/
  | resolution (key source : String)
  /-- A key was looked up while it was being resolved; the chain ends in it. -/
  | cyclic (key : String) (chain : List String)
  /-- A lookup would have made the chain longer than `limit`. -/
  | tooDeep (key : String) (limit : Nat)
  /-- The post-parser failed on a string under `context`. -/
  | postParse (context source : String)
  deriving DecidableEq, Repr

/-- The wording of a failure. -/
def Failure.message : Failure → String
  | configuration fault => "Configuration error: " ++ fault.message
  | resolution key source => "Failed to resolve reference '" ++ key ++ "': " ++ source
  | cyclic key chain =>
    "Cyclic reference detected for '" ++ key ++ "' (chain: " ++ " -> ".intercalate chain ++ ")"
  | tooDeep key limit =>
    "Reference chain too deep (depth > " ++ Nat.repr limit ++ ") while resolving '" ++ key ++ "'"
  | postParse context source => "Post-parser failed at '" ++ context ++ "': " ++ source

end RefTree
