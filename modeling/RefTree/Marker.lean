import RefTree.Failure
import RefTree.Options
import RefTree.Regex.Reader
import RefTree.Regex.Search
import RefTree.Text.Pieces

/-!
# Marker — the references in a string

A grammar spells one regular expression: its reference pattern, with the pattern of a whole key
where the placeholder stands. A key may begin with a separator or with up-level groups, and groups
may stand between its segments. `Pattern.find?` returns the first marker of a string, and
`Pattern.findAll` all markers that do not overlap.
-/

namespace RefTree

/-- A reference in a string. Offsets count the bytes of UTF-8. -/
structure Marker where
  /-- The key expression, as it is written. -/
  key : String
  start : Nat
  length : Nat
  /-- The marker is the whole string. -/
  whole : Bool
  deriving DecidableEq, Repr

namespace Marker

/-- The offset after the marker. -/
def stop (m : Marker) : Nat := m.start + m.length

/-- The characters that mean something in a regular expression. -/
def isSpecial (c : Char) : Bool := "\\.+*?()|[]\x7b\x7d^$#&-~".toList.contains c

/-- The expression that matches a text itself. -/
def escape (text : String) : String :=
  String.ofList (text.toList.flatMap fun c => if isSpecial c then ['\\', c] else [c])

/-- The expression of up-level groups in a row. -/
def groupsSource (grammar : Grammar) : String :=
  "(?:(?:" ++ escape grammar.upLevelToken ++ ")\x7b1,2\x7d" ++ escape grammar.separator ++ ")+"

/-- The expression of a key. -/
def keySource (grammar : Grammar) : String :=
  let groups := groupsSource grammar
  let separator := escape grammar.separator
  "(?:" ++ groups ++ "|" ++ separator ++ ")?(?:" ++ grammar.keyPattern ++ ")(?:" ++ separator ++
    "(?:" ++ groups ++ ")?(?:" ++ grammar.keyPattern ++ "))*"

/-- The name of the group that holds the key. -/
def keyGroup : String := "key"

/-- The places of the placeholder cut the reference pattern into these pieces. -/
def aroundKey (grammar : Grammar) : List (List Char) :=
  Text.pieces keyPlaceholder.toList grammar.referencePattern.toList

/-- The expression of a marker. -/
def source (grammar : Grammar) : String :=
  String.ofList
    (("(?P<" ++ keyGroup ++ ">" ++ keySource grammar ++ ")").toList.intercalate (aroundKey grammar))

/-- A grammar's expression of markers, as text and as read. -/
structure Pattern where
  source : String
  regex : Regex

namespace Pattern

/-- **The pattern of a grammar.** The placeholder stands in the reference pattern once, and the key
pattern is an expression by itself. -/
def ofGrammar (grammar : Grammar) : Except Fault Pattern :=
  let found := (aroundKey grammar).length - 1
  if found ≠ 1 then .error (.placeholders grammar.referencePattern found)
  else if grammar.keyPattern = "" then .error .keyPatternEmpty
  else
    match Regex.parse grammar.keyPattern with
    | none => .error (.keyPatternInvalid grammar.keyPattern)
    | some _ =>
      match Regex.parse (Marker.source grammar) with
      | none => .error (.referencePatternInvalid grammar.referencePattern)
      | some regex => .ok ⟨Marker.source grammar, regex⟩

/-- The marker of a match in which the key took part. -/
def marker? (text : String) (m : Regex.Span) : Option Marker :=
  (m.group? keyGroup).map fun key =>
    { key
      start := m.start.offset
      length := m.stop.offset - m.start.offset
      whole := m.start.offset == 0 && m.stop.offset == text.utf8ByteSize }

/-- **The first marker of a text.** -/
def find? (p : Pattern) (text : String) : Option Marker := (p.regex.find? text).bind (marker? text)

/-- **The markers of a text**, from left to right. -/
def findAll (p : Pattern) (text : String) : List Marker :=
  (p.regex.findAll text).filterMap (marker? text)

/-- The expression matches somewhere. -/
def matches? (p : Pattern) (text : String) : Bool := (p.regex.find? text).isSome

end Pattern

end Marker

end RefTree
