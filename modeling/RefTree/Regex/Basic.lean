import RefTree.Regex.CharSet

/-!
# Regex/Basic — regular expressions and the places they match from

Groups are recorded only if they have a name. A `Cursor` is a place in a text: the bytes and the
character before it, the text after it, and what the named groups have matched so far.
-/

namespace RefTree

namespace Regex

/-- A condition on a place in a text. -/
inductive Look where
  | textStart
  | textEnd
  | lineStart
  | lineEnd
  /-- Between a word character and something else. -/
  | wordBoundary
  | wordInside
  /-- Before the first character of a word. -/
  | wordStart
  /-- After the last character of a word. -/
  | wordEnd
  /-- Not after a word character. -/
  | wordStartHalf
  /-- Not before a word character. -/
  | wordEndHalf
  deriving DecidableEq, Repr

end Regex

/-- A regular expression. A repetition without an upper bound has `none` there. -/
inductive Regex where
  | empty
  | set (s : Regex.CharSet)
  | look (l : Regex.Look)
  | named (name : String) (r : Regex)
  | cat (r q : Regex)
  | alt (r q : Regex)
  | times (least : Nat) (most : Option Nat) (greedy : Bool) (r : Regex)
  deriving DecidableEq, Repr

namespace Regex

/-- A place in a text. -/
structure Cursor where
  /-- The bytes of UTF-8 before the place. -/
  offset : Nat
  /-- The character before the place. -/
  previous : Option Char
  /-- The text after the place. -/
  rest : List Char
  /-- What the named groups have matched, the latest first. -/
  groups : List (String × List Char)
  deriving DecidableEq, Repr

namespace Cursor

/-- The start of a text. -/
def start (text : List Char) : Cursor := ⟨0, none, text, []⟩

/-- The place after the next character. -/
def next? (s : Cursor) : Option Cursor :=
  match s.rest with
  | [] => none
  | c :: cs => some { s with offset := s.offset + c.utf8Size, previous := some c, rest := cs }

/-- The text between a place and a later one. -/
def upTo (s t : Cursor) : List Char := s.rest.take (s.rest.length - t.rest.length)

/-- The group `name` has matched the text from `s` to `t`. -/
def record (name : String) (s t : Cursor) : Cursor :=
  { t with groups := (name, s.upTo t) :: t.groups }

/-- There is a word character before the place. -/
def afterWord (s : Cursor) : Bool := s.previous.any Unicode.isWord

/-- There is a word character after the place. -/
def beforeWord (s : Cursor) : Bool := s.rest.head?.any Unicode.isWord

end Cursor

/-- **What a condition asks of a place.** -/
def Look.holds (s : Cursor) : Look → Bool
  | textStart => s.offset == 0
  | textEnd => s.rest.isEmpty
  | lineStart => s.offset == 0 || s.previous == some '\n'
  | lineEnd => s.rest.isEmpty || s.rest.head? == some '\n'
  | wordBoundary => s.afterWord != s.beforeWord
  | wordInside => s.afterWord == s.beforeWord
  | wordStart => !s.afterWord && s.beforeWord
  | wordEnd => s.afterWord && !s.beforeWord
  | wordStartHalf => !s.afterWord
  | wordEndHalf => !s.beforeWord

end Regex

end RefTree
