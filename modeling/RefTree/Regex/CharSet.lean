import RefTree.Unicode.Blank
import RefTree.Unicode.Digit
import RefTree.Unicode.Fold
import RefTree.Unicode.Word

/-!
# Regex/CharSet — sets of characters

A set is written with ranges, three Unicode properties and the operations on sets; `contains` says
what it holds. `folded` adds the characters that differ from one of the set in case only.
-/

namespace RefTree.Regex

/-- A set of characters, as it is put together. -/
inductive CharSet where
  | empty
  | range (first last : Char)
  | digit
  | blank
  | word
  | union (a b : CharSet)
  | inter (a b : CharSet)
  | compl (a : CharSet)
  | folded (a : CharSet)
  deriving DecidableEq, Repr

namespace CharSet

/-- **What a set holds.** -/
def contains : CharSet → Char → Bool
  | empty, _ => false
  | range first last, c => first ≤ c && c ≤ last
  | digit, c => Unicode.isDigit c
  | blank, c => Unicode.isBlank c
  | word, c => Unicode.isWord c
  | union a b, c => a.contains c || b.contains c
  | inter a b, c => a.contains c && b.contains c
  | compl a, c => !a.contains c
  | folded a, c => (Unicode.caseVariants c).any fun d => a.contains d

/-- One character. -/
def single (c : Char) : CharSet := range c c

/-- What is in `a` and not in `b`. -/
def diff (a b : CharSet) : CharSet := inter a (compl b)

/-- What is in one of the sets and not in both. -/
def symmDiff (a b : CharSet) : CharSet := diff (union a b) (inter a b)

/-- The set, with the other cases of its characters if `caseless`. -/
def foldIf (caseless : Bool) (a : CharSet) : CharSet := if caseless then folded a else a

/-- The set, or what is outside it if `negated`. -/
def complIf (negated : Bool) (a : CharSet) : CharSet := if negated then compl a else a

@[simp] theorem contains_single (c d : Char) : (single c).contains d = decide (c = d) := by
  simp only [single, contains, Bool.and_eq_decide, decide_eq_true_eq]
  exact decide_eq_decide.mpr ⟨fun h => Char.le_antisymm h.1 h.2, fun h => by subst h; simp⟩

/-- The union of ranges. -/
def ofRanges : List (Char × Char) → CharSet
  | [] => empty
  | (first, last) :: rest => union (range first last) (ofRanges rest)

/-- The set with a name in brackets, of ASCII characters only. -/
def named? (name : List Char) : Option CharSet :=
  (ranges? (String.ofList name)).map ofRanges
where
  ranges? : String → Option (List (Char × Char))
    | "alnum" => some [('0', '9'), ('A', 'Z'), ('a', 'z')]
    | "alpha" => some [('A', 'Z'), ('a', 'z')]
    | "ascii" => some [('\x00', '\x7f')]
    | "blank" => some [('\t', '\t'), (' ', ' ')]
    | "cntrl" => some [('\x00', '\x1f'), ('\x7f', '\x7f')]
    | "digit" => some [('0', '9')]
    | "graph" => some [('!', '~')]
    | "lower" => some [('a', 'z')]
    | "print" => some [(' ', '~')]
    | "punct" => some [('!', '/'), (':', '@'), ('[', '\x60'), ('\x7b', '~')]
    | "space" => some [('\t', '\r'), (' ', ' ')]
    | "upper" => some [('A', 'Z')]
    | "word" => some [('0', '9'), ('A', 'Z'), ('_', '_'), ('a', 'z')]
    | "xdigit" => some [('0', '9'), ('A', 'F'), ('a', 'f')]
    | _ => none

end CharSet

end RefTree.Regex
