import RefTree.Unicode.Ranges

/-!
# Unicode/Blank — white space
-/

namespace RefTree.Unicode

/-- The code points of white space. -/
def blankRanges : List (Nat × Nat) :=
  [(0x9, 0xD), (0x20, 0x20), (0x85, 0x85), (0xA0, 0xA0), (0x1680, 0x1680), (0x2000, 0x200A),
   (0x2028, 0x2029), (0x202F, 0x202F), (0x205F, 0x205F), (0x3000, 0x3000)]

/-- White space: separators, and the controls that move to a new column or line. -/
def isBlank (c : Char) : Bool := inRanges blankRanges c.toNat

end RefTree.Unicode
