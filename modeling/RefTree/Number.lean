import RefTree.Numeral.Shortest

/-!
# Number — the numbers of a property tree

A number is an integer or a double, and stays what it is: `1` and `1.0` differ. Integers run from
`-2 ^ 63` to `2 ^ 64 - 1`; a numeral beyond them is read as a double.
-/

namespace RefTree

/-- A number, as it was written: an integer or a double. -/
inductive Number where
  | integer (n : Int)
  | float (x : Binary64)
  deriving DecidableEq, Repr

namespace Number

/-- The integers a number can be: those of 64 bits, signed or unsigned. -/
def Fits (n : Int) : Prop := -(Nat.pow 2 63 : Int) ≤ n ∧ n < Nat.pow 2 64

instance (n : Int) : Decidable (Fits n) := inferInstanceAs (Decidable (_ ∧ _))

/-- Doubles are written plainly from `1e-5` to below `1e16`, always with a point, and with a signed
exponent elsewhere. -/
def layout : Layout := ⟨-5, 16, ".0", "+"⟩

/-- The decimal text of an integer. -/
def integerText : Int → String
  | .ofNat n => Nat.repr n
  | .negSucc n => "-" ++ Nat.repr (n + 1)

/-- The text of a number, in every output. -/
def text : Number → String
  | integer n => integerText n
  | float x => layout.text x

/-- Numbers of one kind and of one magnitude; the two zeros are the same double. -/
def same : Number → Number → Bool
  | integer m, integer n => m == n
  | float x, float y => x.same y
  | _, _ => false

/-- The number as a signed integer of 64 bits. -/
def toSigned? : Number → Option Int
  | integer n => if n < Nat.pow 2 63 then some n else none
  | float _ => none

end Number

end RefTree
