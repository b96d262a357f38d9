import RefTree.Numeral.Text
import RefTree.Options.Settings

/-!
# Yaml/Node — what a YAML document holds before its scalars have kinds

A plain scalar has the kind that its text suggests: null, a truth value, an integer, a double, or
else a string (`resolve`). A scalar between quotes or in a block is a string. Where a setting is
expected, its own kind decides how the text is read (`Node.decoder`).
-/

namespace RefTree.Yaml

/-- A node of a document. The plain scalar without text stands where a node is left out. -/
inductive Node where
  | plain (text : String)
  | quoted (text : String)
  | sequence (items : List Node)
  | mapping (entries : List (Node × Node))
  deriving Inhabited, Repr

/-! ## Plain scalars -/

/-- The texts of null. -/
def isNullText (s : String) : Bool := ["", "~", "null", "Null", "NULL"].contains s

/-- The truth value of a text. -/
def bool? (s : String) : Option Bool :=
  if ["true", "True", "TRUE"].contains s then some true
  else if ["false", "False", "FALSE"].contains s then some false
  else none

/-- The value of a digit of a number with the given base. -/
def digit? (base : Nat) (c : Char) : Option Nat :=
  let n :=
    if c.isDigit then c.toNat - 48
    else if c.isLower then c.toNat - 87
    else if c.isUpper then c.toNat - 55
    else base
  if n < base then some n else none

/-- The number that one digit or more spell. -/
def natural? (base : Nat) : List Char → Option Nat
  | [] => none
  | cs => cs.foldl (fun n c => n.bind fun n => (digit? base c).map (base * n + ·)) (some 0)

/-- Digits with a needless zero in front of them, whatever their sign. They are no number. -/
def isZeroPadded (cs : List Char) : Bool :=
  match (Binary64.signOf cs).2 with
  | '0' :: c :: rest => (c :: rest).all Char.isDigit
  | _ => false

/-- An integer without its sign: decimal, or with the mark of another base. -/
def magnitude? : List Char → Option Nat
  | '0' :: 'x' :: cs => natural? 16 cs
  | '0' :: 'o' :: cs => natural? 8 cs
  | '0' :: 'b' :: cs => natural? 2 cs
  | cs => natural? 10 cs

/-- The integer that a text spells. -/
def integer? (cs : List Char) : Option Int :=
  if isZeroPadded cs then none
  else
    match cs with
    | '-' :: cs => (magnitude? cs).map fun n => -(n : Int)
    | '+' :: cs => (magnitude? cs).map fun n => (n : Int)
    | cs => (magnitude? cs).map fun n => (n : Int)

/-- The texts of the doubles that are not finite. -/
def isNonFinite (s : String) : Bool :=
  [".inf", ".Inf", ".INF", "+.inf", "+.Inf", "+.INF", "-.inf", "-.Inf", "-.INF", ".nan", ".NaN",
    ".NAN"].contains s

/-- A double that a text spells. One that would be infinite is none. -/
def double? (cs : List Char) : Option Binary64 :=
  if isZeroPadded cs then none else (Binary64.ofText? cs).join

/-- The integers that are read as such though no number of a tree can hold them. -/
def Overflows (n : Int) : Prop := -(Nat.pow 2 127 : Int) ≤ n ∧ n < Nat.pow 2 128

instance (n : Int) : Decidable (Overflows n) := inferInstanceAs (Decidable (_ ∧ _))

/-- **The value of a plain scalar.** A number that no tree can hold is refused. -/
def resolve (s : String) : Option Value :=
  if isNullText s then some .null
  else
    match bool? s with
    | some b => some (.bool b)
    | none =>
      match integer? s.toList with
      | some n =>
        if Number.Fits n then some (.number (.integer n))
        else if Overflows n then none
        else some (asDouble s)
      | none => if isNonFinite s then none else some (asDouble s)
where
  asDouble (s : String) : Value :=
    match double? s.toList with
    | some x => .number (.float x)
    | none => .string s

/-! ## Trees -/

namespace Node

/-- The text of a key: only strings are keys. -/
def key? : Node → Option String
  | plain s =>
    match resolve s with
    | some (.string s) => some s
    | _ => none
  | quoted s => some s
  | _ => none

mutual

/-- **The tree of a node**, with every entry as it is written. -/
def toValue? : Node → Option Value
  | plain s => resolve s
  | quoted s => some (.string s)
  | sequence items => (itemsToValues? items).map .list
  | mapping entries => (entriesToValues? entries).map .map

/-- The trees of the items of a sequence. -/
def itemsToValues? : List Node → Option (List Value)
  | [] => some []
  | x :: xs => (toValue? x).bind fun v => (itemsToValues? xs).map (v :: ·)

/-- The trees of the entries of a mapping. -/
def entriesToValues? : List (Node × Node) → Option (List (String × Value))
  | [] => some []
  | (k, x) :: es =>
    k.key?.bind fun key => (toValue? x).bind fun v => (entriesToValues? es).map ((key, v) :: ·)

end

/-! ## Settings -/

/-- The text of a scalar. -/
def text? : Node → Option String
  | plain s => some s
  | quoted s => some s
  | _ => none

/-- A scalar that stands for nothing. -/
def isAbsent : Node → Bool
  | plain s => isNullText s
  | _ => false

/-- Nodes as the fields of settings: a text is any scalar, every other kind a plain one. -/
def decoder : Decoder Node where
  absent := isAbsent
  text? := text?
  bool? := fun node => match node with
    | plain s => Yaml.bool? s
    | _ => none
  natural? := fun node => match node with
    | plain s =>
      match integer? s.toList with
      | some (.ofNat n) => if s.toList.head? = some '-' then none else some n
      | _ => none
    | _ => none
  name? := text?

/-- The settings of a mapping. -/
def settings? : Node → Option Settings
  | mapping entries =>
    (entries.mapM fun (entry : Node × Node) => entry.1.text?.map (·, entry.2)).bind
      (Settings.decode decoder)
  | _ => none

end Node

end RefTree.Yaml
