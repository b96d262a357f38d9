import RefTree.Number

/-!
# Value — property trees

A property tree nests mappings, lists and scalars. The entries of a mapping keep the order in which
they were first written; writing a key again keeps its place and replaces its value
(`Value.insert`).
-/

namespace RefTree

/-- A node of a property tree. `null` also stands for an absent value. -/
inductive Value where
  | null
  | bool (b : Bool)
  | number (n : Number)
  | string (s : String)
  | list (items : List Value)
  | map (entries : List (String × Value))
  deriving Inhabited, Repr

namespace Value

/-- The empty mapping. -/
def empty : Value := map []

/-! ## Kinds -/

/-- The name of a value's kind. -/
def kind : Value → String
  | null => "null"
  | bool _ => "bool"
  | number _ => "number"
  | string _ => "string"
  | list _ => "list"
  | map _ => "map"

def isNull : Value → Bool
  | null => true
  | _ => false

def toBool? : Value → Option Bool
  | bool b => some b
  | _ => none

def toText? : Value → Option String
  | string s => some s
  | _ => none

/-- The value as a signed integer of 64 bits. -/
def toSigned? : Value → Option Int
  | number n => n.toSigned?
  | _ => none

def toList? : Value → Option (List Value)
  | list items => some items
  | _ => none

def toEntries? : Value → Option (List (String × Value))
  | map entries => some entries
  | _ => none

/-! ## Entries -/

/-- Write `key`: in its old place if it has one, else at the end. -/
def insert (key : String) (value : Value) : List (String × Value) → List (String × Value)
  | [] => [(key, value)]
  | (k, v) :: rest => if k = key then (k, value) :: rest else (k, v) :: insert key value rest

/-- The mapping that results from writing the pairs in order. -/
def ofPairs (pairs : List (String × Value)) : Value :=
  map (pairs.foldl (fun entries (key, value) => insert key value entries) [])

mutual

/-- The tree in which every key stands once: at its first place, with its last value. -/
def merge : Value → Value
  | list items => list (mergeItems items)
  | map entries => ofPairs (mergeEntries entries)
  | v => v

/-- `merge` in every element. -/
def mergeItems : List Value → List Value
  | [] => []
  | x :: xs => merge x :: mergeItems xs

/-- `merge` in the value of every entry. -/
def mergeEntries : List (String × Value) → List (String × Value)
  | [] => []
  | (key, v) :: es => (key, merge v) :: mergeEntries es

end

/-- The entry of a mapping. -/
def get? (key : String) : Value → Option Value
  | map entries => entries.lookup key
  | _ => none

/-- The node at a path of keys. Lists have no keys. -/
def getPath? : List String → Value → Option Value
  | [], v => some v
  | key :: path, v => (v.get? key).bind (getPath? path)

@[simp] theorem getPath?_nil (v : Value) : getPath? [] v = some v := rfl

theorem getPath?_append (p q : List String) (v : Value) :
    getPath? (p ++ q) v = (getPath? p v).bind (getPath? q) := by
  induction p generalizing v with
  | nil => rfl
  | cons key path ih =>
    simp only [List.cons_append, getPath?]
    cases v.get? key with
    | none => rfl
    | some w => exact ih w

/-! ## Equality -/

mutual

/-- Equal trees. Mappings are equal if they hold equal values under the same keys, in any order. -/
def same : Value → Value → Bool
  | null, null => true
  | bool a, bool b => a == b
  | number m, number n => m.same n
  | string s, string t => s == t
  | list xs, list ys => sameItems xs ys
  | map es, map fs => es.length == fs.length && sameEntries es fs
  | _, _ => false

/-- Lists of equal trees. -/
def sameItems : List Value → List Value → Bool
  | [], [] => true
  | x :: xs, y :: ys => same x y && sameItems xs ys
  | _, _ => false

/-- Each entry of the first mapping has an equal one in the second. -/
def sameEntries : List (String × Value) → List (String × Value) → Bool
  | [], _ => true
  | (key, v) :: es, fs =>
    (match fs.lookup key with
      | some w => same v w
      | none => false) && sameEntries es fs

end

end Value

end RefTree
