import RefTree.Value

/-!
# Toml/Table — tables put together from keys and headers

A table is opened by a header, by a dotted key, or only because something inside it is named; what
may be added to it later depends on that. A header may open a table that is only implied, which then
moves behind the entries written before it; a dotted key may only go through tables that dotted keys
have opened, or that are implied.
-/

namespace RefTree.Toml

/-- How a table came to be. -/
inductive Origin where
  /-- By a header, or as a value. -/
  | opened
  /-- By a header of a table inside it. -/
  | implied
  /-- By a dotted key. -/
  | dotted
  deriving DecidableEq

/-- What stands under a key. -/
inductive Node where
  | value (v : Value)
  | table (origin : Origin) (entries : List (String × Node))
  /-- Tables in a list, the last one first; each header adds one. -/
  | tables (latest : List (String × Node)) (before : List (List (String × Node)))

/-- The entries of a table. -/
abbrev Entries := List (String × Node)

/-- Change what stands under a key, or add it at the end. -/
def update (key : String) (f : Option Node → Option Node) : Entries → Option Entries
  | [] => (f none).map fun node => [(key, node)]
  | (k, node) :: rest =>
    if k = key then (f (some node)).map fun node => (k, node) :: rest
    else (update key f rest).map ((k, node) :: ·)

/-- Change the table at the end of a path. Tables that are missing on the way get the origin
`missing`; of tables in a list the latest is meant. -/
def descend (missing : Origin) (f : Origin → Entries → Option Entries) :
    List String → Origin → Entries → Option Entries
  | [], origin, entries => f origin entries
  | key :: path, _, entries =>
    update key
      (fun found =>
        match found with
        | none => (descend missing f path missing []).map (.table missing)
        | some (.value _) => none
        | some (.table origin inner) =>
          if missing = .dotted && origin = .opened then none
          else (descend missing f path origin inner).map (.table origin)
        | some (.tables latest before) =>
          (descend missing f path .opened latest).map (.tables · before))
      entries

/-- Add an entry that is not there yet. -/
def add (key : String) (node : Node) (entries : Entries) : Option Entries :=
  update key (fun found => if found.isSome then none else some node) entries

/-- **Write a value under a dotted key.** The table that gets it was opened by a dotted key too,
unless the key has one part. -/
def assign (path : List String) (key : String) (node : Node) (entries : Entries) : Option Entries :=
  descend .dotted
    (fun origin inner =>
      if path.isEmpty || origin = .dotted then add key node inner else none)
    path .opened entries

/-- **Open a table by its header**: a new one, or one that was only implied. -/
def openTable (path : List String) (key : String) (entries : Entries) : Option Entries :=
  descend .implied
    (fun _ inner =>
      match inner.lookup key with
      | none => some (inner ++ [(key, .table .opened [])])
      | some (.table .implied old) =>
        some (inner.filter (·.1 ≠ key) ++ [(key, .table .opened old)])
      | some _ => none)
    path .opened entries

/-- **Add a table to a list of tables by its header.** -/
def openItem (path : List String) (key : String) (entries : Entries) : Option Entries :=
  descend .implied
    (fun _ inner =>
      update key
        (fun found =>
          match found with
          | none => some (.tables [] [])
          | some (.tables latest before) => some (.tables [] (latest :: before))
          | some _ => none)
        inner)
    path .opened entries

/-- Change the table that a header has opened. -/
def within (header : List String) (f : Entries → Option Entries) (entries : Entries) :
    Option Entries :=
  descend .implied (fun _ inner => f inner) header .opened entries

mutual

/-- The tree of a node. -/
def Node.toValue : Node → Value
  | .value v => v
  | .table _ entries => .map (entriesToValues entries)
  | .tables latest before =>
    .list (tablesToValues before ++ [.map (entriesToValues latest)])

/-- The trees under the keys of a table. -/
def entriesToValues : List (String × Node) → List (String × Value)
  | [] => []
  | (key, node) :: rest => (key, node.toValue) :: entriesToValues rest

/-- The trees of tables in a list, whose last one comes first. -/
def tablesToValues : List (List (String × Node)) → List Value
  | [] => []
  | entries :: rest => tablesToValues rest ++ [.map (entriesToValues entries)]

end

end RefTree.Toml
