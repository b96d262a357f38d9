import RefTree.Chain
import RefTree.Getter
import RefTree.Inquiry
import RefTree.Keypath
import RefTree.Marker
import RefTree.Text.Bytes
import RefTree.Value.Render

/-!
# Resolver — references replaced by what they refer to

Walking a value visits its strings, each under the path of its container, and asks for the keys of
their markers (`Resolver.walk`). Looking up a key finds its raw value with the getter and walks that
in turn (`Resolver.lookup`): the chain of the keys that are being resolved is what bounds it.

A string is searched for markers again after every replacement, and a replacement may bring in new
markers. So the number of replacements in one string is limited by `rescans`; a string that needs
more leaves the resolution `exhausted`.
-/

namespace RefTree

/-- A tree with the means to resolve its references. -/
structure Resolver where
  tree : Value
  options : Options
  getter : Getter
  rules : Keypath.Rules
  pattern : Marker.Pattern

namespace Resolver

/-- The getter that the options supply, or the one that takes its place. -/
def getterOf (options : Options) : Except Fault Getter :=
  match options.getter, options.getterMode with
  | some getter, _ => .ok getter
  | none, .fallback => .ok Getter.keyPath
  | none, .required => .error .getterMissing

/-- **A resolver for a tree**, unless the options are refused. -/
def ofTree (tree : Value) (options : Options) : Except Fault Resolver := do
  let getter ← getterOf options
  let rules ← Keypath.Rules.ofConfig options.toConfig
  let pattern ← Marker.Pattern.ofGrammar options.grammar
  return { tree, options, getter, rules, pattern }

variable (r : Resolver)

/-! ## Strings -/

/-- The key that an expression means in a string under `frame`. An absolute expression means the
same everywhere, any other is put behind the path of the container. -/
def keyOf (frame : List String) (expression : String) : String :=
  if r.rules.isAbsolute expression then r.rules.resolve [expression]
  else r.rules.resolve [r.rules.path frame, expression]

/-- The text with `new` in place of a marker. -/
def splice (text : String) (m : Marker) (new : String) : String :=
  let (before, rest) := Text.cutAt m.start text.toList
  String.ofList (before ++ new.toList ++ (Text.cutAt m.length rest).2)

/-- The value of a string without markers under `frame`. -/
def finish (frame : List String) (text : String) : Inquiry Value :=
  match r.options.postParser with
  | none => .done (.string text)
  | some postParser =>
    match postParser r.tree text r.options.toConfig with
    | .ok v => .done v
    | .error source => .failed (.postParse (r.rules.path frame) source)

/-- **The value of a string under `frame`.** `untouched` says that no marker has been replaced yet:
then a marker that is the whole string may stand for a value of any kind. -/
def substitute (frame : List String) (rescans : Nat) (untouched : Bool) (text : String) :
    Inquiry Value :=
  match r.pattern.find? text with
  | none => r.finish frame text
  | some m =>
    match rescans with
    | 0 => .exhausted
    | rescans + 1 =>
      .ask (r.keyOf frame m.key) fun value =>
        if untouched && m.whole && r.options.keepTypes then
          match value with
          | .string s => substitute frame rescans false s
          | value => .done value
        else substitute frame rescans false (splice text m value.render)

/-! ## Trees -/

mutual

/-- **The value at `context` with its references replaced.** An element of a list stands where the
list stands, an entry of a mapping under its key. -/
def walk (rescans : Nat) (context : List String) : Value → Inquiry Value
  | .list items => (walkItems rescans context items).map .list
  | .map entries => (walkEntries rescans context entries).map .map
  | .string s => r.substitute context.dropLast rescans true s
  | v => .done v

/-- The elements of a list, in order. -/
def walkItems (rescans : Nat) (context : List String) : List Value → Inquiry (List Value)
  | [] => .done []
  | x :: xs =>
    (walk rescans context x).bind fun y =>
      (walkItems rescans context xs).map (y :: ·)

/-- The entries of a mapping, in order. -/
def walkEntries (rescans : Nat) (context : List String) :
    List (String × Value) → Inquiry (List (String × Value))
  | [] => .done []
  | (key, v) :: es =>
    (walk rescans (context ++ [key]) v).bind fun w =>
      (walkEntries rescans context es).map ((key, w) :: ·)

end

/-! ## Lookups -/

/-- **The value of a key, with the references in it resolved**, while the keys of `chain` are being
resolved. -/
def lookup (rescans : Nat) (chain : Chain) (key : String) : Outcome Value :=
  match _h : chain.enter key with
  | .error e => .failed e
  | .ok inner =>
    match r.getter r.tree key r.options.toConfig with
    | .error source => .failed (.resolution key source)
    | .ok raw => (r.walk rescans (r.rules.split key) raw).answer fun k => lookup rescans inner k
termination_by chain.room
decreasing_by exact Chain.room_lt_of_enter _h

/-- A lookup while no key is being resolved. -/
def lookupFirst (rescans : Nat) : String → Outcome Value :=
  r.lookup rescans (.ofLimit r.options.maxDepth)

/-- **The value of a key**, with the references in it resolved. -/
def get (rescans : Nat) (key : String) : Outcome Value := r.lookupFirst rescans key

/-- **A value as if it stood at `context`**, with its references resolved. -/
def resolveAt (rescans : Nat) (context : List String) (v : Value) : Outcome Value :=
  (r.walk rescans context v).answer (r.lookupFirst rescans)

/-- A value as if it were the value of `key`, with its references resolved. -/
def resolveUnder (rescans : Nat) (key : String) (v : Value) : Outcome Value :=
  r.resolveAt rescans (r.rules.split key) v

/-- **The whole tree**, with its references resolved. -/
def resolve (rescans : Nat) : Outcome Value := r.resolveAt rescans [] r.tree

end Resolver

end RefTree
