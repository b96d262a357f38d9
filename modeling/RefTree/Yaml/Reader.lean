import RefTree.Yaml.Node
import RefTree.Yaml.Scalar

/-!
# Yaml/Reader — YAML documents

A document is a tree of sequences and mappings over scalars. Outside brackets the columns of its
tokens give it shape: what belongs to a node stands further to the right than the node does, except
that a sequence under a key may stand in the column of the key. Between brackets columns mean
nothing. One document is read; anchors, aliases, tags, directives and keys of more than one line are
refused.
-/

namespace RefTree.Yaml

/-- A place before a token: its column, whether it is the first of its line, and the text from it
on. -/
structure Place where
  column : Nat
  fresh : Bool
  rest : List Char

/-- What a search for the next token is passing over. -/
inductive Passing where
  /-- The blanks at the front of a line. -/
  | indent
  /-- What follows a token. -/
  | token
  /-- The blanks after a token. -/
  | gap
  /-- A comment. -/
  | comment

/-- The next token at or after a column. A tab is no indentation, except between brackets. -/
def seek (flow : Bool) : Nat → Passing → Bool → List Char → Option Place
  | column, _, fresh, [] => some ⟨column, fresh, []⟩
  | column, passing, fresh, c :: cs =>
    if c = '\n' then seek flow 0 .indent true cs
    else
      match passing with
      | .comment => seek flow (column + 1) .comment fresh cs
      | passing =>
        if c = ' ' then
          seek flow (column + 1) (match passing with | .indent => .indent | _ => .gap) fresh cs
        else if c = '\t' then
          match passing with
          | .indent =>
            if flow then seek flow (column + 1) .indent fresh cs else none
          | _ => seek flow (column + 1) .gap fresh cs
        else if c = '#' then
          match passing with
          | .token => some ⟨column, fresh, c :: cs⟩
          | _ => seek flow (column + 1) .comment fresh cs
        else some ⟨column, fresh, c :: cs⟩

/-- The next token after something that has just been read. -/
def Place.next (p : Place) (flow : Bool) : Option Place := seek flow p.column .token p.fresh p.rest

/-- The place that remains of `p` when `rest` is left of its text, on the line where it ends. -/
def Place.leaving (p : Place) (rest : List Char) : Place :=
  ⟨p.column + (p.rest.length - rest.length), false, rest⟩

/-- The key of a mapping at a place: a scalar on one line with a colon after it. -/
def key? (p : Place) : Option (Node × Place) :=
  let colon (node : Node) (rest : List Char) : Option (Node × Place) :=
    match trimStart rest with
    | ':' :: after => if isGap after then some (node, p.leaving after) else none
    | _ => none
  match p.rest with
  | '"' :: cs => oneLine '"' cs |>.bind fun (text, rest) => colon (.quoted text) rest
  | '\'' :: cs => oneLine '\'' cs |>.bind fun (text, rest) => colon (.quoted text) rest
  | cs =>
    if startsPlain cs then
      let (text, rest) := plainLine false cs
      colon (.plain (String.ofList (trimEnd text))) rest
    else none
where
  oneLine (quote : Char) (cs : List Char) : Option (String × List Char) :=
    (quoted quote cs).bind fun (text, rest) =>
      if (cs.take (cs.length - rest.length)).contains '\n' then none else some (text, rest)

/-! ## Between brackets -/

mutual

/-- A node between brackets, or the one that an opening bracket begins. -/
def flowNode : Nat → Place → Option (Node × Place)
  | 0, _ => none
  | fuel + 1, p =>
    match p.rest with
    | '[' :: rest => (flowItems fuel (p.leaving rest)).map fun (items, p) => (.sequence items, p)
    | '\x7b' :: rest => (flowEntries fuel (p.leaving rest)).map fun (es, p) => (.mapping es, p)
    | '"' :: cs => (quoted '"' cs).map fun (text, rest) => (.quoted text, p.leaving rest)
    | '\'' :: cs => (quoted '\'' cs).map fun (text, rest) => (.quoted text, p.leaving rest)
    | cs =>
      if startsPlain cs then
        let (text, rest) := plainScalar true 0 cs
        some (.plain text, p.leaving rest)
      else none

/-- A node between brackets that may have a value after a colon. Only after quotes and brackets may
the value follow the colon at once. -/
def flowPair : Nat → Place → Option ((Node × Option Node) × Place)
  | 0, _ => none
  | fuel + 1, p =>
    (flowNode fuel p).bind fun (node, p) =>
      (p.next true).bind fun q =>
        match q.rest with
        | ':' :: rest =>
          let tight := match node with
            | .plain _ => false
            | _ => true
          if !tight && !isGap rest then none
          else
            ((q.leaving rest).next true).bind fun v =>
              match v.rest with
              | ',' :: _ => some ((node, some (.plain "")), v)
              | ']' :: _ => some ((node, some (.plain "")), v)
              | '\x7d' :: _ => some ((node, some (.plain "")), v)
              | _ => (flowNode fuel v).map fun (value, p) => ((node, some value), p)
        | _ => some ((node, none), q)

/-- The items of a sequence between brackets, up to its end. -/
def flowItems : Nat → Place → Option (List Node × Place)
  | 0, _ => none
  | fuel + 1, p =>
    (p.next true).bind fun p =>
      match p.rest with
      | ']' :: rest => some ([], p.leaving rest)
      | _ =>
        (flowPair fuel p).bind fun ((node, value), p) =>
          let item := match value with
            | none => node
            | some v => .mapping [(node, v)]
          (p.next true).bind fun p =>
            match p.rest with
            | ']' :: rest => some ([item], p.leaving rest)
            | ',' :: rest =>
              (flowItems fuel (p.leaving rest)).map fun (items, p) => (item :: items, p)
            | _ => none

/-- The entries of a mapping between brackets, up to its end. -/
def flowEntries : Nat → Place → Option (List (Node × Node) × Place)
  | 0, _ => none
  | fuel + 1, p =>
    (p.next true).bind fun p =>
      match p.rest with
      | '\x7d' :: rest => some ([], p.leaving rest)
      | _ =>
        (flowPair fuel p).bind fun ((node, value), p) =>
          let entry := (node, value.getD (.plain ""))
          (p.next true).bind fun p =>
            match p.rest with
            | '\x7d' :: rest => some ([entry], p.leaving rest)
            | ',' :: rest =>
              (flowEntries fuel (p.leaving rest)).map fun (entries, p) => (entry :: entries, p)
            | _ => none

end

/-! ## By columns -/

/-- A dash that begins an item of a sequence. -/
def isDash : List Char → Bool
  | '-' :: cs => isGap cs
  | _ => false

/-- A scalar, or a collection between brackets, in a node indented by more than `parent`. -/
def inlineNode (fuel : Nat) (parent : Int) (p : Place) : Option (Node × Place) :=
  match p.rest with
  | '[' :: _ => flowNode fuel p
  | '\x7b' :: _ => flowNode fuel p
  | '"' :: _ => flowNode fuel p
  | '\'' :: _ => flowNode fuel p
  | '|' :: cs => block true cs
  | '>' :: cs => block false cs
  | cs =>
    if startsPlain cs then
      let (text, rest) := plainScalar false parent cs
      some (.plain text, p.leaving rest)
    else none
where
  block (literal : Bool) (cs : List Char) : Option (Node × Place) :=
    (blockScalar literal parent cs).map fun (text, rest) => (.quoted text, ⟨0, true, rest⟩)

mutual

/-- The node at a token of a node indented by more than `parent`. -/
def blockNode : Nat → Int → Place → Option (Node × Place)
  | 0, _, _ => none
  | fuel + 1, parent, p =>
    if isDash p.rest then
      (blockItems fuel p.column p).map fun (items, p) => (.sequence items, p)
    else
      match key? p with
      | some (key, after) =>
        (blockEntries fuel p.column key after).map fun (entries, p) => (.mapping entries, p)
      | none => inlineNode fuel parent p

/-- The items of a sequence in a column, from a dash on. -/
def blockItems : Nat → Nat → Place → Option (List Node × Place)
  | 0, _, _ => none
  | fuel + 1, column, p =>
    let after : Place := ⟨p.column + 1, false, p.rest.drop 1⟩
    (after.next false).bind fun q =>
      let item :=
        if q.rest.isEmpty || (q.fresh && q.column ≤ column) then some (.plain "", q)
        else blockNode fuel column q
      item.bind fun (node, p) =>
        (p.next false).bind fun q =>
          if !q.rest.isEmpty && q.fresh && q.column = column && isDash q.rest then
            (blockItems fuel column q).map fun (items, p) => (node :: items, p)
          else some ([node], q)

/-- The entries of a mapping in a column, from the value of a key on. -/
def blockEntries : Nat → Nat → Node → Place → Option (List (Node × Node) × Place)
  | 0, _, _, _ => none
  | fuel + 1, column, key, p =>
    (p.next false).bind fun q =>
      let value :=
        if q.rest.isEmpty then some (.plain "", q)
        else if !q.fresh then inlineNode fuel column q
        else if column < q.column then blockNode fuel column q
        else if q.column = column && isDash q.rest then
          (blockItems fuel column q).map fun (items, p) => (.sequence items, p)
        else some (.plain "", q)
      value.bind fun (node, p) =>
        (p.next false).bind fun q =>
          if q.rest.isEmpty then some ([(key, node)], q)
          else if !q.fresh || column < q.column then none
          else if q.column < column then some ([(key, node)], q)
          else
            (key? q).bind fun (next, after) =>
              (blockEntries fuel column next after).map fun (entries, p) =>
                ((key, node) :: entries, p)

end

/-! ## Documents -/

/-- Every line break as one character, and no mark of byte order. -/
def plainBreaks : List Char → List Char
  | [] => []
  | '\r' :: '\n' :: cs => '\n' :: plainBreaks cs
  | '\r' :: cs => '\n' :: plainBreaks cs
  | c :: cs => c :: plainBreaks cs

/-- A character that a document may hold. -/
def isPrintable (c : Char) : Bool :=
  let n := c.toNat
  c = '\t' || c = '\n' || (0x20 ≤ n && n ≤ 0x7E) || n = 0x85 || (0xA0 ≤ n && n ≤ 0xFFFD) ||
    0x10000 ≤ n

/-- The line is a mark, alone or with a blank after it. -/
def isMark (mark : String) (line : List Char) : Bool :=
  line.take 3 == mark.toList && (line.drop 3).head?.all isBlank

/-- The line holds nothing but blanks and a comment. -/
def isVoid (line : List Char) : Bool :=
  match line.dropWhile (· = ' ') with
  | [] => true
  | c :: _ => c = '#'

/-- The lines up to the end of a document. After it, only void lines may come. -/
def untilEnd : List (List Char) → Option (List (List Char))
  | [] => some []
  | line :: rest =>
    if isMark "..." line then if rest.all isVoid then some [] else none
    else if isMark "---" line then none
    else (untilEnd rest).map (line :: ·)

/-- The lines of the one document of a text, without the mark at its start. -/
def documentLines (lines : List (List Char)) : Option (List (List Char)) :=
  match lines.dropWhile isVoid with
  | [] => some []
  | line :: rest =>
    if isMark "---" line then (untilEnd rest).map ((' ' :: ' ' :: ' ' :: line.drop 3) :: ·)
    else if line.head? = some '%' then none
    else untilEnd (line :: rest)

/-- What a text holds. -/
inductive Document where
  /-- No document at all. -/
  | void
  | node (node : Node)

/-- **The document of a text**, if it is well formed. -/
def parse (text : String) : Option Document :=
  let cs := plainBreaks (match text.toList with | '\ufeff' :: cs => cs | cs => cs)
  if !cs.all isPrintable then none
  else
    let lines := linesOf cs
    if lines.all isVoid then some .void
    else
      (documentLines lines).bind fun lines =>
        let body := ['\n'].intercalate lines
        (seek false 0 .indent true body).bind fun p =>
          if p.rest.isEmpty then some (.node (.plain ""))
          else
            (blockNode (4 * body.length + 8) (-1) p).bind fun (node, p) =>
              (p.next false).bind fun q => if q.rest.isEmpty then some (.node node) else none

/-- **The tree that a text spells**; no document is null. -/
def parseValue (text : String) : Option Value :=
  (parse text).bind fun document =>
    match document with
    | .void => some .null
    | .node node => node.toValue?.map Value.merge

/-- **The settings that a text spells**; no document sets nothing. -/
def parseSettings (text : String) : Option Settings :=
  (parse text).bind fun document =>
    match document with
    | .void => some {}
    | .node node => node.settings?

end RefTree.Yaml
