import RefTree.Regex.Basic

/-!
# Regex/Search — where a regular expression matches

`ends r s` lists the places where a match from `s` can end, the preferred one first: an alternative
is preferred to those after it, and a greedy repetition prefers to go on. A place that is reached
again by a less preferred way is left out, since what follows depends on the place alone. A search
takes the first start with a match, and there the preferred end (`first?`).
-/

namespace RefTree.Regex

/-- The cursors without those at the place of an earlier one. -/
def distinct : List Nat → List Cursor → List Cursor
  | _, [] => []
  | seen, s :: rest =>
    if s.offset ∈ seen then distinct seen rest else s :: distinct (s.offset :: seen) rest

/-- `step` done `n` times in a row. -/
def exactly (step : Cursor → List Cursor) : Nat → List Cursor → List Cursor
  | 0, ss => ss
  | n + 1, ss => exactly step n (distinct [] (ss.flatMap step))

/-- Visit the places that one round of a repetition has reached from the offset `origin`: a place
that is new ends the repetition or, if the round has moved on, starts a further one, which is what
`deeper` lists. -/
def visit (deeper : Cursor → List Nat → List Cursor × List Nat) (greedy : Bool) (origin : Nat) :
    List Cursor → List Nat → List Cursor × List Nat
  | [], seen => ([], seen)
  | s :: more, seen =>
    if s.offset ∈ seen then visit deeper greedy origin more seen
    else
      let (far, seen) :=
        if s.offset = origin then ([], s.offset :: seen) else deeper s (s.offset :: seen)
      let (later, seen) := visit deeper greedy origin more seen
      ((if greedy then far ++ [s] else s :: far) ++ later, seen)

/-- One round of `step` or more. Each further round starts at a later place, so the length of the
text bounds their number. -/
def rounds (step : Cursor → List Cursor) (greedy : Bool) :
    Nat → Cursor → List Nat → List Cursor × List Nat
  | 0, _, seen => ([], seen)
  | fuel + 1, s, seen => visit (rounds step greedy fuel) greedy s.offset (step s) seen

/-- One round of `step` or more, from `s`. -/
def oneOrMore (step : Cursor → List Cursor) (greedy : Bool) (s : Cursor) : List Cursor :=
  (rounds step greedy (s.rest.length + 1) s []).1

/-- Any number of rounds. -/
def anyNumber (step : Cursor → List Cursor) (greedy : Bool) (s : Cursor) : List Cursor :=
  distinct [] (if greedy then oneOrMore step greedy s ++ [s] else s :: oneOrMore step greedy s)

/-- Gather what `f` lists for each cursor, handing the places seen from one to the next. -/
def gather {σ : Type} (f : Cursor → σ → List Cursor × σ) : List Cursor → σ → List Cursor × σ
  | [], seen => ([], seen)
  | s :: more, seen =>
    let (found, seen) := f s seen
    let (later, seen) := gather f more seen
    (found ++ later, seen)

/-- At most `n` rounds. A place is left out where it has been reached with as many rounds to go. -/
def atMost (step : Cursor → List Cursor) (greedy : Bool) :
    Nat → Cursor → List (Nat × Nat) → List Cursor × List (Nat × Nat)
  | 0, s, seen => if (0, s.offset) ∈ seen then ([], seen) else ([s], (0, s.offset) :: seen)
  | n + 1, s, seen =>
    if (n + 1, s.offset) ∈ seen then ([], seen)
    else
      let (far, seen) := gather (atMost step greedy n) (step s) ((n + 1, s.offset) :: seen)
      (if greedy then far ++ [s] else s :: far, seen)

/-- The rounds of a repetition, from `s`. -/
def repeated (step : Cursor → List Cursor) (least : Nat) (most : Option Nat) (greedy : Bool)
    (s : Cursor) : List Cursor :=
  match most, least with
  | none, 0 => anyNumber step greedy s
  | none, n + 1 => distinct [] ((exactly step n [s]).flatMap (oneOrMore step greedy))
  | some most, least =>
    distinct [] (gather (atMost step greedy (most - least)) (exactly step least [s]) []).1

/-- **The places where a match from `s` can end**, the preferred one first. -/
def ends : Regex → Cursor → List Cursor
  | empty, s => [s]
  | set a, s =>
    match s.rest with
    | c :: _ => if a.contains c then s.next?.toList else []
    | [] => []
  | look l, s => if l.holds s then [s] else []
  | named name r, s => (ends r s).map (s.record name)
  | cat r q, s => distinct [] ((ends r s).flatMap (ends q))
  | alt r q, s => distinct [] (ends r s ++ ends q s)
  | times least most greedy r, s => repeated (ends r) least most greedy s

/-- A match, by its two ends. -/
structure Span where
  start : Cursor
  stop : Cursor
  deriving DecidableEq, Repr

namespace Span

/-- What the group `name` has matched last, if it took part in the match. -/
def group? (m : Span) (name : String) : Option String :=
  (m.stop.groups.lookup name).map String.ofList

def isEmpty (m : Span) : Bool := m.start.offset == m.stop.offset

end Span

/-- The first match at or after a place: `rest` is the text after it. -/
def firstFrom (r : Regex) (offset : Nat) (previous : Option Char) : List Char → Option Span
  | [] => ((ends r ⟨offset, previous, [], []⟩).head?).map (⟨⟨offset, previous, [], []⟩, ·⟩)
  | c :: cs =>
    let s : Cursor := ⟨offset, previous, c :: cs, []⟩
    match (ends r s).head? with
    | some t => some ⟨s, t⟩
    | none => firstFrom r (offset + c.utf8Size) (some c) cs

/-- **The first match at or after a place.** -/
def first? (r : Regex) (s : Cursor) : Option Span := firstFrom r s.offset s.previous s.rest

/-- The first match at or after `s` that does not end where the match before it has ended. -/
def nextSpan? (r : Regex) (s : Cursor) (lastEnd : Option Nat) : Option Span :=
  match first? r s with
  | none => none
  | some m =>
    if m.isEmpty && lastEnd == some m.stop.offset then s.next?.bind (first? r) else some m

/-- The matches at or after `s`, each from the end of the one before. Their ends ascend, so the
length of the text bounds their number. -/
def spansFrom (r : Regex) : Nat → Cursor → Option Nat → List Span
  | 0, _, _ => []
  | fuel + 1, s, lastEnd =>
    match nextSpan? r s lastEnd with
    | none => []
    | some m => m :: spansFrom r fuel { m.stop with groups := [] } (some m.stop.offset)

/-- The first match in a text. -/
def find? (r : Regex) (text : String) : Option Span := first? r (.start text.toList)

/-- **The matches in a text that do not overlap**, from left to right. -/
def findAll (r : Regex) (text : String) : List Span :=
  spansFrom r (text.toList.length + 2) (.start text.toList) none

end RefTree.Regex
