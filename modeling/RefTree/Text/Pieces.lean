/-!
# Text/Pieces — texts cut at, and put together from, a fixed piece

`after?` takes a piece off the front of a text. Everything else here is built from it: cutting at a
separator (`pieces`), counting the copies of a piece at the front (`leadingRun`), and writing one
text in place of every run of copies (`replaceRuns`). All of them search from the left and take the
first place that fits.
-/

namespace RefTree.Text

variable {α : Type}

/-- Put a character in front of the first piece. -/
def consPiece (c : α) : List (List α) → List (List α)
  | [] => [[c]]
  | piece :: rest => (c :: piece) :: rest

theorem consPiece_ne_nil (c : α) (ps : List (List α)) : consPiece c ps ≠ [] := by
  cases ps <;> simp [consPiece]

theorem intercalate_consPiece (separator : List α) (c : α) {ps : List (List α)} (h : ps ≠ []) :
    separator.intercalate (consPiece c ps) = c :: separator.intercalate ps := by
  match ps with
  | [] => exact absurd rfl h
  | [p] => simp [consPiece]
  | p :: q :: rest => simp [consPiece]

theorem length_intercalate_take_le (separator : List α) :
    ∀ (n : Nat) (ps : List (List α)),
      (separator.intercalate (ps.take n)).length ≤ (separator.intercalate ps).length
  | 0, _ => by simp
  | _ + 1, [] => by simp
  | n + 1, [p] => by simp
  | 0 + 1, p :: q :: rest => by
    simp only [List.take_succ_cons, List.take_zero, List.intercalate_singleton,
      List.intercalate_cons_cons, List.length_append]
    omega
  | n + 1 + 1, p :: q :: rest => by
    have ih := length_intercalate_take_le separator (n + 1) (q :: rest)
    simp only [List.take_succ_cons, List.intercalate_cons_cons, List.length_append] at ih ⊢
    omega

/-- A text is cut in one way at the first place of an element. -/
theorem append_cons_inj {c : α} {u v s t : List α} (hu : c ∉ u) (hv : c ∉ v) :
    u ++ c :: s = v ++ c :: t ↔ u = v ∧ s = t := by
  induction u generalizing v with
  | nil =>
    cases v with
    | nil => simp
    | cons e v => simp [List.ne_of_not_mem_cons hv]
  | cons d u ih =>
    cases v with
    | nil => simp [(List.ne_of_not_mem_cons hu).symm]
    | cons e v =>
      simp [ih (List.not_mem_of_not_mem_cons hu) (List.not_mem_of_not_mem_cons hv), and_assoc]

variable [DecidableEq α]

/-- What follows `front`, if the text starts with it. -/
def after? : List α → List α → Option (List α)
  | [], text => some text
  | _ :: _, [] => none
  | x :: xs, y :: ys => if x = y then after? xs ys else none

theorem after?_eq_some_iff {front text rest : List α} :
    after? front text = some rest ↔ text = front ++ rest := by
  induction front generalizing text with
  | nil => simp [after?]
  | cons x xs ih =>
    cases text with
    | nil => simp [after?]
    | cons y ys =>
      by_cases h : x = y
      · simp [after?, h, ih]
      · simp [after?, h, Ne.symm h]

theorem length_after? {front text rest : List α} (h : after? front text = some rest) :
    front.length + rest.length = text.length := by
  rw [after?_eq_some_iff.mp h, List.length_append]

/-- The text without `back` at its end, if it ends in it. -/
def stripBack (back text : List α) : List α :=
  match after? back.reverse text.reverse with
  | some rest => rest.reverse
  | none => text

/-- The text without `front` at its start, if it starts with it. -/
def stripFront (front text : List α) : List α := (after? front text).getD text

theorem length_stripBack_le (back text : List α) : (stripBack back text).length ≤ text.length := by
  unfold stripBack
  split
  · next rest h =>
    have := length_after? h
    simp only [List.length_reverse] at this ⊢
    omega
  · exact Nat.le_refl _

/-- **The pieces of a text between the places where the separator stands.** There is one piece more
than places; an empty separator stands nowhere. -/
def pieces (separator : List α) (text : List α) : List (List α) :=
  match text with
  | [] => [[]]
  | c :: cs =>
    match after? separator (c :: cs) with
    | some rest =>
      if rest.length < (c :: cs).length then [] :: pieces separator rest
      else consPiece c (pieces separator cs)
    | none => consPiece c (pieces separator cs)
termination_by text.length
decreasing_by
  · assumption
  · exact Nat.lt_succ_self _
  · exact Nat.lt_succ_self _

/-- `pieces`, where an empty separator stands before and after every character. -/
def split (separator text : List α) : List (List α) :=
  if separator = [] then [] :: text.map ([·]) ++ [[]] else pieces separator text

theorem pieces_ne_nil (separator text : List α) : pieces separator text ≠ [] := by
  unfold pieces
  split
  · simp
  · split
    · split
      · simp
      · exact consPiece_ne_nil _ _
    · exact consPiece_ne_nil _ _

/-- **Cutting a text loses nothing**: the pieces with separators between them are the text. -/
theorem intercalate_pieces (separator text : List α) :
    separator.intercalate (pieces separator text) = text := by
  fun_induction pieces separator text with
  | case1 => simp
  | case2 c cs rest h hlt ih =>
    rw [List.intercalate_cons_of_ne_nil (pieces_ne_nil separator rest), ih,
      after?_eq_some_iff.mp h, List.nil_append]
  | case3 c cs rest h hlt ih =>
    rw [intercalate_consPiece separator c (pieces_ne_nil separator cs), ih]
  | case4 c cs h ih => rw [intercalate_consPiece separator c (pieces_ne_nil separator cs), ih]

/-- The number of copies of `unit` at the front, and what follows them. -/
def leadingRun (unit text : List α) : Nat × List α :=
  match after? unit text with
  | some rest =>
    if rest.length < text.length then
      let run := leadingRun unit rest
      (run.1 + 1, run.2)
    else (0, text)
  | none => (0, text)
termination_by text.length
decreasing_by assumption

/-- Write `new` in place of every run of at least `least` copies of `unit`. -/
def replaceRuns (unit : List α) (least : Nat) (new text : List α) : List α :=
  match text with
  | [] => []
  | c :: cs =>
    let run := leadingRun unit (c :: cs)
    if _h : least ≤ run.1 ∧ run.2.length < (c :: cs).length then
      new ++ replaceRuns unit least new run.2
    else c :: replaceRuns unit least new cs
termination_by text.length
decreasing_by
  · exact _h.2
  · exact Nat.lt_succ_self _

end RefTree.Text
