import RefTree.Proofs.Keypath.Passes

/-!
# Proofs/Keypath/Stack — normalising a key on a stack of its pieces

Where the separator is one character, the four passes over the text of a key do what one pass over
its pieces does: each piece is pushed on a stack or, if it ends in tokens, takes pieces off it
(`Rules.push`); at the end tokens that stay are taken off the pieces, and empty pieces are dropped.

The climbing loop is the part with an argument (`Rules.climb_closed`): a climb leaves the pieces on
the stack, or an empty piece if the stack is empty, and such empty pieces at the bottom change
nothing (`Padded`).
-/

namespace RefTree.Keypath

open Text

namespace Rules

variable (r : Rules)

/-! ## The stack -/

/-- The tokens that climb, with their levels; two tokens go before one. -/
def units : List (Nat × List Char) :=
  match r.mode with
  | .sibling => [(1, r.token ++ r.token)]
  | .parent => [(2, r.token ++ r.token), (1, r.token)]

/-- The levels that a closed piece climbs, and what stands before its tokens. -/
def ending? (piece : List Char) : Option (Nat × List Char) :=
  r.units.findSome? fun unit => (before? unit.2 piece).map (unit.1, ·)

/-- **What a closed piece does to the pieces before it**, the latest of which comes first.  What
stands before tokens counts as a piece of its own, if there is anything. -/
def push (stack : List (List Char)) (piece : List Char) : List (List Char) :=
  match r.ending? piece with
  | none => piece :: stack
  | some (levels, rest) => (if rest = [] then stack else rest :: stack).drop levels

/-- The pieces that are on the stack in the end, the earliest first. -/
def stacked (pieces : List (List Char)) : List (List Char) := (pieces.foldl r.push []).reverse

/-- The pieces without the tokens that stay. -/
def settledPieces (pieces : List (List Char)) : List (List Char) :=
  match r.mode with
  | .sibling => pieces.map (stripBack r.token)
  | .parent => pieces

/-- **The pieces of a normalised key**, from closed pieces and a last one. -/
def address (pieces : List (List Char)) (last : List Char) : List (List Char) :=
  (r.settledPieces (r.stacked pieces)).filter (· ≠ []) ++ [last]

variable {r}

/-! ## Pieces that climb -/

/-- A unit climbs, and is two tokens or one. -/
theorem of_mem_units {unit : Nat × List Char} (h : unit ∈ r.units) :
    1 ≤ unit.1 ∧ (unit.2 = r.token ++ r.token ∨ unit.2 = r.token) := by
  unfold units at h
  cases hmode : r.mode <;> simp only [hmode, List.mem_cons, List.not_mem_nil, or_false] at h
  · exact h ▸ ⟨Nat.le_refl 1, .inl rfl⟩
  · rcases h with rfl | rfl
    · exact ⟨Nat.le_succ 1, .inl rfl⟩
    · exact ⟨Nat.le_refl 1, .inr rfl⟩

theorem ne_nil_of_mem_units {unit : Nat × List Char} (h : unit ∈ r.units) : unit.2 ≠ [] := by
  rcases (of_mem_units h).2 with heq | heq <;> simp [heq, r.apart.2.1]

/-- Units that come later are shorter. -/
theorem pairwise_units : r.units.Pairwise fun a b => b.2.length < a.2.length := by
  have := r.length_token_pos
  unfold units
  cases r.mode <;> simp [this]

section Ending

variable {piece rest : List Char} {levels : Nat}

theorem ending?_eq_some_iff :
    r.ending? piece = some (levels, rest) ↔ ∃ unit before after,
      r.units = before ++ (levels, unit) :: after ∧ piece = rest ++ unit ∧
        ∀ x ∈ before, before? x.2 piece = none := by
  simp only [ending?, List.findSome?_eq_some_iff, Option.map_eq_none_iff, Option.map_eq_some_iff,
    before?_eq_some_iff, Prod.mk.injEq]
  constructor
  · rintro ⟨before, ⟨l, unit⟩, after, hunits, ⟨x, hx, rfl, rfl⟩, hbefore⟩
    exact ⟨unit, before, after, hunits, hx, hbefore⟩
  · rintro ⟨unit, before, after, hunits, hpiece, hbefore⟩
    exact ⟨before, (levels, unit), after, hunits, ⟨rest, hpiece, rfl, rfl⟩, hbefore⟩

theorem ending?_eq_none_iff : r.ending? piece = none ↔ ∀ unit ∈ r.units, ¬ unit.2 <:+ piece := by
  simp only [ending?, List.findSome?_eq_none_iff, Option.map_eq_none_iff, before?_eq_none_iff]

theorem one_le_of_ending? (h : r.ending? piece = some (levels, rest)) : 1 ≤ levels := by
  obtain ⟨unit, before, after, hunits, -⟩ := ending?_eq_some_iff.mp h
  have hmem : (levels, unit) ∈ r.units := hunits ▸ List.mem_append_right before List.mem_cons_self
  exact (of_mem_units hmem).1

@[simp] theorem ending?_nil : r.ending? [] = none :=
  ending?_eq_none_iff.mpr fun _ hunit h => ne_nil_of_mem_units hunit (List.suffix_nil.mp h)

/-- What does not climb does not climb without its first character. -/
theorem ending?_tail {d : Char} (h : r.ending? (d :: piece) = none) : r.ending? piece = none :=
  ending?_eq_none_iff.mpr fun unit hunit hsuffix =>
    ending?_eq_none_iff.mp h unit hunit (hsuffix.trans (List.suffix_cons d piece))

theorem ending?_of_cons {d e : Char} (h : r.ending? (d :: piece) = some (levels, e :: rest)) :
    d = e ∧ r.ending? piece = some (levels, rest) := by
  obtain ⟨unit, before, after, hunits, hpiece, hbefore⟩ := ending?_eq_some_iff.mp h
  obtain ⟨rfl, rfl⟩ := List.cons.inj hpiece
  refine ⟨rfl, ending?_eq_some_iff.mpr ⟨unit, before, after, hunits, rfl, fun x hx => ?_⟩⟩
  rw [Option.eq_none_iff_forall_ne_some]
  intro y hy
  cases (before?_cons d hy).symm.trans (hbefore x hx)

end Ending

/-! ## One climb -/

/-- A group is a unit and a separator. -/
theorem group?_eq (text : List Char) :
    r.group? text =
      r.units.findSome? fun unit => (after? (unit.2 ++ r.separator) text).map (unit.1, ·) := by
  unfold group? units
  cases hmode : r.mode with
  | sibling =>
    simp only [List.findSome?_cons, List.findSome?_nil]
    cases after? (r.token ++ r.token ++ r.separator) text <;> rfl
  | parent =>
    simp only [List.findSome?_cons, List.findSome?_nil]
    cases after? (r.token ++ r.token ++ r.separator) text with
    | some rest => rfl
    | none => cases after? (r.token ++ r.separator) text <;> rfl

section Climb

variable {c : Char} (hsep : r.separator = [c])
include hsep

theorem notMem_token : c ∉ r.token := by
  intro hc
  obtain ⟨before, after, heq⟩ := List.append_of_mem hc
  exact r.apart.2.2.2 (hsep ▸ ⟨before, after, by simp [heq]⟩)

theorem notMem_of_mem_units {unit : Nat × List Char} (h : unit ∈ r.units) : c ∉ unit.2 := by
  rcases (of_mem_units h).2 with heq | heq <;> simp [heq, notMem_token hsep]

/-- **A closed piece is a climbing group** if it ends in tokens and nothing stands before them. -/
theorem group?_closed {piece : List Char} (hpiece : c ∉ piece) {text rest : List Char}
    {levels : Nat} :
    r.group? (piece ++ c :: text) = some (levels, rest) ↔
      r.ending? piece = some (levels, []) ∧ rest = text := by
  rw [group?_eq, hsep, ending?_eq_some_iff, List.findSome?_eq_some_iff]
  constructor
  · rintro ⟨before, ⟨l, unit⟩, after, hunits, hunit, hbefore⟩
    obtain ⟨x, hx, heq⟩ := Option.map_eq_some_iff.mp hunit
    obtain ⟨rfl, rfl⟩ := Prod.mk.inj heq
    have hmem : (l, unit) ∈ r.units := by simp [hunits]
    have hfree : c ∉ unit := notMem_of_mem_units hsep hmem
    obtain ⟨rfl, rfl⟩ := (after?_closed hfree hpiece).mp hx
    refine ⟨⟨piece, before, after, hunits, rfl, fun y hy => ?_⟩, rfl⟩
    -- an earlier unit is longer than the piece
    have hpair := r.pairwise_units
    rw [hunits, List.pairwise_append] at hpair
    have hlt := hpair.2.2 y hy _ List.mem_cons_self
    rw [Option.eq_none_iff_forall_ne_some]
    intro z hz
    have := congrArg List.length (before?_eq_some_iff.mp hz)
    rw [List.length_append] at this
    simp only at hlt
    omega
  · rintro ⟨⟨unit, before, after, hunits, heq, hbefore⟩, rfl⟩
    obtain rfl : piece = unit := heq
    refine ⟨before, (levels, piece), after, hunits, ?_, fun y hy => ?_⟩
    · rw [(after?_closed hpiece hpiece).mpr ⟨rfl, rfl⟩]
      rfl
    · have hfree : c ∉ y.2 := notMem_of_mem_units hsep (by simp [hunits, hy])
      rw [Option.map_eq_none_iff, Option.eq_none_iff_forall_ne_some]
      intro z hz
      obtain ⟨rfl, -⟩ := (after?_closed hfree hpiece).mp hz
      have := hbefore y hy
      rw [before?_eq_some_iff.mpr (List.nil_append y.2).symm] at this
      cases this

theorem group?_of_notMem {text : List Char} (h : c ∉ text) : r.group? text = none := by
  rw [group?_eq, hsep, List.findSome?_eq_none_iff]
  intro unit _
  rw [after?_of_notMem (by simp) h]
  rfl

theorem group?_closed_eq_none {piece : List Char} (hpiece : c ∉ piece)
    (h : ∀ levels, r.ending? piece ≠ some (levels, [])) (text : List Char) :
    r.group? (piece ++ c :: text) = none := by
  rw [Option.eq_none_iff_forall_ne_some]
  rintro ⟨levels, rest⟩ hgroup
  exact h levels ((group?_closed hsep hpiece).mp hgroup).1

/-- No run begins in a text without separators. -/
theorem firstRun?_of_notMem {text : List Char} (h : c ∉ text) : r.firstRun? text = none := by
  induction text with
  | nil => rfl
  | cons d text ih =>
    rw [firstRun?, group?_of_notMem hsep h, ih (List.not_mem_of_not_mem_cons h)]
    rfl

/-- No run begins in a piece that does not climb. -/
theorem firstRun?_of_ending?_none {piece : List Char} (hpiece : c ∉ piece)
    (h : r.ending? piece = none) (text : List Char) :
    r.firstRun? (piece ++ c :: text) =
      (r.firstRun? text).map fun run => (piece ++ c :: run.1, run.2) := by
  induction piece with
  | nil =>
    have hgroup := group?_closed_eq_none hsep hpiece (by simp) text
    rw [List.nil_append] at hgroup ⊢
    rw [firstRun?, hgroup]
    rfl
  | cons d piece ih =>
    have hgroup := group?_closed_eq_none hsep hpiece (by simp [h]) text
    rw [List.cons_append] at hgroup ⊢
    rw [firstRun?, hgroup, ih (List.not_mem_of_not_mem_cons hpiece) (ending?_tail h)]
    simp only [Option.map_map]
    rfl

/-- A run begins where the tokens of a piece begin. -/
theorem firstRun?_of_ending?_some {piece rest : List Char} {levels : Nat} (hpiece : c ∉ piece)
    (h : r.ending? piece = some (levels, rest)) (text : List Char) :
    r.firstRun? (piece ++ c :: text) =
      some (rest, levels + (r.groups text).1, (r.groups text).2) := by
  induction rest generalizing piece with
  | nil =>
    have hgroup : r.group? (piece ++ c :: text) = some (levels, text) :=
      (group?_closed hsep hpiece).mpr ⟨h, rfl⟩
    cases piece with
    | nil => simp at h
    | cons d piece =>
      rw [List.cons_append] at hgroup ⊢
      rw [firstRun?, hgroup]
  | cons e rest ih =>
    have hgroup := group?_closed_eq_none hsep hpiece (by simp [h]) text
    cases piece with
    | nil => simp at h
    | cons d piece =>
      obtain ⟨rfl, htail⟩ := ending?_of_cons h
      rw [List.cons_append] at hgroup ⊢
      rw [firstRun?, hgroup, ih (List.not_mem_of_not_mem_cons hpiece) htail]
      rfl

/-- Behind closed pieces that do not climb the first run is the first run of what follows. -/
theorem firstRun?_closed {ps : List (List Char)} (hps : ∀ p ∈ ps, c ∉ p)
    (h : ∀ p ∈ ps, r.ending? p = none) (text : List Char) :
    r.firstRun? (closed c ps ++ text) =
      (r.firstRun? text).map fun run => (closed c ps ++ run.1, run.2) := by
  induction ps with
  | nil => cases hrun : r.firstRun? text <;> simp [hrun]
  | cons p ps ih =>
    obtain ⟨hp, hps⟩ := List.forall_mem_cons.mp hps
    obtain ⟨hpe, hpse⟩ := List.forall_mem_cons.mp h
    rw [closed_cons, List.append_assoc, List.cons_append,
      firstRun?_of_ending?_none hsep hp hpe, ih hps hpse, Option.map_map]
    simp [Function.comp_def]

/-- **The groups that go on a run** take as many pieces off the stack as they have levels. -/
theorem exists_groups_closed {ps : List (List Char)} {last : List Char} (hps : ∀ p ∈ ps, c ∉ p)
    (hlast : c ∉ last) :
    ∃ qs, qs <:+ ps ∧ (r.groups (closed c ps ++ last)).2 = closed c qs ++ last ∧
      ∀ stack, ps.foldl r.push stack =
        qs.foldl r.push (stack.drop (r.groups (closed c ps ++ last)).1) := by
  induction ps with
  | nil =>
    have hgroups : r.groups (closed c [] ++ last) = (0, last) := by
      rw [closed_nil, List.nil_append, groups]
      split
      · rfl
      · next h => rw [group?_of_notMem hsep hlast] at h; cases h
    exact ⟨[], List.suffix_refl _, by rw [hgroups]; rfl, fun stack => by rw [hgroups]; rfl⟩
  | cons p ps ih =>
    obtain ⟨hp, hps'⟩ := List.forall_mem_cons.mp hps
    have htext : closed c (p :: ps) ++ last = p ++ c :: (closed c ps ++ last) := by simp
    rw [htext]
    cases hgroup : r.group? (p ++ c :: (closed c ps ++ last)) with
    | none =>
      have hgroups : r.groups (p ++ c :: (closed c ps ++ last)) =
          (0, p ++ c :: (closed c ps ++ last)) := by
        rw [groups]
        split
        · rfl
        · next h => rw [hgroup] at h; cases h
      exact ⟨p :: ps, List.suffix_refl _, by rw [hgroups, htext], fun stack => by rw [hgroups]; rfl⟩
    | some found =>
      obtain ⟨levels, rest⟩ := found
      obtain ⟨hending, rfl⟩ := (group?_closed hsep hp).mp hgroup
      have hgroups : r.groups (p ++ c :: (closed c ps ++ last)) =
          (levels + (r.groups (closed c ps ++ last)).1, (r.groups (closed c ps ++ last)).2) := by
        rw [groups]
        split
        · next h => rw [hgroup] at h; cases h
        · next h =>
          rw [hgroup] at h
          cases h
          rfl
      obtain ⟨qs, hsuffix, hrest, hfold⟩ := ih hps'
      refine ⟨qs, hsuffix.trans (List.suffix_cons p ps), by rw [hgroups, hrest], fun stack => ?_⟩
      have hpush : r.push stack p = stack.drop levels := by simp [push, hending]
      rw [hgroups, List.foldl_cons, hpush, hfold, List.drop_drop]

theorem intercalate_append_separator {ps : List (List Char)} (hne : ps ≠ []) :
    r.separator.intercalate ps ++ r.separator = closed c ps := by
  obtain ⟨init, last, rfl⟩ := (List.eq_nil_or_concat' ps).resolve_left hne
  rw [hsep, intercalate_concat, closed_append, closed_cons, List.append_assoc, closed_nil]

/-- The segments before a run are the pieces there, unless the only one is empty. -/
theorem segmentsBefore_closed {done : List (List Char)} {front : List Char}
    (hdone : ∀ p ∈ done, c ∉ p) (hfront : c ∉ front) :
    r.segmentsBefore (closed c done ++ front) = (if front = [] then done else done ++ [front]) ∨
      r.segmentsBefore (closed c done ++ front) = [] ∧
        (if front = [] then done else done ++ [front]) = [[]] := by
  unfold segmentsBefore
  by_cases hempty : front = []
  · subst hempty
    rw [if_pos rfl, List.append_nil, hsep]
    rcases List.eq_nil_or_concat' done with rfl | ⟨init, q, rfl⟩
    · exact .inl rfl
    · have hstrip : stripBack [c] (closed c (init ++ [q])) = closed c init ++ q := by
        have hclosed : closed c (init ++ [q]) = closed c init ++ q ++ [c] := by simp
        rw [hclosed, stripBack_eq, before?_eq_some_iff.mpr rfl]
        rfl
      have hinit : ∀ p ∈ init, c ∉ p := fun p hp => hdone p (List.mem_append_left _ hp)
      have hq : c ∉ q := hdone q (by simp)
      simp only [hstrip]
      split
      · next hnil =>
        obtain ⟨hinit', rfl⟩ := List.append_eq_nil_iff.mp hnil
        refine .inr ⟨rfl, ?_⟩
        cases init with
        | nil => rfl
        | cons p ps => simp at hinit'
      · rw [pieces_singleton, splitOn_closed hinit hq]
        exact .inl rfl
  · rw [if_neg hempty, hsep]
    obtain ⟨init, d, rfl⟩ := (List.eq_nil_or_concat' front).resolve_left hempty
    have hnone : before? [c] (closed c done ++ (init ++ [d])) = none := by
      rw [Option.eq_none_iff_forall_ne_some]
      intro x hx
      have heq := before?_eq_some_iff.mp hx
      rw [← List.append_assoc] at heq
      obtain ⟨-, hd⟩ := List.append_inj' heq rfl
      exact hfront (by simp [List.cons.inj hd])
    have hne : closed c done ++ (init ++ [d]) ≠ [] := by simp
    simp only [stripBack_eq, hnone, Option.getD_none, if_neg hne]
    rw [pieces_singleton, splitOn_closed hdone hfront]
    exact .inl rfl

/-- **What a run leaves of the pieces before it** is what it leaves on the stack. -/
theorem take_segmentsBefore {done : List (List Char)} {front : List Char}
    (hdone : ∀ p ∈ done, c ∉ p) (hfront : c ∉ front) {levels : Nat} (hlevels : 1 ≤ levels) :
    (r.segmentsBefore (closed c done ++ front)).take
        ((r.segmentsBefore (closed c done ++ front)).length - levels) =
      ((if front = [] then done.reverse else front :: done.reverse).drop levels).reverse := by
  have hstack : (if front = [] then done.reverse else front :: done.reverse) =
      (if front = [] then done else done ++ [front]).reverse := by
    split
    · rfl
    · rw [List.reverse_append, List.reverse_singleton, List.singleton_append]
  rw [hstack, List.drop_reverse, List.reverse_reverse]
  rcases segmentsBefore_closed hsep hdone hfront with heq | ⟨heq, hone⟩
  · rw [heq]
  · rw [heq, hone, List.length_singleton, Nat.sub_eq_zero_of_le hlevels, List.take_nil,
      List.take_zero]

end Climb

/-! ## Empty pieces at the bottom -/

/-- The second stack is the first one on empty pieces. -/
def Padded (stack stack' : List (List Char)) : Prop :=
  ∃ n, stack' = stack ++ List.replicate n []

namespace Padded

variable {stack stack' stack'' : List (List Char)}

theorem refl (stack : List (List Char)) : Padded stack stack := ⟨0, by simp⟩

theorem trans (h : Padded stack stack') (h' : Padded stack' stack'') : Padded stack stack'' := by
  obtain ⟨m, rfl⟩ := h
  obtain ⟨n, rfl⟩ := h'
  exact ⟨m + n, by rw [List.replicate_add, List.append_assoc]⟩

theorem cons (h : Padded stack stack') (piece : List Char) :
    Padded (piece :: stack) (piece :: stack') := by
  obtain ⟨n, rfl⟩ := h
  exact ⟨n, rfl⟩

theorem drop (h : Padded stack stack') (levels : Nat) :
    Padded (stack.drop levels) (stack'.drop levels) := by
  obtain ⟨n, rfl⟩ := h
  exact ⟨n - (levels - stack.length), by rw [List.drop_append, List.drop_replicate]⟩

theorem push (h : Padded stack stack') (piece : List Char) :
    Padded (r.push stack piece) (r.push stack' piece) := by
  unfold Rules.push
  cases r.ending? piece with
  | none => exact h.cons piece
  | some found =>
    refine Padded.drop ?_ found.1
    split
    · exact h
    · exact h.cons found.2

theorem foldl (h : Padded stack stack') (pieces : List (List Char)) :
    Padded (pieces.foldl r.push stack) (pieces.foldl r.push stack') := by
  induction pieces generalizing stack stack' with
  | nil => exact h
  | cons p ps ih => exact ih (h.push p)

end Padded

/-! ## Climbing -/

theorem foldl_push_of_ending?_none {ps : List (List Char)} (h : ∀ p ∈ ps, r.ending? p = none)
    (stack : List (List Char)) : ps.foldl r.push stack = ps.reverse ++ stack := by
  induction ps generalizing stack with
  | nil => rfl
  | cons p ps ih =>
    obtain ⟨hp, hps⟩ := List.forall_mem_cons.mp h
    have hpush : r.push stack p = p :: stack := by rw [push, hp]
    rw [List.foldl_cons, hpush, ih hps, List.reverse_cons, List.append_assoc]
    rfl

/-- A piece that climbs leaves pieces that were on the stack before. -/
theorem push_subset {stack : List (List Char)} {piece rest : List Char} {levels : Nat}
    (h : r.ending? piece = some (levels, rest)) : r.push stack piece ⊆ stack := by
  rw [push, h]
  simp only
  split
  · exact List.drop_subset _ _
  · obtain ⟨n, rfl⟩ : ∃ n, levels = n + 1 := ⟨levels - 1, by have := one_le_of_ending? h; omega⟩
    exact List.drop_subset n stack

section Climbing

variable {c : Char} (hsep : r.separator = [c])
include hsep

/-- **One climb** does to the stack what the pieces of its run do, up to an empty piece. -/
theorem exists_climbOnce? {done rest : List (List Char)} {piece front last : List Char}
    {levels : Nat} (hdone : ∀ q ∈ done, c ∉ q) (hpiece : c ∉ piece) (hrest : ∀ q ∈ rest, c ∉ q)
    (hlast : c ∉ last) (hstay : ∀ q ∈ done, r.ending? q = none)
    (hclimb : r.ending? piece = some (levels, front)) :
    ∃ ps, r.climbOnce? (closed c (done ++ piece :: rest) ++ last) = some (closed c ps ++ last) ∧
      (∀ p ∈ ps, c ∉ p) ∧
      Padded ((done ++ piece :: rest).foldl r.push []) (ps.foldl r.push []) := by
  obtain ⟨rest', hsuffix, hgroups, hfold⟩ := exists_groups_closed hsep hrest hlast
  have hfront : c ∉ front := by
    obtain ⟨unit, -, -, -, rfl, -⟩ := ending?_eq_some_iff.mp hclimb
    exact fun hc => hpiece (List.mem_append_left unit hc)
  obtain ⟨n, hn⟩ : ∃ n, n = (r.groups (closed c rest ++ last)).1 := ⟨_, rfl⟩
  rw [← hn] at hfold
  obtain ⟨stack, hstack⟩ : ∃ stack, stack = (r.push done.reverse piece).drop n := ⟨_, rfl⟩
  -- the pieces that are left before the run; the separator of the run closes an empty piece, if
  -- there are none
  obtain ⟨kept, hkept⟩ : ∃ kept, kept = if stack = [] then [[]] else stack.reverse := ⟨_, rfl⟩
  have hsubset : stack ⊆ done.reverse :=
    hstack ▸ List.Subset.trans (List.drop_subset _ _) (push_subset hclimb)
  have hkeptDone : ∀ q ∈ kept, q = [] ∨ q ∈ done := by
    intro q hq
    rw [hkept] at hq
    split at hq
    · exact .inl (List.mem_singleton.mp hq)
    · exact .inr (List.mem_reverse.mp (hsubset (List.mem_reverse.mp hq)))
  have hpadded : Padded stack kept.reverse := by
    rw [hkept]
    split
    · next hnil => exact ⟨1, by rw [hnil]; rfl⟩
    · rw [List.reverse_reverse]
      exact .refl stack
  refine ⟨kept ++ rest', ?_, fun p hp => ?_, ?_⟩
  · have htext : closed c (done ++ piece :: rest) ++ last =
        closed c done ++ (piece ++ c :: (closed c rest ++ last)) := by simp
    have hleft : ((if front = [] then done.reverse else front :: done.reverse).drop
        (levels + n)).reverse = stack.reverse := by
      rw [hstack, push, hclimb, ← List.drop_drop]
    rw [climbOnce?, htext, firstRun?_closed hsep hdone hstay,
      firstRun?_of_ending?_some hsep hpiece hclimb, Option.map_some, Option.map_some, hgroups, ← hn]
    simp only
    rw [take_segmentsBefore hsep hdone hfront (by have := one_le_of_ending? hclimb; omega), hleft,
      closed_append, hkept]
    split
    · next hnil => simp [hnil, hsep]
    · next hne =>
      rw [intercalate_append_separator hsep (by simpa using hne), ← List.append_assoc]
  · rcases List.mem_append.mp hp with hp | hp
    · rcases hkeptDone p hp with rfl | hp
      · simp
      · exact hdone p hp
    · exact hrest p (hsuffix.mem hp)
  · have hstayKept : ∀ q ∈ kept, r.ending? q = none := by
      intro q hq
      rcases hkeptDone q hq with rfl | hq
      · exact ending?_nil
      · exact hstay q hq
    rw [List.foldl_append, List.foldl_append, List.foldl_cons, foldl_push_of_ending?_none hstay,
      foldl_push_of_ending?_none hstayKept, List.append_nil, List.append_nil, hfold, ← hstack]
    exact hpadded.foldl rest'

/-- Pieces that do not climb are left as they are. -/
theorem climb_of_ending?_none {ps : List (List Char)} {last : List Char} (hps : ∀ p ∈ ps, c ∉ p)
    (hlast : c ∉ last) (h : ∀ p ∈ ps, r.ending? p = none) :
    r.climb (closed c ps ++ last) = closed c ps ++ last := by
  have hnone : r.climbOnce? (closed c ps ++ last) = none := by
    rw [climbOnce?, firstRun?_closed hsep hps h, firstRun?_of_notMem hsep hlast]
    rfl
  rw [climb]
  split
  · rfl
  · next hsome => cases hnone.symm.trans hsome

/-- **Climbing leaves the pieces that are left on the stack**, behind empty pieces. -/
theorem climb_closed {ps : List (List Char)} {last : List Char} (hps : ∀ p ∈ ps, c ∉ p)
    (hlast : c ∉ last) :
    ∃ qs, r.climb (closed c ps ++ last) = closed c qs ++ last ∧ (∀ q ∈ qs, c ∉ q) ∧
      Padded (ps.foldl r.push []) qs.reverse := by
  induction hlen : (closed c ps ++ last).length using Nat.strongRecOn generalizing ps with
  | ind length ih =>
    cases hfind : ps.find? fun p => (r.ending? p).isSome with
    | none =>
      have hstay : ∀ p ∈ ps, r.ending? p = none := by simpa using hfind
      refine ⟨ps, climb_of_ending?_none hsep hps hlast hstay, hps, ?_⟩
      rw [foldl_push_of_ending?_none hstay, List.append_nil]
      exact .refl _
    | some piece =>
      obtain ⟨hsome, done, rest, rfl, hstay⟩ := List.find?_eq_some_iff_append.mp hfind
      obtain ⟨⟨levels, front⟩, hclimb⟩ := Option.isSome_iff_exists.mp hsome
      have hdone : ∀ q ∈ done, c ∉ q := fun q hq => hps q (List.mem_append_left _ hq)
      obtain ⟨hpiece, hrest⟩ :=
        List.forall_mem_cons.mp fun q hq => hps q (List.mem_append_right done hq)
      obtain ⟨next, hnext, hfree, hpadded⟩ := exists_climbOnce? hsep hdone hpiece hrest hlast
        (by simpa using hstay) hclimb
      have hlt := r.length_climbOnce? hnext
      have hpos := r.length_token_pos
      obtain ⟨qs, hqs, hqfree, hqpadded⟩ := ih _ (by omega) hfree rfl
      refine ⟨qs, ?_, hqfree, hpadded.trans hqpadded⟩
      rw [climb]
      split
      · next hnone => cases hnone.symm.trans hnext
      · next found hfound =>
        obtain rfl := Option.some.inj (hfound.symm.trans hnext)
        exact hqs

/-! ## Normal form -/

theorem exists_settle_closed {ps : List (List Char)} {last : List Char} (hps : ∀ p ∈ ps, c ∉ p)
    (hlast : c ∉ last) :
    ∃ qs, r.settle (closed c ps ++ last) = closed c qs ++ last ∧ (∀ q ∈ qs, c ∉ q) ∧
      qs.filter (· ≠ []) = (r.settledPieces ps).filter (· ≠ []) := by
  unfold settle settledPieces
  cases r.mode with
  | sibling =>
    rw [hsep]
    exact exists_replaceRuns_closed (notMem_token hsep) r.apart.2.1 hps hlast
  | parent => exact ⟨ps, rfl, hps, rfl⟩

omit hsep in
/-- Empty pieces at the bottom of the stack are not seen in the end. -/
theorem filter_settledPieces_of_padded {stack stack' : List (List Char)}
    (h : Padded stack stack') :
    (r.settledPieces stack'.reverse).filter (· ≠ []) =
      (r.settledPieces stack.reverse).filter (· ≠ []) := by
  obtain ⟨n, rfl⟩ := h
  have hnil : stripBack r.token [] = [] := List.eq_nil_of_length_eq_zero
    (Nat.le_zero.mp (length_stripBack_le r.token []))
  unfold settledPieces
  rw [List.reverse_append, List.reverse_replicate]
  cases r.mode with
  | sibling => simp [hnil]
  | parent => simp

/-- **The normal form of a key is read off its pieces.** -/
theorem normalize_closed {ps : List (List Char)} {last : List Char} (hps : ∀ p ∈ ps, c ∉ p)
    (hlast : c ∉ last) :
    r.normalize (closed c ps ++ last) = r.separator.intercalate (r.address ps last) := by
  obtain ⟨qs, hclimb, hqs, hpadded⟩ := climb_closed hsep hps hlast
  obtain ⟨qs', hsettle, hqs', hfilter⟩ := exists_settle_closed hsep hqs hlast
  have hstacked := filter_settledPieces_of_padded (r := r) hpadded
  rw [List.reverse_reverse] at hstacked
  rw [normalize, hclimb, hsettle, collapse, hsep, stripFront_replaceRuns_closed hqs' hlast, hfilter,
    hstacked, address, intercalate_concat]
  rfl

end Climbing

/-- **Joining segments is one pass over the pieces of their text**: every piece but the last is
pushed on the stack, and the pieces of the address stand before the last. -/
theorem join_eq_address {config : Config} {r : Rules} (hr : ofConfig config = .ok r) {c : Char}
    (hsep : config.grammar.separator.toList = [c]) (segments : List String) :
    ∃ ps last, ([c].intercalate (segments.map String.toList)).splitOn c = ps ++ [last] ∧
      r.join segments = String.ofList ([c].intercalate (r.address ps last)) := by
  have hrsep : r.separator = [c] := (of_ofConfig hr).1.trans hsep
  obtain ⟨ps, last, htext, hps, hlast⟩ := exists_closed c
    ([c].intercalate (segments.map String.toList))
  refine ⟨ps, last, by rw [htext, splitOn_closed hps hlast], ?_⟩
  rw [join, hrsep, htext, normalize_closed hrsep hps hlast, hrsep]

/-- Keys with slashes, in which every caret climbs. -/
def slashed : Config where
  grammar := { separator := "/", upLevelToken := "^" }
  upLevelMode := .parent

theorem join_eq_address_slashed :
    ∃ r, ofConfig slashed = .ok r ∧ slashed.grammar.separator.toList = ['/'] ∧
      r.join ["a/b/c", "^^/d"] = "a/d" := by
  have hsep : slashed.grammar.separator.toList = ['/'] := by decide
  have hr : ofConfig slashed = .ok _ := ofConfig_eq_ok (by decide)
  refine ⟨_, hr, hsep, ?_⟩
  obtain ⟨ps, last, hcut, hjoin⟩ := join_eq_address hr hsep ["a/b/c", "^^/d"]
  have hpieces : [['a'], ['b'], ['c'], ['^', '^']] ++ [['d']] = ps ++ [last] := hcut
  obtain ⟨rfl, hlast⟩ := List.append_inj' hpieces rfl
  obtain rfl := (List.cons.inj hlast).1
  rw [hjoin]
  decide

end Rules

end RefTree.Keypath
