import Mathlib.Data.List.Basic
import Mathlib.Data.List.TakeWhile
import RefTree.Regex.Reader

/-!
# Proofs/Regex/Extend/Escape — a parenthesis behind what is skipped and behind an escape

A reader that ends within a text ends at the same place where a closing parenthesis and more follow.
What is skipped has to end within the text too: a comment without a line end goes on behind the
parenthesis (`skip_append`).  An escape never does: neither the digits in its braces nor the name of
a boundary holds a parenthesis (`escaped_append`).
-/

namespace RefTree.Regex

/-! ## A parenthesis behind a text -/

section Lists

variable {more t : List Char} {a b : Char}

/-- A text that does not begin with a character does not begin with it in front of a parenthesis
either. -/
theorem append_close_ne_cons (ha : a ≠ ')') (h : ∀ rest, t ≠ a :: rest) (rest : List Char) :
    t ++ ')' :: more ≠ a :: rest := by
  intro heq
  cases t with
  | nil => exact ha (List.cons.inj heq).1.symm
  | cons c cs => exact h cs (by rw [(List.cons.inj heq).1])

theorem append_close_ne_cons_cons (ha : a ≠ ')') (hb : b ≠ ')') (h : ∀ rest, t ≠ a :: b :: rest)
    (rest : List Char) : t ++ ')' :: more ≠ a :: b :: rest := by
  intro heq
  cases t with
  | nil => exact ha (List.cons.inj heq).1.symm
  | cons c cs =>
    obtain ⟨rfl, htail⟩ := List.cons.inj heq
    refine append_close_ne_cons hb (fun rest' heq' => ?_) rest htail
    exact h rest' (by rw [heq'])

/-- Taking while a test holds ends within the text, or at the parenthesis. -/
theorem takeWhile_append_close {p : Char → Bool} {cs : List Char}
    (h : cs.dropWhile p ≠ [] ∨ p ')' = false) :
    (cs ++ ')' :: more).takeWhile p = cs.takeWhile p := by
  induction cs with
  | nil =>
    have hp : p ')' = false := by simpa using h
    exact List.takeWhile_cons_of_neg (by simp [hp])
  | cons c cs ih =>
    rw [List.cons_append]
    cases hc : p c with
    | true =>
      rw [List.dropWhile_cons_of_pos hc] at h
      rw [List.takeWhile_cons_of_pos hc, List.takeWhile_cons_of_pos hc, ih h]
    | false =>
      rw [List.takeWhile_cons_of_neg (by simp [hc]), List.takeWhile_cons_of_neg (by simp [hc])]

theorem dropWhile_append_close {p : Char → Bool} {cs : List Char}
    (h : cs.dropWhile p ≠ [] ∨ p ')' = false) :
    (cs ++ ')' :: more).dropWhile p = cs.dropWhile p ++ ')' :: more := by
  induction cs with
  | nil =>
    have hp : p ')' = false := by simpa using h
    exact List.dropWhile_cons_of_neg (by simp [hp])
  | cons c cs ih =>
    rw [List.cons_append]
    cases hc : p c with
    | true =>
      rw [List.dropWhile_cons_of_pos hc] at h
      rw [List.dropWhile_cons_of_pos hc, List.dropWhile_cons_of_pos hc, ih h]
    | false =>
      rw [List.dropWhile_cons_of_neg (by simp [hc]), List.dropWhile_cons_of_neg (by simp [hc]),
        List.cons_append]

/-- What stands behind the characters that are taken is what is left of the text. -/
theorem drop_takeWhile (p : Char → Bool) (cs : List Char) :
    cs.drop (cs.takeWhile p).length = cs.dropWhile p := by
  induction cs with
  | nil => rfl
  | cons c cs ih =>
    cases hc : p c with
    | true => simp [List.takeWhile_cons_of_pos hc, List.dropWhile_cons_of_pos hc, ih]
    | false => simp [hc]

end Lists

variable {more : List Char}

/-! ## What the flags skip -/

theorem afterLine_append {cs : List Char} (h : afterLine cs ≠ []) :
    afterLine (cs ++ ')' :: more) = afterLine cs ++ ')' :: more := by
  induction cs with
  | nil => exact absurd rfl h
  | cons c cs ih =>
    rw [afterLine] at h
    rw [List.cons_append, afterLine, afterLine]
    split
    · rfl
    · next hc => exact ih (by rwa [if_neg hc] at h)

theorem skipSpace_append {cs : List Char} (h : skipSpace cs ≠ []) :
    skipSpace (cs ++ ')' :: more) = skipSpace cs ++ ')' :: more := by
  induction cs using skipSpace.induct with
  | case1 => simp [skipSpace] at h
  | case2 c cs hblank ih =>
    rw [skipSpace, if_pos hblank] at h
    rw [List.cons_append, skipSpace, if_pos hblank, skipSpace, if_pos hblank, ih h]
  | case3 cs hblank ih =>
    rw [skipSpace, if_neg hblank, if_pos rfl] at h
    have hline : afterLine cs ≠ [] := by
      intro hnil
      rw [hnil, skipSpace] at h
      exact h rfl
    have hskip : skipSpace ('#' :: cs) = skipSpace (afterLine cs) := by
      rw [skipSpace, if_neg hblank, if_pos rfl]
    rw [List.cons_append, skipSpace, if_neg hblank, if_pos rfl, afterLine_append hline, ih h,
      hskip]
  | case4 c cs hblank hhash =>
    rw [List.cons_append, skipSpace, if_neg hblank, if_neg hhash, skipSpace, if_neg hblank,
      if_neg hhash, List.cons_append]

/-- Nothing that the flags skip is left open at the end of the text. -/
def Flags.Settled (flags : Flags) (rest : List Char) : Prop := flags.spaced = true → rest ≠ []

theorem Flags.settled_of_ne_nil {flags : Flags} {rest : List Char} (h : rest ≠ []) :
    flags.Settled rest := fun _ => h

theorem skip_append {flags : Flags} {cs : List Char} (h : flags.Settled (flags.skip cs)) :
    flags.skip (cs ++ ')' :: more) = flags.skip cs ++ ')' :: more := by
  cases hspaced : flags.spaced with
  | false => simp [Flags.skip, hspaced]
  | true =>
    have hne := h hspaced
    simp only [Flags.skip, hspaced, if_true] at hne ⊢
    exact skipSpace_append hne

theorem skip_append_of_cons {flags : Flags} {cs ds : List Char} {c : Char}
    (h : flags.skip cs = c :: ds) :
    flags.skip (cs ++ ')' :: more) = c :: (ds ++ ')' :: more) := by
  rw [skip_append (Flags.settled_of_ne_nil (by simp [h])), h, List.cons_append]

theorem skip_nil (flags : Flags) : flags.skip [] = [] := by
  unfold Flags.skip
  split
  · rw [skipSpace]
  · rfl

theorem length_skipSpace_le (cs : List Char) : (skipSpace cs).length ≤ cs.length := by
  induction cs using skipSpace.induct with
  | case1 => simp [skipSpace]
  | case2 c cs hblank ih =>
    rw [skipSpace, if_pos hblank, List.length_cons]
    omega
  | case3 cs hblank ih =>
    have := length_afterLine_le cs
    rw [skipSpace, if_neg hblank, if_pos rfl, List.length_cons]
    omega
  | case4 c cs hblank hhash => rw [skipSpace, if_neg hblank, if_neg hhash]

theorem length_skip_le (flags : Flags) (cs : List Char) :
    (flags.skip cs).length ≤ cs.length := by
  unfold Flags.skip
  split
  · exact length_skipSpace_le cs
  · exact Nat.le_refl _

theorem ne_nil_of_skip {flags : Flags} {cs : List Char} (h : flags.skip cs ≠ []) : cs ≠ [] := by
  rintro rfl
  exact h (skip_nil flags)

/-! ## Escapes -/

section Escapes

variable {cs rest : List Char}

theorem hexEscape_of_ne {width : Nat} {c : Char} (hc : c ≠ '\x7b') :
    hexEscape width (c :: cs) =
      if ((c :: cs).take width).length = width then
        (hexChar? ((c :: cs).take width)).map (·, (c :: cs).drop width)
      else none := by
  rw [hexEscape]
  simpa using hc

theorem hexEscape_append {width : Nat} (hwidth : width ≠ 0) {c : Char}
    (h : hexEscape width cs = some (c, rest)) :
    hexEscape width (cs ++ ')' :: more) = some (c, rest ++ ')' :: more) := by
  cases cs with
  | nil => simp [hexEscape, hwidth.symm] at h
  | cons d ds =>
    by_cases hd : d = '\x7b'
    · subst hd
      simp only [List.cons_append, hexEscape, drop_takeWhile] at h ⊢
      cases hdrop : ds.dropWhile (· != '\x7d') with
      | nil => simp [hdrop] at h
      | cons e es =>
        have hne : ds.dropWhile (· != '\x7d') ≠ [] := by simp [hdrop]
        rw [hdrop] at h
        rw [takeWhile_append_close (.inl hne), dropWhile_append_close (.inl hne), hdrop]
        simp only [List.cons_append, Option.ite_none_left_eq_some, Option.map_eq_some_iff,
          Prod.mk.injEq] at h ⊢
        obtain ⟨hempty, c, hc, rfl, rfl⟩ := h
        exact ⟨hempty, c, hc, rfl, rfl⟩
    · rw [hexEscape_of_ne hd, Option.ite_none_right_eq_some] at h
      obtain ⟨hlen, h⟩ := h
      obtain ⟨c, hc, heq⟩ := Option.map_eq_some_iff.mp h
      obtain ⟨rfl, rfl⟩ := Prod.mk.inj heq
      have hle : width ≤ (d :: ds).length := by
        rw [List.length_take] at hlen
        omega
      have htake : (d :: (ds ++ ')' :: more)).take width = (d :: ds).take width := by
        rw [← List.cons_append, List.take_append_of_le_length hle]
      rw [List.cons_append, hexEscape_of_ne hd, htake, if_pos hlen, hc, ← List.cons_append,
        List.drop_append_of_le_length hle]
      rfl

theorem boundary_of_ne {c : Char} (hc : c ≠ '\x7b') :
    boundary (c :: cs) = some (.look .wordBoundary, c :: cs) := by
  rw [boundary]
  simpa using hc

theorem boundary_append {e : Escaped} (h : boundary cs = some (e, rest)) :
    boundary (cs ++ ')' :: more) = some (e, rest ++ ')' :: more) := by
  cases cs with
  | nil =>
    obtain ⟨rfl, rfl⟩ := Prod.mk.inj (Option.some.inj h)
    exact boundary_of_ne (by decide)
  | cons c ds =>
    by_cases hc : c = '\x7b'
    · subst hc
      simp only [List.cons_append, boundary, drop_takeWhile] at h ⊢
      rw [takeWhile_append_close (.inr (by decide)), dropWhile_append_close (.inr (by decide))]
      split at h
      · next hempty =>
        rw [if_pos hempty]
        obtain ⟨rfl, rfl⟩ := Prod.mk.inj (Option.some.inj h)
        rfl
      · next hempty =>
        rw [if_neg hempty]
        split at h
        · next after heq =>
          rw [heq, List.cons_append]
          obtain ⟨l, hl, heq⟩ := Option.map_eq_some_iff.mp h
          obtain ⟨rfl, rfl⟩ := Prod.mk.inj heq
          rw [hl]
          rfl
        · cases h
    · rw [boundary_of_ne hc] at h
      obtain ⟨rfl, rfl⟩ := Prod.mk.inj (Option.some.inj h)
      exact boundary_of_ne hc

theorem hexEscaped_append {width : Nat} (hwidth : width ≠ 0) {e : Escaped}
    (h : ((hexEscape width cs).map fun (c, cs) => (Escaped.char c, cs)) = some (e, rest)) :
    ((hexEscape width (cs ++ ')' :: more)).map fun (c, cs) => (Escaped.char c, cs)) =
      some (e, rest ++ ')' :: more) := by
  obtain ⟨⟨c, cs'⟩, hc, heq⟩ := Option.map_eq_some_iff.mp h
  obtain ⟨rfl, rfl⟩ := Prod.mk.inj heq
  rw [hexEscape_append hwidth hc]
  rfl

/-- **An escape is read in the same way where a parenthesis follows.** -/
theorem escaped_append {e : Escaped} (h : escaped cs = some (e, rest)) :
    escaped (cs ++ ')' :: more) = some (e, rest ++ ')' :: more) := by
  cases cs with
  | nil => cases h
  | cons c ds =>
    rw [List.cons_append]
    unfold escaped at h ⊢
    simp only at h ⊢
    split at h
    case h_7 => exact hexEscaped_append (by decide) h
    case h_8 => exact hexEscaped_append (by decide) h
    case h_9 => exact hexEscaped_append (by decide) h
    case h_18 => exact boundary_append h
    case h_22 =>
      split at h
      · next hplain =>
        obtain ⟨rfl, rfl⟩ := Prod.mk.inj (Option.some.inj h)
        rw [if_pos hplain]
      · cases h
    all_goals
      obtain ⟨rfl, rfl⟩ := Prod.mk.inj (Option.some.inj h)
      rfl

end Escapes

end RefTree.Regex
