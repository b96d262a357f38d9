import RefTree.Proofs.Regex.Extend.Escape

/-!
# Proofs/Regex/Extend/Bracket — a parenthesis behind a class

A class is closed by a bracket, and every reader on the way there stops within the text, so a class
is read in the same way where a closing parenthesis and more follow (`extends_bracketClass`).  The
one reader that can run past the parenthesis is that of the name of an ASCII class: the name it then
finds holds the parenthesis, which no such name does (`asciiClass_append`).
-/

namespace RefTree.Regex

variable {more : List Char}

/-! ## Bracketed classes -/

section Classes

variable {flags : Flags} {cs rest : List Char}

theorem className_append {name : List Char} (h : className cs = some (name, rest)) :
    className (cs ++ ')' :: more) = some (name, rest ++ ')' :: more) := by
  simp only [className, drop_takeWhile] at h ⊢
  split at h
  · next after heq =>
    have hne : cs.dropWhile (· != ':') ≠ [] := by simp [heq]
    obtain ⟨rfl, rfl⟩ := Prod.mk.inj (Option.some.inj h)
    rw [takeWhile_append_close (.inl hne), dropWhile_append_close (.inl hne), heq]
    rfl
  · cases h

/-- A name that ends only behind the parenthesis holds it. -/
theorem mem_of_className_append {name : List Char} (h : className cs = none)
    (h' : className (cs ++ ')' :: more) = some (name, rest)) : ')' ∈ name := by
  simp only [className, drop_takeWhile] at h h'
  by_cases hne : cs.dropWhile (· != ':') = []
  · have hall : ∀ c ∈ cs, (c != ':') = true := List.dropWhile_eq_nil_iff.mp hne
    rw [List.takeWhile_append_of_pos hall, List.takeWhile_cons_of_pos (by decide)] at h'
    split at h'
    · obtain ⟨rfl, -⟩ := Prod.mk.inj (Option.some.inj h')
      simp
    · cases h'
  · rw [dropWhile_append_close (.inl hne)] at h'
    split at h'
    · next after heq =>
      refine absurd heq (append_close_ne_cons_cons (by decide) (by decide) (fun rest heq' => ?_) _)
      rw [heq'] at h
      cases h
    · cases h'

theorem named?_eq_none {name : List Char} (h : ')' ∈ name) : CharSet.named? name = none := by
  have hne : ∀ s : String, ')' ∉ s.toList → String.ofList name ≠ s := by
    rintro s hs rfl
    exact hs (by simpa using h)
  rw [CharSet.named?, Option.map_eq_none_iff]
  unfold CharSet.named?.ranges?
  split
  case h_15 => rfl
  all_goals
    next heq => exact absurd heq (hne _ (by decide))

/-- The class that a name stands for, changed by `f`. -/
theorem classOfName_append (f : CharSet → CharSet) :
    ((className (cs ++ ')' :: more)).bind fun (name, rest) =>
        (CharSet.named? name).map fun s => (f s, rest)) =
      ((className cs).bind fun (name, rest) =>
        (CharSet.named? name).map fun s => (f s, rest)).map
          fun (s, rest) => (s, rest ++ ')' :: more) := by
  cases hname : className cs with
  | some found =>
    obtain ⟨name, rest⟩ := found
    simp only [className_append hname, Option.bind_some, Option.map_map]
    rfl
  | none =>
    cases hname' : className (cs ++ ')' :: more) with
    | none => rfl
    | some found =>
      have hmem := mem_of_className_append hname hname'
      simp only [Option.bind_some, Option.bind_none, named?_eq_none hmem, Option.map_none]

theorem asciiClass_of_ne {d : Char} (hd : d ≠ '^') :
    asciiClass flags (':' :: d :: cs) =
      (className (d :: cs)).bind fun (name, rest) =>
        (CharSet.named? name).map fun s => (s.foldIf flags.caseless, rest) := by
  rw [asciiClass]
  simpa using hd

/-- An ASCII class is found in the same way, or not at all, where a parenthesis follows. -/
theorem asciiClass_append : asciiClass flags (cs ++ ')' :: more) =
    (asciiClass flags cs).map fun (s, rest) => (s, rest ++ ')' :: more) := by
  cases cs with
  | nil => rfl
  | cons c ds =>
    by_cases hc : c = ':'
    · subst hc
      cases ds with
      | nil =>
        have hplain : asciiClass flags (':' :: ')' :: more) = _ := asciiClass_of_ne (by decide)
        exact hplain.trans (@classOfName_append more [] fun s => s.foldIf flags.caseless)
      | cons d ds =>
        by_cases hd : d = '^'
        · subst hd
          exact classOfName_append fun s => .compl (s.foldIf flags.caseless)
        · rw [List.cons_append, List.cons_append, asciiClass_of_ne hd, asciiClass_of_ne hd,
            ← List.cons_append]
          exact classOfName_append fun s => s.foldIf flags.caseless
    · have hnone : ∀ ds : List Char, asciiClass flags (c :: ds) = none := by
        intro ds
        unfold asciiClass
        split
        · next heq => exact absurd (List.cons.inj heq).1 hc
        · next heq => exact absurd (List.cons.inj heq).1 hc
        · rfl
      rw [List.cons_append, hnone, hnone]
      rfl

theorem member_append {e : Escaped} (h : member cs = some (e, rest)) :
    member (cs ++ ')' :: more) = some (e, rest ++ ')' :: more) := by
  unfold member at h
  split at h
  · cases h
  · next ds =>
    split at h
    · cases h
    · next hlook =>
      rw [List.cons_append, member, escaped_append h]
      cases e with
      | look l => exact absurd h (hlook l rest)
      | char c => rfl
      | set s => rfl
  · next c ds hslash =>
    obtain ⟨rfl, rfl⟩ := Prod.mk.inj (Option.some.inj h)
    rw [List.cons_append, member]
    exact hslash

theorem isLoneHyphen_append (h : flags.skip cs ≠ []) :
    isLoneHyphen flags (cs ++ ')' :: more) = isLoneHyphen flags cs := by
  unfold isLoneHyphen
  rw [skip_append (Flags.settled_of_ne_nil h)]
  cases hskip : flags.skip cs with
  | nil => exact absurd hskip h
  | cons c ds => rfl

theorem memberOrRange_append {s : CharSet} (h : memberOrRange flags cs = some (s, rest))
    (hrest : rest ≠ []) :
    memberOrRange flags (cs ++ ')' :: more) = some (s, rest ++ ')' :: more) := by
  obtain ⟨⟨first, after⟩, hfirst, h⟩ := Option.bind_eq_some_iff.mp h
  rw [memberOrRange, member_append hfirst, Option.bind_some]
  simp only at h ⊢
  have hskip : flags.skip after ≠ [] := by
    intro hnil
    rw [hnil] at h
    exact hrest (Prod.mk.inj (Option.some.inj h)).2.symm
  rw [skip_append (Flags.settled_of_ne_nil hskip)]
  obtain ⟨c, ds, heq⟩ := List.exists_cons_of_ne_nil hskip
  rw [heq] at h ⊢
  by_cases hc : c = '-'
  · subst hc
    simp only [List.cons_append] at h ⊢
    -- a hyphen is lone in front of a character, and a range has an end
    have hds : flags.skip ds ≠ [] := by
      intro hnil
      simp [isLoneHyphen, hnil, member] at h
    rw [isLoneHyphen_append hds]
    split at h
    · next hlone =>
      obtain ⟨rfl, rfl⟩ := Prod.mk.inj (Option.some.inj h)
      exact if_pos hlone
    · next hlone =>
      obtain ⟨⟨last, after'⟩, hlast, h⟩ := Option.bind_eq_some_iff.mp h
      rw [if_neg hlone, skip_append (Flags.settled_of_ne_nil hds), member_append hlast,
        Option.bind_some]
      simp only at h ⊢
      split at h
      · split at h
        · next hle =>
          obtain ⟨rfl, rfl⟩ := Prod.mk.inj (Option.some.inj h)
          exact if_pos hle
        · cases h
      · cases h
  · rw [List.cons_append]
    split at h
    · next heq' => exact absurd (List.cons.inj heq').1 hc
    · obtain ⟨rfl, rfl⟩ := Prod.mk.inj (Option.some.inj h)
      split
      · next heq' => exact absurd (List.cons.inj heq').1 hc
      · rfl

theorem skipHyphens_nil (fuel : Nat) : skipHyphens flags fuel [] = (false, []) := by
  cases fuel <;> rfl

theorem skipHyphens_append {fuel fuel' : Nat} (hfuel : cs.length ≤ fuel) (hle : fuel ≤ fuel')
    (h : (skipHyphens flags fuel cs).2 ≠ []) :
    skipHyphens flags fuel' (cs ++ ')' :: more) =
      ((skipHyphens flags fuel cs).1, (skipHyphens flags fuel cs).2 ++ ')' :: more) := by
  induction fuel generalizing cs fuel' with
  | zero =>
    obtain rfl := List.length_eq_zero_iff.mp (Nat.le_zero.mp hfuel)
    exact absurd rfl h
  | succ fuel ih =>
    obtain ⟨fuel', rfl⟩ : ∃ k, fuel' = k + 1 := ⟨fuel' - 1, by omega⟩
    cases cs with
    | nil => exact absurd rfl h
    | cons c ds =>
      by_cases hc : c = '-'
      · subst hc
        have hskip : flags.skip ds ≠ [] := by
          intro hnil
          rw [skipHyphens, hnil, skipHyphens_nil] at h
          exact h rfl
        have hlen := length_skip_le flags ds
        rw [List.length_cons] at hfuel
        rw [List.cons_append, skipHyphens, skipHyphens,
          skip_append (Flags.settled_of_ne_nil hskip), ih (by omega) (by omega) h]
      · have hother : ∀ (fuel : Nat) (ds : List Char),
            skipHyphens flags fuel (c :: ds) = (false, c :: ds) := by
          intro fuel ds
          rw [skipHyphens]
          simpa using fun _ _ => hc
        rw [List.cons_append, hother, hother, List.cons_append]

theorem negation_append (h : (negation flags cs).2 ≠ []) :
    negation flags (cs ++ ')' :: more) =
      ((negation flags cs).1, (negation flags cs).2 ++ ')' :: more) := by
  have hskip : flags.skip cs ≠ [] := by
    intro hnil
    rw [negation, hnil] at h
    exact h rfl
  unfold negation at h ⊢
  rw [skip_append (Flags.settled_of_ne_nil hskip)]
  obtain ⟨c, ds, heq⟩ := List.exists_cons_of_ne_nil hskip
  rw [heq] at h ⊢
  rw [List.cons_append]
  by_cases hc : c = '^'
  · subst hc
    simp only at h ⊢
    rw [skip_append (Flags.settled_of_ne_nil h)]
  · split
    · next heq' => exact absurd (List.cons.inj heq').1 hc
    · split
      · next heq' => exact absurd (List.cons.inj heq').1 hc
      · rfl

/-- What `read` finds in a text it also finds where a parenthesis follows, with as much fuel. -/
def Extends {α : Type} (read : Nat → List Char → Option (α × List Char)) (fuel : Nat) : Prop :=
  ∀ cs x rest fuel' more, fuel ≤ fuel' → read fuel cs = some (x, rest) →
    read fuel' (cs ++ ')' :: more) = some (x, rest ++ ')' :: more)

/-- A class does not end with the text. -/
theorem classParts_skip_ne_nil {fuel : Nat} {before : Option (CharSet × SetOp)} {part s : CharSet}
    (h : classParts flags fuel before part cs = some (s, rest)) : flags.skip cs ≠ [] := by
  intro hnil
  cases fuel with
  | zero => cases h
  | succ fuel =>
    rw [classParts, hnil] at h
    cases h

/-- Parts of a class, if classes and parts are read so with less fuel. -/
theorem classParts_step {fuel : Nat} (hclass : Extends (bracketClass flags) fuel)
    (hparts : ∀ before part, Extends (classParts flags · before part) fuel)
    (before : Option (CharSet × SetOp)) (part : CharSet) :
    Extends (classParts flags · before part) (fuel + 1) := by
  intro cs s rest fuel' more hle h
  obtain ⟨fuel', rfl⟩ : ∃ k, fuel' = k + 1 := ⟨fuel' - 1, by omega⟩
  have hle : fuel ≤ fuel' := by omega
  have hskip := classParts_skip_ne_nil h
  simp only [classParts, skip_append (Flags.settled_of_ne_nil hskip)] at h ⊢
  split at h
  · cases h
  · next heq =>
    obtain ⟨rfl, rfl⟩ := Prod.mk.inj (Option.some.inj h)
    rw [heq]
    rfl
  · next heq =>
    rw [heq]
    exact hparts _ _ _ _ _ _ _ hle h
  · next heq =>
    rw [heq]
    exact hparts _ _ _ _ _ _ _ hle h
  · next heq =>
    rw [heq]
    exact hparts _ _ _ _ _ _ _ hle h
  · next inner heq =>
    rw [heq]
    simp only [List.cons_append, asciiClass_append]
    cases hascii : asciiClass flags inner with
    | some found =>
      obtain ⟨t, after⟩ := found
      rw [hascii] at h
      exact hparts _ _ _ _ _ _ _ hle h
    | none =>
      rw [hascii] at h
      obtain ⟨⟨t, after⟩, ht, h⟩ := Option.bind_eq_some_iff.mp h
      simp only [Option.map_none, hclass _ _ _ _ _ hle ht, Option.bind_some]
      exact hparts _ _ _ _ _ _ _ hle h
  · next hclose hinter hdiff hsymm hopen =>
    obtain ⟨⟨t, after⟩, ht, h⟩ := Option.bind_eq_some_iff.mp h
    have hafter := ne_nil_of_skip (classParts_skip_ne_nil h)
    split
    · next heq => simp at heq
    · next heq => exact absurd heq (append_close_ne_cons (by decide) hclose _)
    · next heq => exact absurd heq (append_close_ne_cons_cons (by decide) (by decide) hinter _)
    · next heq => exact absurd heq (append_close_ne_cons_cons (by decide) (by decide) hdiff _)
    · next heq => exact absurd heq (append_close_ne_cons_cons (by decide) (by decide) hsymm _)
    · next heq => exact absurd heq (append_close_ne_cons (by decide) hopen _)
    · rw [memberOrRange_append ht hafter, Option.bind_some]
      exact hparts _ _ _ _ _ _ _ hle h

/-- A class, if its parts are read so with less fuel. -/
theorem bracketClass_step {fuel : Nat}
    (hparts : ∀ before part, Extends (classParts flags · before part) fuel) :
    Extends (bracketClass flags) (fuel + 1) := by
  intro cs s rest fuel' more hle h
  obtain ⟨fuel', rfl⟩ : ∃ k, fuel' = k + 1 := ⟨fuel' - 1, by omega⟩
  have hread : ∀ {part t : CharSet} {cs after : List Char},
      classParts flags fuel none part cs = some (t, after) →
        classParts flags fuel' none part (cs ++ ')' :: more) = some (t, after ++ ')' :: more) :=
    fun h => hparts _ _ _ _ _ _ _ (by omega) h
  simp only [bracketClass] at h ⊢
  obtain ⟨⟨t, after⟩, ht, heq⟩ := Option.map_eq_some_iff.mp h
  obtain ⟨rfl, rfl⟩ := Prod.mk.inj heq
  -- the closing bracket stands behind the caret and the hyphens
  have hhyphens :
      (skipHyphens flags (negation flags cs).2.length (negation flags cs).2).2 ≠ [] := by
    intro hnil
    rw [hnil] at ht
    split at ht <;> exact ne_nil_of_skip (classParts_skip_ne_nil ht) rfl
  have hnegation : (negation flags cs).2 ≠ [] := by
    intro hnil
    rw [hnil] at hhyphens
    exact hhyphens rfl
  rw [negation_append hnegation]
  simp only
  rw [skipHyphens_append (Nat.le_refl _) (by simp) hhyphens]
  simp only
  split at ht
  · next hyphen =>
    rw [if_pos hyphen, hread ht]
    rfl
  · next hyphen =>
    rw [if_neg hyphen]
    split at ht
    · next inner heq =>
      rw [heq, List.cons_append]
      simp only [hread ht]
      rfl
    · next hbracket =>
      split
      · next heq => exact absurd heq (append_close_ne_cons (by decide) hbracket _)
      · rw [hread ht]
        rfl

/-- **A class is read in the same way where a parenthesis follows.** -/
theorem extends_bracketClass (flags : Flags) (fuel : Nat) :
    Extends (bracketClass flags) fuel ∧
      ∀ before part, Extends (classParts flags · before part) fuel := by
  induction fuel with
  | zero =>
    refine ⟨fun _ _ _ _ _ _ h => ?_, fun _ _ _ _ _ _ _ _ h => ?_⟩
    · cases h
    · cases h
  | succ fuel ih => exact ⟨bracketClass_step ih.2, classParts_step ih.1 ih.2⟩

end Classes

end RefTree.Regex
