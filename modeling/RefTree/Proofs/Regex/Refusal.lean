import RefTree.Proofs.Regex.Reading

/-!
# Proofs/Regex/Refusal — a text is refused for one of its pieces

The pieces of a text are read one after the other, so a piece that is refused after those before it
have been read is the end of the reading: no reader goes back to try something else
(`RefusesItems.cons`, `RefusesItems.group_inside`), and the whole text is no expression
(`RefusesItems.parse`).
-/

namespace RefTree.Regex

variable {names names' : List String} {r : Regex} {x y z : List Char} {f : Regex → Regex}

/-- Whatever follows, the text is not the beginning of an alternative. -/
structure RefusesItems (names : List String) (x : List Char) : Prop where
  ne_nil : x ≠ []
  unrepeated : Unrepeated x
  refuse : ∀ rest fuel, 4 * x.length < fuel → items fuel ⟨x ++ rest, {}, names⟩ = none

/-- No group has the text between its parentheses. -/
def RefusesInside (names : List String) (x : List Char) : Prop :=
  ∀ more fuel, 4 * x.length + 8 ≤ fuel → alternatives fuel ⟨x ++ ')' :: more, {}, names⟩ = none

theorem RefusesItems.inside (h : RefusesItems names x) : RefusesInside names x := by
  intro more fuel hfuel
  obtain ⟨fuel, rfl⟩ : ∃ k, fuel = k + 1 := ⟨fuel - 1, by omega⟩
  rw [alternatives, h.refuse _ fuel (by omega)]
  rfl

namespace RefusesItems

theorem of_eq (h : RefusesItems names x) (hy : y = x) : RefusesItems names y := hy ▸ h

/-- The items before the refused one are read. -/
theorem cons (hitem : ReadsItem names x r names') (hrep : ReadsRepetitions y f)
    (h : RefusesItems names' z) : RefusesItems names (x ++ y ++ z) := by
  refine ⟨by simp [hitem.ne_nil], ?_, fun rest fuel hfuel => ?_⟩
  · obtain ⟨c, cs, rfl⟩ := List.exists_cons_of_ne_nil hitem.ne_nil
    exact .cons (hitem.unrepeated c rfl) _
  obtain ⟨c, cs, rfl⟩ := List.exists_cons_of_ne_nil h.ne_nil
  have hpos := List.length_pos_iff.mpr hitem.ne_nil
  simp only [List.length_append] at hfuel
  obtain ⟨fuel, rfl⟩ : ∃ k, fuel = k + 2 := ⟨fuel - 2, by omega⟩
  have htext : x ++ y ++ (c :: cs) ++ rest = x ++ (y ++ (c :: cs ++ rest)) := by simp
  have hreps := hrep (c :: cs ++ rest) (.cons (h.unrepeated c rfl) _) r fuel (by omega)
  rw [htext, hitem.read _ (fuel + 1) (by omega), itemsAfter]
  simp only [hreps, Option.bind_some, h.refuse rest fuel (by omega), Option.map_none]

theorem group_inside (h : RefusesInside names x) (z : List Char) :
    RefusesItems names ("(?:".toList ++ x ++ [')'] ++ z) := by
  refine ⟨by simp, .cons (by decide) _, fun rest fuel hfuel => ?_⟩
  have hlen : ("(?:".toList ++ x ++ [')'] ++ z).length = x.length + z.length + 4 := by
    simp
    omega
  obtain ⟨fuel, rfl⟩ : ∃ k, fuel = k + 1 := ⟨fuel - 1, by omega⟩
  have htext : "(?:".toList ++ x ++ [')'] ++ z ++ rest =
      '(' :: ('?' :: ':' :: (x ++ ')' :: (z ++ rest))) := by simp
  have hopening : opening {} ('?' :: ':' :: (x ++ ')' :: (z ++ rest))) =
      some (.group {} none, x ++ ')' :: (z ++ rest)) := rfl
  have hinner : alternatives fuel ⟨x ++ ')' :: (z ++ rest), {}, [] ++ names⟩ = none :=
    h (z ++ rest) fuel (by omega)
  rw [htext, items]
  simp only [skip_default, hopening, Option.any_none, Bool.false_eq_true, if_false,
    Option.toList_none, hinner]

theorem group (h : RefusesItems names x) (z : List Char) :
    RefusesItems names ("(?:".toList ++ x ++ [')'] ++ z) := group_inside h.inside z

theorem named {name : String} (hname : ∀ rest, groupName (name.toList ++ '>' :: rest) =
      some (name.toList, rest)) (h : RefusesItems (name :: names) x) (z : List Char) :
    RefusesItems names ("(?P<".toList ++ name.toList ++ '>' :: x ++ [')'] ++ z) := by
  refine ⟨by simp, .cons (by decide) _, fun rest fuel hfuel => ?_⟩
  have hlen : ("(?P<".toList ++ name.toList ++ '>' :: x ++ [')'] ++ z).length =
      name.toList.length + x.length + z.length + 6 := by
    simp
    omega
  obtain ⟨fuel, rfl⟩ : ∃ k, fuel = k + 1 := ⟨fuel - 1, by omega⟩
  have htext : "(?P<".toList ++ name.toList ++ '>' :: x ++ [')'] ++ z ++ rest =
      '(' :: ('?' :: 'P' :: '<' :: (name.toList ++ '>' :: (x ++ ')' :: (z ++ rest)))) := by simp
  have hopening : opening {} ('?' :: 'P' :: '<' ::
      (name.toList ++ '>' :: (x ++ ')' :: (z ++ rest)))) =
        some (.group {} (some name), x ++ ')' :: (z ++ rest)) := by
    rw [opening, skip_default]
    simp only [opening.named, hname, Option.map_some, String.ofList_toList]
  have hinner : alternatives fuel ⟨x ++ ')' :: (z ++ rest), {}, [name] ++ names⟩ = none :=
    h.inside (z ++ rest) fuel (by omega)
  rw [htext, items]
  simp only [skip_default, hopening, Option.any_some, Option.toList_some, hinner, ite_self]

/-- **A text that begins with a refused alternative is no expression.** -/
theorem parse {text : String} (h : RefusesItems [] text.toList) : Regex.parse text = none := by
  have hrefuse := h.refuse [] (4 * text.toList.length + 7) (by omega)
  rw [List.append_nil] at hrefuse
  rw [Regex.parse, fuelFor, alternatives, hrefuse]
  rfl

end RefusesItems

end RefTree.Regex
