import RefTree.Regex.Reader

/-!
# Proofs/Regex/Reading — what the reader makes of a text that is put together

The text of an expression is made of items with their repetitions, which are read one after the
other.  A piece is read in the same way whatever stands behind it, as long as that does not begin
with the operator of a repetition, and four times its length is fuel enough.  So the expression of a
text is put together as the text is (`ReadsItems.cons`, `ReadsAlternatives.bar`), and a text that is
read to its end is parsed (`ReadsAlternatives.parse`).
-/

namespace RefTree.Regex

/-! ## What stands behind a piece -/

/-- No operator of a repetition stands at the front of the text. -/
def Unrepeated (cs : List Char) : Prop :=
  ∀ c ∈ cs.head?, c ≠ '*' ∧ c ≠ '+' ∧ c ≠ '?' ∧ c ≠ '\x7b'

/-- An alternative ends in front of the text. -/
def Closes (cs : List Char) : Prop := ∀ c ∈ cs.head?, c = ')' ∨ c = '|'

theorem Unrepeated.nil : Unrepeated [] := fun _ h => nomatch h

theorem Unrepeated.cons {c : Char} (h : c ≠ '*' ∧ c ≠ '+' ∧ c ≠ '?' ∧ c ≠ '\x7b')
    (cs : List Char) : Unrepeated (c :: cs) := by
  intro d hd
  obtain rfl := Option.some.inj hd
  exact h

theorem Closes.unrepeated {cs : List Char} (h : Closes cs) : Unrepeated cs := by
  intro c hc
  rcases h c hc with rfl | rfl <;> decide

theorem Unrepeated.append {cs rest : List Char} (h : Unrepeated cs) (hrest : Unrepeated rest) :
    Unrepeated (cs ++ rest) := by
  cases cs with
  | nil => exact hrest
  | cons c cs => exact .cons (h c rfl) _

/-- Without its flag no blanks are skipped. -/
theorem skip_default (cs : List Char) : Flags.skip {} cs = cs := rfl

/-! ## Pieces -/

variable {names names' names'' : List String} {r q : Regex} {x y z : List Char}
  {f : Regex → Regex}

/-- The text is the repetitions that make `f r` of an item `r`. -/
def ReadsRepetitions (x : List Char) (f : Regex → Regex) : Prop :=
  ∀ rest, Unrepeated rest → ∀ r fuel, x.length < fuel →
    repetitions {} fuel r (x ++ rest) = some (f r, rest)

/-- The text is the item `r`, which adds its named groups to `names`. -/
structure ReadsItem (names : List String) (x : List Char) (r : Regex) (names' : List String) :
    Prop where
  ne_nil : x ≠ []
  unrepeated : Unrepeated x
  read : ∀ rest fuel, 4 * x.length ≤ fuel →
    items (fuel + 1) ⟨x ++ rest, {}, names⟩ = itemsAfter fuel r ⟨rest, {}, names'⟩

/-- The text is an alternative that is read as `q`. -/
structure ReadsItems (names : List String) (x : List Char) (q : Regex) (names' : List String) :
    Prop where
  unrepeated : Unrepeated x
  read : ∀ rest, Closes rest → ∀ fuel, 4 * x.length < fuel →
    items fuel ⟨x ++ rest, {}, names⟩ = some (q, ⟨rest, {}, names'⟩)

/-- The text is alternatives that are read as `r`. -/
def ReadsAlternatives (names : List String) (x : List Char) (r : Regex) (names' : List String) :
    Prop :=
  ∀ rest, (∀ c ∈ rest.head?, c = ')') → ∀ fuel, 4 * x.length + 1 < fuel →
    alternatives fuel ⟨x ++ rest, {}, names⟩ = some (r, ⟨rest, {}, names'⟩)

/-- The text is read as `r` between the parentheses of a group, whichever flags it ends with. -/
def ReadsInside (names : List String) (x : List Char) (r : Regex) (names' : List String) : Prop :=
  ∀ more fuel, 4 * x.length + 8 ≤ fuel → ∃ flags,
    alternatives fuel ⟨x ++ ')' :: more, {}, names⟩ = some (r, ⟨')' :: more, flags, names'⟩)

theorem ReadsAlternatives.inside (h : ReadsAlternatives names x r names') :
    ReadsInside names x r names' :=
  fun more fuel hfuel => ⟨{}, h (')' :: more) (by simp) fuel (by omega)⟩

/-! ## Repetitions -/

theorem repetitions_of_unrepeated {cs : List Char} (h : Unrepeated cs) (r : Regex) (fuel : Nat) :
    repetitions {} (fuel + 1) r cs = some (r, cs) := by
  rw [repetitions, skip_default]
  cases cs with
  | nil => rfl
  | cons c cs =>
    obtain ⟨hstar, hplus, hquestion, hbrace⟩ := h c rfl
    split
    · next heq => exact absurd (List.cons.inj heq).1 hstar
    · next heq => exact absurd (List.cons.inj heq).1 hplus
    · next heq => exact absurd (List.cons.inj heq).1 hquestion
    · next heq => exact absurd (List.cons.inj heq).1 hbrace
    · rfl

theorem greed_of_unrepeated {cs : List Char} (h : Unrepeated cs) : greed {} cs = (true, cs) := by
  cases cs with
  | nil => rfl
  | cons c cs =>
    unfold greed
    split
    · next heq => exact absurd (List.cons.inj heq).1 (h c rfl).2.2.1
    · rfl

namespace ReadsRepetitions

theorem once : ReadsRepetitions [] id := by
  intro rest hrest r fuel hfuel
  obtain ⟨fuel, rfl⟩ := Nat.exists_eq_succ_of_ne_zero (Nat.ne_of_gt hfuel)
  exact repetitions_of_unrepeated hrest r fuel

/-- A repetition by which an item is taken between `least` and `most` times. -/
theorem of_step {least : Nat} {most : Option Nat} (hx : x ≠ [])
    (hstep : ∀ rest, Unrepeated rest → ∀ r fuel, repetitions {} (fuel + 1) r (x ++ rest) =
      repetitions {} fuel (.times least most true r) rest) :
    ReadsRepetitions x (.times least most true) := by
  intro rest hrest r fuel hfuel
  have hlen := List.length_pos_iff.mpr hx
  obtain ⟨fuel, rfl⟩ : ∃ k, fuel = k + 2 := ⟨fuel - 2, by omega⟩
  rw [hstep rest hrest, repetitions_of_unrepeated hrest]

/-- The operators of one character. -/
theorem operator {op : Char} {least : Nat} {most : Option Nat}
    (h : (op, least, most) ∈ [('*', 0, none), ('+', 1, none), ('?', 0, some 1)]) :
    ReadsRepetitions [op] (.times least most true) := by
  refine of_step (List.cons_ne_nil _ _) fun rest hrest r fuel => ?_
  rw [List.singleton_append, repetitions, skip_default]
  simp only [List.mem_cons, Prod.mk.injEq, List.not_mem_nil, or_false] at h
  rcases h with ⟨rfl, rfl, rfl⟩ | ⟨rfl, rfl, rfl⟩ | ⟨rfl, rfl, rfl⟩ <;>
    simp only [greed_of_unrepeated hrest]

/-- The bounds of one round or two. -/
theorem oneOrTwo : ReadsRepetitions "\x7b1,2\x7d".toList (.times 1 (some 2) true) :=
  of_step (by decide) fun rest hrest r fuel => by
    have hbounds : bounds {} ("1,2\x7d".toList ++ rest) = some ((1, some 2), rest) := rfl
    have htext : "\x7b1,2\x7d".toList ++ rest = '\x7b' :: ("1,2\x7d".toList ++ rest) := rfl
    rw [htext, repetitions, skip_default]
    simp only [hbounds, Option.bind_some, skip_default, greed_of_unrepeated hrest]

end ReadsRepetitions

/-! ## Items -/

namespace ReadsItem

/-- An item that is no group. -/
theorem of_item (hx : x ≠ []) (hunrepeated : Unrepeated x)
    (hopen : ∀ c ∈ x.head?, c ≠ '(' ∧ c ≠ ')' ∧ c ≠ '|')
    (hitem : ∀ rest fuel, 4 * x.length ≤ fuel → item {} fuel (x ++ rest) = some (r, rest)) :
    ReadsItem names x r names := by
  refine ⟨hx, hunrepeated, fun rest fuel hfuel => ?_⟩
  obtain ⟨c, cs, rfl⟩ := List.exists_cons_of_ne_nil hx
  obtain ⟨hleft, hright, hbar⟩ := hopen c rfl
  rw [items]
  simp only [skip_default, List.cons_append]
  split
  · next heq => cases heq
  · next heq => exact absurd (List.cons.inj heq).1 hright
  · next heq => exact absurd (List.cons.inj heq).1 hbar
  · next heq => exact absurd (List.cons.inj heq).1 hleft
  · rw [← List.cons_append, hitem rest fuel hfuel]
    rfl

/-- A group without a name. -/
theorem group_inside (h : ReadsInside names x r names') :
    ReadsItem names ("(?:".toList ++ x ++ [')']) r names' := by
  refine ⟨by simp, .cons (by decide) _, fun rest fuel hfuel => ?_⟩
  have htext : "(?:".toList ++ x ++ [')'] ++ rest =
      '(' :: ('?' :: ':' :: (x ++ ')' :: rest)) := by simp
  have hlen : ("(?:".toList ++ x ++ [')']).length = x.length + 4 := by simp
  have hopening : opening {} ('?' :: ':' :: (x ++ ')' :: rest)) =
      some (.group {} none, x ++ ')' :: rest) := rfl
  obtain ⟨flags, hinner⟩ : ∃ flags, alternatives fuel ⟨x ++ ')' :: rest, {}, [] ++ names⟩ =
      some (r, ⟨')' :: rest, flags, names'⟩) := h rest fuel (by omega)
  rw [htext, items]
  simp only [skip_default, hopening, Option.any_none, Bool.false_eq_true, if_false,
    Option.toList_none, hinner, nameIf]

theorem group (h : ReadsAlternatives names x r names') :
    ReadsItem names ("(?:".toList ++ x ++ [')']) r names' := group_inside h.inside

/-- A group with a name. -/
theorem named {name : String} (hname : ∀ rest, groupName (name.toList ++ '>' :: rest) =
      some (name.toList, rest)) (hnew : name ∉ names)
    (h : ReadsAlternatives (name :: names) x r names') :
    ReadsItem names ("(?P<".toList ++ name.toList ++ '>' :: x ++ [')']) (.named name r) names' := by
  refine ⟨by simp, .cons (by decide) _, fun rest fuel hfuel => ?_⟩
  have htext : "(?P<".toList ++ name.toList ++ '>' :: x ++ [')'] ++ rest =
      '(' :: ('?' :: 'P' :: '<' :: (name.toList ++ '>' :: (x ++ ')' :: rest))) := by simp
  have hlen : ("(?P<".toList ++ name.toList ++ '>' :: x ++ [')']).length =
      name.toList.length + x.length + 6 := by
    simp
    omega
  have hopening : opening {} ('?' :: 'P' :: '<' :: (name.toList ++ '>' :: (x ++ ')' :: rest))) =
      some (.group {} (some name), x ++ ')' :: rest) := by
    rw [opening, skip_default]
    simp only [opening.named, hname, Option.map_some, String.ofList_toList]
  have hinner : alternatives fuel ⟨x ++ ')' :: rest, {}, [name] ++ names⟩ =
      some (r, ⟨')' :: rest, {}, names'⟩) :=
    h (')' :: rest) (by simp) fuel (by omega)
  have hcontains : names.contains name = false := by simpa using hnew
  rw [htext, items]
  simp only [skip_default, hopening, Option.any_some, hcontains, Bool.false_eq_true, if_false,
    Option.toList_some, hinner, nameIf]

end ReadsItem

/-! ## Sequences and alternatives -/

namespace ReadsItems

theorem nil (names : List String) : ReadsItems names [] .empty names := by
  refine ⟨.nil, fun rest hrest fuel hfuel => ?_⟩
  obtain ⟨fuel, rfl⟩ := Nat.exists_eq_succ_of_ne_zero (Nat.ne_of_gt hfuel)
  cases rest with
  | nil => rfl
  | cons c cs => rcases hrest c rfl with rfl | rfl <;> rfl

theorem of_eq (h : ReadsItems names x q names') (hy : y = x) : ReadsItems names y q names' :=
  hy ▸ h

/-- **An item with its repetitions, and the items after it.** -/
theorem cons (hitem : ReadsItem names x r names') (hrep : ReadsRepetitions y f)
    (h : ReadsItems names' z q names'') :
    ReadsItems names (x ++ y ++ z) (.cat (f r) q) names'' := by
  refine ⟨?_, fun rest hrest fuel hfuel => ?_⟩
  · obtain ⟨c, cs, rfl⟩ := List.exists_cons_of_ne_nil hitem.ne_nil
    exact .cons (hitem.unrepeated c rfl) _
  have hpos := List.length_pos_iff.mpr hitem.ne_nil
  simp only [List.length_append] at hfuel
  obtain ⟨fuel, rfl⟩ : ∃ k, fuel = k + 2 := ⟨fuel - 2, by omega⟩
  have htext : x ++ y ++ z ++ rest = x ++ (y ++ (z ++ rest)) := by simp
  have hreps := hrep (z ++ rest) (h.unrepeated.append hrest.unrepeated) r fuel (by omega)
  rw [htext, hitem.read _ (fuel + 1) (by omega), itemsAfter]
  simp only [hreps, Option.bind_some, h.read rest hrest fuel (by omega), Option.map_some]

end ReadsItems

namespace ReadsAlternatives

theorem of_items (h : ReadsItems names x q names') : ReadsAlternatives names x q names' := by
  intro rest hrest fuel hfuel
  obtain ⟨fuel, rfl⟩ : ∃ k, fuel = k + 1 := ⟨fuel - 1, by omega⟩
  rw [alternatives, h.read rest (fun c hc => .inl (hrest c hc)) fuel (by omega)]
  cases rest with
  | nil => rfl
  | cons c cs =>
    obtain rfl := hrest c rfl
    rfl

theorem bar (hx : ReadsItems names x q names') (hy : ReadsAlternatives names' y r names'') :
    ReadsAlternatives names (x ++ '|' :: y) (.alt q r) names'' := by
  intro rest hrest fuel hfuel
  simp only [List.length_append, List.length_cons] at hfuel
  obtain ⟨fuel, rfl⟩ : ∃ k, fuel = k + 1 := ⟨fuel - 1, by omega⟩
  have hclose : Closes ('|' :: (y ++ rest)) := by
    intro c hc
    exact .inr (Option.some.inj hc).symm
  rw [List.append_assoc, List.cons_append, alternatives, hx.read _ hclose fuel (by omega)]
  simp only [Option.bind_some, hy rest hrest fuel (by omega), Option.map_some]

/-- **Alternatives that are read to the end of a text are its expression.** -/
theorem parse {text : String} (h : ReadsAlternatives [] text.toList r names) :
    Regex.parse text = some r := by
  have hread := h [] (fun _ hc => nomatch hc) (fuelFor text.toList) (by unfold fuelFor; omega)
  rw [List.append_nil] at hread
  rw [Regex.parse, hread]

end ReadsAlternatives

end RefTree.Regex
