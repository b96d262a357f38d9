import RefTree.Proofs.Marker.Wrap
import RefTree.Proofs.Regex.Reading

/-!
# Proofs/Marker/Source — the text of an expression and what it is read as

The expression of markers is put together as text, with the separator and the up-level token
escaped in it, and is then read.  What is read is put together alike: an escaped text is its
characters in a row (`readsItems_escape`), whichever they are, so the text of a key is read as
`keyRegex` (`readsItems_keySource`), and with the default reference pattern the text of a marker is
read as `wrap` of it (`readsItems_source`).
-/

namespace RefTree.Marker

open Regex

namespace Default

/-- The characters of a segment. -/
def wordChar : CharSet :=
  .union (.union (.union (.union .empty (.range 'a' 'z')) (.range 'A' 'Z')) (.range '0' '9'))
    (.range '_' '_')

def segment : Regex := .cat (.times 1 none true (.set wordChar)) .empty

end Default

/-! ## Escaped texts -/

/-- The characters of a text in a row, and then `q`. -/
def literals (text : List Char) (q : Regex) : Regex :=
  text.foldr (fun c q => .cat (Default.literal c) q) q

/-- The text that matches one character. -/
def escapeChar (c : Char) : List Char := if isSpecial c then ['\\', c] else [c]

theorem toList_escape (text : String) : (escape text).toList = text.toList.flatMap escapeChar :=
  String.toList_ofList

theorem isSpecial_iff {c : Char} : isSpecial c = true ↔ c ∈ "\\.+*?()|[]\x7b\x7d^$#&-~".toList :=
  List.contains_iff_mem

theorem escaped_of_isSpecial {c : Char} (h : isSpecial c = true) (rest : List Char) :
    escaped (c :: rest) = some (.char c, rest) := by
  have hmem := isSpecial_iff.mp h
  simp only [String.reduceToList, List.mem_cons, List.not_mem_nil, or_false] at hmem
  rcases hmem with rfl | rfl | rfl | rfl | rfl | rfl | rfl | rfl | rfl | rfl | rfl | rfl | rfl |
    rfl | rfl | rfl | rfl | rfl <;> rfl

/-- What no escape is needed for is not one of the characters that mean something. -/
theorem ne_of_not_isSpecial {c d : Char} (h : isSpecial c = false) (hd : isSpecial d = true) :
    c ≠ d := by
  rintro rfl
  cases h.symm.trans hd

theorem item_of_not_isSpecial {c : Char} (h : isSpecial c = false) (fuel : Nat)
    (rest : List Char) : item {} fuel (c :: rest) = some (Default.literal c, rest) := by
  have hne : ∀ d, isSpecial d = true → c ≠ d := fun d => ne_of_not_isSpecial h
  unfold item
  split
  · next heq => cases heq
  · next heq => exact absurd (List.cons.inj heq).1 (hne _ rfl)
  · next heq => exact absurd (List.cons.inj heq).1 (hne _ rfl)
  · next heq => exact absurd (List.cons.inj heq).1 (hne _ rfl)
  · next heq => exact absurd (List.cons.inj heq).1 (hne _ rfl)
  · next heq => exact absurd (List.cons.inj heq).1 (hne _ rfl)
  · next heq =>
    obtain ⟨rfl, rfl⟩ := List.cons.inj heq
    have hoperator : (decide (c = '*') || decide (c = '+') || decide (c = '?') ||
        decide (c = '\x7b')) = false := by
      simp [hne '*' rfl, hne '+' rfl, hne '?' rfl, hne '\x7b' rfl]
    rw [hoperator]
    rfl

variable {names names' : List String} {q : Regex} {z : List Char}

theorem unrepeated_escapeChar (c : Char) : Unrepeated (escapeChar c) := by
  unfold escapeChar
  cases h : isSpecial c with
  | true => exact .cons (by decide) _
  | false =>
    exact .cons ⟨ne_of_not_isSpecial h rfl, ne_of_not_isSpecial h rfl, ne_of_not_isSpecial h rfl,
      ne_of_not_isSpecial h rfl⟩ _

theorem readsItem_escapeChar (names : List String) (c : Char) :
    ReadsItem names (escapeChar c) (Default.literal c) names := by
  have hunrepeated := unrepeated_escapeChar c
  unfold escapeChar at hunrepeated ⊢
  cases h : isSpecial c with
  | true =>
    rw [h] at hunrepeated
    refine .of_item (List.cons_ne_nil _ _) hunrepeated (by simp) fun rest fuel _ => ?_
    exact congrArg (Option.map _) (escaped_of_isSpecial h rest)
  | false =>
    rw [h] at hunrepeated
    refine .of_item (List.cons_ne_nil _ _) hunrepeated ?_ fun rest fuel _ =>
      item_of_not_isSpecial h fuel rest
    intro d hd
    obtain rfl : c = d := Option.some.inj hd
    exact ⟨ne_of_not_isSpecial h rfl, ne_of_not_isSpecial h rfl, ne_of_not_isSpecial h rfl⟩

/-- **An escaped text is read as its characters.** -/
theorem readsItems_escape (text : String) (h : ReadsItems names z q names') :
    ReadsItems names ((escape text).toList ++ z) (literals text.toList q) names' := by
  rw [toList_escape]
  induction text.toList with
  | nil => exact h
  | cons c cs ih =>
    have hcons := ReadsItems.cons (readsItem_escapeChar names c) .once ih
    rwa [List.append_nil, ← List.append_assoc] at hcons

theorem readsItems_escape_last (names : List String) (text : String) :
    ReadsItems names (escape text).toList (literals text.toList .empty) names := by
  have h := readsItems_escape text (.nil names)
  rwa [List.append_nil] at h

/-! ## Keys -/

/-- An up-level group: the token once or twice, and the separator. -/
def groupRegex (separator token : List Char) : Regex :=
  .cat (.times 1 (some 2) true (literals token .empty)) (literals separator .empty)

/-- Up-level groups in a row. -/
def groupsRegex (separator token : List Char) : Regex :=
  .cat (.times 1 none true (groupRegex separator token)) .empty

/-- A key: segments with separators between them, and groups before segments. -/
def keyRegex (separator token : List Char) (segment : Regex) : Regex :=
  .cat
    (.times 0 (some 1) true
      (.alt (groupsRegex separator token) (literals separator .empty)))
    (.cat segment
      (.cat
        (.times 0 none true
          (literals separator
            (.cat (.times 0 (some 1) true (groupsRegex separator token)) (.cat segment .empty))))
        .empty))

theorem over_literals {p : Char → Prop} {t : List Char} {q : Regex} (ht : ∀ c ∈ t, p c)
    (hq : q.Over p) : (literals t q).Over p := by
  induction t with
  | nil => exact hq
  | cons c t ih =>
    obtain ⟨hc, ht⟩ := List.forall_mem_cons.mp ht
    refine ⟨fun d hd => ?_, ih ht⟩
    rw [CharSet.contains_single, decide_eq_true_eq] at hd
    rwa [← hd]

theorem over_keyRegex {p : Char → Prop} {separator token : List Char} {segment : Regex}
    (hseparator : ∀ c ∈ separator, p c) (htoken : ∀ c ∈ token, p c) (hsegment : segment.Over p) :
    (keyRegex separator token segment).Over p := by
  have hlast : ∀ {t : List Char}, (∀ c ∈ t, p c) → (literals t .empty).Over p := fun h =>
    over_literals h trivial
  have hgroups : (groupsRegex separator token).Over p :=
    ⟨⟨hlast htoken, hlast hseparator⟩, trivial⟩
  exact ⟨⟨hgroups, hlast hseparator⟩, hsegment,
    over_literals hseparator ⟨hgroups, hsegment, trivial⟩, trivial⟩

theorem readsItems_groupsSource (g : Grammar) (names : List String) :
    ReadsItems names (groupsSource g).toList
      (groupsRegex g.separator.toList g.upLevelToken.toList) names := by
  have htoken : ReadsItem names ("(?:".toList ++ (escape g.upLevelToken).toList ++ [')'])
      (literals g.upLevelToken.toList .empty) names :=
    .group (.of_items (readsItems_escape_last names g.upLevelToken))
  have hseparator := readsItems_escape_last names g.separator
  have hgroup := ReadsItem.group (.of_items (.cons htoken .oneOrTwo hseparator))
  have hplus : ReadsRepetitions ['+'] (.times 1 none true) := .operator (by decide)
  exact (ReadsItems.cons hgroup hplus (.nil names)).of_eq (by simp [groupsSource])

/-- **The expression of a key is read as one**, for any key pattern that is read alike wherever it
stands. -/
theorem readsItems_keySource (g : Grammar) (names : List String) {segment : Regex}
    (hsegment : ReadsInside names g.keyPattern.toList segment names) :
    ReadsItems names (keySource g).toList
      (keyRegex g.separator.toList g.upLevelToken.toList segment) names := by
  have hgroups := readsItems_groupsSource g names
  have hseparator := readsItems_escape_last names g.separator
  have hoptional : ReadsRepetitions ['?'] (.times 0 (some 1) true) := .operator (by decide)
  have hstar : ReadsRepetitions ['*'] (.times 0 none true) := .operator (by decide)
  have hword := ReadsItems.cons (.group_inside hsegment) .once (.nil names)
  have hnext := readsItems_escape g.separator
    (.cons (.group (.of_items hgroups)) hoptional hword)
  have hmore := ReadsItems.cons (.group (.of_items hnext)) hstar (.nil names)
  have hfirst := ReadsItems.cons (.group_inside hsegment) .once hmore
  have hkey := ReadsItems.cons (.group (.bar hgroups (.of_items hseparator))) hoptional hfirst
  have htext : keySource g = "(?:" ++ groupsSource g ++ "|" ++ escape g.separator ++ ")?(?:" ++
      g.keyPattern ++ ")(?:" ++ escape g.separator ++ "(?:" ++ groupsSource g ++ ")?(?:" ++
        g.keyPattern ++ "))*" := rfl
  exact hkey.of_eq (by simp [htext])

/-- A range of characters in a class. -/
theorem classParts_range {a b : Char} (h : (a, b) ∈ [('a', 'z'), ('A', 'Z'), ('0', '9')])
    (fuel : Nat) (part : CharSet) (rest : List Char) :
    classParts {} (fuel + 1) none part (a :: '-' :: b :: rest) =
      classParts {} fuel none (.union part (.range a b)) rest := by
  simp only [List.mem_cons, Prod.mk.injEq, List.not_mem_nil, or_false] at h
  rw [classParts]
  rcases h with ⟨rfl, rfl⟩ | ⟨rfl, rfl⟩ | ⟨rfl, rfl⟩ <;>
    simp [skip_default, memberOrRange, member, isLoneHyphen]

/-- The end of the class that holds the characters of segments. -/
theorem classParts_underscore (fuel : Nat) (part : CharSet) (rest : List Char) :
    classParts {} (fuel + 2) none part ('_' :: ']' :: rest) =
      some (.union part (.range '_' '_'), rest) := by
  rw [classParts]
  simp [skip_default, memberOrRange, member, classParts, closePart, Escaped.toSet, CharSet.single]

/-- The characters of segments as a class. -/
theorem item_wordChar (fuel : Nat) (rest : List Char) :
    item {} (fuel + 6) ("[a-zA-Z0-9_]".toList ++ rest) = some (.set Default.wordChar, rest) := by
  have hclass : bracketClass {} (fuel + 6) ('a' :: '-' :: 'z' :: 'A' :: '-' :: 'Z' :: '0' :: '-' ::
      '9' :: '_' :: ']' :: rest) = some (Default.wordChar, rest) := by
    rw [bracketClass]
    simp [negation, skip_default, skipHyphens, classParts_range, classParts_underscore,
      CharSet.foldIf, CharSet.complIf, Default.wordChar]
  have htext : "[a-zA-Z0-9_]".toList ++ rest = '[' :: 'a' :: '-' :: 'z' :: 'A' :: '-' :: 'Z' ::
      '0' :: '-' :: '9' :: '_' :: ']' :: rest := rfl
  rw [htext, item, hclass]
  rfl

theorem readsItems_segment (names : List String) :
    ReadsItems names "[a-zA-Z0-9_]+".toList Default.segment names := by
  have hclass : ReadsItem names "[a-zA-Z0-9_]".toList (.set Default.wordChar) names := by
    refine .of_item (by decide) (.cons (by decide) _) (by simp) fun rest fuel hfuel => ?_
    obtain ⟨fuel, rfl⟩ : ∃ k, fuel = k + 6 := ⟨fuel - 6, by simp at hfuel; omega⟩
    exact item_wordChar fuel rest
  have hplus : ReadsRepetitions ['+'] (.times 1 none true) := .operator (by decide)
  exact .cons hclass hplus (.nil names)

/-! ## Markers -/

theorem readsItem_blank (names : List String) :
    ReadsItem names "\\s".toList (.set .blank) names :=
  .of_item (by decide) (.cons (by decide) _) (by simp) fun _ _ _ => rfl

/-- The pieces of the default reference pattern around a key. -/
theorem aroundKey_eq {g : Grammar}
    (hpattern : g.referencePattern = ({} : Grammar).referencePattern) :
    aroundKey g = ["@\\\x7b\\s*".toList, "\\s*\\\x7d".toList] := by
  rw [aroundKey, hpattern]
  decide +kernel

/-- **The expression of a marker is read as one**, where the default reference pattern wraps it
around a key. -/
theorem readsItems_source {g : Grammar}
    (hpattern : g.referencePattern = ({} : Grammar).referencePattern)
    {key : Regex} (hkey : ReadsItems [keyGroup] (keySource g).toList key [keyGroup]) :
    ReadsItems [] (source g).toList (wrap key) [keyGroup] := by
  have hstar : ReadsRepetitions ['*'] (.times 0 none true) := .operator (by decide)
  have hgroup : ReadsItem [] _ (.named keyGroup key) [keyGroup] :=
    .named (fun rest => rfl) (List.not_mem_nil) (.of_items hkey)
  have hclose := ReadsItems.cons (readsItem_blank [keyGroup]) hstar
    (.cons (readsItem_escapeChar [keyGroup] '\x7d') .once (.nil _))
  have hopen := ReadsItems.cons (readsItem_blank []) hstar (.cons hgroup .once hclose)
  have h := ReadsItems.cons (readsItem_escapeChar [] '@') .once
    (.cons (readsItem_escapeChar [] '\x7b') .once hopen)
  have hat : escapeChar '@' = ['@'] := by decide
  have hleft : escapeChar '\x7b' = ['\\', '\x7b'] := by decide
  have hright : escapeChar '\x7d' = ['\\', '\x7d'] := by decide
  refine h.of_eq ?_
  rw [source, String.toList_ofList, aroundKey_eq hpattern, hat, hleft, hright]
  simp

/-! ## Grammars with the default patterns -/

theorem Default.parse_keyPattern : Regex.parse ({} : Grammar).keyPattern = some Default.segment :=
  ReadsAlternatives.parse (.of_items (readsItems_segment []))

section Accepted

variable {g : Grammar} (hreference : g.referencePattern = ({} : Grammar).referencePattern)
  (hkey : g.keyPattern = ({} : Grammar).keyPattern)

include hreference hkey

theorem parse_source : Regex.parse (source g) =
    some (wrap (keyRegex g.separator.toList g.upLevelToken.toList Default.segment)) := by
  have hsegment : ReadsInside [keyGroup] g.keyPattern.toList Default.segment [keyGroup] := by
    rw [hkey]
    exact (ReadsAlternatives.of_items (readsItems_segment [keyGroup])).inside
  exact ReadsAlternatives.parse
    (.of_items (readsItems_source hreference (readsItems_keySource g [keyGroup] hsegment)))

/-- **Any separator and token are accepted**, with the default patterns. -/
theorem ofGrammar_eq : Pattern.ofGrammar g = .ok
    ⟨source g, wrap (keyRegex g.separator.toList g.upLevelToken.toList Default.segment)⟩ := by
  have hplaces : (aroundKey g).length - 1 = 1 := by
    rw [aroundKey_eq hreference]
    rfl
  have hne : g.keyPattern ≠ "" := by
    rw [hkey]
    decide
  have hparse : Regex.parse g.keyPattern = some Default.segment := by
    rw [hkey, Default.parse_keyPattern]
  simp only [Pattern.ofGrammar, hplaces, hne, hparse, parse_source hreference hkey]
  rfl

end Accepted

end RefTree.Marker
