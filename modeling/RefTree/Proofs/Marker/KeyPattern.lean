import RefTree.Proofs.Marker.Grammar
import RefTree.Proofs.Regex.Anywhere

/-!
# Proofs/Marker/KeyPattern — key patterns of one's own

The expression of a key holds the key pattern twice, each time in a group of its own.  There it is
read as it is by itself, except that its groups have been named before when it comes again
(`exists_of_parse`).  So a pattern without named groups is accepted (`ofGrammar_of_groupFree`) and
one with a named group is refused (`ofGrammar_of_named`).  What an accepted pattern matches is the
key of the marker that is put around it: a match in that text begins with it and ends with the only
closing brace there is (`find?_braced`).
-/

namespace RefTree.Marker

open Regex

/-! ## A key pattern twice in an expression -/

section Refused

variable {names names' : List String} {z : List Char}

theorem refusesItems_escape (text : String) (h : RefusesItems names z) :
    RefusesItems names ((escape text).toList ++ z) := by
  rw [toList_escape]
  induction text.toList with
  | nil => exact h
  | cons c cs ih =>
    have hcons := RefusesItems.cons (readsItem_escapeChar names c) .once ih
    rwa [List.append_nil, ← List.append_assoc] at hcons

/-- A key pattern that is refused in one of its places makes no expression of a key. -/
theorem refusesItems_keySource (g : Grammar)
    (h : RefusesInside names g.keyPattern.toList ∨ ∃ segment names',
      ReadsInside names g.keyPattern.toList segment names' ∧
        RefusesInside names' g.keyPattern.toList) :
    RefusesItems names (keySource g).toList := by
  have hoptional : ReadsRepetitions ['?'] (.times 0 (some 1) true) := .operator (by decide)
  have hgroups := readsItems_groupsSource g
  have hseparator := readsItems_escape_last names g.separator
  have hfront : ReadsItem names _ _ names := .group (.bar (hgroups names) (.of_items hseparator))
  have htext : keySource g = "(?:" ++ groupsSource g ++ "|" ++ escape g.separator ++ ")?(?:" ++
      g.keyPattern ++ ")(?:" ++ escape g.separator ++ "(?:" ++ groupsSource g ++ ")?(?:" ++
        g.keyPattern ++ "))*" := rfl
  rcases h with h | ⟨segment, names', hreads, hrefuses⟩
  · refine (RefusesItems.cons hfront hoptional (.group_inside h ?_)).of_eq ?_
    · exact ("(?:" ++ escape g.separator ++ "(?:" ++ groupsSource g ++ ")?(?:" ++
        g.keyPattern ++ "))*").toList
    · simp [htext]
  · have hnext := refusesItems_escape g.separator
      (.cons (.group (.of_items (hgroups names'))) hoptional (.group_inside hrefuses []))
    have hmore := RefusesItems.cons (.group_inside hreads) .once (.group hnext ['*'])
    exact (RefusesItems.cons hfront hoptional hmore).of_eq (by simp [htext])

/-- **With the default reference pattern, what makes no expression of a key makes none of a
marker.** -/
theorem parse_source_eq_none {g : Grammar}
    (hpattern : g.referencePattern = ({} : Grammar).referencePattern)
    (hkey : RefusesItems [keyGroup] (keySource g).toList) : Regex.parse (source g) = none := by
  have hstar : ReadsRepetitions ['*'] (.times 0 none true) := .operator (by decide)
  have hgroup : RefusesItems [] ("(?P<".toList ++ keyGroup.toList ++ '>' :: (keySource g).toList ++
      [')'] ++ "\\s*\\\x7d".toList) := .named (fun rest => rfl) hkey _
  have hopen := RefusesItems.cons (readsItem_blank []) hstar hgroup
  have h := RefusesItems.cons (readsItem_escapeChar [] '@') .once
    (.cons (readsItem_escapeChar [] '\x7b') .once hopen)
  have hat : escapeChar '@' = ['@'] := by decide
  have hleft : escapeChar '\x7b' = ['\\', '\x7b'] := by decide
  refine RefusesItems.parse (h.of_eq ?_)
  rw [source, String.toList_ofList, aroundKey_eq hpattern, hat, hleft]
  simp

end Refused

/-! ## Keys of a pattern of one's own -/

section Own

variable {g : Grammar} {segment : Regex}
  (hreference : g.referencePattern = ({} : Grammar).referencePattern) (hne : g.keyPattern ≠ "")
  (hparse : Regex.parse g.keyPattern = some segment)

include hreference hne hparse

/-- Whether a pattern is accepted is decided by the expression of a marker. -/
theorem ofGrammar_of_parse : Pattern.ofGrammar g =
    match Regex.parse (source g) with
    | none => .error (.referencePatternInvalid g.referencePattern)
    | some regex => .ok ⟨source g, regex⟩ := by
  have hplaces : (aroundKey g).length - 1 = 1 := by
    rw [aroundKey_eq hreference]
    rfl
  simp only [Pattern.ofGrammar, hplaces, hne, hparse]
  rfl

variable (hverbose : endsVerbose g.keyPattern = false)

include hverbose

/-- **A key pattern without named groups is accepted**, and means the same in both of its places. -/
theorem ofGrammar_of_groupFree (hfree : groupFree segment = true) : Pattern.ofGrammar g = .ok
    ⟨source g, wrap (keyRegex g.separator.toList g.upLevelToken.toList segment)⟩ := by
  obtain ⟨new, hnew, hall⟩ := exists_of_parse hparse hverbose
  obtain rfl := hnew.mp hfree
  have hinside : ReadsInside [keyGroup] g.keyPattern.toList segment [keyGroup] :=
    (hall [keyGroup]).1 (fresh_nil _)
  have hsource := ReadsAlternatives.parse
    (.of_items (readsItems_source hreference (readsItems_keySource g [keyGroup] hinside)))
  rw [ofGrammar_of_parse hreference hne hparse, hsource]

/-- **A key pattern with a named group is refused**: its second place gives the name again. -/
theorem ofGrammar_of_named (hfree : groupFree segment = false) :
    Pattern.ofGrammar g = .error (.referencePatternInvalid g.referencePattern) := by
  obtain ⟨new, hnew, hall⟩ := exists_of_parse hparse hverbose
  have hne' : new ≠ [] := fun hnil => by simp [hnew.mpr hnil] at hfree
  have hrefused : RefusesItems [keyGroup] (keySource g).toList := by
    refine refusesItems_keySource g ?_
    by_cases hkey : Fresh new [keyGroup]
    · refine .inr ⟨segment, new ++ [keyGroup], (hall _).1 hkey, (hall _).2 fun hagain => ?_⟩
      obtain ⟨name, hname⟩ := List.exists_mem_of_ne_nil new hne'
      exact hagain name hname (List.mem_append_left _ hname)
    · exact .inl ((hall _).2 hkey)
  rw [ofGrammar_of_parse hreference hne hparse, parse_source_eq_none hreference hrefused]

end Own

/-! ## The marker of a key -/

section Keys

variable {separator token : List Char} {segment : Regex}

theorem lookFree_keyRegex (h : lookFree segment = true) :
    lookFree (keyRegex separator token segment) = true := by
  simp [keyRegex, groupsRegex, groupRegex, lookFree, lookFree_literals, h]

theorem groupFree_keyRegex (h : groupFree segment = true) :
    groupFree (keyRegex separator token segment) = true := by
  simp [keyRegex, groupsRegex, groupRegex, groupFree, groupFree_literals, h]

/-- A segment is a key by itself. -/
theorem mem_language_keyRegex {w : List Char} (h : w ∈ language segment) :
    w ∈ language (keyRegex separator token segment) := by
  rw [keyRegex, language_cat, language_cat, language_cat_empty, language_optional,
    language_anyNumber]
  have hrest := Language.append_mem_mul h (Language.nil_mem_kstar
    (language (literals separator (.cat (.times 0 (some 1) true (groupsRegex separator token))
      (.cat segment .empty)))))
  have hfront : [] ∈ 1 + language (.alt (groupsRegex separator token)
      (literals separator .empty)) := .inl Language.nil_mem_one
  simpa using Language.append_mem_mul hfront hrest

end Keys

/-- What a match in the text of one marker can be: all of it, with what stands there as the key. -/
theorem eq_of_wraps {key : Regex} {w v k rest : List Char} (h : Wraps key v k)
    (heq : braced w = v ++ rest) (hblank : ∀ c ∈ w, Unicode.isBlank c = false)
    (hbrace : '\x7d' ∉ w) : v = braced w ∧ k = w ∧ rest = [] := by
  obtain ⟨b, b', hb, -, hb', rfl⟩ := h
  have hinner : w ++ '\x7d' :: [] = (b ++ k ++ b') ++ '\x7d' :: rest := by
    simpa [braced] using heq
  have hinside : b ++ k ++ b' <+: w := by
    refine List.prefix_of_prefix_length_le ⟨_, hinner.symm⟩ (List.prefix_append w _) ?_
    have hlen := congrArg List.length hinner
    simp only [List.length_append, List.length_cons, List.length_nil] at hlen ⊢
    omega
  have hclosed : '\x7d' ∉ b ++ k ++ b' := fun hmem => hbrace (hinside.subset hmem)
  obtain ⟨rfl, rfl⟩ := (Text.append_cons_inj hbrace hclosed).mp hinner
  have hnone : ∀ a : List Char, a ∈ language Default.blanks → a ⊆ b ++ k ++ b' → a = [] := by
    intro a ha hsub
    refine List.eq_nil_iff_forall_not_mem.mpr fun c hc => ?_
    cases (Default.mem_language_blanks.mp ha c hc).symm.trans (hblank c (hsub hc))
  obtain rfl := hnone b hb (by simp)
  obtain rfl := hnone b' hb' (by simp)
  exact ⟨by simp [braced], by simp, rfl⟩

/-- **The text of one marker is found as a whole**, with the key that it is put around. -/
theorem find?_braced {p : Pattern} {key : Regex} (hlook : lookFree key = true)
    (hgroup : groupFree key = true) (hp : p.regex = wrap key) {w : String}
    (hw : w.toList ∈ language key) (hblank : ∀ c ∈ w.toList, Unicode.isBlank c = false)
    (hbrace : '\x7d' ∉ w.toList) :
    p.find? ("@\x7b" ++ w ++ "\x7d") =
      some ⟨w, 0, ("@\x7b" ++ w ++ "\x7d").utf8ByteSize, true⟩ := by
  have htext : ("@\x7b" ++ w ++ "\x7d").toList = braced w.toList := by simp [braced]
  have hmem : braced w.toList ∈ language (wrap key) :=
    mem_language_wrap.mpr ⟨w.toList, [], [], Default.mem_language_blanks.mpr (by simp), hw,
      Default.mem_language_blanks.mpr (by simp), by simp [braced]⟩
  rw [Pattern.find?, hp]
  cases hspan : (wrap key).find? ("@\x7b" ++ w ++ "\x7d") with
  | none =>
    have hnone := (Regex.find?_eq_none_iff (lookFree_wrap hlook)).mp hspan
    exact absurd hmem (hnone [] _ [] (by simp [htext]))
  | some m =>
    obtain ⟨u, v, hfirst, hreads⟩ := Regex.find?_eq_some (lookFree_wrap hlook) hspan
    obtain ⟨k, hwraps, hmarker⟩ :=
      marker?_of_readsAfter hgroup ("@\x7b" ++ w ++ "\x7d") [] hreads
    obtain rfl : u = [] := List.length_eq_zero_iff.mp
      (Nat.le_zero.mp (hfirst.least [] (braced w.toList) [] (by simp [htext]) hmem))
    obtain ⟨rfl, rfl, -⟩ := eq_of_wraps hwraps (htext ▸ hfirst.eq) hblank hbrace
    have hsize : Text.byteLength (braced w.toList) = ("@\x7b" ++ w ++ "\x7d").utf8ByteSize := by
      rw [← htext, Text.byteLength_toList]
    rw [Option.bind_some, hmarker]
    simp [Default.markerAt, Text.byteLength, hsize]

/-- **Main result: a key pattern may be any expression without named groups.**  It is then accepted
with the default reference pattern, and each text that it matches, blanks and closing braces aside,
is the key of the marker that is put around it.  With a named group it is refused, since the
expression of a key gives the name twice. -/
theorem ofGrammar_keyPattern {g : Grammar} {segment : Regex}
    (hreference : g.referencePattern = ({} : Grammar).referencePattern) (hne : g.keyPattern ≠ "")
    (hparse : Regex.parse g.keyPattern = some segment)
    (hverbose : endsVerbose g.keyPattern = false) :
    (groupFree segment = true → ∃ p, Pattern.ofGrammar g = .ok p ∧
      (lookFree segment = true → ∀ w : String, w.toList ∈ language segment →
        (∀ c ∈ w.toList, Unicode.isBlank c = false) → '\x7d' ∉ w.toList →
          p.find? ("@\x7b" ++ w ++ "\x7d") =
            some ⟨w, 0, ("@\x7b" ++ w ++ "\x7d").utf8ByteSize, true⟩)) ∧
    (groupFree segment = false →
      Pattern.ofGrammar g = .error (.referencePatternInvalid g.referencePattern)) := by
  refine ⟨fun hfree => ⟨_, ofGrammar_of_groupFree hreference hne hparse hverbose hfree, ?_⟩,
    ofGrammar_of_named hreference hne hparse hverbose⟩
  intro hlook w hw hblank hbrace
  exact find?_braced (lookFree_keyRegex hlook) (groupFree_keyRegex hfree) rfl
    (mem_language_keyRegex hw) hblank hbrace

/-- A grammar whose keys are letters `a` and `b`, where a `c` of either case can follow a `b`. -/
def lettered : Grammar := { keyPattern := "(a|b(?i:c)?)+" }

/-- What the key pattern of `lettered` is read as. -/
def letters : Regex :=
  .cat (.times 1 none true
    (.alt (.cat (Default.literal 'a') .empty)
      (.cat (Default.literal 'b')
        (.cat (.times 0 (some 1) true (.cat (.set (.folded (.single 'c'))) .empty)) .empty))))
    .empty

theorem ofGrammar_keyPattern_lettered :
    lettered.referencePattern = ({} : Grammar).referencePattern ∧ lettered.keyPattern ≠ "" ∧
      Regex.parse lettered.keyPattern = some letters ∧ endsVerbose lettered.keyPattern = false ∧
        groupFree letters = true ∧ ∃ p, Pattern.ofGrammar lettered = .ok p ∧
          p.find? "@\x7babCa\x7d" = some ⟨"abCa", 0, 7, true⟩ := by
  have hparse : Regex.parse lettered.keyPattern = some letters := by decide +kernel
  have hverbose : endsVerbose lettered.keyPattern = false := by decide +kernel
  have hword : "abCa".toList ∈ language letters := by
    have hend : (⟨4, some 'a', [], []⟩ : Cursor) ∈ ends letters (.start "abCa".toList) := by
      decide +kernel
    obtain ⟨v, hv, hreads⟩ := ends_sound letters _ _ hend
    have htext : "abCa".toList = v ++ [] := hreads.rest
    rwa [htext, List.append_nil]
  have hblank : "abCa".toList.all (fun c => !Unicode.isBlank c) = true := by decide
  obtain ⟨hfree, -⟩ := ofGrammar_keyPattern (g := lettered) rfl (by decide) hparse hverbose
  obtain ⟨p, hp, hfind⟩ := hfree rfl
  exact ⟨rfl, by decide, hparse, hverbose, rfl, p, hp,
    hfind rfl "abCa" hword (by simpa using hblank) (by decide)⟩

/-- A grammar whose key pattern is a group with a name. -/
def naming : Grammar := { keyPattern := "(?P<x>a)" }

/-- A key pattern that is an expression by itself is refused for the name of its group. -/
theorem ofGrammar_naming :
    naming.keyPattern ≠ "" ∧ (∃ segment, Regex.parse naming.keyPattern = some segment ∧
      lookFree segment = true ∧ ['a'] ∈ language segment) ∧
        Pattern.ofGrammar naming = .error (.referencePatternInvalid naming.referencePattern) := by
  have hparse : Regex.parse naming.keyPattern =
      some (.cat (.named "x" (.cat (Default.literal 'a') .empty)) .empty) := by decide +kernel
  refine ⟨by decide, ⟨_, hparse, rfl, ?_⟩, ?_⟩
  · rw [language_cat_empty, language, language_cat_empty]
    exact mem_language_single.mpr rfl
  · exact ofGrammar_of_named rfl (by decide) hparse (by decide +kernel) rfl

end RefTree.Marker
