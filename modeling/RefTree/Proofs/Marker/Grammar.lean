import RefTree.Proofs.Marker

/-!
# Proofs/Marker/Grammar — the markers of any separator and token

A key is segments with separators between them, and up-level groups before segments
(`Grammar.keys`); a marker is a key between blanks, up to the first closing brace (`Grammar.Marks`).
The expression that a grammar spells is run by a search that prefers some ways to read a key to
others, and a separator of key characters lets a key be read in many ways; but what is found depends
on the texts of the expression alone, and these are the keys (`language_keyRegex`).  So the markers
found are those of the grammar, for any separator and token (`ofGrammar_finds`).
-/

namespace RefTree

open scoped Computability

namespace Grammar

/-- Letters, digits and the underscore. -/
def WordChar (c : Char) : Prop :=
  ('a' ≤ c ∧ c ≤ 'z') ∨ ('A' ≤ c ∧ c ≤ 'Z') ∨ ('0' ≤ c ∧ c ≤ '9') ∨ c = '_'

/-- The segments of keys. -/
def words : Language Char := {w | w ≠ [] ∧ ∀ c ∈ w, WordChar c}

/-- An up-level group: a token or two, and a separator. -/
def group (g : Grammar) : Language Char :=
  ({g.upLevelToken.toList} + {g.upLevelToken.toList ++ g.upLevelToken.toList}) *
    {g.separator.toList}

/-- **The keys of a grammar**: segments with separators between them.  A separator or groups may
stand in front of the first segment, and groups in front of the others. -/
def keys (g : Grammar) : Language Char :=
  (1 + ({g.separator.toList} + g.group * g.group∗)) * words *
    ({g.separator.toList} * g.group∗ * words)∗

/-- In the text, a marker stands between `u` and `w`, with `inner` between its braces. -/
structure Marks (g : Grammar) (text u inner w : List Char) : Prop where
  eq : text = u ++ Marker.braced inner ++ w
  closed : '\x7d' ∉ inner
  key : Text.trim inner ∈ g.keys

end Grammar

namespace Marker

open Regex
open Default (markerAt)

/-! ## The language of keys -/

theorem singleton_mul_singleton (u v : List Char) :
    ({u} * {v} : Language Char) = {u ++ v} := Set.image2_singleton

theorem language_literals (t : List Char) (q : Regex) :
    language (literals t q) = {t} * language q := by
  induction t with
  | nil => exact (one_mul (language q)).symm
  | cons c t ih =>
    have hcons : language (literals (c :: t) q) = {[c]} * language (literals t q) :=
      congrArg (· * language (literals t q)) (language_single c)
    rw [hcons, ih, ← mul_assoc, singleton_mul_singleton, List.singleton_append]

theorem language_literals_last (t : List Char) : language (literals t .empty) = {t} :=
  (language_literals t .empty).trans (mul_one _)

theorem contains_wordChar_iff {c : Char} :
    Default.wordChar.contains c = true ↔ Grammar.WordChar c := by
  have hunderscore : (CharSet.range '_' '_').contains c = decide ('_' = c) :=
    CharSet.contains_single '_' c
  rw [Default.wordChar, CharSet.contains, hunderscore]
  simp only [CharSet.contains, Grammar.WordChar, Bool.or_eq_true, Bool.and_eq_true,
    decide_eq_true_eq, Bool.false_eq_true, false_or, or_assoc, eq_comm (a := c)]

theorem language_segment : language Default.segment = Grammar.words := by
  have hset : ∀ w, w ∈ language (.times 0 none true (.set Default.wordChar)) ↔
      ∀ c ∈ w, Grammar.WordChar c := fun w =>
    mem_language_times_set.trans (forall₂_congr fun c _ => contains_wordChar_iff)
  have hsegment : language Default.segment = language (.set Default.wordChar) *
      language (.times 0 none true (.set Default.wordChar)) := by
    rw [Default.segment, language_cat_empty, language_oneOrMore, language_anyNumber]
  ext w
  rw [hsegment]
  constructor
  · intro hw
    obtain ⟨u, ⟨c, hc, rfl⟩, v, hv, rfl⟩ := Language.mem_mul.mp hw
    refine ⟨List.cons_ne_nil c v, List.forall_mem_cons.mpr ⟨contains_wordChar_iff.mp hc, ?_⟩⟩
    exact (hset v).mp hv
  · rintro ⟨hne, hall⟩
    obtain ⟨c, v, rfl⟩ := List.exists_cons_of_ne_nil hne
    obtain ⟨hc, hv⟩ := List.forall_mem_cons.mp hall
    have hone : [c] ∈ language (.set Default.wordChar) := ⟨c, contains_wordChar_iff.mpr hc, rfl⟩
    exact Language.append_mem_mul hone ((hset v).mpr hv)

theorem language_groupsRegex (g : Grammar) :
    language (groupsRegex g.separator.toList g.upLevelToken.toList) = g.group * g.group∗ := by
  have hgroup : language (groupRegex g.separator.toList g.upLevelToken.toList) = g.group := by
    rw [groupRegex, language_cat, language_oneOrTwo, language_literals_last,
      language_literals_last, singleton_mul_singleton, Grammar.group]
  rw [groupsRegex, language_cat_empty, language_oneOrMore, hgroup]

/-- **The texts that the expression of a key stands for are the keys.** -/
theorem language_keyRegex (g : Grammar) :
    language (keyRegex g.separator.toList g.upLevelToken.toList Default.segment) = g.keys := by
  have hgroups : language (.times 0 (some 1) true
      (groupsRegex g.separator.toList g.upLevelToken.toList)) = g.group∗ := by
    rw [language_optional, language_groupsRegex, Language.one_add_self_mul_kstar_eq_kstar]
  rw [keyRegex, language_cat, language_cat, language_cat_empty, language_optional, language_alt,
    language_anyNumber, language_literals_last, language_literals, language_cat,
    language_cat_empty, hgroups, language_groupsRegex, language_segment, Grammar.keys, mul_assoc,
    mul_assoc, add_comm (g.group * g.group∗)]

/-! ## Keys and what stands around them -/

theorem lookFree_literals (t : List Char) (q : Regex) : lookFree (literals t q) = lookFree q := by
  induction t with
  | nil => rfl
  | cons c t ih => exact ih

theorem groupFree_literals (t : List Char) (q : Regex) :
    groupFree (literals t q) = groupFree q := by
  induction t with
  | nil => rfl
  | cons c t ih => exact ih

/-- **Keys are told from what stands around them**, if separator and token are. -/
theorem keyLike_keyRegex {separator token : List Char}
    (hseparator : ∀ c ∈ separator, Unicode.isBlank c = false ∧ c ≠ '\x7d')
    (htoken : ∀ c ∈ token, Unicode.isBlank c = false ∧ c ≠ '\x7d') :
    KeyLike (keyRegex separator token Default.segment) := by
  have hword : Default.segment.Over fun c => Unicode.isBlank c = false ∧ c ≠ '\x7d' := by
    refine ⟨fun c hc => ?_, trivial⟩
    have hkey := Default.isKeyChar_of_wordChar hc
    refine ⟨Bool.eq_false_iff.mpr fun hblank => ?_, ?_⟩
    · cases hkey.symm.trans (Default.not_isKeyChar_of_isBlank hblank)
    · rintro rfl
      cases hkey
  have hover := (over_keyRegex hseparator htoken hword).forall_mem
  refine ⟨?_, ?_, fun k hk c hc => (hover k hk c hc).1, fun k hk hc => (hover k hk _ hc).2 rfl⟩
  · simp [keyRegex, groupsRegex, groupRegex, lookFree, lookFree_literals, Default.segment]
  · simp [keyRegex, groupsRegex, groupRegex, groupFree, groupFree_literals, Default.segment]

/-! ## Markers -/

section Marks

variable {g : Grammar} {key : Regex} {u w : List Char}

/-- **The texts of the expression in a text** are its markers. -/
theorem exists_marks_iff (hkey : KeyLike key) (hlanguage : language key = g.keys)
    {text v : List Char} :
    (∃ inner, v = braced inner ∧ g.Marks text u inner w) ↔
      text = u ++ v ++ w ∧ v ∈ language (wrap key) := by
  rw [mem_language_wrap]
  constructor
  · rintro ⟨inner, rfl, rfl, hclosed, hk⟩
    exact ⟨rfl, _, (wraps_iff hkey).mpr ⟨inner, rfl, hclosed, rfl, hlanguage ▸ hk⟩⟩
  · rintro ⟨rfl, k, hwraps⟩
    obtain ⟨inner, rfl, hclosed, rfl, hk⟩ := (wraps_iff hkey).mp hwraps
    exact ⟨inner, rfl, rfl, hclosed, hlanguage ▸ hk⟩

theorem firstIn_wrap_iff (hkey : KeyLike key) (hlanguage : language key = g.keys)
    {text inner : List Char} :
    FirstIn (wrap key) text u (braced inner) w ↔ g.Marks text u inner w ∧
      ∀ u' inner' w', g.Marks text u' inner' w' → u.length ≤ u'.length := by
  constructor
  · intro h
    obtain ⟨inner', heq, hmarks⟩ := (exists_marks_iff hkey hlanguage).mpr ⟨h.eq, h.mem⟩
    obtain rfl : inner = inner' := by simpa [braced] using heq
    refine ⟨hmarks, fun u' inner' w' hmarks' => ?_⟩
    obtain ⟨heq', hmem'⟩ := (exists_marks_iff hkey hlanguage).mp ⟨inner', rfl, hmarks'⟩
    exact h.least u' _ w' heq' hmem'
  · rintro ⟨hmarks, hleast⟩
    obtain ⟨heq, hmem⟩ := (exists_marks_iff hkey hlanguage).mp ⟨inner, rfl, hmarks⟩
    refine ⟨heq, hmem, fun u' v' w' heq' hmem' => ?_⟩
    obtain ⟨inner', -, hmarks'⟩ := (exists_marks_iff hkey hlanguage).mpr ⟨heq', hmem'⟩
    exact hleast u' inner' w' hmarks'

theorem markerAt_of_marks {text : String} {inner k : List Char}
    (h : g.Marks text.toList u inner w) :
    markerAt text u (braced inner) k =
      { key := String.ofList k
        start := Text.byteLength u
        length := Text.byteLength (braced inner)
        whole := decide (u = [] ∧ w = []) } := by
  have hwhole : (markerAt text u (braced inner) k).whole = decide (u = [] ∧ w = []) := by
    rw [Bool.eq_iff_iff, Default.whole_markerAt_iff h.eq, decide_eq_true_eq]
  rw [← hwhole]
  rfl

end Marks

section Accepted

variable {g : Grammar} (hreference : g.referencePattern = ({} : Grammar).referencePattern)
  (hkey : g.keyPattern = ({} : Grammar).keyPattern)

include hreference hkey

/-- **The markers found are those of the grammar.**  The first one starts where the first key
between braces does, ends at the closing brace and has what stands there without the blanks around
it as its key; the others are those of the text behind it. -/
theorem ofGrammar_finds
    (hseparator : ∀ c ∈ g.separator.toList, Unicode.isBlank c = false ∧ c ≠ '\x7d')
    (htoken : ∀ c ∈ g.upLevelToken.toList, Unicode.isBlank c = false ∧ c ≠ '\x7d') :
    ∃ p, Pattern.ofGrammar g = .ok p ∧ ∀ text : String,
      (p.find? text = none ↔ ∀ u inner w, ¬ g.Marks text.toList u inner w) ∧
      (∀ m, p.find? text = some m ↔ ∃ u inner w, g.Marks text.toList u inner w ∧
        (∀ u' inner' w', g.Marks text.toList u' inner' w' → u.length ≤ u'.length) ∧
        m = { key := String.ofList (Text.trim inner)
              start := Text.byteLength u
              length := Text.byteLength (braced inner)
              whole := decide (u = [] ∧ w = []) }) ∧
      p.findAll text = match p.find? text with
        | none => []
        | some m => m ::
          (p.findAll (String.ofList (Text.cutAt m.stop text.toList).2)).map (behind m.stop) := by
  have hlanguage := language_keyRegex g
  have hlike := keyLike_keyRegex hseparator htoken
  refine ⟨_, ofGrammar_eq hreference hkey, fun text => ⟨?_, fun m => ?_, ?_⟩⟩
  · rw [find?_eq_none_iff hlike rfl]
    constructor
    · intro hnone u inner w hmarks
      obtain ⟨heq, hmem⟩ := (exists_marks_iff hlike hlanguage).mp ⟨inner, rfl, hmarks⟩
      exact hnone u _ w heq hmem
    · intro hnone u v w heq hmem
      obtain ⟨inner, -, hmarks⟩ := (exists_marks_iff hlike hlanguage).mpr ⟨heq, hmem⟩
      exact hnone u inner w hmarks
  · rw [find?_eq_some_iff hlike rfl]
    constructor
    · rintro ⟨u, v, w, k, hfirst, hwraps, rfl⟩
      obtain ⟨inner, rfl, -, rfl, -⟩ := (wraps_iff hlike).mp hwraps
      obtain ⟨hmarks, hleast⟩ := (firstIn_wrap_iff hlike hlanguage).mp hfirst
      exact ⟨u, inner, w, hmarks, hleast, markerAt_of_marks hmarks⟩
    · rintro ⟨u, inner, w, hmarks, hleast, rfl⟩
      refine ⟨u, braced inner, w, Text.trim inner,
        (firstIn_wrap_iff hlike hlanguage).mpr ⟨hmarks, hleast⟩, ?_,
        (markerAt_of_marks hmarks).symm⟩
      exact (wraps_iff hlike).mpr ⟨inner, rfl, hmarks.closed, rfl, hlanguage ▸ hmarks.key⟩
  · cases hm : Pattern.find? _ text with
    | none => exact findAll_eq_nil hlike rfl hm
    | some m => exact findAll_eq_cons hlike rfl hm

end Accepted

/-- A separator that reads like the front of a marker does not begin one within a key. -/
theorem ofGrammar_finds_opening :
    (∀ c ∈ "@\x7b".toList, Unicode.isBlank c = false ∧ c ≠ '\x7d') ∧
      (∀ c ∈ "-".toList, Unicode.isBlank c = false ∧ c ≠ '\x7d') ∧
      ∃ p, Pattern.ofGrammar { separator := "@\x7b" } = .ok p ∧
        p.find? "@\x7b a@\x7bb \x7d" = some ⟨"a@\x7bb", 0, 9, true⟩ := by
  have hseparator : ∀ c ∈ "@\x7b".toList, Unicode.isBlank c = false ∧ c ≠ '\x7d' := by
    simp only [String.reduceToList, List.forall_mem_cons, List.not_mem_nil, false_imp_iff,
      forall_const]
    decide
  have htoken : ∀ c ∈ "-".toList, Unicode.isBlank c = false ∧ c ≠ '\x7d' := by
    simp only [String.reduceToList, List.forall_mem_cons, List.not_mem_nil, false_imp_iff,
      forall_const]
    decide
  obtain ⟨p, hp, hall⟩ := ofGrammar_finds (g := { separator := "@\x7b" }) rfl rfl hseparator htoken
  refine ⟨hseparator, htoken, p, hp, ((hall _).2.1 _).mpr ⟨[], " a@\x7bb ".toList, [], ?_⟩⟩
  have hword : ∀ c : Char, 'a' ≤ c ∧ c ≤ 'z' → [c] ∈ Grammar.words := fun c hc =>
    ⟨List.cons_ne_nil c [], List.forall_mem_singleton.mpr (.inl hc)⟩
  have hgroups : [] ∈ ({ separator := "@\x7b" } : Grammar).group∗ := Language.nil_mem_kstar _
  have hkey : [] ++ ['a'] ++ [['@', '\x7b'] ++ [] ++ ['b']].flatten ∈
      ({ separator := "@\x7b" } : Grammar).keys := by
    refine Language.append_mem_mul
      (Language.append_mem_mul (.inl Language.nil_mem_one) (hword 'a' (by decide))) ?_
    refine Language.join_mem_kstar (List.forall_mem_singleton.mpr ?_)
    exact Language.append_mem_mul (Language.append_mem_mul rfl hgroups) (hword 'b' (by decide))
  exact ⟨⟨rfl, by decide, hkey⟩, fun _ _ _ _ => Nat.zero_le _, rfl⟩

end Marker

end RefTree
