import RefTree.Proofs.Marker.Source

/-!
# Proofs/Marker — the markers of the default grammar

The default grammar is read as `Default.regex`, which wraps `Default.key`.  Its keys hold neither
blanks nor braces (`Default.keyLike_key`), so the first marker of a text is the first place where a
key stands between blanks between `@{` and `}` (`Default.find?_eq_some`,
`Default.find?_eq_none_iff`).
-/

namespace RefTree

namespace Marker.Default

open Regex

/-! ## The expression -/

/-- An up-level group: a token or two, and a separator. -/
def group : Regex :=
  .cat (.times 1 (some 2) true (.cat (literal '-') .empty)) (.cat (literal '.') .empty)

def groups : Regex := .cat (.times 1 none true group) .empty

/-- A key: segments with separators between them, and groups before segments. -/
def key : Regex :=
  .cat (.times 0 (some 1) true (.alt groups (.cat (literal '.') .empty)))
    (.cat segment
      (.cat
        (.times 0 none true
          (.cat (literal '.') (.cat (.times 0 (some 1) true groups) (.cat segment .empty))))
        .empty))

/-- **The expression of a marker.** -/
def regex : Regex :=
  .cat (literal '@')
    (.cat (literal '\x7b')
      (.cat blanks (.cat (.named keyGroup key) (.cat blanks (.cat (literal '\x7d') .empty)))))

/-- The pattern of the default grammar. -/
def pattern : Pattern := ⟨source {}, regex⟩

/-- **The default grammar is accepted.** -/
theorem ofGrammar_eq : Pattern.ofGrammar {} = .ok pattern := Marker.ofGrammar_eq rfl rfl

/-! ## Keys and blanks -/

/-- The characters of keys. -/
def isKeyChar (c : Char) : Bool := wordChar.contains c || c == '.' || c == '-'

theorem bounds_of_isKeyChar {c : Char} (h : isKeyChar c = true) :
    0x2D ≤ c.toNat ∧ c.toNat ≤ 0x7A := by
  simp only [isKeyChar, wordChar, CharSet.contains, Bool.or_eq_true, Bool.and_eq_true,
    Bool.false_eq_true, false_or, decide_eq_true_eq, beq_iff_eq, Char.le_def,
    UInt32.le_iff_toNat_le] at h
  rcases h with ((((h | h) | h) | h) | rfl) | rfl
  · exact ⟨Nat.le_trans (by decide) h.1, Nat.le_trans h.2 (by decide)⟩
  · exact ⟨Nat.le_trans (by decide) h.1, Nat.le_trans h.2 (by decide)⟩
  · exact ⟨Nat.le_trans (by decide) h.1, Nat.le_trans h.2 (by decide)⟩
  · exact ⟨Nat.le_trans (by decide) h.1, Nat.le_trans h.2 (by decide)⟩
  · decide
  · decide

theorem not_isKeyChar_of_isBlank {c : Char} (h : Unicode.isBlank c = true) :
    isKeyChar c = false := by
  obtain ⟨range, hrange, hfirst, hlast⟩ := Unicode.exists_of_inRanges h
  refine Bool.eq_false_iff.mpr fun hkey => ?_
  obtain ⟨hlow, hhigh⟩ := bounds_of_isKeyChar hkey
  simp only [Unicode.blankRanges, List.mem_cons, List.not_mem_nil, or_false] at hrange
  rcases hrange with rfl | rfl | rfl | rfl | rfl | rfl | rfl | rfl | rfl | rfl <;>
    simp only at hfirst hlast <;> omega

theorem isKeyChar_of_wordChar {c : Char} (h : wordChar.contains c = true) :
    isKeyChar c = true := by
  rw [isKeyChar, h, Bool.true_or, Bool.true_or]

theorem forall_isKeyChar_of_mem_key {k : List Char} (hk : k ∈ language key) :
    ∀ c ∈ k, isKeyChar c = true := by
  have hsegment : segment.Over (isKeyChar · = true) :=
    ⟨fun _ => isKeyChar_of_wordChar, trivial⟩
  have hover : (keyRegex ['.'] ['-'] segment).Over (isKeyChar · = true) :=
    over_keyRegex (List.forall_mem_singleton.mpr rfl) (List.forall_mem_singleton.mpr rfl) hsegment
  exact hover.forall_mem k hk

theorem keyLike_key : KeyLike key where
  lookFree := rfl
  groupFree := rfl
  notBlank k hk c hc := by
    refine Bool.eq_false_iff.mpr fun hblank => ?_
    have hchar := forall_isKeyChar_of_mem_key hk c hc
    rw [not_isKeyChar_of_isBlank hblank] at hchar
    cases hchar
  notMem k hk hmem := absurd (forall_isKeyChar_of_mem_key hk _ hmem) (by decide)

/-! ## Markers -/

/-- `v` is the text of a marker, with the key `k` between blanks. -/
def Spells (v k : List Char) : Prop :=
  ∃ b b', b ∈ language blanks ∧ k ∈ language key ∧ b' ∈ language blanks ∧
    v = '@' :: '\x7b' :: (b ++ k ++ b' ++ ['\x7d'])

theorem wrap_key : wrap key = regex := rfl

/-- **The text says where the marker ends**, and which key it has. -/
theorem Spells.unique {v v' k k' w w' : List Char} (h : Spells v k) (h' : Spells v' k')
    (heq : v ++ w = v' ++ w') : v = v' ∧ k = k' := Wraps.unique keyLike_key h h' heq

/-- The text of a marker has one `@`. -/
theorem Spells.exists_eq_cons {v k : List Char} (h : Spells v k) :
    ∃ body, v = '@' :: body ∧ '@' ∉ body := by
  obtain ⟨b, b', hb, hk, hb', rfl⟩ := h
  have hblanks : ∀ w ∈ language blanks, '@' ∉ w := by
    intro w hw hmem
    exact absurd (mem_language_blanks.mp hw '@' hmem) (by decide)
  have hkey : '@' ∉ k := fun hmem => absurd (forall_isKeyChar_of_mem_key hk '@' hmem) (by decide)
  refine ⟨_, rfl, ?_⟩
  simp [hblanks b hb, hblanks b' hb', hkey]

/-- **The texts of markers.** -/
theorem mem_language_regex {v : List Char} : v ∈ language regex ↔ ∃ k, Spells v k :=
  mem_language_wrap

/-! ## The first marker -/

/-- **Where the first marker stands**, and which key it has. -/
theorem find?_eq_some {text : String} {m : Marker} (hm : pattern.find? text = some m) :
    ∃ u v w k, FirstIn regex text.toList u v w ∧ Spells v k ∧ m = markerAt text u v k :=
  (find?_eq_some_iff keyLike_key wrap_key.symm).mp hm

/-- A text that is found to be one marker spells its key. -/
theorem spells_of_find?_eq_some {v k : List Char} {whole : Bool}
    (h : pattern.find? (String.ofList v) =
      some { key := String.ofList k, start := 0, length := Text.byteLength v, whole }) :
    Spells v k := by
  obtain ⟨u, v', w, k', hfirst, hspells, heq⟩ := find?_eq_some h
  obtain ⟨hkey, hstart, hlength, -⟩ := Marker.mk.inj heq
  obtain rfl : u = [] := Text.byteLength_eq_zero_iff.mp hstart.symm
  have hv := hfirst.eq
  rw [String.toList_ofList, List.nil_append] at hv
  rw [hv, Text.byteLength_append] at hlength
  obtain rfl : w = [] := Text.byteLength_eq_zero_iff.mp (by omega)
  rw [List.append_nil] at hv
  rw [hv, String.ofList_injective hkey]
  exact hspells

/-- **A text has no marker** just if nowhere in it stands the text of one. -/
theorem find?_eq_none_iff {text : String} :
    pattern.find? text = none ↔ ∀ u v w, text.toList = u ++ v ++ w → v ∉ language regex :=
  Marker.find?_eq_none_iff keyLike_key wrap_key.symm

end Marker.Default

end RefTree
