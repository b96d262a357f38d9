import RefTree.Proofs.Marker
import RefTree.Proofs.Sealed
import RefTree.Proofs.Walk

/-!
# Proofs/Tidy — texts whose markers are all there from the start

In a *tidy* text every `@` begins a marker or can never become part of one.  Replacing the first
marker of a tidy text by a sealed text leaves a sealed text in front of a tidy one, which is shorter
than before (`Default.exists_of_find?_eq_some`); and when no marker is left, all of it is sealed
(`Default.sealed_of_find?_eq_none`).
-/

namespace RefTree

namespace Marker

/-- The text begins with a marker. -/
def Pattern.StartsAt (p : Pattern) (text : List Char) : Prop :=
  ∃ m, p.find? (String.ofList text) = some m ∧ m.start = 0

/-- **Every `@` of the text begins a marker**, or stands before a character that is no brace and
begins no marker. -/
def Pattern.Tidy (p : Pattern) (text : List Char) : Prop :=
  ∀ before after, text = before ++ '@' :: after →
    p.StartsAt ('@' :: after) ∨ ∃ c rest, after = c :: rest ∧ c ≠ '\x7b' ∧ ¬ p.StartsAt (c :: rest)

/-- What follows in a tidy text is tidy. -/
theorem Pattern.Tidy.of_append {p : Pattern} {u w : List Char} (h : p.Tidy (u ++ w)) :
    p.Tidy w := by
  rintro before after rfl
  exact h (u ++ before) after (by simp)

theorem Pattern.tidy_nil (p : Pattern) : p.Tidy [] := by
  intro before after h
  simp at h

namespace Default

open Regex

theorem startsAt_iff {text : List Char} :
    pattern.StartsAt text ↔ ∃ v w, text = v ++ w ∧ v ∈ language regex := by
  constructor
  · rintro ⟨m, hm, hstart⟩
    obtain ⟨u, v, w, k, hfirst, -, rfl⟩ := find?_eq_some hm
    obtain rfl : u = [] := Text.byteLength_eq_zero_iff.mp hstart
    exact ⟨v, w, String.toList_ofList.symm.trans hfirst.eq, hfirst.mem⟩
  · rintro ⟨v, w, rfl, hv⟩
    cases hm : pattern.find? (String.ofList (v ++ w)) with
    | none => exact absurd hv (find?_eq_none_iff.mp hm [] v w String.toList_ofList)
    | some m =>
      obtain ⟨u, v', w', k, hfirst, -, rfl⟩ := find?_eq_some hm
      have hu : u.length ≤ 0 := hfirst.least [] v w String.toList_ofList hv
      obtain rfl : u = [] := List.eq_nil_of_length_eq_zero (Nat.le_zero.mp hu)
      exact ⟨_, hm, rfl⟩

/-- The text of a marker opens a brace. -/
theorem exists_of_mem_language {v : List Char} (hv : v ∈ language regex) :
    ∃ rest, v = '@' :: '\x7b' :: rest := by
  obtain ⟨k, b, b', -, -, -, rfl⟩ := mem_language_regex.mp hv
  exact ⟨_, rfl⟩

/-- **The first marker behind a sealed text** begins in what follows that text. -/
theorem exists_of_sealed_append {u w U V W : List Char} (hu : Sealed u)
    (hfirst : FirstIn regex (u ++ w) U V W) : ∃ x, U = u ++ x ∧ w = x ++ V ++ W := by
  have heq := hfirst.eq
  rw [List.append_assoc] at heq
  rcases List.append_eq_append_iff.mp heq with ⟨x, rfl, hw⟩ | ⟨y, rfl, hVW⟩
  · exact ⟨x, rfl, by rw [hw, List.append_assoc]⟩
  · obtain ⟨rest, rfl⟩ := exists_of_mem_language hfirst.mem
    cases y with
    | nil => exact ⟨[], by simp, by simpa using hVW.symm⟩
    | cons c y =>
      obtain ⟨rfl, hrest⟩ := List.cons.inj hVW
      obtain ⟨d, y', rfl, hd⟩ := hu U y rfl
      exact absurd (List.cons.inj hrest).1.symm hd

/-- A sealed text has no marker. -/
theorem find?_eq_none_of_sealed {text : String} (h : Sealed text.toList) :
    pattern.find? text = none := by
  rw [find?_eq_none_iff]
  intro u v w heq hv
  obtain ⟨rest, rfl⟩ := exists_of_mem_language hv
  obtain ⟨c, rest', heq', hc⟩ := h u ('\x7b' :: rest ++ w) (by simp [heq])
  exact hc (List.cons.inj heq').1.symm

/-- **A marker behind a sealed text is the first one.** -/
theorem find?_of_sealed {text : String} {u v w k : List Char} (htext : text.toList = u ++ v ++ w)
    (hu : Sealed u) (hv : Spells v k) : pattern.find? text = some (markerAt text u v k) := by
  have hmem : v ∈ language regex := mem_language_regex.mpr ⟨k, hv⟩
  cases hm : pattern.find? text with
  | none => exact absurd hmem (find?_eq_none_iff.mp hm u v w htext)
  | some m =>
    obtain ⟨U, V, W, k', hfirst, hV, rfl⟩ := find?_eq_some hm
    have hle := hfirst.least u v w htext hmem
    rw [htext, List.append_assoc] at hfirst
    obtain ⟨x, rfl, heq⟩ := exists_of_sealed_append hu hfirst
    rw [List.length_append] at hle
    obtain rfl : x = [] := List.eq_nil_of_length_eq_zero (by omega)
    obtain ⟨rfl, rfl⟩ := hv.unique hV heq
    rw [List.append_nil]

/-- A sealed text in front leaves a tidy text tidy. -/
theorem tidy_append_of_sealed {u w : List Char} (hu : Sealed u) (hw : pattern.Tidy w) :
    pattern.Tidy (u ++ w) := by
  intro before after heq
  rcases List.append_eq_append_iff.mp heq with ⟨x, rfl, rfl⟩ | ⟨y, rfl, hy⟩
  · exact hw x after rfl
  · cases y with
    | nil => exact hw [] after (by simpa using hy.symm)
    | cons c y =>
      obtain ⟨rfl, rfl⟩ := List.cons.inj hy
      obtain ⟨d, rest, rfl, hd⟩ := hu before y rfl
      refine .inr ⟨d, rest ++ w, rfl, hd, fun hstarts => ?_⟩
      -- a marker at `d` would open a brace within the sealed text
      obtain ⟨v, w', hv, hmem⟩ := startsAt_iff.mp hstarts
      obtain ⟨rest', rfl⟩ := exists_of_mem_language hmem
      obtain ⟨rfl, hrest⟩ := List.cons.inj hv
      obtain ⟨e, rest'', rfl, he⟩ := hu (before ++ ['@']) rest (by simp)
      exact he (List.cons.inj hrest).1

theorem tidy_of_sealed {w : List Char} (hw : Sealed w) : pattern.Tidy w :=
  w.append_nil ▸ tidy_append_of_sealed hw pattern.tidy_nil

/-- A marker in front leaves a tidy text tidy. -/
theorem tidy_append_of_spells {v k w : List Char} (hv : Spells v k) (hw : pattern.Tidy w) :
    pattern.Tidy (v ++ w) := by
  obtain ⟨body, rfl, hbody⟩ := hv.exists_eq_cons
  intro before after heq
  cases before with
  | nil =>
    obtain ⟨-, rfl⟩ := List.cons.inj heq
    exact .inl (startsAt_iff.mpr ⟨_, w, rfl, mem_language_regex.mpr ⟨k, hv⟩⟩)
  | cons c before =>
    exact tidy_append_of_sealed (.of_notMem hbody) hw before after (List.cons.inj heq).2

/-- **Where the first marker of a tidy text is replaced**, everything before it is sealed, and what
follows is tidy. -/
theorem exists_of_find?_eq_some {u w : List Char} (hu : Sealed u) (hw : pattern.Tidy w)
    {text : String} (htext : text.toList = u ++ w) {m : Marker}
    (hm : pattern.find? text = some m) :
    ∃ x V W k, w = x ++ V ++ W ∧ V ≠ [] ∧ Sealed (u ++ x) ∧ pattern.Tidy W ∧
      m = markerAt text (u ++ x) V k := by
  obtain ⟨U, V, W, k, hfirst, hspells, rfl⟩ := find?_eq_some hm
  rw [htext] at hfirst
  obtain ⟨x, rfl, rfl⟩ := exists_of_sealed_append hu hfirst
  obtain ⟨rest, hV⟩ := exists_of_mem_language hfirst.mem
  refine ⟨x, V, W, k, rfl, by rw [hV]; simp, hu.append ?_, hw.of_append, rfl⟩
  rintro before after rfl
  have htidy := hw before (after ++ V ++ W) (by simp)
  rcases htidy with hstarts | ⟨c, rest', heq, hc, hnot⟩
  · -- a marker in `x` would come before the first one
    obtain ⟨v, w', hv, hmem⟩ := startsAt_iff.mp hstarts
    have hle := hfirst.least (u ++ before) v w' (by simp [← hv]) hmem
    simp only [List.length_append, List.length_cons] at hle
    omega
  · cases after with
    | nil => exact absurd (startsAt_iff.mpr ⟨V, W, by simpa using heq.symm, hfirst.mem⟩) hnot
    | cons d after =>
      obtain ⟨rfl, -⟩ := List.cons.inj heq
      exact ⟨d, after, rfl, hc⟩

/-- **A tidy text without markers is sealed.** -/
theorem sealed_of_find?_eq_none {u w : List Char} (hu : Sealed u) (hw : pattern.Tidy w)
    {text : String} (htext : text.toList = u ++ w) (hm : pattern.find? text = none) :
    Sealed text.toList := by
  rw [htext]
  refine hu.append fun before after heq => ?_
  rcases hw before after heq with hstarts | ⟨c, rest, rfl, hc, -⟩
  · obtain ⟨v, w', hv, hmem⟩ := startsAt_iff.mp hstarts
    have hnone := find?_eq_none_iff.mp hm (u ++ before) v w'
    exact absurd hmem (hnone (by rw [htext, heq, hv]; simp))
  · exact ⟨c, rest, rfl, hc⟩

end Default

end Marker

/-- The strings of the tree are tidy, and no key of a mapping opens a brace. -/
structure Value.Tidy (p : Marker.Pattern) (v : Value) : Prop where
  texts : ∀ s ∈ v.texts, p.Tidy s.toList
  keys : ∀ key ∈ v.keys, ¬ Opens key.toList

namespace Resolver

open Marker.Default (markerAt)

/-- **What a splice makes of the text**: the new text stands where the marker stood. -/
theorem splice_markerAt {text : String} {u v w k : List Char} (htext : text.toList = u ++ v ++ w)
    (new : String) :
    splice text (markerAt text u v k) new = String.ofList (u ++ new.toList ++ w) := by
  have hcut : Text.cutAt (Text.byteLength u) text.toList = (u, v ++ w) := by
    rw [htext, List.append_assoc, Text.cutAt_byteLength]
  simp only [splice, markerAt, hcut, Text.cutAt_byteLength]

/-- A text in the loop over a tidy string: it is sealed as far as markers have been replaced, and
`w`, the rest, is tidy. -/
def Settled (text : String) (w : List Char) : Prop :=
  ∃ u, text.toList = u ++ w ∧ Sealed u ∧ Marker.Default.pattern.Tidy w

theorem settled_of_tidy {text : String} (h : Marker.Default.pattern.Tidy text.toList) :
    Settled text text.toList := ⟨[], rfl, .nil, h⟩

theorem settled_of_sealed {text : String} (h : Sealed text.toList) : Settled text [] :=
  ⟨text.toList, (List.append_nil _).symm, h, Marker.Default.pattern.tidy_nil⟩

/-- **A replacement by a sealed value settles more of the text.** -/
theorem Settled.replace {r : Resolver} (hp : r.pattern = Marker.Default.pattern)
    {text next : String} {w : List Char} (h : Settled text w)
    {m : Marker} (hm : r.pattern.find? text = some m)
    {v : Value} (hv : v.Sealed) {untouched : Bool}
    (hnext : r.replace untouched text m v = .inr next) :
    ∃ w', Settled next w' ∧ w'.length < w.length := by
  obtain ⟨u, htext, hu, hw⟩ := h
  rw [hp] at hm
  obtain ⟨x, V, W, k, rfl, hV, hux, hW, rfl⟩ :=
    Marker.Default.exists_of_find?_eq_some hu hw htext hm
  have hpos := List.length_pos_iff.mpr hV
  rcases eq_or_eq_splice_of_replace_eq_inr hnext with rfl | rfl
  · refine ⟨[], settled_of_sealed (hv.texts next (List.mem_singleton_self next)), ?_⟩
    simp only [List.length_append, List.length_nil]
    omega
  · have hparts : text.toList = u ++ x ++ V ++ W := by
      rw [htext]
      simp
    rw [splice_markerAt hparts]
    refine ⟨W, ⟨u ++ x ++ v.render.toList, String.toList_ofList, hux.append hv.render, hW⟩, ?_⟩
    simp only [List.length_append]
    omega

/-- **What is settled without a marker is sealed.** -/
theorem Settled.sealed {text : String} {w : List Char} (h : Settled text w)
    (hm : Marker.Default.pattern.find? text = none) : Sealed text.toList := by
  obtain ⟨u, htext, hu, hw⟩ := h
  exact Marker.Default.sealed_of_find?_eq_none hu hw htext hm

end Resolver

end RefTree
