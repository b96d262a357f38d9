import RefTree.Proofs.Tidy

/-!
# Proofs/Marker/Cut — a text as markers with gaps between them

The markers that the default grammar finds in a text cut it: they stand in a row, and there is no
marker in the gaps between them (`Default.cut_findAll`).  In a *neat* text every `@` begins one of
them, so the gaps have none (`Default.cut_of_neat`), and a neat text is tidy
(`Default.tidy_of_neat`).
-/

namespace RefTree

namespace Marker

/-- **Every `@` of the text begins one of its markers.** -/
def Pattern.Neat (p : Pattern) (text : String) : Prop :=
  ∀ before after, text.toList = before ++ '@' :: after →
    ∃ m ∈ p.findAll text, m.start = Text.byteLength before

theorem Pattern.neat_iff_forall_lt {p : Pattern} {text : String} :
    p.Neat text ↔ ∀ i < text.toList.length, text.toList[i]? = some '@' →
      ∃ m ∈ p.findAll text, m.start = Text.byteLength (text.toList.take i) := by
  constructor
  · intro h i _ hat
    obtain ⟨hi, hget⟩ := List.getElem?_eq_some_iff.mp hat
    refine h (text.toList.take i) (text.toList.drop (i + 1)) ?_
    rw [← hget, List.getElem_cons_drop, List.take_append_drop]
  · intro h before after heq
    obtain ⟨m, hm, hstart⟩ := h before.length (by simp [heq]) (by simp [heq])
    exact ⟨m, hm, by rw [hstart, heq, List.take_left]⟩

instance (p : Pattern) (text : String) : Decidable (p.Neat text) :=
  decidable_of_iff' _ Pattern.neat_iff_forall_lt

namespace Default

open Regex

/-- **What follows `done` in the text is cut** into markers and gaps with `P`. -/
inductive Cut (P : List Char → Prop) (text : String) :
    List Char → List Char → List Marker → Prop
  | last {done w : List Char} (hw : P w) : Cut P text done w []
  | marker {done u v k w : List Char} {ms : List Marker} (hu : P u) (hv : Spells v k)
      (h : Cut P text (done ++ u ++ v) w ms) :
      Cut P text done (u ++ v ++ w) (markerAt text (done ++ u) v k :: ms)

theorem Spells.byteLength_pos {v k : List Char} (h : Spells v k) : 0 < Text.byteLength v :=
  Nat.pos_of_ne_zero (mt Text.byteLength_eq_zero_iff.mp (Wraps.ne_nil h))

/-! ## The markers of a text -/

theorem cut_spansFrom (text : String) {fuel : Nat} {s : Cursor} {done : List Char}
    (hfuel : s.rest.length < fuel) (hdone : s.offset = Text.byteLength done)
    (lastEnd : Option Nat) :
    Cut (fun u => pattern.find? (String.ofList u) = none) text done s.rest
      ((spansFrom regex fuel s lastEnd).filterMap (Pattern.marker? text)) := by
  induction fuel generalizing s done lastEnd with
  | zero => exact absurd hfuel (Nat.not_lt_zero _)
  | succ fuel ih =>
    rw [spansFrom, ← wrap_key, nextSpan?_eq keyLike_key]
    cases hfirst : first? (wrap key) s with
    | none =>
      refine .last (find?_eq_none_iff.mpr fun u v w heq => ?_)
      rw [String.toList_ofList] at heq
      exact (first?_eq_none_iff rfl).mp hfirst u v w heq
    | some m =>
      obtain ⟨u, v, k, hin, hspells, hmarker, hnext⟩ :=
        exists_of_first? keyLike_key text hdone hfirst
      have hlen : m.stop.rest.length < s.rest.length := by
        have := List.length_pos_iff.mpr hspells.ne_nil
        rw [hin.eq, List.length_append, List.length_append]
        omega
      have hrest := ih (s := { m.stop with groups := [] })
        (Nat.lt_of_lt_of_le hlen (Nat.le_of_lt_succ hfuel)) hnext (some m.stop.offset)
      rw [List.filterMap_cons_some hmarker, hin.eq]
      refine .marker (find?_eq_none_iff.mpr fun a x b heq hx => ?_) hspells hrest
      -- a marker in the gap would come before the first one
      rw [String.toList_ofList] at heq
      have hle := hin.least a x (b ++ v ++ m.stop.rest) (by rw [hin.eq, heq]; simp) hx
      obtain ⟨rest, rfl⟩ := exists_of_mem_language hx
      rw [heq] at hle
      simp only [List.length_append, List.length_cons] at hle
      omega

/-- **The markers of a text cut it**, with no marker in the gaps. -/
theorem cut_findAll (text : String) :
    Cut (fun u => pattern.find? (String.ofList u) = none) text [] text.toList
      (pattern.findAll text) :=
  have hstart : (Cursor.start text.toList).offset = Text.byteLength [] := rfl
  cut_spansFrom text (Nat.lt_add_of_pos_right (by decide)) hstart none

/-! ## Neat texts -/

section Cut

variable {P : List Char → Prop} {text : String} {done w : List Char} {ms : List Marker}

/-- Where nothing follows there is no marker. -/
theorem Cut.eq_nil (h : Cut P text done [] ms) : ms = [] := by
  obtain ⟨w, hw⟩ : ∃ w : List Char, w = [] := ⟨_, rfl⟩
  rw [← hw] at h
  cases h with
  | last hw => rfl
  | marker hu hv h =>
    obtain ⟨body, rfl, -⟩ := hv.exists_eq_cons
    simp at hw

/-- The markers of a cut stand behind what is done. -/
theorem Cut.start_le (h : Cut P text done w ms) : ∀ m ∈ ms, Text.byteLength done ≤ m.start := by
  induction h with
  | last hw => simp
  | @marker done u v k w ms hu hv h ih =>
    refine List.forall_mem_cons.mpr ⟨?_, fun m hm => ?_⟩
    · simp [markerAt, Text.byteLength_append]
    · have := ih m hm
      simp only [Text.byteLength_append] at this
      omega

/-- **The gaps of a cut have no `@`**, if each `@` begins a marker. -/
theorem Cut.notMem_gaps (h : Cut P text done w ms)
    (hall : ∀ before after, w = before ++ '@' :: after →
      ∃ m ∈ ms, m.start = Text.byteLength (done ++ before)) :
    Cut ('@' ∉ ·) text done w ms := by
  induction h with
  | last hw =>
    refine .last fun hat => ?_
    obtain ⟨before, after, heq⟩ := List.append_of_mem hat
    obtain ⟨m, hm, -⟩ := hall before after heq
    cases hm
  | @marker done u v k w ms hu hv h ih =>
    have hstart := h.start_le
    have hpos := hv.byteLength_pos
    refine .marker (fun hat => ?_) hv (ih fun before after heq => ?_)
    · obtain ⟨before, after, rfl⟩ := List.append_of_mem hat
      obtain ⟨m, hm, hm'⟩ := hall before (after ++ v ++ w) (by simp)
      have hlt : m.start < Text.byteLength (done ++ (before ++ '@' :: after)) := by
        have hat := Nat.pos_of_ne_zero fun hzero =>
          List.cons_ne_nil '@' after (Text.byteLength_eq_zero_iff.mp hzero)
        simp only [hm', Text.byteLength_append]
        omega
      rcases List.mem_cons.mp hm with rfl | hm
      · exact Nat.lt_irrefl _ hlt
      · have := hstart m hm
        rw [Text.byteLength_append] at this
        omega
    · obtain ⟨m, hm, hm'⟩ := hall (u ++ v ++ before) after (by rw [heq]; simp)
      have hat : m.start = Text.byteLength (done ++ u ++ v ++ before) := by
        rw [hm']
        simp only [List.append_assoc]
      rcases List.mem_cons.mp hm with rfl | hm
      · simp only [markerAt, Text.byteLength_append] at hat
        omega
      · exact ⟨m, hm, hat⟩

theorem cut_of_neat (h : pattern.Neat text) :
    Cut ('@' ∉ ·) text [] text.toList (pattern.findAll text) :=
  (cut_findAll text).notMem_gaps h

theorem Cut.tidy (h : Cut ('@' ∉ ·) text done w ms) : pattern.Tidy w := by
  induction h with
  | last hw => exact tidy_of_sealed (.of_notMem hw)
  | marker hu hv h ih =>
    rw [List.append_assoc]
    exact tidy_append_of_sealed (.of_notMem hu) (tidy_append_of_spells hv ih)

/-- **A neat text is tidy.** -/
theorem tidy_of_neat (h : pattern.Neat text) : pattern.Tidy text.toList := (cut_of_neat h).tidy

end Cut

end Default

end Marker

end RefTree
