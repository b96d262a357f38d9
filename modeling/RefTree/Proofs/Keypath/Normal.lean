import RefTree.Proofs.Default
import RefTree.Proofs.Keypath.Canonical
import RefTree.Proofs.Keypath.Plain

/-!
# Proofs/Keypath/Normal — the segments of a joined key

Normalising drops pieces in front of the last one and leaves that as it is.  So a joined key that is
cut into its segments again has no empty one but possibly the last (`exists_join_eq_path`): where
the segments that are joined end in a separator, the key does too, unless nothing is left in front
of it.
-/

namespace RefTree.Keypath.Rules

open Text

/-- **The key is normal**: it has no empty segments, and there is no up-level group in it. -/
structure Normal (r : Rules) (key : String) : Prop where
  segments : "" ∉ r.split key
  group : ¬ r.token ++ r.separator <:+: key.toList

variable {r : Rules} {c : Char}

/-- Closed pieces and a last one end in the separator just if the last is empty and not the only
one. -/
theorem separator_suffix_iff {ps : List (List Char)} {last : List Char} (hlast : c ∉ last) :
    [c] <:+ closed c ps ++ last ↔ last = [] ∧ ps ≠ [] := by
  rcases List.eq_nil_or_concat' last with rfl | ⟨init, d, rfl⟩
  · rcases List.eq_nil_or_concat' ps with rfl | ⟨init, p, rfl⟩
    · simp
    · have htext : closed c (init ++ [p]) ++ [] = closed c init ++ p ++ [c] := by simp
      exact iff_of_true (htext ▸ List.suffix_append _ _) (by simp)
  · refine iff_of_false (fun ⟨front, hfront⟩ => hlast ?_) (by simp)
    rw [← List.append_assoc] at hfront
    rw [List.cons.inj (List.append_inj' hfront rfl).2 |>.1]
    simp

section Path

variable (hsep : r.separator = [c])
include hsep

/-- Segments that are not empty, and a last one, are told apart in their path unless that is
empty. -/
theorem split_path_concat {kept : List String} {last : String} (hkept : ∀ s ∈ kept, Plain c s)
    (hlast : c ∉ last.toList) (hne : r.path (kept ++ [last]) ≠ "") :
    r.split (r.path (kept ++ [last])) = kept ++ [last] := by
  have hfree : ∀ p ∈ kept.map String.toList, c ∉ p :=
    List.forall_mem_map.mpr fun s hs => (hkept s hs).2
  rw [split, if_neg hne, toList_path_concat hsep, hsep, pieces_singleton,
    splitOn_closed hfree hlast, List.map_append, List.map_map, List.map_singleton,
    String.ofList_toList, Function.comp_def]
  simp

/-- **A joined key is the path of segments that are not empty and of what stands behind the last
separator.** -/
theorem exists_join_eq_path (segments : List String) :
    ∃ kept last, (∀ s ∈ kept, Plain c s) ∧ c ∉ last.toList ∧
      r.join segments = r.path (kept ++ [last]) ∧
        ((kept ≠ [] → last = "" → r.separator <:+ (r.path segments).toList) ∧
          (r.separator <:+ (r.path segments).toList → last = "")) := by
  obtain ⟨ps, last, htext, hps, hlast⟩ := exists_closed c (r.path segments).toList
  have hpieces : ∀ p ∈ (r.settledPieces (r.stacked ps)).filter (· ≠ []), p ≠ [] ∧ c ∉ p := by
    intro p hp
    obtain ⟨hmem, hne⟩ := List.mem_filter.mp hp
    exact ⟨of_decide_eq_true hne, notMem_of_mem_settledPieces hps p hmem⟩
  obtain ⟨kept, hkept⟩ : ∃ kept : List String,
      kept.map String.toList = (r.settledPieces (r.stacked ps)).filter (· ≠ []) :=
    ⟨_, (List.map_map).trans (List.map_id'' (fun p => String.toList_ofList) _)⟩
  have hplain : ∀ s ∈ kept, Plain c s := by
    rw [← hkept, List.forall_mem_map] at hpieces
    exact fun s hs => ⟨fun hnil => (hpieces s hs).1 (hnil ▸ rfl), (hpieces s hs).2⟩
  have hjoin : r.join segments = r.path (kept ++ [String.ofList last]) := by
    have htext' : r.separator.intercalate (segments.map String.toList) = closed c ps ++ last := by
      rw [← htext, Rules.path, String.toList_ofList]
    rw [join, htext', normalize_closed hsep hps hlast, Rules.path, address, List.map_append, hkept,
      List.map_singleton, String.toList_ofList]
  refine ⟨kept, String.ofList last, hplain, by simpa using hlast, hjoin, fun hne hnil => ?_,
    fun hsuffix => ?_⟩
  · have hps' : ps ≠ [] := by
      rintro rfl
      have hnone : kept.map String.toList = [] := by
        rw [hkept]
        unfold settledPieces
        cases r.mode <;> rfl
      exact hne (List.map_eq_nil_iff.mp hnone)
    rw [htext, hsep, separator_suffix_iff hlast]
    exact ⟨by simpa using hnil, hps'⟩
  · rw [htext, hsep, separator_suffix_iff hlast] at hsuffix
    rw [hsuffix.1]

end Path

/-- **A joined key is normal just if it is empty or the segments do not end in a separator.**  In
any case there is no group in it, and no segment is empty but possibly the last. -/
theorem normal_join_iff {config : Config} {r : Rules} (hr : ofConfig config = .ok r) {c : Char}
    (hsep : config.grammar.separator.toList = [c]) (segments : List String) :
    (r.Normal (r.join segments) ↔
        r.join segments = "" ∨ ¬ r.separator <:+ (r.path segments).toList) ∧
      ¬ r.token ++ r.separator <:+: (r.join segments).toList ∧
        "" ∉ (r.split (r.join segments)).dropLast := by
  replace hsep : r.separator = [c] := (of_ofConfig hr).1.trans hsep
  obtain ⟨kept, last, hkept, hlast, hjoin, hends, hempty⟩ := exists_join_eq_path hsep segments
  have hgroup := (canonical_join (separable_of_singleton hsep) segments).group
  have hnonempty : "" ∉ kept := fun hmem => (hkept "" hmem).1 rfl
  by_cases hnil : r.join segments = ""
  · have hsplit : r.split (r.join segments) = [] := by rw [hnil, split, if_pos rfl]
    refine ⟨iff_of_true ⟨?_, hgroup⟩ (.inl hnil), hgroup, ?_⟩
    · rw [hsplit]
      exact List.not_mem_nil
    · rw [hsplit]
      exact List.not_mem_nil
  have hsplit : r.split (r.join segments) = kept ++ [last] := by
    rw [hjoin] at hnil ⊢
    exact split_path_concat hsep hkept hlast hnil
  have hsuffix : last = "" ↔ r.separator <:+ (r.path segments).toList := by
    refine ⟨fun heq => hends ?_ heq, hempty⟩
    rintro rfl
    exact hnil (by rw [hjoin, List.nil_append, path_singleton, heq])
  refine ⟨⟨fun hnormal => .inr fun hends => ?_, fun h => ⟨?_, hgroup⟩⟩, hgroup, ?_⟩
  · refine hnormal.segments ?_
    rw [hsplit, hsuffix.mpr hends]
    exact List.mem_append_right kept (List.mem_singleton_self "")
  · rw [hsplit]
    intro hmem
    rcases List.mem_append.mp hmem with hmem | hmem
    · exact hnonempty hmem
    · exact h.resolve_left hnil (hsuffix.mp (List.mem_singleton.mp hmem).symm)
  · rw [hsplit, List.dropLast_concat]
    exact hnonempty

theorem normal_join_default :
    default.Normal (default.join ["a.b", "", "--.c", "d"]) ∧
      default.join ["a.b", "", "--.c", "d"] = "a.b.c.d" := by
  have h := normal_join_iff (ofConfig_default 64) (c := '.') (by decide) ["a.b", "", "--.c", "d"]
  exact ⟨h.1.mpr (.inr (by decide)), by decide +kernel⟩

/-- **A separator at the end is left**, so the last segment is empty. -/
theorem not_normal_join_ended :
    ofConfig {} = .ok default ∧ default.join ["a", ""] = "a." ∧
      default.split (default.join ["a", ""]) = ["a", ""] ∧
        ¬ default.Normal (default.join ["a", ""]) := by
  have hsplit : default.split (default.join ["a", ""]) = ["a", ""] := by decide +kernel
  refine ⟨ofConfig_default 64, by decide +kernel, hsplit, fun h => h.segments ?_⟩
  rw [hsplit]
  decide

end RefTree.Keypath.Rules
