import RefTree.Proofs.Default
import RefTree.Proofs.Keypath.Plain

/-!
# Proofs/Keypath/Stay — segments that stay, among siblings

Among siblings one token means to stay, and so does an empty segment.  Such segments are dropped
only when all climbing is done, and until then a climb takes them off like names (`pushSegment`):
joined segments are the path of the names that are left on the stack in the end
(`join_eq_path_dropStays`).

So leaving them out can change which names are left.  It does not if no climb takes off a segment
that stays (`dropStays_foldl_pushSegment`).
-/

namespace RefTree.Keypath.Rules

open Text

variable (r : Rules)

/-! ## Segments on a stack -/

/-- The segment means to stay at the level. -/
def Stays (segment : String) : Prop := segment = "" ∨ segment.toList = r.token

instance (segment : String) : Decidable (r.Stays segment) := inferInstanceAs (Decidable (_ ∨ _))

/-- The segment means to climb one level. -/
def Climbs (segment : String) : Prop := segment.toList = r.token ++ r.token

instance (segment : String) : Decidable (r.Climbs segment) := inferInstanceAs (Decidable (_ = _))

/-- What a segment does to the segments before it, the latest of which comes first. -/
def pushSegment (stack : List String) (segment : String) : List String :=
  if r.Climbs segment then stack.tail else segment :: stack

/-- The segments that are on the stack in the end, the earliest first. -/
def stackedSegments (segments : List String) : List String :=
  (segments.foldl r.pushSegment []).reverse

/-- The segments without those that stay. -/
def dropStays (segments : List String) : List String := segments.filter fun s => ¬ r.Stays s

/-- The segment stays, climbs, or is a name. -/
def Simple (c : Char) (segment : String) : Prop :=
  r.Stays segment ∨ r.Climbs segment ∨ Steady c r.token segment

instance (c : Char) (segment : String) : Decidable (r.Simple c segment) :=
  inferInstanceAs (Decidable (_ ∨ _ ∨ (_ ∧ _) ∧ _))

variable {r} {c : Char} {segment last : String} {segments stack : List String}

@[simp] theorem mem_dropStays : segment ∈ r.dropStays segments ↔
    segment ∈ segments ∧ ¬ r.Stays segment := by
  simp [dropStays]

theorem dropStays_cons_of_stays (h : r.Stays segment) :
    r.dropStays (segment :: segments) = r.dropStays segments :=
  List.filter_cons_of_neg (by simpa using h)

theorem dropStays_cons_of_not_stays (h : ¬ r.Stays segment) :
    r.dropStays (segment :: segments) = segment :: r.dropStays segments :=
  List.filter_cons_of_pos (by simpa using h)

theorem Stays.length_le (h : r.Stays segment) : segment.toList.length ≤ r.token.length := by
  rcases h with rfl | h
  · exact Nat.zero_le _
  · rw [h]

/-- What stays is too short for two tokens. -/
theorem Stays.not_suffix (h : r.Stays segment) : ¬ r.token ++ r.token <:+ segment.toList := by
  intro hsuffix
  have hlen := hsuffix.length_le
  have := h.length_le
  have := r.length_token_pos
  rw [List.length_append] at hlen
  omega

theorem Stays.not_climbs (h : r.Stays segment) : ¬ r.Climbs segment :=
  fun hclimbs => h.not_suffix (hclimbs ▸ List.suffix_refl _)

theorem Stays.not_steady (h : r.Stays segment) : ¬ Steady c r.token segment := by
  rintro ⟨⟨hne, -⟩, hsuffix⟩
  rcases h with rfl | h
  · exact hne rfl
  · exact hsuffix (h ▸ List.suffix_refl _)

theorem not_climbs_of_steady (h : Steady c r.token segment) : ¬ r.Climbs segment :=
  fun hclimbs => h.2 (hclimbs ▸ List.suffix_append r.token r.token)

/-- What is on the stack in the end has not climbed. -/
theorem forall_mem_foldl_pushSegment {P : String → Prop}
    (hsegments : ∀ s ∈ segments, ¬ r.Climbs s → P s) (hstack : ∀ s ∈ stack, P s) :
    ∀ s ∈ segments.foldl r.pushSegment stack, P s := by
  induction segments generalizing stack with
  | nil => exact hstack
  | cons s segments ih =>
    obtain ⟨hs, hsegments⟩ := List.forall_mem_cons.mp hsegments
    refine ih hsegments ?_
    unfold pushSegment
    split
    · exact fun x hx => hstack x (List.mem_of_mem_tail hx)
    · next hclimbs => exact List.forall_mem_cons.mpr ⟨hs hclimbs, hstack⟩

theorem forall_mem_stackedSegments {P : String → Prop}
    (hsegments : ∀ s ∈ segments, ¬ r.Climbs s → P s) : ∀ s ∈ r.stackedSegments segments, P s := by
  intro s hs
  rw [stackedSegments, List.mem_reverse] at hs
  exact forall_mem_foldl_pushSegment hsegments (List.forall_mem_nil P) s hs

/-- Segments on the stack stay or are names. -/
theorem stays_or_steady_of_mem (hsegments : ∀ s ∈ segments, r.Simple c s) :
    ∀ s ∈ r.stackedSegments segments, r.Stays s ∨ Steady c r.token s :=
  forall_mem_stackedSegments fun s hs hclimbs =>
    (hsegments s hs).imp_right fun h => h.resolve_left hclimbs

/-- Without those that stay, only names are left. -/
theorem steady_of_mem_dropStays (h : ∀ s ∈ segments, r.Stays s ∨ Steady c r.token s) :
    ∀ s ∈ r.dropStays segments, Steady c r.token s := by
  intro s hs
  obtain ⟨hmem, hnot⟩ := mem_dropStays.mp hs
  exact (h s hmem).resolve_left hnot

/-! ## Segments and their text -/

section Sibling

variable (hmode : r.mode = .sibling)
include hmode

theorem ending?_sibling (piece : List Char) :
    r.ending? piece = (before? (r.token ++ r.token) piece).map (1, ·) := by
  simp [ending?, units, hmode]

/-- A token climbs only behind another. -/
theorem ending?_of_stays (h : r.Stays segment) : r.ending? segment.toList = none := by
  rw [ending?_sibling hmode, before?_eq_none_iff.mpr h.not_suffix, Option.map_none]

/-- Segments are pushed as their text is. -/
theorem push_toList (h : r.Simple c segment) (stack : List String) :
    r.push (stack.map String.toList) segment.toList =
      (r.pushSegment stack segment).map String.toList := by
  unfold push pushSegment
  rcases h with hstays | hclimbs | hsteady
  · rw [ending?_of_stays hmode hstays, if_neg hstays.not_climbs, List.map_cons]
  · have hbefore : before? (r.token ++ r.token) segment.toList = some [] :=
      before?_eq_some_iff.mpr hclimbs
    rw [ending?_sibling hmode, hbefore, if_pos hclimbs, Option.map_some]
    simp
  · rw [ending?_of_not_suffix hsteady.2, if_neg (not_climbs_of_steady hsteady), List.map_cons]

theorem stacked_map_toList (hsegments : ∀ s ∈ segments, r.Simple c s) :
    r.stacked (segments.map String.toList) = (r.stackedSegments segments).map String.toList := by
  have hfold : ∀ stack : List String, (segments.map String.toList).foldl r.push
      (stack.map String.toList) = (segments.foldl r.pushSegment stack).map String.toList := by
    induction segments with
    | nil => exact fun _ => rfl
    | cons s segments ih =>
      obtain ⟨hs, hsegments⟩ := List.forall_mem_cons.mp hsegments
      intro stack
      rw [List.map_cons, List.foldl_cons, push_toList hmode hs, ih hsegments, List.foldl_cons]
  rw [stacked, stackedSegments, List.map_reverse, ← hfold []]
  rfl

omit hmode in
theorem stripBack_of_stays (h : r.Stays segment) : stripBack r.token segment.toList = [] := by
  rcases h with rfl | h
  · exact List.eq_nil_of_length_eq_zero (Nat.le_zero.mp (length_stripBack_le r.token []))
  · rw [h, stripBack_eq, before?_eq_some_iff.mpr (List.nil_append _).symm, Option.getD_some]

/-- Of settled segments the names are left. -/
theorem filter_settledPieces_map_toList (h : ∀ s ∈ segments, r.Stays s ∨ Steady c r.token s) :
    (r.settledPieces (segments.map String.toList)).filter (· ≠ []) =
      (r.dropStays segments).map String.toList := by
  unfold settledPieces
  rw [hmode]
  induction segments with
  | nil => rfl
  | cons s segments ih =>
    obtain ⟨hs, hsegments⟩ := List.forall_mem_cons.mp h
    have ih := ih hsegments
    simp only [List.map_cons] at ih ⊢
    rcases hs with hstays | hsteady
    · rw [stripBack_of_stays hstays, List.filter_cons_of_neg (by simp), ih,
        dropStays_cons_of_stays hstays]
    · have hne := hsteady.1.toList_ne_nil
      have hnot : ¬ r.Stays s := fun hstays => hstays.not_steady hsteady
      rw [stripBack_of_not_suffix hsteady.2, List.filter_cons_of_pos (by simpa using hne), ih,
        dropStays_cons_of_not_stays hnot, List.map_cons]

variable (hsep : r.separator = [c])
include hsep

omit hmode in
theorem notMem_of_simple (h : r.Simple c segment) : c ∉ segment.toList := by
  have htoken := notMem_token hsep
  rcases h with (rfl | h) | h | h
  · simp
  · rwa [h]
  · rw [h]
    simp [htoken]
  · exact h.1.2

/-- **Joined segments are the path of the names that are left** when climbs have taken segments off,
those that stay like any other. -/
theorem join_eq_path_dropStays (hsegments : ∀ s ∈ segments, r.Simple c s)
    (hlast : Steady c r.token last) :
    r.join (segments ++ [last]) = r.path (r.dropStays (r.stackedSegments segments) ++ [last]) := by
  have hfree : ∀ p ∈ segments.map String.toList, c ∉ p :=
    List.forall_mem_map.mpr fun s hs => notMem_of_simple hsep (hsegments s hs)
  rw [join, hsep, List.map_append, List.map_singleton, intercalate_concat,
    normalize_closed hsep hfree hlast.1.2, address, stacked_map_toList hmode hsegments,
    filter_settledPieces_map_toList hmode (stays_or_steady_of_mem hsegments), Rules.path,
    List.map_append, List.map_singleton]

end Sibling

/-! ## Segments that stay left out -/

theorem countP_pushSegment_le (segment : String) (stack : List String) :
    (r.pushSegment stack segment).countP r.Stays ≤
      [segment].countP r.Stays + stack.countP r.Stays := by
  unfold pushSegment
  split
  · exact Nat.le_trans (List.tail_sublist stack).countP_le (Nat.le_add_left _ _)
  · rw [← List.countP_append, List.singleton_append]

/-- No more segments that stay are left than there were. -/
theorem countP_foldl_pushSegment_le (segments stack : List String) :
    (segments.foldl r.pushSegment stack).countP r.Stays ≤
      segments.countP r.Stays + stack.countP r.Stays := by
  induction segments generalizing stack with
  | nil => exact Nat.le_add_left _ _
  | cons s segments ih =>
    have hrest := ih (r.pushSegment stack s)
    have hfirst := countP_pushSegment_le (r := r) s stack
    rw [List.foldl_cons, ← List.singleton_append, List.countP_append]
    omega

/-- A segment that takes none off that stays does the same where these are left out. -/
theorem dropStays_pushSegment
    (h : (r.pushSegment stack segment).countP r.Stays =
      [segment].countP r.Stays + stack.countP r.Stays) :
    r.dropStays (r.pushSegment stack segment) =
      (r.dropStays [segment]).foldl r.pushSegment (r.dropStays stack) := by
  by_cases hstays : r.Stays segment
  · rw [dropStays_cons_of_stays hstays, pushSegment, if_neg hstays.not_climbs,
      dropStays_cons_of_stays hstays]
    rfl
  have hone : r.dropStays [segment] = [segment] := dropStays_cons_of_not_stays hstays
  rw [hone, List.foldl_cons, List.foldl_nil]
  unfold pushSegment at h ⊢
  by_cases hclimbs : r.Climbs segment
  · rw [if_pos hclimbs] at h ⊢
    rw [if_pos hclimbs]
    cases stack with
    | nil => rfl
    | cons top rest =>
      have htop : ¬ r.Stays top := by
        intro htop
        simp [htop, hstays] at h
      rw [dropStays_cons_of_not_stays htop]
      rfl
  · rw [if_neg hclimbs, if_neg hclimbs, dropStays_cons_of_not_stays hstays]

/-- **If no climb takes a segment off that stays**, the names that are left are the same without
such segments. -/
theorem dropStays_foldl_pushSegment
    (h : (segments.foldl r.pushSegment stack).countP r.Stays =
      segments.countP r.Stays + stack.countP r.Stays) :
    r.dropStays (segments.foldl r.pushSegment stack) =
      (r.dropStays segments).foldl r.pushSegment (r.dropStays stack) := by
  induction segments generalizing stack with
  | nil => rfl
  | cons s segments ih =>
    have hrest := countP_foldl_pushSegment_le (r := r) segments (r.pushSegment stack s)
    have hfirst := countP_pushSegment_le (r := r) s stack
    rw [List.foldl_cons, ← List.singleton_append, List.countP_append] at h
    have happend : r.dropStays (s :: segments) = r.dropStays [s] ++ r.dropStays segments :=
      List.filter_append [s] segments
    rw [List.foldl_cons, ih (by omega), dropStays_pushSegment (by omega), happend,
      List.foldl_append]

theorem dropStays_stackedSegments
    (h : (r.stackedSegments segments).countP r.Stays = segments.countP r.Stays) :
    r.dropStays (r.stackedSegments segments) = r.stackedSegments (r.dropStays segments) := by
  rw [stackedSegments, List.countP_reverse] at h
  rw [stackedSegments, dropStays, List.filter_reverse, stackedSegments, List.reverse_inj]
  exact dropStays_foldl_pushSegment h

/-- **Segments that stay can be left out of joined segments just if the names that are left in the
end are the same without them**, as they are if all segments that stay are left. -/
theorem join_dropStays_eq_iff {config : Config} {r : Rules} (hr : ofConfig config = .ok r)
    {c : Char} (hsep : config.grammar.separator.toList = [c]) (hmode : config.upLevelMode = .sibling)
    {segments : List String} (hsegments : ∀ s ∈ segments, r.Simple c s) {last : String}
    (hlast : Steady c r.token last) :
    r.join (segments ++ [last]) = r.path (r.dropStays (r.stackedSegments segments) ++ [last]) ∧
      (r.join (r.dropStays segments ++ [last]) = r.join (segments ++ [last]) ↔
        r.stackedSegments (r.dropStays segments) = r.dropStays (r.stackedSegments segments)) ∧
      ((r.stackedSegments segments).countP r.Stays = segments.countP r.Stays →
        r.join (r.dropStays segments ++ [last]) = r.join (segments ++ [last])) := by
  obtain ⟨hrsep, -, hrmode, -, -⟩ := of_ofConfig hr
  replace hsep := hrsep.trans hsep
  replace hmode := hrmode.trans hmode
  have hsimple : ∀ s ∈ r.dropStays segments, r.Simple c s :=
    fun s hs => hsegments s (mem_dropStays.mp hs).1
  -- without segments that stay, all that is left are names
  have hleft : ∀ s ∈ r.stackedSegments (r.dropStays segments), Steady c r.token s :=
    forall_mem_stackedSegments fun s hs hclimbs =>
      ((hsimple s hs).resolve_left (mem_dropStays.mp hs).2).resolve_left hclimbs
  have hself : r.dropStays (r.stackedSegments (r.dropStays segments)) =
      r.stackedSegments (r.dropStays segments) :=
    List.filter_eq_self.mpr fun s hs => decide_eq_true fun hstays => hstays.not_steady (hleft s hs)
  have hnames := steady_of_mem_dropStays (stays_or_steady_of_mem hsegments)
  have hall := join_eq_path_dropStays hmode hsep hsegments hlast
  have hiff : r.join (r.dropStays segments ++ [last]) = r.join (segments ++ [last]) ↔
      r.stackedSegments (r.dropStays segments) = r.dropStays (r.stackedSegments segments) := by
    have hplain : ∀ {left : List String}, (∀ s ∈ left, Steady c r.token s) →
        ∀ s ∈ left ++ [last], Plain c s := fun hleft =>
      List.forall_mem_append.mpr ⟨fun s hs => (hleft s hs).1, by simpa using hlast.1⟩
    rw [hall, join_eq_path_dropStays hmode hsep hsimple hlast, hself,
      r.path_inj hsep (by simp) (by simp) (hplain hleft) (hplain hnames),
      List.append_cancel_right_eq]
  exact ⟨hall, hiff, fun h => hiff.mpr (dropStays_stackedSegments h).symm⟩

theorem join_dropStays_default :
    default.join ["a", "-", "b", "--", "", "c"] = default.join ["a", "b", "--", "c"] := by
  have hjoin : default.join (default.dropStays ["a", "-", "b", "--", ""] ++ ["c"]) =
      default.join (["a", "-", "b", "--", ""] ++ ["c"]) :=
    (join_dropStays_eq_iff (ofConfig_default 64) (c := '.') (by decide) rfl (by decide)
      ⟨⟨by decide, by decide⟩, by decide⟩).2.2 (by decide)
  exact hjoin.symm

/-- **A climb takes a segment off that stays**, and the name before it is left. -/
theorem join_dropStays_taken_off :
    ofConfig {} = .ok default ∧ (∀ s ∈ ["a", "b", "-", "--"], default.Simple '.' s) ∧
      default.dropStays ["a", "b", "-", "--"] = ["a", "b", "--"] ∧
        default.join ["a", "b", "-", "--", "c"] = "a.b.c" ∧
          default.join ["a", "b", "--", "c"] = "a.c" :=
  ⟨ofConfig_default 64, by decide, by decide, by decide +kernel, by decide +kernel⟩

end RefTree.Keypath.Rules
