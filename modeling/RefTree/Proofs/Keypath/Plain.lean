import RefTree.Proofs.Keypath.Stack

/-!
# Proofs/Keypath/Plain — a plain key under a path

Segments that are put together as text are told apart again by the separator alone, so a segment
that ends in the up-level token reads as a group.  Pieces are their own address just if none of them
ends in the token (`address_eq_iff`), and then a plain key under a path is the path with that key at
its end (`join_path_eq_iff`), and paths that are put together are one path (`join_paths`).
-/

namespace RefTree.Keypath.Rules

open Text

variable {r : Rules}

/-! ## Pieces that do not end in the token -/

theorem ending?_of_not_suffix {piece : List Char} (h : ¬ r.token <:+ piece) :
    r.ending? piece = none := by
  refine ending?_eq_none_iff.mpr fun unit hunit hsuffix => h ?_
  rcases (of_mem_units hunit).2 with heq | heq
  · exact (List.suffix_append r.token r.token).trans (heq ▸ hsuffix)
  · exact heq ▸ hsuffix

theorem stripBack_of_not_suffix {piece : List Char} (h : ¬ r.token <:+ piece) :
    stripBack r.token piece = piece := by
  rw [stripBack_eq, before?_eq_none_iff.mpr h, Option.getD_none]

/-- Pieces that do not end in the token stay, but for the empty ones. -/
theorem address_of_not_suffix {ps : List (List Char)} (h : ∀ p ∈ ps, ¬ r.token <:+ p)
    (last : List Char) : r.address ps last = ps.filter (· ≠ []) ++ [last] := by
  have hstacked : r.stacked ps = ps := by
    rw [stacked, foldl_push_of_ending?_none fun p hp => ending?_of_not_suffix (h p hp)]
    simp
  have hsettled : r.settledPieces ps = ps := by
    unfold settledPieces
    cases r.mode with
    | sibling =>
      rw [List.map_congr_left fun p hp => stripBack_of_not_suffix (h p hp), List.map_id']
    | parent => rfl
  rw [address, hstacked, hsettled]

/-- What stays on the stack are pieces that do not climb. -/
theorem forall_mem_foldl_push {P : List Char → Prop} {ps stack : List (List Char)}
    (hps : ∀ p ∈ ps, r.ending? p = none → P p) (hstack : ∀ p ∈ stack, P p) :
    ∀ p ∈ ps.foldl r.push stack, P p := by
  induction ps generalizing stack with
  | nil => exact hstack
  | cons p ps ih =>
    obtain ⟨hp, hps⟩ := List.forall_mem_cons.mp hps
    refine ih hps ?_
    cases hend : r.ending? p with
    | none =>
      have hpush : r.push stack p = p :: stack := by rw [push, hend]
      rw [hpush]
      exact List.forall_mem_cons.mpr ⟨hp hend, hstack⟩
    | some found => exact fun q hq => hstack q (push_subset hend hq)

/-- A settled piece was there before, with a token behind it if that has been taken off. -/
theorem of_mem_settledPieces {ps : List (List Char)} {p : List Char} (h : p ∈ r.settledPieces ps) :
    p ∈ ps ∧ (r.mode = .sibling → ¬ r.token <:+ p) ∨ r.mode = .sibling ∧ p ++ r.token ∈ ps := by
  unfold settledPieces at h
  cases hmode : r.mode with
  | sibling =>
    rw [hmode] at h
    obtain ⟨q, hq, rfl⟩ := List.mem_map.mp h
    rw [stripBack_eq]
    cases hbefore : before? r.token q with
    | none => exact .inl ⟨hq, fun _ => before?_eq_none_iff.mp hbefore⟩
    | some rest => exact .inr ⟨rfl, before?_eq_some_iff.mp hbefore ▸ hq⟩
  | parent =>
    rw [hmode] at h
    exact .inl ⟨h, fun hsibling => nomatch hsibling⟩

/-- No piece of an address but the last ends in the token. -/
theorem not_suffix_of_mem_settledPieces {ps : List (List Char)} :
    ∀ p ∈ r.settledPieces (r.stacked ps), ¬ r.token <:+ p := by
  have hstacked : ∀ p ∈ r.stacked ps, ∀ unit ∈ r.units, ¬ unit.2 <:+ p := fun p hp =>
    ending?_eq_none_iff.mp
      (forall_mem_foldl_push (fun _ _ h => h) (List.forall_mem_nil _) p (List.mem_reverse.mp hp))
  intro p hp hsuffix
  rcases of_mem_settledPieces hp with ⟨hmem, hfree⟩ | ⟨hmode, hmem⟩
  · cases hmode : r.mode with
    | sibling => exact hfree hmode hsuffix
    | parent => exact hstacked p hmem (1, r.token) (by simp [units, hmode]) hsuffix
  · -- two tokens would have climbed
    obtain ⟨front, rfl⟩ := hsuffix
    exact hstacked _ hmem (1, r.token ++ r.token) (by simp [units, hmode]) ⟨front, by simp⟩

theorem notMem_of_mem_settledPieces {c : Char} {ps : List (List Char)} (hps : ∀ p ∈ ps, c ∉ p) :
    ∀ p ∈ r.settledPieces (r.stacked ps), c ∉ p := by
  have hstacked : ∀ p ∈ r.stacked ps, c ∉ p := fun p hp =>
    forall_mem_foldl_push (fun q hq _ => hps q hq) (List.forall_mem_nil _) p
      (List.mem_reverse.mp hp)
  intro p hp
  rcases of_mem_settledPieces hp with ⟨hmem, -⟩ | ⟨-, hmem⟩
  · exact hstacked p hmem
  · exact fun hc => hstacked _ hmem (List.mem_append_left _ hc)

/-- **Pieces are their own address just if none of them ends in the token.** -/
theorem address_eq_iff {ps : List (List Char)} (hps : ∀ p ∈ ps, p ≠ []) {last : List Char} :
    r.address ps last = ps ++ [last] ↔ ∀ p ∈ ps, ¬ r.token <:+ p := by
  constructor
  · intro h p hp
    rw [address, List.append_cancel_right_eq] at h
    exact not_suffix_of_mem_settledPieces p (List.mem_of_mem_filter (h ▸ hp))
  · intro h
    rw [address_of_not_suffix h, List.filter_eq_self.mpr fun p hp => decide_eq_true (hps p hp)]

/-! ## A plain key under a path -/

section Path

variable {c : Char} (hsep : r.separator = [c])
include hsep

/-- A key under a path is the address of their segments. -/
theorem join_path_eq {path : List String} (hpath : ∀ s ∈ path, Plain c s) {k : String}
    (hk : c ∉ k.toList) :
    r.join [r.path path, k] =
      String.ofList ([c].intercalate (r.address (path.map String.toList) k.toList)) := by
  have hfree : ∀ p ∈ path.map String.toList, c ∉ p :=
    List.forall_mem_map.mpr fun s hs => (hpath s hs).2
  have htext : r.separator.intercalate ([r.path path, k].map String.toList) =
      (r.path path).toList ++ r.separator ++ k.toList := by
    simp
  have hrpath : (r.path path).toList = r.separator.intercalate (path.map String.toList) := by
    rw [Rules.path, String.toList_ofList]
  rw [join, htext, hrpath]
  by_cases hne : path = []
  · -- the empty piece in front of the separator does not count
    subst hne
    have hnil : ∀ p ∈ [([] : List Char)], ¬ r.token <:+ p := by
      intro p hp hsuffix
      rw [List.mem_singleton.mp hp] at hsuffix
      exact r.apart.2.1 (List.suffix_nil.mp hsuffix)
    have hclosed : r.normalize (closed c [[]] ++ k.toList) = _ :=
      normalize_closed hsep (by simp) hk
    rw [address_of_not_suffix hnil, hsep] at hclosed
    rw [hsep, List.map_nil, address_of_not_suffix (List.forall_mem_nil _)]
    exact congrArg String.ofList hclosed
  · have hne' : path.map String.toList ≠ [] := by simpa using hne
    rw [intercalate_append_separator hsep hne', normalize_closed hsep hfree hk, hsep]

/-- **A plain key under a path is the path of the sibling just if no key on the path ends in the
up-level token.** -/
theorem join_path_eq_iff {path : List String} (hpath : ∀ s ∈ path, Plain c s) {k : String}
    (hk : c ∉ k.toList) :
    r.join [r.path path, k] = r.path (path ++ [k]) ↔ ∀ s ∈ path, ¬ r.token <:+ s.toList := by
  have hplain : ∀ p ∈ path.map String.toList, p ≠ [] ∧ c ∉ p :=
    List.forall_mem_map.mpr fun s hs => ⟨(hpath s hs).toList_ne_nil, (hpath s hs).2⟩
  have hsibling : r.path (path ++ [k]) =
      String.ofList ([c].intercalate (path.map String.toList ++ [k.toList])) := by
    rw [Rules.path, hsep, List.map_append, List.map_singleton]
  have haddress : r.address (path.map String.toList) k.toList =
      path.map String.toList ++ [k.toList] ↔ ∀ s ∈ path, ¬ r.token <:+ s.toList := by
    rw [address_eq_iff fun p hp => (hplain p hp).1, List.forall_mem_map]
  rw [← haddress, join_path_eq hsep hpath hk, hsibling]
  refine ⟨fun h => ?_, fun h => by rw [h]⟩
  -- texts of pieces without the separator are cut into these pieces again
  have hcut := congrArg (List.splitOn c) (String.ofList_injective h)
  rw [address, intercalate_concat, intercalate_concat, splitOn_closed _ hk,
    splitOn_closed (fun p hp => (hplain p hp).2) hk] at hcut
  · exact hcut
  · intro p hp
    exact notMem_of_mem_settledPieces (fun q hq => (hplain q hq).2) p (List.mem_of_mem_filter hp)

end Path

/-! ## Paths put together -/

/-- The segment is plain, and no up-level group when a separator follows it. -/
def Steady (c : Char) (token : List Char) (segment : String) : Prop :=
  Plain c segment ∧ ¬ token <:+ segment.toList

/-- The pieces that a path leaves in a text: the empty path leaves an empty one. -/
def pathPieces (path : List String) : List (List Char) :=
  if path = [] then [[]] else path.map String.toList

theorem eq_nil_or_of_mem_pathPieces {path : List String} {p : List Char}
    (h : p ∈ pathPieces path) : p = [] ∨ ∃ s ∈ path, s.toList = p := by
  unfold pathPieces at h
  split at h
  · exact .inl (List.mem_singleton.mp h)
  · exact .inr (List.mem_map.mp h)

theorem filter_map_toList {c : Char} {path : List String} (hpath : ∀ s ∈ path, Plain c s) :
    (path.map String.toList).filter (· ≠ []) = path.map String.toList := by
  have hne : ∀ p ∈ path.map String.toList, p ≠ [] :=
    List.forall_mem_map.mpr fun s hs => (hpath s hs).toList_ne_nil
  exact List.filter_eq_self.mpr fun p hp => decide_eq_true (hne p hp)

/-- Without the empty ones, the pieces of paths are their segments. -/
theorem filter_flatMap_pathPieces {c : Char} {paths : List (List String)}
    (hpaths : ∀ path ∈ paths, ∀ s ∈ path, Plain c s) :
    (paths.flatMap pathPieces).filter (· ≠ []) = paths.flatten.map String.toList := by
  rw [List.filter_flatMap, List.map_flatten, ← List.flatMap_def]
  refine List.flatMap_congr fun path hpath => ?_
  unfold pathPieces
  split
  · next h => simp [h]
  · exact filter_map_toList (hpaths path hpath)

section Paths

variable {c : Char} (hsep : r.separator = [c])
include hsep

/-- Paths with separators behind them are their pieces with separators behind them. -/
theorem closed_map_path (paths : List (List String)) :
    closed c (paths.map fun path => (r.path path).toList) =
      closed c (paths.flatMap pathPieces) := by
  induction paths with
  | nil => rfl
  | cons path paths ih =>
    have hpath : (r.path path).toList ++ [c] = closed c (pathPieces path) := by
      rw [Rules.path, String.toList_ofList, pathPieces]
      split
      · next h => simp [h]
      · next h => rw [← intercalate_append_separator hsep (by simpa using h), hsep]
    rw [List.map_cons, closed_cons, ih, List.flatMap_cons, closed_append, ← hpath]
    simp

theorem toList_path_concat (init : List String) (k : String) :
    (r.path (init ++ [k])).toList = closed c (init.map String.toList) ++ k.toList := by
  rw [Rules.path, String.toList_ofList, hsep, List.map_append, List.map_singleton,
    intercalate_concat]

/-- **Paths that are put together are one path**, if no segment climbs. -/
theorem join_paths {paths : List (List String)} {last : List String}
    (hpaths : ∀ path ∈ paths, ∀ s ∈ path, Steady c r.token s)
    (hlast : ∀ s ∈ last, Steady c r.token s) (hne : last ≠ []) :
    r.join (paths.map r.path ++ [r.path last]) = r.path (paths.flatten ++ last) := by
  obtain ⟨init, k, rfl⟩ := (List.eq_nil_or_concat' last).resolve_left hne
  obtain ⟨hinit, hk⟩ := List.forall_mem_append.mp hlast
  have htext : r.separator.intercalate
      ((paths.map r.path ++ [r.path (init ++ [k])]).map String.toList) =
        closed c (paths.flatMap pathPieces ++ init.map String.toList) ++ k.toList := by
    rw [hsep, List.map_append, List.map_singleton, intercalate_concat, toList_path_concat hsep,
      List.map_map, closed_append, ← closed_map_path hsep, List.append_assoc]
    rfl
  -- each piece is empty or the text of a segment
  have hpieces : ∀ p ∈ paths.flatMap pathPieces ++ init.map String.toList,
      c ∉ p ∧ ¬ r.token <:+ p := by
    have hsegment : ∀ s, Steady c r.token s → c ∉ s.toList ∧ ¬ r.token <:+ s.toList :=
      fun s hs => ⟨hs.1.2, hs.2⟩
    refine List.forall_mem_append.mpr ⟨fun p hp => ?_, fun p hp => ?_⟩
    · obtain ⟨path, hpath, hp⟩ := List.mem_flatMap.mp hp
      rcases eq_nil_or_of_mem_pathPieces hp with rfl | ⟨s, hs, rfl⟩
      · exact ⟨List.not_mem_nil, fun hsuffix => r.apart.2.1 (List.suffix_nil.mp hsuffix)⟩
      · exact hsegment s (hpaths path hpath s hs)
    · obtain ⟨s, hs, rfl⟩ := List.mem_map.mp hp
      exact hsegment s (hinit s hs)
  rw [join, htext, normalize_closed hsep (fun p hp => (hpieces p hp).1)
      (hk k (List.mem_singleton_self k)).1.2,
    address_of_not_suffix fun p hp => (hpieces p hp).2, List.filter_append,
    filter_flatMap_pathPieces fun path hpath s hs => (hpaths path hpath s hs).1,
    filter_map_toList fun s hs => (hinit s hs).1, Rules.path, ← List.map_append,
    ← List.append_assoc, ← List.map_singleton, ← List.map_append]

end Paths

end RefTree.Keypath.Rules
