import Mathlib.Data.List.Basic
import RefTree.Proofs.Keypath

/-!
# Proofs/Keypath/Passes — runs in a text of closed pieces

Where the separator is one character, a text is a row of *closed* pieces, each with the separator
behind it, and a last piece (`exists_closed`).  Put that way, making one separator of several drops
the empty pieces (`stripFront_replaceRuns_closed`), and making a separator of the groups that stay
takes the token off the pieces that end in it (`exists_replaceRuns_closed`).
-/

namespace RefTree.Text

variable {α : Type}

/-! ## Closed pieces -/

/-- Pieces with the separator behind each. -/
def closed (c : α) (ps : List (List α)) : List α := ps.flatMap (· ++ [c])

@[simp] theorem closed_nil (c : α) : closed c [] = [] := rfl

@[simp] theorem closed_cons (c : α) (p : List α) (ps : List (List α)) :
    closed c (p :: ps) = p ++ c :: closed c ps := by simp [closed]

@[simp] theorem closed_append (c : α) (ps qs : List (List α)) :
    closed c (ps ++ qs) = closed c ps ++ closed c qs := List.flatMap_append

theorem intercalate_concat (c : α) (ps : List (List α)) (last : List α) :
    [c].intercalate (ps ++ [last]) = closed c ps ++ last := by
  induction ps with
  | nil => simp
  | cons p ps ih =>
    rw [List.cons_append, List.intercalate_cons_of_ne_nil (by simp), ih]
    simp

variable [DecidableEq α] {c : α}

/-- **Closed pieces are cut apart where they were closed.** -/
theorem splitOn_closed {ps : List (List α)} {last : List α} (hps : ∀ p ∈ ps, c ∉ p)
    (hlast : c ∉ last) : (closed c ps ++ last).splitOn c = ps ++ [last] := by
  rw [← intercalate_concat]
  refine List.splitOn_intercalate c (fun p hp => ?_) (by simp)
  rcases List.mem_append.mp hp with hp | hp
  · exact hps p hp
  · exact List.mem_singleton.mp hp ▸ hlast

/-- **Every text is closed pieces and a last one.** -/
theorem exists_closed (c : α) (text : List α) :
    ∃ ps last, text = closed c ps ++ last ∧ (∀ p ∈ ps, c ∉ p) ∧ c ∉ last := by
  induction text with
  | nil => exact ⟨[], [], rfl, by simp, by simp⟩
  | cons d text ih =>
    obtain ⟨ps, last, rfl, hps, hlast⟩ := ih
    by_cases hd : c = d
    · exact ⟨[] :: ps, last, by simp [hd], List.forall_mem_cons.mpr ⟨by simp, hps⟩, hlast⟩
    · cases ps with
      | nil => exact ⟨[], d :: last, rfl, by simp, by simp [hd, hlast]⟩
      | cons p ps =>
        obtain ⟨hp, hps⟩ := List.forall_mem_cons.mp hps
        exact ⟨(d :: p) :: ps, last, rfl, List.forall_mem_cons.mpr ⟨by simp [hd, hp], hps⟩, hlast⟩

/-! ## The end of a text -/

/-- What stands before `back`, if the text ends in it. -/
def before? (back text : List α) : Option (List α) :=
  (after? back.reverse text.reverse).map List.reverse

theorem before?_eq_some_iff {back text rest : List α} :
    before? back text = some rest ↔ text = rest ++ back := by
  simp only [before?, Option.map_eq_some_iff, after?_eq_some_iff]
  constructor
  · rintro ⟨x, hx, rfl⟩
    rw [← List.reverse_reverse text, hx, List.reverse_append, List.reverse_reverse]
  · rintro rfl
    exact ⟨rest.reverse, List.reverse_append, List.reverse_reverse rest⟩

theorem before?_eq_none_iff {back text : List α} : before? back text = none ↔ ¬ back <:+ text := by
  simp only [Option.eq_none_iff_forall_ne_some, ne_eq, before?_eq_some_iff]
  exact ⟨fun h ⟨rest, hrest⟩ => h rest hrest.symm, fun h rest hrest => h ⟨rest, hrest.symm⟩⟩

theorem stripBack_eq (back text : List α) :
    stripBack back text = (before? back text).getD text := by
  unfold stripBack before?
  cases after? back.reverse text.reverse <;> rfl

theorem before?_cons {back text rest : List α} (d : α) (h : before? back text = some rest) :
    before? back (d :: text) = some (d :: rest) := by
  rw [before?_eq_some_iff] at h ⊢
  rw [h, List.cons_append]

/-- A piece that is closed is a text and a separator just if it is that text. -/
theorem after?_closed {unit p rest : List α} (hunit : c ∉ unit) (hp : c ∉ p) {x : List α} :
    after? (unit ++ [c]) (p ++ c :: rest) = some x ↔ p = unit ∧ x = rest := by
  rw [after?_eq_some_iff, List.append_assoc, List.singleton_append, append_cons_inj hp hunit,
    eq_comm (a := rest)]

theorem after?_of_notMem {unit text : List α} (hunit : c ∈ unit) (htext : c ∉ text) :
    after? unit text = none := by
  rw [Option.eq_none_iff_forall_ne_some]
  intro x hx
  exact htext (by simp [after?_eq_some_iff.mp hx, hunit])

/-! ## Runs -/

section Runs

variable {unit new text : List α} {least : Nat}

theorem leadingRun_append (hunit : unit ≠ []) (text : List α) :
    leadingRun unit (unit ++ text) =
      ((leadingRun unit text).1 + 1, (leadingRun unit text).2) := by
  have hlt : text.length < (unit ++ text).length := by
    have := List.length_pos_iff.mpr hunit
    rw [List.length_append]
    omega
  rw [leadingRun, after?_eq_some_iff.mpr rfl]
  simp only [hlt, if_true]

theorem leadingRun_of_after?_none (h : after? unit text = none) :
    leadingRun unit text = (0, text) := by
  rw [leadingRun, h]

theorem length_leadingRun_le (unit text : List α) :
    (leadingRun unit text).2.length ≤ text.length := by
  fun_induction leadingRun unit text with
  | case1 text rest h hlt run ih => exact Nat.le_trans ih (Nat.le_of_lt hlt)
  | case2 => exact Nat.le_refl _
  | case3 => exact Nat.le_refl _

/-- A character that no long enough run begins at stays. -/
theorem replaceRuns_cons {d : α} (h : (leadingRun unit (d :: text)).1 < least) :
    replaceRuns unit least new (d :: text) = d :: replaceRuns unit least new text := by
  rw [replaceRuns]
  exact dif_neg fun hrun => by omega

/-- **A long enough run is replaced as a whole.** -/
theorem replaceRuns_run (hunit : unit ≠ []) (h : least ≤ (leadingRun unit text).1 + 1) :
    replaceRuns unit least new (unit ++ text) =
      new ++ replaceRuns unit least new (leadingRun unit text).2 := by
  obtain ⟨d, rest, rfl⟩ := List.exists_cons_of_ne_nil hunit
  have hrun := leadingRun_append hunit text
  rw [List.cons_append] at hrun ⊢
  have hlen := length_leadingRun_le (d :: rest) text
  rw [replaceRuns, hrun]
  refine dif_pos ⟨h, ?_⟩
  simp only [List.length_cons, List.length_append]
  omega

/-- A text in which no run begins stays in front of another. -/
theorem replaceRuns_append (hleast : 0 < least) {p : List α}
    (h : ∀ u s, p = u ++ s → s ≠ [] → after? unit (s ++ text) = none) :
    replaceRuns unit least new (p ++ text) = p ++ replaceRuns unit least new text := by
  induction p with
  | nil => rfl
  | cons d p ih =>
    have hfront := leadingRun_of_after?_none (h [] (d :: p) rfl (by simp))
    rw [List.cons_append] at hfront ⊢
    rw [replaceRuns_cons (by rw [hfront]; exact hleast), ih, List.cons_append]
    rintro u s rfl hs
    exact h (d :: u) s rfl hs

theorem replaceRuns_of_notMem (hleast : 0 < least) {e : α} (hunit : e ∈ unit) (h : e ∉ text) :
    replaceRuns unit least new text = text := by
  have happ : replaceRuns unit least new (text ++ []) = text ++ replaceRuns unit least new [] :=
    replaceRuns_append hleast ?_
  · rwa [replaceRuns, List.append_nil] at happ
  · rintro u s rfl -
    rw [List.append_nil]
    exact after?_of_notMem hunit fun hmem => h (List.mem_append_right u hmem)

end Runs

/-! ## Separators in a row -/

/-- One separator of two. -/
theorem replaceRuns_pair (c : α) (text : List α) :
    replaceRuns [c] 2 [c] (c :: c :: text) = replaceRuns [c] 2 [c] (c :: text) := by
  have htwo := leadingRun_append (List.cons_ne_nil c []) text
  rw [List.singleton_append] at htwo
  have hpair : replaceRuns [c] 2 [c] ([c] ++ c :: text) = _ :=
    replaceRuns_run (List.cons_ne_nil c []) (by rw [htwo]; omega)
  rw [List.singleton_append, htwo] at hpair
  rw [hpair]
  by_cases hone : (leadingRun [c] text).1 = 0
  · have hnone : after? [c] text = none := by
      cases hafter : after? [c] text with
      | none => rfl
      | some rest =>
        obtain rfl := after?_eq_some_iff.mp hafter
        rw [leadingRun_append (List.cons_ne_nil c [])] at hone
        cases hone
    rw [replaceRuns_cons (by rw [htwo]; simp only; omega), leadingRun_of_after?_none hnone]
    rfl
  · have hrun : replaceRuns [c] 2 [c] ([c] ++ text) = _ :=
      replaceRuns_run (List.cons_ne_nil c []) (by omega)
    rw [← List.singleton_append (l := text), hrun]

theorem replaceRuns_lone {text : List α} (h : after? [c] text = none) :
    replaceRuns [c] 2 [c] (c :: text) = c :: replaceRuns [c] 2 [c] text := by
  refine replaceRuns_cons ?_
  have hone := leadingRun_append (List.cons_ne_nil c []) text
  rw [List.singleton_append] at hone
  rw [hone, leadingRun_of_after?_none h]
  simp

theorem after?_singleton_append {p : List α} (hp : c ∉ p) (hne : p ≠ []) (text : List α) :
    after? [c] (p ++ text) = none := by
  obtain ⟨d, p, rfl⟩ := List.exists_cons_of_ne_nil hne
  have hd : c ≠ d := fun h => hp (h ▸ List.mem_cons_self)
  rw [List.cons_append, after?, if_neg hd]

theorem replaceRuns_piece {p : List α} (hp : c ∉ p) (text : List α) :
    replaceRuns [c] 2 [c] (p ++ text) = p ++ replaceRuns [c] 2 [c] text := by
  refine replaceRuns_append (by decide) ?_
  rintro u s rfl hs
  exact after?_singleton_append (fun h => hp (List.mem_append_right u h)) hs text

/-- Behind a separator the empty pieces are dropped. -/
theorem replaceRuns_cons_closed {ps : List (List α)} {last : List α} (hps : ∀ p ∈ ps, c ∉ p)
    (hlast : c ∉ last) :
    replaceRuns [c] 2 [c] (c :: (closed c ps ++ last)) =
      c :: (closed c (ps.filter (· ≠ [])) ++ last) := by
  induction ps with
  | nil =>
    have hafter := after?_of_notMem (List.mem_singleton_self c) hlast
    rw [closed_nil, List.nil_append, replaceRuns_lone hafter,
      replaceRuns_of_notMem (by decide) (List.mem_singleton_self c) hlast]
    rfl
  | cons p ps ih =>
    obtain ⟨hp, hps⟩ := List.forall_mem_cons.mp hps
    have ih := ih hps
    by_cases hne : p = []
    · subst hne
      rw [closed_cons, List.nil_append, List.cons_append, replaceRuns_pair, ih]
      simp
    · rw [closed_cons, List.append_assoc, List.cons_append,
        replaceRuns_lone (after?_singleton_append hp hne _), replaceRuns_piece hp, ih]
      simp [hne]

/-- **Making one separator of several, and none at the front, drops the empty pieces.** -/
theorem stripFront_replaceRuns_closed {ps : List (List α)} {last : List α}
    (hps : ∀ p ∈ ps, c ∉ p) (hlast : c ∉ last) :
    stripFront [c] (replaceRuns [c] 2 [c] (closed c ps ++ last)) =
      closed c (ps.filter (· ≠ [])) ++ last := by
  cases ps with
  | nil =>
    have hafter := after?_of_notMem (List.mem_singleton_self c) hlast
    rw [closed_nil, List.nil_append,
      replaceRuns_of_notMem (by decide) (List.mem_singleton_self c) hlast, stripFront, hafter]
    rfl
  | cons p ps =>
    obtain ⟨hp, hps⟩ := List.forall_mem_cons.mp hps
    rw [closed_cons, List.append_assoc, List.cons_append, replaceRuns_piece hp,
      replaceRuns_cons_closed hps hlast]
    by_cases hne : p = []
    · subst hne
      rw [List.nil_append, stripFront, after?_eq_some_iff.mpr (List.singleton_append).symm]
      simp
    · rw [stripFront, after?_singleton_append hp hne]
      simp [hne]

/-! ## Pieces that end in a text -/

section Units

variable {unit : List α}

/-- A piece that does not end in the text stays. -/
theorem replaceRuns_of_before?_none (hunit : c ∉ unit) (hne : unit ≠ []) {p : List α} (hp : c ∉ p)
    (h : before? unit p = none) (new text : List α) :
    replaceRuns (unit ++ [c]) 1 new (p ++ c :: text) =
      p ++ c :: replaceRuns (unit ++ [c]) 1 new text := by
  rw [replaceRuns_append (by decide), replaceRuns_cons]
  · obtain ⟨d, unit, rfl⟩ := List.exists_cons_of_ne_nil hne
    have hd : d ≠ c := fun heq => hunit (heq ▸ List.mem_cons_self)
    rw [leadingRun_of_after?_none (by rw [List.cons_append, after?, if_neg hd])]
    exact Nat.one_pos
  · rintro u s rfl hs
    rw [Option.eq_none_iff_forall_ne_some]
    intro x hx
    have hmem : c ∉ s := fun hc => hp (List.mem_append_right u hc)
    obtain ⟨rfl, -⟩ := (after?_closed hunit hmem).mp hx
    rw [before?_eq_some_iff.mpr rfl] at h
    cases h

/-- Of a piece that ends in the text what stands before it stays. -/
theorem replaceRuns_of_before?_some (hunit : c ∉ unit) {p rest : List α} (hp : c ∉ p)
    (h : before? unit p = some rest) (new text : List α) :
    replaceRuns (unit ++ [c]) 1 new (p ++ c :: text) =
      rest ++ new ++ replaceRuns (unit ++ [c]) 1 new (leadingRun (unit ++ [c]) text).2 := by
  obtain rfl := before?_eq_some_iff.mp h
  rw [List.append_assoc, replaceRuns_append (by decide), ← List.singleton_append (l := text),
    ← List.append_assoc unit, replaceRuns_run (by simp) (by omega), List.append_assoc]
  rintro u s rfl hs
  rw [Option.eq_none_iff_forall_ne_some]
  intro x hx
  have hmem : c ∉ s ++ unit := fun hc => hp (by
    rw [List.append_assoc]
    exact List.mem_append_right u hc)
  rw [← List.append_assoc, after?_closed hunit hmem] at hx
  exact hs (List.append_left_eq_self.mp hx.1)

/-- A run of closed pieces goes over the pieces that are the text. -/
theorem leadingRun_closed (hunit : c ∉ unit) {ps : List (List α)} {last : List α}
    (hps : ∀ p ∈ ps, c ∉ p) (hlast : c ∉ last) :
    (leadingRun (unit ++ [c]) (closed c ps ++ last)).2 =
      closed c (ps.dropWhile (· = unit)) ++ last := by
  induction ps with
  | nil =>
    have hafter : after? (unit ++ [c]) last = none := after?_of_notMem (by simp) hlast
    rw [closed_nil, List.nil_append, leadingRun_of_after?_none hafter]
    rfl
  | cons p ps ih =>
    obtain ⟨hp, hps⟩ := List.forall_mem_cons.mp hps
    by_cases heq : p = unit
    · subst heq
      rw [List.dropWhile_cons_of_pos (by simp), ← ih hps, closed_cons, List.append_assoc,
        List.cons_append, ← List.singleton_append (l := closed c ps ++ last), ← List.append_assoc p,
        leadingRun_append (by simp)]
    · rw [List.dropWhile_cons_of_neg (by simpa using heq), leadingRun_of_after?_none]
      rw [closed_cons, List.append_assoc, List.cons_append, Option.eq_none_iff_forall_ne_some]
      intro x hx
      exact heq ((after?_closed hunit hp).mp hx).1

theorem filter_map_dropWhile (unit : List α) (ps : List (List α)) :
    ((ps.dropWhile (· = unit)).map (stripBack unit)).filter (· ≠ []) =
      (ps.map (stripBack unit)).filter (· ≠ []) := by
  induction ps with
  | nil => rfl
  | cons p ps ih =>
    by_cases heq : p = unit
    · subst heq
      have hself : stripBack p p = [] := by
        rw [stripBack_eq, before?_eq_some_iff.mpr (List.nil_append p).symm, Option.getD_some]
      rw [List.dropWhile_cons_of_pos (by simp), ih, List.map_cons, hself]
      simp
    · rw [List.dropWhile_cons_of_neg (by simpa using heq)]

/-- **Making a separator of every run of a text and a separator** takes the text off the pieces that
end in it, up to empty pieces. -/
theorem exists_replaceRuns_closed (hunit : c ∉ unit) (hne : unit ≠ []) {ps : List (List α)}
    {last : List α} (hps : ∀ p ∈ ps, c ∉ p) (hlast : c ∉ last) :
    ∃ qs, replaceRuns (unit ++ [c]) 1 [c] (closed c ps ++ last) = closed c qs ++ last ∧
      (∀ q ∈ qs, c ∉ q) ∧
      qs.filter (· ≠ []) = (ps.map (stripBack unit)).filter (· ≠ []) := by
  induction hlen : ps.length using Nat.strongRecOn generalizing ps with
  | ind length ih =>
    cases ps with
    | nil =>
      refine ⟨[], ?_, by simp, rfl⟩
      rw [closed_nil, List.nil_append, replaceRuns_of_notMem (by decide) (e := c) (by simp) hlast]
    | cons p ps =>
      obtain ⟨hp, hps⟩ := List.forall_mem_cons.mp hps
      rw [closed_cons, List.append_assoc, List.cons_append, List.map_cons, stripBack_eq]
      cases hbefore : before? unit p with
      | none =>
        obtain ⟨qs, hqs, hfree, hfilter⟩ := ih ps.length (by simp [← hlen]) hps rfl
        refine ⟨p :: qs, ?_, List.forall_mem_cons.mpr ⟨hp, hfree⟩, ?_⟩
        · rw [replaceRuns_of_before?_none hunit hne hp hbefore, hqs]
          simp
        · rw [Option.getD_none, List.filter_cons, List.filter_cons, hfilter]
      | some rest =>
        have hsuffix := List.dropWhile_suffix (l := ps) fun q => decide (q = unit)
        obtain ⟨qs, hqs, hfree, hfilter⟩ := ih (ps.dropWhile (· = unit)).length
          (by rw [← hlen, List.length_cons]; exact Nat.lt_succ_of_le hsuffix.length_le)
          (fun q hq => hps q (hsuffix.mem hq)) rfl
        have hrest : c ∉ rest := fun hc => hp (by
          rw [before?_eq_some_iff.mp hbefore]
          exact List.mem_append_left unit hc)
        refine ⟨rest :: qs, ?_, List.forall_mem_cons.mpr ⟨hrest, hfree⟩, ?_⟩
        · rw [replaceRuns_of_before?_some hunit hp hbefore, leadingRun_closed hunit hps hlast, hqs]
          simp
        · rw [Option.getD_some, List.filter_cons, List.filter_cons, hfilter, filter_map_dropWhile]

end Units

end RefTree.Text
