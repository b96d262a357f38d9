import RefTree.Proofs.Regex.Language

/-!
# Proofs/Regex/Complete — no text of the language is missed

A place that a search reaches again is not visited again.  No end of a match gets lost by that: what
a search has seen is closed under further rounds (`Explored`, `ExploredAtMost`), so wherever a text
of the language can be read, a match reads it (`ends_complete`).  This asks for an expression
without conditions on places.
-/

namespace RefTree.Regex

open Cursor (Within)

/-- Wherever a text of `L` can be read, a round of `step` reads up to there. -/
def Complete (step : Cursor → List Cursor) (L : Language Char) : Prop :=
  ∀ s, ∀ w ∈ L, ∀ t, s.Reads w t → ∃ t' ∈ step s, t'.offset = t.offset

section Complete

variable {step : Cursor → List Cursor} {L : Language Char} (greedy : Bool)

/-- A round that can be read from a place can be read from wherever the offset is the same. -/
theorem Complete.exists_mem (h : Complete step L) {s₀ s s' t : Cursor} {w : List Char}
    (hs : s₀.Within s) (hs' : s₀.Within s') (hoffset : s'.offset = s.offset) (hw : w ∈ L)
    (hreads : s'.Reads w t) : ∃ u ∈ step s, u.offset = t.offset :=
  h s w hw t (hreads.of_eq_left hoffset.symm (hs'.rest_eq hs hoffset).symm)

theorem exactly_complete (hs : Sound step L) (hc : Complete step L) {n : Nat} {s₀ : Cursor}
    {ss : List Cursor} (hss : ∀ s ∈ ss, s₀.Within s) {s t : Cursor} (hmem : s ∈ ss) {w : List Char}
    (hw : w ∈ L ^ n) (hreads : s.Reads w t) :
    ∃ t' ∈ exactly step n ss, t'.offset = t.offset := by
  induction n generalizing ss s w with
  | zero =>
    obtain rfl : w = [] := hw
    exact ⟨s, hmem, by rw [hreads.offset]; rfl⟩
  | succ n ih =>
    rw [pow_succ'] at hw
    obtain ⟨u, hu, v, hv, rfl⟩ := Language.mem_mul.mp hw
    obtain ⟨m, hsm, hmt⟩ := hreads.split
    have hwithin : ∀ m' ∈ distinct [] (ss.flatMap step), s₀.Within m' := by
      intro m' hm'
      obtain ⟨s', hs', hstep⟩ := List.mem_flatMap.mp (mem_of_mem_distinct hm')
      obtain ⟨w', -, hw'⟩ := hs s' m' hstep
      exact (hss s' hs').trans hw'
    obtain ⟨m', hm', hoffset⟩ := hc s u hu m hsm
    obtain ⟨m'', hm'', hoffset'⟩ := exists_mem_distinct (List.mem_flatMap.mpr ⟨s, hmem, hm'⟩)
    have hsame : m''.offset = m.offset := hoffset'.trans hoffset
    have hrest := (hwithin m'' hm'').rest_eq ((hss s hmem).trans hsm) hsame
    exact ih hwithin hm'' hv (hmt.of_eq_left hsame hrest)

theorem within_of_mem_exactly (hs : Sound step L) {n : Nat} {s t : Cursor}
    (ht : t ∈ exactly step n [s]) : s.Within t := by
  obtain ⟨s', hs', hst⟩ := rounds_of_mem_exactly hs ht
  obtain rfl := List.mem_singleton.mp hs'
  exact hst.within

theorem exists_mem_exactly (hs : Sound step L) (hc : Complete step L) {n : Nat} {s t : Cursor}
    {w : List Char} (hw : w ∈ L ^ n) (hreads : s.Reads w t) :
    ∃ t' ∈ exactly step n [s], t'.offset = t.offset := by
  have hstart : ∀ s' ∈ [s], s.Within s' := List.forall_mem_singleton.mpr (.refl s)
  exact exactly_complete hs hc hstart (List.mem_singleton_self s) hw hreads

/-- What a search through further rounds owes, when it has listed `out` and what it has seen has
grown from `seen` to `seen'`: new places are listed, and the rounds from them have been seen. -/
structure Explored (L : Language Char) (seen : List Nat) (out : List Cursor)
    (seen' : List Nat) : Prop where
  mono : seen ⊆ seen'
  found : ∀ o ∈ seen', o ∈ seen ∨ ∃ t ∈ out, t.offset = o
  closed : ∀ t ∈ out, ∀ w ∈ L, ∀ u, t.Reads w u → u.offset ∈ seen'

theorem Explored.refl (L : Language Char) (seen : List Nat) : Explored L seen [] seen :=
  ⟨List.Subset.refl _, fun _ ho => .inl ho, by simp⟩

/-- What a visit of the places `ss`, reached from `origin`, owes: it sees them all.  The rounds from
the origin itself are left to the caller. -/
structure Visited (L : Language Char) (origin : Nat) (ss : List Cursor) (seen : List Nat)
    (out : List Cursor) (seen' : List Nat) : Prop where
  mono : seen ⊆ seen'
  visited : ∀ s ∈ ss, s.offset ∈ seen'
  found : ∀ o ∈ seen', o ∈ seen ∨ ∃ t ∈ out, t.offset = o
  closed : ∀ t ∈ out, t.offset ≠ origin → ∀ w ∈ L, ∀ u, t.Reads w u → u.offset ∈ seen'

namespace Visited

variable {origin : Nat} {s : Cursor} {ss far later : List Cursor} {seen seen₁ seen₂ : List Nat}

theorem nil (L : Language Char) (origin : Nat) (seen : List Nat) :
    Visited L origin [] seen [] seen :=
  ⟨List.Subset.refl _, by simp, fun _ ho => .inl ho, by simp⟩

/-- A place that has been seen is passed over. -/
theorem cons_of_mem (hs : s.offset ∈ seen) (h : Visited L origin ss seen later seen₂) :
    Visited L origin (s :: ss) seen later seen₂ :=
  ⟨h.mono, List.forall_mem_cons.mpr ⟨h.mono hs, h.visited⟩, h.found, h.closed⟩

/-- A place that is new is listed with what lies farther. -/
theorem cons (hfar : Explored L (s.offset :: seen) far seen₁)
    (hrounds : s.offset ≠ origin → ∀ w ∈ L, ∀ u, s.Reads w u → u.offset ∈ seen₁)
    (h : Visited L origin ss seen₁ later seen₂) :
    Visited L origin (s :: ss) seen ((if greedy then far ++ [s] else s :: far) ++ later) seen₂ := by
  have hs : s.offset ∈ seen₂ := h.mono (hfar.mono List.mem_cons_self)
  refine ⟨fun o ho => h.mono (hfar.mono (List.mem_cons_of_mem _ ho)),
    List.forall_mem_cons.mpr ⟨hs, h.visited⟩, fun o ho => ?_, fun t ht hne w hw u hreads => ?_⟩
  · simp only [List.mem_append, mem_greed_iff]
    rcases h.found o ho with ho | ⟨t, ht, hoffset⟩
    · rcases hfar.found o ho with ho | ⟨t, ht, hoffset⟩
      · exact (List.mem_cons.mp ho).symm.imp_right fun heq => ⟨s, .inl (.inl rfl), heq.symm⟩
      · exact .inr ⟨t, .inl (.inr ht), hoffset⟩
    · exact .inr ⟨t, .inr ht, hoffset⟩
  · rcases List.mem_append.mp ht with hnow | hlater
    · rcases mem_greed_iff.mp hnow with rfl | hdeep
      · exact h.mono (hrounds hne w hw u hreads)
      · exact h.mono (hfar.closed t hdeep w hw u hreads)
    · exact h.closed t hlater hne w hw u hreads

end Visited

/-- **A visit explores** as far as `deeper` does. -/
theorem visit_explored {deeper : Cursor → List Nat → List Cursor × List Nat} {origin : Nat}
    {ss : List Cursor}
    (hdeeper : ∀ s ∈ ss, s.offset ≠ origin → ∀ seen,
      Explored L seen (deeper s seen).1 (deeper s seen).2 ∧
        ∀ w ∈ L, ∀ u, s.Reads w u → u.offset ∈ (deeper s seen).2) (seen : List Nat) :
    Visited L origin ss seen (visit deeper greedy origin ss seen).1
      (visit deeper greedy origin ss seen).2 := by
  induction ss generalizing seen with
  | nil => exact .nil L origin seen
  | cons s ss ih =>
    have ih := ih fun s' hs' => hdeeper s' (List.mem_cons_of_mem _ hs')
    rw [visit]
    split
    · next hseen => exact (ih seen).cons_of_mem hseen
    · next hseen =>
      by_cases horigin : s.offset = origin
      · subst horigin
        simp only [if_true]
        exact .cons greedy (.refl L _) (absurd rfl) (ih _)
      · simp only [horigin, if_false]
        obtain ⟨hfar, hrounds⟩ := hdeeper s List.mem_cons_self horigin (s.offset :: seen)
        exact .cons greedy hfar (fun _ => hrounds) (ih _)

/-- **The search through rounds explores**, with enough fuel, and has seen the rounds from its
start. -/
theorem rounds_explored (hs : Sound step L) (hc : Complete step L) {fuel : Nat} :
    ∀ {s : Cursor}, s.rest.length < fuel → ∀ seen,
      Explored L seen (rounds step greedy fuel s seen).1 (rounds step greedy fuel s seen).2 ∧
        ∀ w ∈ L, ∀ u, s.Reads w u → u.offset ∈ (rounds step greedy fuel s seen).2 := by
  induction fuel with
  | zero => intro s hfuel; omega
  | succ fuel ih =>
    intro s hfuel seen
    have hdeeper : ∀ t ∈ step s, t.offset ≠ s.offset → ∀ seen,
        Explored L seen (rounds step greedy fuel t seen).1 (rounds step greedy fuel t seen).2 ∧
          ∀ w ∈ L, ∀ u, t.Reads w u → u.offset ∈ (rounds step greedy fuel t seen).2 := by
      intro t ht hne
      obtain ⟨w, -, hreads⟩ := hs s t ht
      have hw : w ≠ [] := by
        rintro rfl
        exact hne hreads.offset
      have := List.length_pos_iff.mpr hw
      have := hreads.length_rest
      exact ih (by omega)
    obtain ⟨hmono, hvisited, hfound, hclosed⟩ := visit_explored greedy hdeeper seen
    have hrounds : ∀ w ∈ L, ∀ u, s.Reads w u →
        u.offset ∈ (rounds step greedy (fuel + 1) s seen).2 := by
      intro w hw u hreads
      obtain ⟨u', hu', hoffset⟩ := hc s w hw u hreads
      exact hoffset ▸ hvisited u' hu'
    refine ⟨⟨hmono, hfound, fun t ht w hw u hreads => ?_⟩, hrounds⟩
    by_cases hne : t.offset = s.offset
    · obtain ⟨n, hst⟩ := rounds_of_mem_rounds hs ht
      have hrest := (Within.refl s).rest_eq hst.within hne.symm
      exact hrounds w hw u (hreads.of_eq_left hne.symm hrest)
    · exact hclosed t ht hne w hw u hreads

theorem oneOrMore_complete (hs : Sound step L) (hc : Complete step L) {n : Nat} {s t : Cursor}
    {w : List Char} (hw : w ∈ L ^ (n + 1)) (hreads : s.Reads w t) :
    ∃ t' ∈ oneOrMore step greedy s, t'.offset = t.offset := by
  obtain ⟨⟨-, hfound, hclosed⟩, hrounds⟩ :=
    rounds_explored greedy hs hc (Nat.lt_succ_self s.rest.length) []
  -- by induction on the rounds, every place they lead to has been seen
  have hseen : ∀ n w t, w ∈ L ^ (n + 1) → s.Reads w t →
      t.offset ∈ (rounds step greedy (s.rest.length + 1) s []).2 := by
    intro n
    induction n with
    | zero =>
      intro w t hw hreads
      rw [Nat.zero_add, pow_one] at hw
      exact hrounds w hw t hreads
    | succ n ih =>
      intro w t hw hreads
      rw [pow_succ] at hw
      obtain ⟨u, hu, v, hv, rfl⟩ := Language.mem_mul.mp hw
      obtain ⟨m, hsm, hmt⟩ := hreads.split
      obtain ⟨m', hm', hoffset⟩ := (hfound _ (ih u m hu hsm)).resolve_left List.not_mem_nil
      obtain ⟨k, hsm'⟩ := rounds_of_mem_rounds hs hm'
      have hrest := hsm'.within.rest_eq ⟨u, hsm⟩ hoffset
      exact hclosed m' hm' v hv t (hmt.of_eq_left hoffset hrest)
  exact (hfound _ (hseen n w t hw hreads)).resolve_left List.not_mem_nil

/-- What a search through at most so many rounds owes.  A place is seen together with the number of
rounds that are left there. -/
structure ExploredAtMost (L : Language Char) (s₀ : Cursor) (seen : List (Nat × Nat))
    (out : List Cursor) (seen' : List (Nat × Nat)) : Prop where
  mono : seen ⊆ seen'
  found : ∀ k o, (k, o) ∈ seen' → (k, o) ∈ seen ∨ ∃ t ∈ out, t.offset = o
  closed : ∀ k o, (k + 1, o) ∈ seen' → (k + 1, o) ∈ seen ∨
    ∀ t, s₀.Within t → t.offset = o → ∀ w ∈ L, ∀ u, t.Reads w u → (k, u.offset) ∈ seen'

namespace ExploredAtMost

theorem refl (L : Language Char) (s₀ : Cursor) (seen : List (Nat × Nat)) :
    ExploredAtMost L s₀ seen [] seen :=
  ⟨List.Subset.refl _, fun _ _ h => .inl h, fun _ _ h => .inl h⟩

theorem trans {s₀ : Cursor} {seen seen₁ seen₂ : List (Nat × Nat)} {out out' : List Cursor}
    (h : ExploredAtMost L s₀ seen out seen₁) (h' : ExploredAtMost L s₀ seen₁ out' seen₂) :
    ExploredAtMost L s₀ seen (out ++ out') seen₂ := by
  refine ⟨fun x hx => h'.mono (h.mono hx), fun k o ho => ?_, fun k o ho => ?_⟩
  · rcases h'.found k o ho with ho | ⟨t, ht, hoffset⟩
    · rcases h.found k o ho with ho | ⟨t, ht, hoffset⟩
      · exact .inl ho
      · exact .inr ⟨t, List.mem_append_left _ ht, hoffset⟩
    · exact .inr ⟨t, List.mem_append_right _ ht, hoffset⟩
  · rcases h'.closed k o ho with ho | hclosed
    · exact (h.closed k o ho).imp_right fun hclosed t ht hoffset w hw u hreads =>
        h'.mono (hclosed t ht hoffset w hw u hreads)
    · exact .inr hclosed

/-- A place where no more rounds are left. -/
theorem last (L : Language Char) (s₀ s : Cursor) (seen : List (Nat × Nat)) :
    ExploredAtMost L s₀ seen [s] ((0, s.offset) :: seen) := by
  refine ⟨List.subset_cons_self _ _, fun k o ho => ?_, fun k o ho => ?_⟩
  · rcases List.mem_cons.mp ho with heq | ho
    · exact .inr ⟨s, List.mem_singleton_self s, (Prod.mk.inj heq).2.symm⟩
    · exact .inl ho
  · rcases List.mem_cons.mp ho with heq | ho
    · cases heq
    · exact .inl ho

/-- A place is listed with what lies farther, once the rounds from it have been seen. -/
theorem cons {s₀ s : Cursor} {n : Nat} {seen seen' : List (Nat × Nat)} {far : List Cursor}
    (h : ExploredAtMost L s₀ ((n + 1, s.offset) :: seen) far seen')
    (hrounds : ∀ t, s₀.Within t → t.offset = s.offset →
      ∀ w ∈ L, ∀ u, t.Reads w u → (n, u.offset) ∈ seen') :
    ExploredAtMost L s₀ seen (if greedy then far ++ [s] else s :: far) seen' := by
  refine ⟨fun x hx => h.mono (List.mem_cons_of_mem _ hx), fun k o ho => ?_, fun k o ho => ?_⟩
  · simp only [mem_greed_iff]
    rcases h.found k o ho with ho | ⟨t, ht, hoffset⟩
    · rcases List.mem_cons.mp ho with heq | ho
      · exact .inr ⟨s, .inl rfl, (Prod.mk.inj heq).2.symm⟩
      · exact .inl ho
    · exact .inr ⟨t, .inr ht, hoffset⟩
  · rcases h.closed k o ho with ho | hclosed
    · rcases List.mem_cons.mp ho with heq | ho
      · obtain ⟨hk, rfl⟩ := Prod.mk.inj heq
        obtain rfl := Nat.succ.inj hk
        exact .inr hrounds
      · exact .inl ho
    · exact .inr hclosed

end ExploredAtMost

/-- Gathering explores from place to place. -/
theorem gather_explored {s₀ : Cursor} {k : Nat}
    {f : Cursor → List (Nat × Nat) → List Cursor × List (Nat × Nat)} {ss : List Cursor}
    (hf : ∀ s ∈ ss, ∀ seen, ExploredAtMost L s₀ seen (f s seen).1 (f s seen).2 ∧
      (k, s.offset) ∈ (f s seen).2) (seen : List (Nat × Nat)) :
    ExploredAtMost L s₀ seen (gather f ss seen).1 (gather f ss seen).2 ∧
      ∀ s ∈ ss, (k, s.offset) ∈ (gather f ss seen).2 := by
  induction ss generalizing seen with
  | nil => exact ⟨.refl _ _ _, by simp⟩
  | cons s ss ih =>
    obtain ⟨hexplored, hs⟩ := hf s List.mem_cons_self seen
    obtain ⟨hrest, hss⟩ := ih (fun s' hs' => hf s' (List.mem_cons_of_mem _ hs')) (f s seen).2
    exact ⟨hexplored.trans hrest, List.forall_mem_cons.mpr ⟨hrest.mono hs, hss⟩⟩

theorem atMost_explored (hs : Sound step L) (hc : Complete step L) {s₀ : Cursor} {n : Nat} :
    ∀ {s : Cursor}, s₀.Within s → ∀ seen,
      ExploredAtMost L s₀ seen (atMost step greedy n s seen).1 (atMost step greedy n s seen).2 ∧
        (n, s.offset) ∈ (atMost step greedy n s seen).2 := by
  induction n with
  | zero =>
    intro s hwithin seen
    rw [atMost]
    split
    · next hseen => exact ⟨.refl _ _ _, hseen⟩
    · exact ⟨.last L s₀ s seen, List.mem_cons_self⟩
  | succ n ih =>
    intro s hwithin seen
    rw [atMost]
    split
    · next hseen => exact ⟨.refl _ _ _, hseen⟩
    · simp only
      have hsteps : ∀ t ∈ step s, s₀.Within t := by
        intro t ht
        obtain ⟨w, -, hreads⟩ := hs s t ht
        exact hwithin.trans hreads
      obtain ⟨hfar, hnext⟩ :=
        gather_explored (fun t ht seen => ih (hsteps t ht) seen) ((n + 1, s.offset) :: seen)
      refine ⟨.cons greedy hfar fun t ht hoffset w hw u hreads => ?_,
        hfar.mono List.mem_cons_self⟩
      obtain ⟨u', hu', hsame⟩ := hc.exists_mem hwithin ht hoffset hw hreads
      exact hsame ▸ hnext u' hu'

/-- Rounds up to a number lead to places that the search for that number lists. -/
theorem gather_atMost_complete (hs : Sound step L) (hc : Complete step L) {s₀ : Cursor} {n : Nat}
    {ss : List Cursor} (hss : ∀ s ∈ ss, s₀.Within s) {s : Cursor} (hmem : s ∈ ss) {k : Nat}
    (hk : k ≤ n) {w : List Char} (hw : w ∈ L ^ k) {t : Cursor} (hreads : s.Reads w t) :
    ∃ t' ∈ (gather (atMost step greedy n) ss []).1, t'.offset = t.offset := by
  obtain ⟨⟨-, hfound, hclosed⟩, hstart⟩ :=
    gather_explored (fun s hs' seen => atMost_explored greedy hs hc (hss s hs') seen) []
  have hseen : ∀ k ≤ n, ∀ w t, w ∈ L ^ k → s.Reads w t →
      (n - k, t.offset) ∈ (gather (atMost step greedy n) ss []).2 := by
    intro k
    induction k with
    | zero =>
      intro _ w t hw hreads
      obtain rfl : w = [] := hw
      exact hreads.offset ▸ hstart s hmem
    | succ k ih =>
      intro hk w t hw hreads
      rw [pow_succ] at hw
      obtain ⟨u, hu, v, hv, rfl⟩ := Language.mem_mul.mp hw
      obtain ⟨m, hsm, hmt⟩ := hreads.split
      have hm := ih (by omega) u m hu hsm
      rw [show n - k = n - (k + 1) + 1 by omega] at hm
      exact (hclosed _ _ hm).resolve_left List.not_mem_nil m ((hss s hmem).trans hsm) rfl v hv t hmt
  exact (hfound _ _ (hseen k hk w t hw hreads)).resolve_left List.not_mem_nil

/-- The same place in a list without repetitions. -/
theorem exists_distinct {ss : List Cursor} {o : Nat} (h : ∃ t ∈ ss, t.offset = o) :
    ∃ t ∈ distinct [] ss, t.offset = o := by
  obtain ⟨t, ht, rfl⟩ := h
  exact exists_mem_distinct ht

theorem repeated_complete (hs : Sound step L) (hc : Complete step L) {least : Nat}
    {most : Option Nat} {n : Nat} (hle : least ≤ n) (hmost : ∀ m, most = some m → n ≤ max least m)
    {w : List Char} (hw : w ∈ L ^ n) {s t : Cursor} (hreads : s.Reads w t) :
    ∃ t' ∈ repeated step least most greedy s, t'.offset = t.offset := by
  match most, least with
  | none, 0 =>
    refine exists_distinct ?_
    simp only [mem_greed_iff]
    cases n with
    | zero =>
      obtain rfl : w = [] := hw
      exact ⟨s, .inl rfl, by rw [hreads.offset]; rfl⟩
    | succ n =>
      obtain ⟨t', ht', hoffset⟩ := oneOrMore_complete greedy hs hc hw hreads
      exact ⟨t', .inr ht', hoffset⟩
  | none, least + 1 =>
    refine exists_distinct ?_
    obtain ⟨k, rfl⟩ : ∃ k, n = least + (k + 1) := ⟨n - least - 1, by omega⟩
    rw [pow_add] at hw
    obtain ⟨u, hu, v, hv, rfl⟩ := Language.mem_mul.mp hw
    obtain ⟨m, hsm, hmt⟩ := hreads.split
    obtain ⟨m', hm', hoffset⟩ := exists_mem_exactly hs hc hu hsm
    have hrest := (within_of_mem_exactly hs hm').rest_eq ⟨u, hsm⟩ hoffset
    obtain ⟨t', ht', hoffset'⟩ :=
      oneOrMore_complete greedy hs hc hv (hmt.of_eq_left hoffset hrest)
    exact ⟨t', List.mem_flatMap.mpr ⟨m', hm', ht'⟩, hoffset'⟩
  | some most, least =>
    refine exists_distinct ?_
    have hn := hmost most rfl
    obtain ⟨k, rfl⟩ : ∃ k, n = least + k := ⟨n - least, by omega⟩
    rw [pow_add] at hw
    obtain ⟨u, hu, v, hv, rfl⟩ := Language.mem_mul.mp hw
    obtain ⟨m, hsm, hmt⟩ := hreads.split
    obtain ⟨m', hm', hoffset⟩ := exists_mem_exactly hs hc hu hsm
    have hrest := (within_of_mem_exactly hs hm').rest_eq ⟨u, hsm⟩ hoffset
    exact gather_atMost_complete greedy hs hc (fun _ => within_of_mem_exactly hs) hm' (by omega) hv
      (hmt.of_eq_left hoffset hrest)

end Complete

/-- **Every text of the language that can be read is read by a match**, if the expression has no
conditions on places. -/
theorem ends_complete {r : Regex} (h : lookFree r = true) : Complete (ends r) (language r) := by
  induction r with
  | empty =>
    intro s w hw t hreads
    obtain rfl : w = [] := hw
    exact ⟨s, List.mem_singleton_self s, by rw [hreads.offset]; rfl⟩
  | set a =>
    rintro s w ⟨c, hc, rfl⟩ t hreads
    have hrest : s.rest = c :: t.rest := hreads.rest
    refine ⟨⟨s.offset + c.utf8Size, some c, t.rest, s.groups⟩, ?_, ?_⟩
    · rw [ends, hrest]
      simp only [hc, if_true, Cursor.next?, hrest, Option.mem_toList]
    · rw [hreads.offset]
      simp [Text.byteLength]
  | look l => cases h
  | named name r ih =>
    intro s w hw t hreads
    obtain ⟨t', ht', hoffset⟩ := ih h s w hw t hreads
    exact ⟨s.record name t', List.mem_map_of_mem ht', hoffset⟩
  | cat r q ihr ihq =>
    intro s w hw t hreads
    obtain ⟨hr, hq⟩ := Bool.and_eq_true_iff.mp h
    obtain ⟨u, hu, v, hv, rfl⟩ := Language.mem_mul.mp hw
    obtain ⟨m, hsm, hmt⟩ := hreads.split
    obtain ⟨m', hm', hoffset⟩ := ihr hr s u hu m hsm
    obtain ⟨x, -, hx⟩ := ends_sound r s m' hm'
    obtain ⟨t', ht', hoffset'⟩ :=
      ihq hq m' v hv t (hmt.of_eq_left hoffset (hx.unique hsm hoffset).2)
    exact exists_distinct ⟨t', List.mem_flatMap.mpr ⟨m', hm', ht'⟩, hoffset'⟩
  | alt r q ihr ihq =>
    intro s w hw t hreads
    obtain ⟨hr, hq⟩ := Bool.and_eq_true_iff.mp h
    refine exists_distinct ?_
    rcases hw with hw | hw
    · obtain ⟨t', ht', hoffset⟩ := ihr hr s w hw t hreads
      exact ⟨t', List.mem_append_left _ ht', hoffset⟩
    · obtain ⟨t', ht', hoffset⟩ := ihq hq s w hw t hreads
      exact ⟨t', List.mem_append_right _ ht', hoffset⟩
  | times least most greedy r ih =>
    rintro s w ⟨n, hle, hmost, hw⟩ t hreads
    exact repeated_complete greedy (ends_sound r) (ih h) hle hmost hw hreads

/-- **There is a match at a place** just if a text of the language can be read there. -/
theorem ends_ne_nil_iff {r : Regex} (h : lookFree r = true) {s : Cursor} :
    ends r s ≠ [] ↔ ∃ w ∈ language r, w <+: s.rest := by
  constructor
  · intro hne
    obtain ⟨t, ht⟩ := List.exists_mem_of_ne_nil _ hne
    obtain ⟨w, hw, hreads⟩ := ends_sound r s t ht
    exact ⟨w, hw, t.rest, hreads.rest.symm⟩
  · rintro ⟨w, hw, rest, hrest⟩
    obtain ⟨t, ht, -⟩ := ends_complete h s w hw ⟨s.offset + Text.byteLength w, none, rest, []⟩
      ⟨hrest.symm, rfl⟩
    exact List.ne_nil_of_mem ht

end RefTree.Regex
