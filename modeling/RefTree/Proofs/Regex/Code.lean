import RefTree.Proofs.Regex.Complete

/-!
# Proofs/Regex/Code — expressions that are told from what follows

A text of a code is told from what follows it: no two of them stand at the front of one text.  A
match of an expression of this kind can end at one place at most (`ends_of_code`), so a greedy
repetition of it prefers the place where no further round can be read
(`head?_rounds_of_ends`).
-/

namespace RefTree.Regex

/-! ## Places listed once -/

theorem nodup_distinct (seen : List Nat) (ss : List Cursor) :
    ((distinct seen ss).map Cursor.offset).Nodup ∧ ∀ t ∈ distinct seen ss, t.offset ∉ seen := by
  induction ss generalizing seen with
  | nil => exact ⟨List.nodup_nil, by simp [distinct]⟩
  | cons s ss ih =>
    rw [distinct]
    split
    · exact ih seen
    · next hseen =>
      obtain ⟨hnodup, hnew⟩ := ih (s.offset :: seen)
      refine ⟨List.nodup_cons.mpr ⟨fun hmem => ?_, hnodup⟩, List.forall_mem_cons.mpr ⟨hseen, ?_⟩⟩
      · obtain ⟨t, ht, hoffset⟩ := List.mem_map.mp hmem
        exact hnew t ht (hoffset ▸ List.mem_cons_self)
      · exact fun t ht hmem => hnew t ht (List.mem_cons_of_mem _ hmem)

theorem head?_distinct (ss : List Cursor) : (distinct [] ss).head? = ss.head? := by
  cases ss with
  | nil => rfl
  | cons s ss => rw [distinct, if_neg List.not_mem_nil, List.head?_cons, List.head?_cons]

/-- **A match lists each of its ends once.** -/
theorem nodup_ends (r : Regex) (s : Cursor) : ((ends r s).map Cursor.offset).Nodup := by
  induction r generalizing s with
  | empty => exact List.nodup_singleton _
  | set a =>
    rw [ends]
    split
    · split
      · cases s.next? <;> simp
      · exact List.nodup_nil
    · exact List.nodup_nil
  | look l =>
    rw [ends]
    split
    · exact List.nodup_singleton _
    · exact List.nodup_nil
  | named name r ih =>
    rw [ends, List.map_map]
    exact ih s
  | cat r q => exact (nodup_distinct [] _).1
  | alt r q => exact (nodup_distinct [] _).1
  | times least most greedy r =>
    cases most with
    | none => cases least <;> exact (nodup_distinct [] _).1
    | some most => exact (nodup_distinct [] _).1

/-! ## Codes -/

/-- **Texts of the language are told from what follows them**, and none is empty. -/
structure IsCode (L : Language Char) : Prop where
  ne_nil : ∀ w ∈ L, w ≠ []
  unique : ∀ u ∈ L, ∀ v ∈ L, ∀ x y : List Char, u ++ x = v ++ y → u = v

variable {r : Regex} {s t : Cursor}

/-- **A text of a code is read in one way**, up to the one place where the match ends. -/
theorem ends_of_code (hlook : lookFree r = true) (hcode : IsCode (language r)) {w rest : List Char}
    (hw : w ∈ language r) (hs : s.rest = w ++ rest) : ∃ t, ends r s = [t] ∧ s.Reads w t := by
  have hne : ends r s ≠ [] := (ends_ne_nil_iff hlook).mpr ⟨w, hw, rest, hs.symm⟩
  have hreads : ∀ t ∈ ends r s, s.Reads w t := by
    intro t ht
    obtain ⟨v, hv, hreads⟩ := ends_sound r s t ht
    obtain rfl := hcode.unique w hw v hv rest t.rest (hs.symm.trans hreads.rest)
    exact hreads
  obtain ⟨t, ts, hends⟩ := List.exists_cons_of_ne_nil hne
  have hnodup := nodup_ends r s
  rw [hends] at hreads hnodup
  obtain ⟨ht, hts⟩ := List.forall_mem_cons.mp hreads
  cases ts with
  | nil => exact ⟨t, hends, ht⟩
  | cons u ts =>
    have hoffset : t.offset = u.offset := by
      rw [ht.offset, (hts u List.mem_cons_self).offset]
    exact absurd (hoffset ▸ List.mem_cons_self) (List.nodup_cons.mp hnodup).1

theorem ends_eq_nil (h : ∀ w ∈ language r, ¬ w <+: s.rest) : ends r s = [] := by
  cases hends : ends r s with
  | nil => rfl
  | cons t ts =>
    obtain ⟨w, hw, hreads⟩ := ends_sound r s t (hends ▸ List.mem_cons_self)
    exact absurd ⟨t.rest, hreads.rest.symm⟩ (h w hw)

/-- A search stops where it starts, if there is a match. -/
theorem first?_of_head?_ends (h : (ends r { s with groups := [] }).head? = some t) :
    first? r s = some ⟨{ s with groups := [] }, t⟩ := by
  obtain ⟨offset, previous, rest, groups⟩ := s
  cases rest with
  | nil =>
    rw [first?, firstFrom, h]
    rfl
  | cons c cs =>
    rw [first?, firstFrom]
    simp only [h]

/-! ## Greedy repetitions -/

section Greedy

variable {step : Cursor → List Cursor} {fuel : Nat} {seen : List Nat}

theorem rounds_of_nil (h : step s = []) : (rounds step true fuel s seen).1 = [] := by
  cases fuel with
  | zero => rfl
  | succ fuel => rw [rounds, h, visit]

/-- **A greedy repetition prefers to go on**, where a round leads to one place that is new. -/
theorem head?_rounds_of_ends (h : step s = [t]) (hlt : s.offset < t.offset)
    (hseen : t.offset ∉ seen) :
    (rounds step true (fuel + 1) s seen).1.head? =
      some ((rounds step true fuel t (t.offset :: seen)).1.head?.getD t) := by
  have hne : t.offset ≠ s.offset := Nat.ne_of_gt hlt
  rw [rounds, h, visit, if_neg hseen]
  simp only [hne, visit, if_false, if_true, List.append_nil, List.head?_append, List.head?_cons]
  cases (rounds step true fuel t (t.offset :: seen)).1.head? <;> rfl

/-- What one round or more prefers is what the repetition prefers. -/
theorem head?_ends_oneOrMore (r : Regex) (s : Cursor) :
    (ends (.times 1 none true r) s).head? =
      (rounds (ends r) true (s.rest.length + 1) s []).1.head? := by
  have hlist : ends (.times 1 none true r) s =
      distinct [] ([s].flatMap (oneOrMore (ends r) true)) := rfl
  rw [hlist, head?_distinct, List.flatMap_singleton, oneOrMore]

theorem head?_ends_cat_empty (r : Regex) (s : Cursor) :
    (ends (.cat r .empty) s).head? = (ends r s).head? := by
  have hlist : ends (.cat r .empty) s = distinct [] ((ends r s).flatMap ([·])) := rfl
  rw [hlist, head?_distinct, List.flatMap_singleton']

end Greedy

end RefTree.Regex
