import RefTree.Proofs.Regex.Complete

/-!
# Proofs/Regex/First — the first match in a text

A search stops at the first place from which a text of the language can be read (`find?_eq_some`),
and finds nothing only if there is no such place (`find?_eq_none_iff`).
-/

namespace RefTree.Regex

/-- `text` is `u ++ v ++ w`, where `v` is of the language and no text of the language begins
earlier. -/
structure FirstIn (r : Regex) (text u v w : List Char) : Prop where
  eq : text = u ++ v ++ w
  mem : v ∈ language r
  least : ∀ u' v' w', text = u' ++ v' ++ w' → v' ∈ language r → u.length ≤ u'.length

/-- The first places of two texts of the language are one place. -/
theorem FirstIn.unique {r : Regex} {text u v w u' v' w' : List Char} (h : FirstIn r text u v w)
    (h' : FirstIn r text u' v' w') : u = u' ∧ v ++ w = v' ++ w' := by
  have hle := h.least u' v' w' h'.eq h'.mem
  have hle' := h'.least u v w h.eq h.mem
  refine List.append_inj ?_ (Nat.le_antisymm hle hle')
  rw [← List.append_assoc, ← List.append_assoc, ← h.eq, h'.eq]

/-- The match `m` has read `v` behind `u`. -/
structure Span.ReadsAfter (m : Span) (r : Regex) (offset : Nat) (u v : List Char) : Prop where
  start : m.start.offset = offset + Text.byteLength u
  groups : m.start.groups = []
  stop : m.stop ∈ ends r m.start
  reads : m.start.Reads v m.stop

variable {r : Regex}

/-- Where there is no match, no text of the language can be read. -/
theorem notMem_of_head?_eq_none (h : lookFree r = true) {s : Cursor} (hs : (ends r s).head? = none)
    {v w : List Char} (heq : s.rest = v ++ w) : v ∉ language r := by
  intro hv
  have hends : ends r s ≠ [] := (ends_ne_nil_iff h).mpr ⟨v, hv, w, heq.symm⟩
  exact hends (List.head?_eq_none_iff.mp hs)

/-- A match at the front of the text comes first. -/
theorem exists_firstIn_of_mem_ends {text : List Char} {offset : Nat} {previous : Option Char}
    {t : Cursor} (ht : t ∈ ends r ⟨offset, previous, text, []⟩) :
    ∃ v, FirstIn r text [] v t.rest ∧
      Span.ReadsAfter ⟨⟨offset, previous, text, []⟩, t⟩ r offset [] v := by
  obtain ⟨v, hv, hreads⟩ := ends_sound r _ t ht
  exact ⟨v, ⟨hreads.rest, hv, fun _ _ _ _ _ => Nat.zero_le _⟩, rfl, rfl, ht, hreads⟩

/-- **Where a search stops**: some text is skipped, in which no text of the language begins, and the
match has read such a text behind it. -/
theorem firstFrom_eq_some (h : lookFree r = true) {text : List Char} {offset : Nat}
    {previous : Option Char} {m : Span} (hm : firstFrom r offset previous text = some m) :
    ∃ u v, FirstIn r text u v m.stop.rest ∧ m.ReadsAfter r offset u v := by
  induction text generalizing offset previous with
  | nil =>
    obtain ⟨t, ht, rfl⟩ := Option.map_eq_some_iff.mp hm
    exact ⟨[], exists_firstIn_of_mem_ends (List.mem_of_mem_head? ht)⟩
  | cons c cs ih =>
    rw [firstFrom] at hm
    split at hm
    · next t ht =>
      obtain rfl := Option.some.inj hm
      exact ⟨[], exists_firstIn_of_mem_ends (List.mem_of_mem_head? ht)⟩
    · next hnone =>
      obtain ⟨u, v, ⟨hcs, hv, hleast⟩, hstart, hgroups, hstop, hreads⟩ := ih hm
      refine ⟨c :: u, v, ⟨by rw [hcs]; rfl, hv, ?_⟩, ?_, hgroups, hstop, hreads⟩
      · intro u' v' w' heq hv'
        cases u' with
        | nil => exact absurd hv' (notMem_of_head?_eq_none h hnone heq)
        | cons d u' => exact Nat.succ_le_succ (hleast u' v' w' (List.cons.inj heq).2 hv')
      · rw [hstart, Text.byteLength]
        omega

theorem firstFrom_eq_none (h : lookFree r = true) {text : List Char} {offset : Nat}
    {previous : Option Char} (hm : firstFrom r offset previous text = none) {u v w : List Char}
    (heq : text = u ++ v ++ w) : v ∉ language r := by
  induction text generalizing offset previous u with
  | nil =>
    obtain ⟨huv, rfl⟩ := List.append_eq_nil_iff.mp heq.symm
    obtain ⟨-, rfl⟩ := List.append_eq_nil_iff.mp huv
    exact notMem_of_head?_eq_none h (Option.map_eq_none_iff.mp hm) (List.append_nil []).symm
  | cons c cs ih =>
    rw [firstFrom] at hm
    split at hm
    · cases hm
    · next hnone =>
      cases u with
      | nil => exact notMem_of_head?_eq_none h hnone heq
      | cons d u => exact ih hm (List.cons.inj heq).2

/-- **A search finds nothing** just if no text of the language stands at the place or behind it. -/
theorem first?_eq_none_iff (h : lookFree r = true) {s : Cursor} :
    first? r s = none ↔ ∀ u v w, s.rest = u ++ v ++ w → v ∉ language r := by
  refine ⟨fun hm u v w heq => firstFrom_eq_none h hm heq, fun hall => ?_⟩
  cases hm : first? r s with
  | none => rfl
  | some m =>
    obtain ⟨u, v, hfirst, -⟩ := firstFrom_eq_some h hm
    exact absurd hfirst.mem (hall u v _ hfirst.eq)

/-- **What is found** is the first text of the language, with a match that has read it. -/
theorem find?_eq_some (h : lookFree r = true) {text : String} {m : Span}
    (hm : r.find? text = some m) :
    ∃ u v, FirstIn r text.toList u v m.stop.rest ∧ m.ReadsAfter r 0 u v := firstFrom_eq_some h hm

/-- **Nothing is found** just if no text of the language stands anywhere. -/
theorem find?_eq_none_iff (h : lookFree r = true) {text : String} :
    r.find? text = none ↔ ∀ u v w, text.toList = u ++ v ++ w → v ∉ language r :=
  first?_eq_none_iff h

end RefTree.Regex
