import RefTree.Proofs.Regex.Extend.Bracket
import RefTree.Proofs.Regex.Language

/-!
# Proofs/Regex/Extend/Item — a parenthesis behind an item

What an item can be — an escape, a class, a character by itself — is read in the same way where a
closing parenthesis and more follow (`item_append`), and so are its repetitions
(`repetitions_append`) and the beginning of a group (`opening_append`).  Repetitions and
beginnings of groups end at the end of the text too, but nothing that is skipped may be left open
there.
-/

namespace RefTree.Regex

variable {more : List Char}

/-! ## Repetitions -/

section Repetitions

variable {flags : Flags} {cs rest : List Char}

theorem digitsOf_nil (fuel : Nat) : count.digitsOf flags fuel [] = ([], []) := by
  cases fuel <;> rfl

theorem digitsOf_append {fuel fuel' : Nat} (hfuel : cs.length ≤ fuel) (hle : fuel ≤ fuel')
    (h : (count.digitsOf flags fuel cs).2 ≠ []) :
    count.digitsOf flags fuel' (cs ++ ')' :: more) =
      ((count.digitsOf flags fuel cs).1, (count.digitsOf flags fuel cs).2 ++ ')' :: more) := by
  induction fuel generalizing cs fuel' with
  | zero =>
    obtain rfl := List.length_eq_zero_iff.mp (Nat.le_zero.mp hfuel)
    exact absurd rfl h
  | succ fuel ih =>
    obtain ⟨fuel', rfl⟩ : ∃ k, fuel' = k + 1 := ⟨fuel' - 1, by omega⟩
    cases cs with
    | nil => exact absurd rfl h
    | cons c ds =>
      rw [List.cons_append, count.digitsOf, count.digitsOf]
      rw [count.digitsOf] at h
      split
      · next hdigit =>
        rw [if_pos hdigit] at h
        have hskip : flags.skip ds ≠ [] := by
          intro hnil
          rw [hnil, digitsOf_nil] at h
          exact h rfl
        have hlen := length_skip_le flags ds
        rw [List.length_cons] at hfuel
        rw [skip_append (Flags.settled_of_ne_nil hskip), ih (by omega) (by omega) h]
      · rfl

theorem count_append (h : (count flags cs).2 ≠ []) :
    count flags (cs ++ ')' :: more) =
      ((count flags cs).1, (count flags cs).2 ++ ')' :: more) := by
  have hblank : Unicode.isBlank ')' = false := by decide
  simp only [count] at h ⊢
  have hdigits : (count.digitsOf flags (cs.dropWhile Unicode.isBlank).length
      (cs.dropWhile Unicode.isBlank)).2 ≠ [] := by
    intro hnil
    rw [hnil] at h
    exact h rfl
  rw [dropWhile_append_close (.inr hblank), digitsOf_append (Nat.le_refl _) (by simp) hdigits]
  simp only [dropWhile_append_close (.inr hblank)]

theorem bounds_append {least : Nat} {most : Option Nat}
    (h : bounds flags cs = some ((least, most), rest)) :
    bounds flags (cs ++ ')' :: more) = some ((least, most), rest ++ ')' :: more) := by
  unfold bounds at h ⊢
  have hcount : (count flags (flags.skip cs)).2 ≠ [] := by
    intro hnil
    split at h
    · next heq => simp [heq] at hnil
    · next heq => simp [heq] at hnil
    · cases h
  have hskip : flags.skip cs ≠ [] := by
    intro hnil
    rw [hnil] at hcount
    exact hcount rfl
  rw [skip_append (Flags.settled_of_ne_nil hskip), count_append hcount]
  split at h
  · next lower after heq =>
    rw [heq]
    simp only [List.cons_append]
    split at h
    · next hlt =>
      cases h
      rw [if_pos hlt]
    · cases h
  · next lower after heq =>
    rw [heq]
    simp only [List.cons_append]
    have hafter : flags.skip after ≠ [] := by
      intro hnil
      rw [hnil] at h
      cases h
    rw [skip_append (Flags.settled_of_ne_nil hafter)]
    split at h
    · next after' heq' =>
      rw [heq', List.cons_append]
      split at h
      · next hlt =>
        cases h
        simp only [if_pos hlt]
      · cases h
    · next hbrace =>
      split at h
      · next upper after' heq' =>
        have hne : (count flags (flags.skip after)).2 ≠ [] := by simp [heq']
        split at h
        · next hle =>
          cases h
          split
          · next heq'' => exact absurd heq'' (append_close_ne_cons (by decide) hbrace _)
          · rw [count_append hne, heq']
            simp only [List.cons_append, if_pos hle]
        · cases h
      · cases h
  · cases h

theorem greed_append : greed flags (cs ++ ')' :: more) =
    ((greed flags cs).1, (greed flags cs).2 ++ ')' :: more) := by
  cases cs with
  | nil => rfl
  | cons c ds =>
    by_cases hc : c = '?'
    · subst hc
      rfl
    · have hother : ∀ ds, greed flags (c :: ds) = (!flags.swapGreed, c :: ds) := by
        intro ds
        rw [greed]
        simpa using hc
      rw [List.cons_append, hother, hother, List.cons_append]

/-- Behind the last repetition of a text nothing is left. -/
theorem eq_nil_of_repetitions_nil {fuel : Nat} {r q : Regex}
    (h : repetitions flags fuel r [] = some (q, rest)) : rest = [] := by
  cases fuel with
  | zero => cases h
  | succ fuel =>
    rw [repetitions, skip_nil] at h
    exact (Prod.mk.inj (Option.some.inj h)).2.symm

/-- **Repetitions are read in the same way where a parenthesis follows.** -/
theorem repetitions_append {fuel fuel' : Nat} {r q : Regex} (hle : fuel ≤ fuel')
    (hrest : flags.Settled rest) (h : repetitions flags fuel r cs = some (q, rest)) :
    repetitions flags fuel' r (cs ++ ')' :: more) = some (q, rest ++ ')' :: more) := by
  induction fuel generalizing r cs fuel' with
  | zero => cases h
  | succ fuel ih =>
    obtain ⟨fuel', rfl⟩ : ∃ k, fuel' = k + 1 := ⟨fuel' - 1, by omega⟩
    have ih : ∀ {r : Regex} {cs : List Char}, repetitions flags fuel r cs = some (q, rest) →
        repetitions flags fuel' r (cs ++ ')' :: more) = some (q, rest ++ ')' :: more) :=
      fun h => ih (by omega) h
    have hskip : flags.Settled (flags.skip cs) := by
      intro hspaced hnil
      rw [repetitions, hnil] at h
      exact hrest hspaced (Prod.mk.inj (Option.some.inj h)).2.symm
    rw [repetitions] at h ⊢
    rw [skip_append hskip]
    split at h
    · next heq =>
      rw [heq]
      simp only [List.cons_append, greed_append]
      exact ih h
    · next heq =>
      rw [heq]
      simp only [List.cons_append, greed_append]
      exact ih h
    · next heq =>
      rw [heq]
      simp only [List.cons_append, greed_append]
      exact ih h
    · next heq =>
      obtain ⟨⟨⟨least, most⟩, after⟩, hbounds, h⟩ := Option.bind_eq_some_iff.mp h
      have hafter : flags.Settled (flags.skip after) := by
        intro hspaced hnil
        simp only [hnil] at h
        exact hrest hspaced (eq_nil_of_repetitions_nil h)
      rw [heq]
      simp only [List.cons_append, bounds_append hbounds, Option.bind_some, skip_append hafter,
        greed_append]
      exact ih h
    · next hstar hplus hquestion hbrace =>
      cases h
      split
      · next heq => exact absurd heq (append_close_ne_cons (by decide) hstar _)
      · next heq => exact absurd heq (append_close_ne_cons (by decide) hplus _)
      · next heq => exact absurd heq (append_close_ne_cons (by decide) hquestion _)
      · next heq => exact absurd heq (append_close_ne_cons (by decide) hbrace _)
      · rfl

/-- Repetitions add no groups. -/
theorem groupFree_of_repetitions {fuel : Nat} {r q : Regex}
    (h : repetitions flags fuel r cs = some (q, rest)) : groupFree q = groupFree r := by
  induction fuel generalizing r cs with
  | zero => cases h
  | succ fuel ih =>
    rw [repetitions] at h
    split at h
    · exact (ih h).trans rfl
    · exact (ih h).trans rfl
    · exact (ih h).trans rfl
    · obtain ⟨⟨⟨least, most⟩, after⟩, -, h⟩ := Option.bind_eq_some_iff.mp h
      exact (ih h).trans rfl
    · cases h
      rfl

end Repetitions

/-! ## Groups and flags -/

section Groups

variable {flags : Flags} {cs rest : List Char}

theorem flagLetters_append {seen : List Char} {changed : Flags} {last : Char}
    (h : flagLetters flags seen cs = some (changed, last, rest)) :
    flagLetters flags seen (cs ++ ')' :: more) = some (changed, last, rest ++ ')' :: more) := by
  induction cs generalizing flags seen with
  | nil => cases h
  | cons c ds ih =>
    rw [List.cons_append, flagLetters]
    rw [flagLetters] at h
    split
    · next hend =>
      rw [if_pos hend] at h
      split
      · next hminus => rw [if_pos hminus] at h; cases h
      · next hminus => rw [if_neg hminus] at h; cases h; rfl
    · next hend =>
      rw [if_neg hend] at h
      split
      · next hseen => rw [if_pos hseen] at h; cases h
      · next hseen =>
        rw [if_neg hseen] at h
        split
        · next hminus =>
          rw [if_pos hminus] at h
          exact ih h
        · next hminus =>
          rw [if_neg hminus] at h
          obtain ⟨flags', hflags, h⟩ := Option.bind_eq_some_iff.mp h
          rw [hflags, Option.bind_some]
          exact ih h

theorem groupName_append {name : List Char} (h : groupName cs = some (name, rest)) :
    groupName (cs ++ ')' :: more) = some (name, rest ++ ')' :: more) := by
  simp only [groupName, drop_takeWhile] at h ⊢
  split at h
  · next c tail d after hname hdrop =>
    have hne : cs.dropWhile (· != '>') ≠ [] := by simp [hdrop]
    rw [takeWhile_append_close (.inl hne), dropWhile_append_close (.inl hne), hname, hdrop]
    simp only [List.cons_append]
    split at h
    · next hvalid =>
      cases h
      rw [if_pos hvalid, hname]
    · cases h
  · cases h

/-- A name, behind an angle bracket that does not begin a look-behind. -/
theorem opening_of_angle {ds : List Char} (h : flags.skip cs = '?' :: '<' :: ds)
    (hbehind : ∀ tail, ds ≠ '=' :: tail) (hnotBehind : ∀ tail, ds ≠ '!' :: tail) :
    opening flags cs = opening.named flags ds := by
  unfold opening
  rw [h]
  split <;> grind

/-- Letters of flags, behind a question mark. -/
theorem opening_of_letters {ds : List Char} (h : flags.skip cs = '?' :: ds)
    (hname : ∀ tail, ds ≠ 'P' :: '<' :: tail) (hangle : ∀ tail, ds ≠ '<' :: tail)
    (hclose : ∀ tail, ds ≠ ')' :: tail) :
    opening flags cs = (flagLetters flags [] ds).map fun (changed, last, rest) =>
      (if last = ')' then .flags changed else .group changed none, rest) := by
  unfold opening
  rw [h]
  split <;> simp_all

/-- A group by itself. -/
theorem opening_of_ne (h : ∀ tail, flags.skip cs ≠ '?' :: tail) :
    opening flags cs = some (.group flags none, flags.skip cs) := by
  unfold opening
  split <;> simp_all

/-- At the end of a text begins a group, and no flags. -/
theorem opening_of_nil (h : flags.skip cs = []) :
    opening flags cs = some (.group flags none, []) := by
  rw [opening_of_ne (by simp [h]), h]

/-- The beginning of a group is read in the same way where a parenthesis follows. -/
theorem opening_append {o : Opening} (hskip : flags.skip cs ≠ [])
    (h : opening flags cs = some (o, rest)) :
    opening flags (cs ++ ')' :: more) = some (o, rest ++ ')' :: more) := by
  have hnamed : ∀ {ds : List Char}, opening.named flags ds = some (o, rest) →
      opening.named flags (ds ++ ')' :: more) = some (o, rest ++ ')' :: more) := by
    intro ds h
    obtain ⟨⟨name, after⟩, hname, heq⟩ := Option.map_eq_some_iff.mp h
    cases heq
    rw [opening.named, groupName_append hname]
    rfl
  have happend : flags.skip (cs ++ ')' :: more) = flags.skip cs ++ ')' :: more :=
    skip_append (Flags.settled_of_ne_nil hskip)
  unfold opening at h
  split at h
  · next ds heq =>
    rw [heq] at happend
    rw [opening, happend]
    exact hnamed h
  · cases h
  · cases h
  · next ds hbehind hnotBehind heq =>
    rw [heq] at happend
    rw [opening_of_angle happend (append_close_ne_cons (by decide) hbehind)
      (append_close_ne_cons (by decide) hnotBehind)]
    exact hnamed h
  · cases h
  · next ds hname _ _ hangle hclose heq =>
    obtain ⟨⟨changed, last, after⟩, hletters, heq'⟩ := Option.map_eq_some_iff.mp h
    cases heq'
    rw [heq, List.cons_append] at happend
    rw [opening_of_letters happend (append_close_ne_cons_cons (by decide) (by decide) hname)
      (append_close_ne_cons (by decide) hangle) ?_, flagLetters_append hletters]
    · rfl
    · intro tail heq'
      cases ds with
      | nil => cases hletters
      | cons d ds => exact hclose ds (by rw [(List.cons.inj heq').1])
  · next hmark =>
    cases h
    rw [opening_of_ne, happend]
    rw [happend]
    exact append_close_ne_cons (by decide) hmark

/-- **An item that is no group is read in the same way where a parenthesis follows.** -/
theorem item_append {fuel fuel' : Nat} {r : Regex} (hle : fuel ≤ fuel')
    (h : item flags fuel cs = some (r, rest)) :
    item flags fuel' (cs ++ ')' :: more) = some (r, rest ++ ')' :: more) := by
  unfold item at h
  split at h
  · cases h
  · obtain ⟨⟨e, after⟩, he, heq⟩ := Option.map_eq_some_iff.mp h
    cases heq
    rw [List.cons_append, item, escaped_append he]
    rfl
  · obtain ⟨⟨s, after⟩, hs, heq⟩ := Option.map_eq_some_iff.mp h
    cases heq
    rw [List.cons_append, item, (extends_bracketClass flags fuel).1 _ _ _ _ _ hle hs]
    rfl
  · cases h
    rfl
  · cases h
    rfl
  · cases h
    rfl
  · next c ds hslash hbracket hdot hcaret hdollar =>
    split at h
    · cases h
    · next hoperator =>
      cases h
      rw [List.cons_append, item, if_neg hoperator]
      all_goals assumption

/-- An item that is no group holds none. -/
theorem groupFree_of_item {fuel : Nat} {r : Regex} (h : item flags fuel cs = some (r, rest)) :
    groupFree r = true := by
  unfold item at h
  split at h
  · cases h
  · obtain ⟨⟨e, after⟩, he, heq⟩ := Option.map_eq_some_iff.mp h
    cases heq
    cases e <;> rfl
  · obtain ⟨⟨s, after⟩, hs, heq⟩ := Option.map_eq_some_iff.mp h
    cases heq
    rfl
  · cases h
    rfl
  · cases h
    rfl
  · cases h
    rfl
  · split at h
    · cases h
    · cases h
      rfl

end Groups

end RefTree.Regex
