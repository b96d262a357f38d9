import RefTree.Proofs.Regex.Extend.Item
import RefTree.Proofs.Regex.Refusal

/-!
# Proofs/Regex/Anywhere — an expression is the same expression inside a group

The reader looks at what stands behind a piece, at the flags and at the names of the groups before
it.  Behind a text that is read to its end a closing parenthesis changes nothing, unless blanks and
comments are skipped there; the flags are those of an expression by itself; and of the names only
one matters: whether one of those that the text adds was there before.  So a text that is an
expression is read as it between parentheses as well, or refused for a name that is given twice
(`exists_of_parse`).  All three kinds of readers call each other, and one induction on their fuel
carries what they read and the names that they add (`readsAnywhere`).
-/

namespace RefTree.Regex

/-! ## New names -/

/-- None of the new names is among the names. -/
def Fresh (new names : List String) : Prop := ∀ name ∈ new, name ∉ names

instance (new names : List String) : Decidable (Fresh new names) :=
  inferInstanceAs (Decidable (∀ name ∈ new, name ∉ names))

section Fresh

variable {new new' names names' : List String}

@[simp] theorem fresh_nil (names : List String) : Fresh [] names := by simp [Fresh]

theorem fresh_append_left : Fresh (new ++ new') names ↔ Fresh new names ∧ Fresh new' names :=
  List.forall_mem_append

theorem fresh_append_right : Fresh new (names ++ names') ↔ Fresh new names ∧ Fresh new names' := by
  simp only [Fresh, List.mem_append, not_or, forall_and]

/-- Names that are added one after the other. -/
theorem fresh_append_iff {base : List String} (h : Fresh new' (new ++ base)) :
    Fresh (new' ++ new) names ↔ Fresh new names ∧ Fresh new' (new ++ names) := by
  have hnew : Fresh new' new := (fresh_append_right.mp h).1
  rw [fresh_append_left, fresh_append_right, and_comm]
  exact and_congr_right fun _ => (and_iff_right hnew).symm

theorem any_contains_eq {name : Option String} :
    name.any names.contains = !decide (Fresh name.toList names) := by
  cases name with
  | none => simp
  | some name => simp [Fresh]

end Fresh

/-! ## The steps of the reader -/

section Steps

variable {fuel : Nat} {s : Reading} {cs : List Char} {c : Char}

theorem items_of_nil (h : s.flags.skip s.rest = []) :
    items (fuel + 1) s = some (.empty, { s with rest := [] }) := by
  rw [items, h]

theorem eq_of_items_nil {flags : Flags} {names : List String} {q : Regex} {s' : Reading}
    (h : items fuel ⟨[], flags, names⟩ = some (q, s')) : s' = ⟨[], flags, names⟩ := by
  cases fuel with
  | zero => cases h
  | succ fuel =>
    rw [items_of_nil (skip_nil flags)] at h
    exact (Prod.mk.inj (Option.some.inj h)).2.symm

theorem items_of_close (hc : c = ')' ∨ c = '|') (h : s.flags.skip s.rest = c :: cs) :
    items (fuel + 1) s = some (.empty, { s with rest := c :: cs }) := by
  rw [items, h]
  rcases hc with rfl | rfl <;> rfl

theorem items_of_flags {flags : Flags} {rest : List Char} (h : s.flags.skip s.rest = '(' :: cs)
    (hopening : opening s.flags cs = some (.flags flags, rest)) :
    items (fuel + 1) s = items fuel { s with rest := rest, flags := flags } := by
  rw [items, h]
  simp only [hopening]

theorem items_of_group {flags : Flags} {name : Option String} {rest : List Char}
    (h : s.flags.skip s.rest = '(' :: cs)
    (hopening : opening s.flags cs = some (.group flags name, rest)) :
    items (fuel + 1) s =
      if Fresh name.toList s.names then
        match alternatives fuel ⟨rest, flags, name.toList ++ s.names⟩ with
        | some (r, ⟨')' :: rest, _, names⟩) =>
          itemsAfter fuel (nameIf name r) ⟨rest, s.flags, names⟩
        | _ => none
      else none := by
  rw [items, h]
  simp only [hopening, any_contains_eq]
  by_cases hfresh : Fresh name.toList s.names
  · refine (if_neg ?_).trans (Eq.trans ?_ (if_pos hfresh).symm)
    · simp [hfresh]
    · rfl
  · refine (if_pos ?_).trans (if_neg hfresh).symm
    simp [hfresh]

theorem items_of_item (hc : c ≠ '(' ∧ c ≠ ')' ∧ c ≠ '|') (h : s.flags.skip s.rest = c :: cs) :
    items (fuel + 1) s = (item s.flags fuel (c :: cs)).bind fun (r, rest) =>
      itemsAfter fuel r { s with rest := rest } := by
  obtain ⟨hopen, hclose, hbar⟩ := hc
  rw [items, h]
  split <;> simp_all

theorem alternatives_of_bar {q : Regex} {s' : Reading} (h : items fuel s = some (q, s'))
    (hbar : s'.rest = '|' :: cs) :
    alternatives (fuel + 1) s =
      (alternatives fuel { s' with rest := cs }).map fun (p, s) => (.alt q p, s) := by
  simp only [alternatives, h, Option.bind_some, hbar]

theorem alternatives_of_ne {q : Regex} {s' : Reading} (h : items fuel s = some (q, s'))
    (hbar : ∀ cs, s'.rest ≠ '|' :: cs) : alternatives (fuel + 1) s = some (q, s') := by
  simp only [alternatives, h, Option.bind_some]

end Steps

/-! ## Readings -/

/-- Nothing that the flags skip is left open where the reading has ended. -/
def Reading.Settled (s : Reading) : Prop := s.flags.Settled s.rest

/-- From `s`, `read` goes on to `s'` and adds the names `new`.  It does so wherever a parenthesis
follows, and whichever names have been given before: if one of these is added again it finds
nothing, else it finds `r` again. -/
structure ReadsAnywhere (read : Nat → Reading → Option (Regex × Reading)) (fuel : Nat)
    (s s' : Reading) (r : Regex) (new : List String) : Prop where
  names : s'.names = new ++ s.names
  fresh : Fresh new s.names
  read : ∀ fuel' names more, fuel ≤ fuel' →
    read fuel' ⟨s.rest ++ ')' :: more, s.flags, names⟩ =
      if Fresh new names then some (r, ⟨s'.rest ++ ')' :: more, s'.flags, new ++ names⟩) else none

/-- What is read from `s` is read anywhere, and is free of groups if no names are added. -/
def Anywhere (read : Nat → Reading → Option (Regex × Reading)) (free : Prop) (fuel : Nat) : Prop :=
  ∀ s s' r, read fuel s = some (r, s') → s'.Settled →
    ∃ new, ReadsAnywhere read fuel s s' r new ∧ (groupFree r = true ↔ free ∧ new = [])

variable {fuel : Nat}

/-- An alternative, and those behind its bar. -/
theorem alternatives_step (hitems : Anywhere items True fuel)
    (halternatives : Anywhere alternatives True fuel) : Anywhere alternatives True (fuel + 1) := by
  intro s s' r h hsettled
  obtain ⟨⟨q, s₁⟩, hread, hrest⟩ := Option.bind_eq_some_iff.mp (by rwa [alternatives] at h)
  by_cases hbar : ∃ cs, s₁.rest = '|' :: cs
  · obtain ⟨cs, hbar⟩ := hbar
    rw [alternatives_of_bar hread hbar] at h
    obtain ⟨⟨p, s₂⟩, hread', heq⟩ := Option.map_eq_some_iff.mp h
    cases heq
    obtain ⟨new₁, ⟨hnames₁, hfresh₁, hread₁⟩, hfree₁⟩ :=
      hitems s s₁ q hread (Flags.settled_of_ne_nil (by simp [hbar]))
    obtain ⟨new₂, ⟨hnames₂, hfresh₂, hread₂⟩, hfree₂⟩ := halternatives _ _ p hread' hsettled
    rw [hnames₁] at hfresh₂
    refine ⟨new₂ ++ new₁, ⟨?_, ?_, fun fuel' names more hle => ?_⟩, ?_⟩
    · rw [hnames₂, hnames₁, List.append_assoc]
    · exact (fresh_append_iff hfresh₂).mpr ⟨hfresh₁, hfresh₂⟩
    · obtain ⟨fuel', rfl⟩ : ∃ k, fuel' = k + 1 := ⟨fuel' - 1, by omega⟩
      have hq := hread₁ fuel' names more (by omega)
      have hp := hread₂ fuel' (new₁ ++ names) more (by omega)
      simp only [fresh_append_iff hfresh₂]
      by_cases hnew : Fresh new₁ names
      · rw [if_pos hnew] at hq
        have hbar' : s₁.rest ++ ')' :: more = '|' :: (cs ++ ')' :: more) := by simp [hbar]
        rw [alternatives_of_bar hq hbar', hp]
        by_cases hnew' : Fresh new₂ (new₁ ++ names) <;> simp [hnew, hnew']
      · rw [if_neg hnew] at hq
        simp [alternatives, hq, hnew]
    · simp only [groupFree, Bool.and_eq_true, hfree₁, hfree₂, List.append_eq_nil_iff, true_and]
      exact and_comm
  · have hne : ∀ cs, s₁.rest ≠ '|' :: cs := fun cs heq => hbar ⟨cs, heq⟩
    rw [alternatives_of_ne hread hne] at h
    cases h
    obtain ⟨new, ⟨hnames, hfresh, hread⟩, hfree⟩ := hitems s s' r hread hsettled
    refine ⟨new, ⟨hnames, hfresh, fun fuel' names more hle => ?_⟩, hfree⟩
    obtain ⟨fuel', rfl⟩ : ∃ k, fuel' = k + 1 := ⟨fuel' - 1, by omega⟩
    have hq := hread fuel' names more (by omega)
    by_cases hnew : Fresh new names
    · rw [if_pos hnew] at hq ⊢
      exact alternatives_of_ne hq (append_close_ne_cons (by decide) hne)
    · rw [if_neg hnew] at hq
      simp [alternatives, hq, hnew]

/-- An item with its repetitions and the items after it. -/
theorem itemsAfter_step (hitems : Anywhere items True fuel) (q : Regex) :
    Anywhere (itemsAfter · q) (groupFree q = true) (fuel + 1) := by
  intro s s' r h hsettled
  simp only [itemsAfter] at h
  obtain ⟨⟨p, rest⟩, hreps, h⟩ := Option.bind_eq_some_iff.mp h
  obtain ⟨⟨z, s₁⟩, hread, heq⟩ := Option.map_eq_some_iff.mp h
  cases heq
  obtain ⟨new, ⟨hnames, hfresh, hread'⟩, hfree⟩ := hitems _ _ z hread hsettled
  have hrest : s.flags.Settled rest := by
    rintro hspaced rfl
    rw [eq_of_items_nil hread] at hsettled
    exact hsettled hspaced rfl
  refine ⟨new, ⟨hnames, hfresh, fun fuel' names more hle => ?_⟩, ?_⟩
  · obtain ⟨fuel', rfl⟩ : ∃ k, fuel' = k + 1 := ⟨fuel' - 1, by omega⟩
    have hz := hread' fuel' names more (by omega)
    simp only [itemsAfter, repetitions_append (show fuel ≤ fuel' by omega) hrest hreps,
      Option.bind_some, hz]
    by_cases hnew : Fresh new names <;> simp [hnew]
  · rw [groupFree, Bool.and_eq_true, groupFree_of_repetitions hreps, hfree, true_and]

theorem rest_of_alternatives_nil {flags : Flags} {names : List String} {r : Regex} {s' : Reading}
    (h : alternatives fuel ⟨[], flags, names⟩ = some (r, s')) : s'.rest = [] := by
  cases fuel with
  | zero => cases h
  | succ fuel =>
    obtain ⟨⟨q, s₁⟩, hread, -⟩ := Option.bind_eq_some_iff.mp (by rwa [alternatives] at h)
    obtain rfl := eq_of_items_nil hread
    rw [alternatives_of_ne hread (by simp)] at h
    cases h
    rfl

theorem groupFree_nameIf {name : Option String} {r : Regex} :
    groupFree (nameIf name r) = true ↔ groupFree r = true ∧ name.toList = [] := by
  cases name <;> simp [nameIf, groupFree]

/-- Where the items end there is nothing to add. -/
theorem readsAnywhere_of_close {s s' : Reading} {c : Char} {cs : List Char}
    (hc : c = ')' ∨ c = '|') (hs : s' = { s with rest := cs })
    (hskip : ∀ more, ∃ cs', s.flags.skip (s.rest ++ ')' :: more) = c :: cs' ∧
      c :: cs' = cs ++ ')' :: more) :
    ReadsAnywhere items (fuel + 1) s s' .empty [] := by
  subst hs
  refine ⟨rfl, fresh_nil _, fun fuel' names more hle => ?_⟩
  obtain ⟨fuel', rfl⟩ : ∃ k, fuel' = k + 1 := ⟨fuel' - 1, by omega⟩
  obtain ⟨cs', hskip, heq⟩ := hskip more
  rw [if_pos (fresh_nil _), ← heq]
  exact items_of_close hc hskip

/-- A group, its repetitions and the items after it. -/
theorem items_group_step (halternatives : Anywhere alternatives True fuel)
    (hafter : ∀ q, Anywhere (itemsAfter · q) (groupFree q = true) fuel) {s s' : Reading}
    {r : Regex} {cs rest : List Char} {flags : Flags} {name : Option String}
    (hskip : s.flags.skip s.rest = '(' :: cs)
    (hopening : opening s.flags cs = some (.group flags name, rest))
    (h : items (fuel + 1) s = some (r, s')) (hsettled : s'.Settled) :
    ∃ new, ReadsAnywhere items (fuel + 1) s s' r new ∧ (groupFree r = true ↔ new = []) := by
  rw [items_of_group hskip hopening] at h
  have hname : Fresh name.toList s.names := by
    by_contra hname
    rw [if_neg hname] at h
    cases h
  rw [if_pos hname] at h
  split at h
  case h_2 => cases h
  next q after inside names hinner =>
  -- a group that begins at the end of a text is not closed
  have hcs : s.flags.skip cs ≠ [] := by
    intro hnil
    cases (opening_of_nil hnil).symm.trans hopening
    cases rest_of_alternatives_nil hinner
  obtain ⟨new₁, ⟨hnames₁, hfresh₁, hread₁⟩, hfree₁⟩ :=
    halternatives _ _ q hinner (Flags.settled_of_ne_nil (List.cons_ne_nil _ _))
  obtain ⟨new₂, ⟨hnames₂, hfresh₂, hread₂⟩, hfree₂⟩ := hafter _ _ _ r h hsettled
  simp only at hnames₁ hnames₂ hfresh₁ hfresh₂ hread₁ hread₂
  subst hnames₁
  have hfresh : Fresh (new₁ ++ name.toList) s.names :=
    (fresh_append_iff hfresh₁).mpr ⟨hname, hfresh₁⟩
  rw [← List.append_assoc] at hnames₂ hfresh₂
  refine ⟨new₂ ++ (new₁ ++ name.toList), ⟨?_, ?_, fun fuel' names more hle => ?_⟩, ?_⟩
  · rw [hnames₂]
    simp only [List.append_assoc]
  · exact (fresh_append_iff hfresh₂).mpr ⟨hfresh, hfresh₂⟩
  · obtain ⟨fuel', rfl⟩ : ∃ k, fuel' = k + 1 := ⟨fuel' - 1, by omega⟩
    have hq := hread₁ fuel' (name.toList ++ names) more (by omega)
    have hr := hread₂ fuel' ((new₁ ++ name.toList) ++ names) more (by omega)
    simp only [fresh_append_iff hfresh₂, fresh_append_iff hfresh₁]
    rw [items_of_group (s := ⟨_, s.flags, names⟩) (skip_append_of_cons hskip)
      (opening_append hcs hopening)]
    by_cases hnew : Fresh name.toList names
    · by_cases hnew₁ : Fresh new₁ (name.toList ++ names)
      · rw [if_pos hnew₁, ← List.append_assoc] at hq
        simp only [hnew, hnew₁, hq, if_true, true_and, List.cons_append, hr]
        simp only [List.append_assoc]
      · rw [if_neg hnew₁] at hq
        simp [hnew, hnew₁, hq]
    · simp [hnew]
  · rw [hfree₂, groupFree_nameIf, hfree₁, List.append_eq_nil_iff, List.append_eq_nil_iff]
    simp only [true_and]
    exact and_comm

/-- The items of an alternative, by what the first of them is. -/
theorem items_step (halternatives : Anywhere alternatives True fuel)
    (hitems : Anywhere items True fuel)
    (hafter : ∀ q, Anywhere (itemsAfter · q) (groupFree q = true) fuel) :
    Anywhere items True (fuel + 1) := by
  intro s s' r h hsettled
  cases hskip : s.flags.skip s.rest with
  | nil =>
    rw [items_of_nil hskip] at h
    cases h
    have hspaced : s.flags.Settled (s.flags.skip s.rest) := by
      rw [hskip]
      exact hsettled
    refine ⟨[], readsAnywhere_of_close (.inl rfl) rfl fun more => ⟨more, ?_, rfl⟩,
      by simp [groupFree]⟩
    rw [skip_append hspaced, hskip]
    rfl
  | cons c cs =>
    by_cases hclose : c = ')' ∨ c = '|'
    · rw [items_of_close hclose hskip] at h
      cases h
      exact ⟨[], readsAnywhere_of_close hclose rfl fun more => ⟨_, skip_append_of_cons hskip, rfl⟩,
        by simp [groupFree]⟩
    by_cases hopen : c = '('
    · subst hopen
      cases hopening : opening s.flags cs with
      | none =>
        rw [items, hskip] at h
        simp [hopening] at h
      | some found =>
        obtain ⟨o, rest⟩ := found
        cases o with
        | group flags name =>
          simpa using items_group_step halternatives hafter hskip hopening h hsettled
        | flags flags =>
          have hcs : s.flags.skip cs ≠ [] := by
            intro hnil
            cases (opening_of_nil hnil).symm.trans hopening
          rw [items_of_flags hskip hopening] at h
          obtain ⟨new, ⟨hnames, hfresh, hread⟩, hfree⟩ := hitems _ _ r h hsettled
          refine ⟨new, ⟨hnames, hfresh, fun fuel' names more hle => ?_⟩, hfree⟩
          obtain ⟨fuel', rfl⟩ : ∃ k, fuel' = k + 1 := ⟨fuel' - 1, by omega⟩
          refine (items_of_flags (s := ⟨_, s.flags, names⟩) (skip_append_of_cons hskip)
            (opening_append hcs hopening)).trans ?_
          exact hread fuel' names more (by omega)
    · have hc : c ≠ '(' ∧ c ≠ ')' ∧ c ≠ '|' := ⟨hopen, not_or.mp hclose⟩
      rw [items_of_item hc hskip] at h
      obtain ⟨⟨q, rest⟩, hitem, h⟩ := Option.bind_eq_some_iff.mp h
      obtain ⟨new, ⟨hnames, hfresh, hread⟩, hfree⟩ := hafter q _ _ r h hsettled
      refine ⟨new, ⟨hnames, hfresh, fun fuel' names more hle => ?_⟩, ?_⟩
      · obtain ⟨fuel', rfl⟩ : ∃ k, fuel' = k + 1 := ⟨fuel' - 1, by omega⟩
        rw [items_of_item hc (skip_append_of_cons hskip), ← List.cons_append,
          item_append (show fuel ≤ fuel' by omega) hitem, Option.bind_some]
        exact hread fuel' names more (by omega)
      · rw [hfree, groupFree_of_item hitem]
        simp

/-- **What is read is read anywhere.** -/
theorem readsAnywhere (fuel : Nat) :
    Anywhere alternatives True fuel ∧ Anywhere items True fuel ∧
      ∀ q, Anywhere (itemsAfter · q) (groupFree q = true) fuel := by
  induction fuel with
  | zero =>
    refine ⟨fun _ _ _ h => ?_, fun _ _ _ h => ?_, fun _ _ _ _ h => ?_⟩
    · cases h
    · cases h
    · cases h
  | succ fuel ih =>
    obtain ⟨halternatives, hitems, hafter⟩ := ih
    exact ⟨alternatives_step hitems halternatives, items_step halternatives hitems hafter,
      itemsAfter_step hitems⟩

/-! ## Texts of groups -/

/-- Where the text ends, blanks and comments are skipped. -/
def endsVerbose (text : String) : Bool :=
  match alternatives (fuelFor text.toList) ⟨text.toList, {}, []⟩ with
  | some (_, s) => s.flags.spaced
  | none => false

/-- **An expression is the same between parentheses**, if none of its groups has a name that was
given before; else there is no such group. -/
theorem exists_of_parse {text : String} {r : Regex} (h : parse text = some r)
    (hverbose : endsVerbose text = false) :
    ∃ new, (groupFree r = true ↔ new = []) ∧
      ∀ names, (Fresh new names → ReadsInside names text.toList r (new ++ names)) ∧
        (¬ Fresh new names → RefusesInside names text.toList) := by
  unfold parse at h
  split at h
  case h_2 => cases h
  next q flags names hread =>
  cases h
  have hsettled : (⟨[], flags, names⟩ : Reading).Settled := by
    intro hspaced
    rw [endsVerbose, hread] at hverbose
    cases hspaced.symm.trans hverbose
  obtain ⟨new, ⟨-, -, hanywhere⟩, hfree⟩ := (readsAnywhere _).1 _ _ r hread hsettled
  refine ⟨new, by simpa using hfree, fun names => ⟨fun hnew => ?_, fun hnew => ?_⟩⟩
  · intro more fuel hfuel
    exact ⟨flags, (hanywhere fuel names more hfuel).trans (if_pos hnew)⟩
  · intro more fuel hfuel
    exact (hanywhere fuel names more hfuel).trans (if_neg hnew)

end RefTree.Regex
