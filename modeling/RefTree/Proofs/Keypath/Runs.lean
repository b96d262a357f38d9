import Mathlib.Data.List.Infix
import RefTree.Proofs.Keypath.Passes

/-!
# Proofs/Keypath/Runs — what is left when runs are replaced

A separator that a pass writes may end a group, or stand beside another separator, so that the pass
leaves what it was to remove.  Whether that can be hangs on how copies of the separator overlap.
Copies that overlap in step (`InStep`) are made one for good (`not_infix_replaceRuns`), and nothing
new comes of it (`infix_of_infix_replaceRuns`).  Groups are made separators for good
(`not_infix_settle`) if copies of the separator do not overlap at all (`Unbordered`) and the token
does not begin in one (`Meets`).

All of it is by one induction, along the runs of a text (`replaceRuns_induct`).
-/

namespace RefTree.Text

variable {α : Type}

/-! ## Copies in a row -/

/-- `n` copies of a text in a row. -/
def copies (n : Nat) (unit : List α) : List α := (List.replicate n unit).flatten

@[simp] theorem copies_zero (unit : List α) : copies 0 unit = [] := rfl

theorem copies_succ (n : Nat) (unit : List α) : copies (n + 1) unit = unit ++ copies n unit := by
  rw [copies, List.replicate_succ, List.flatten_cons, copies]

@[simp] theorem copies_one (unit : List α) : copies 1 unit = unit := by
  rw [copies_succ, copies_zero, List.append_nil]

theorem copies_two (unit : List α) : copies 2 unit = unit ++ unit := by
  rw [copies_succ, copies_one]

theorem copies_add (m n : Nat) (unit : List α) :
    copies (m + n) unit = copies m unit ++ copies n unit := by
  rw [copies, List.replicate_add, List.flatten_append, copies, copies]

theorem copies_prefix_copies {m n : Nat} (h : m ≤ n) (unit : List α) :
    copies m unit <+: copies n unit := by
  obtain ⟨k, rfl⟩ := Nat.exists_eq_add_of_le h
  rw [copies_add]
  exact List.prefix_append _ _

theorem suffix_copies {n : Nat} (h : 0 < n) (unit : List α) : unit <:+ copies n unit := by
  obtain ⟨k, rfl⟩ := Nat.exists_eq_add_of_le' h
  rw [copies_add, copies_one]
  exact List.suffix_append _ _

theorem length_copies (n : Nat) (unit : List α) : (copies n unit).length = n * unit.length := by
  simp [copies]

variable [DecidableEq α] {unit new text : List α} {least : Nat}

theorem after?_eq_none_iff {front text : List α} : after? front text = none ↔ ¬ front <+: text := by
  simp only [Option.eq_none_iff_forall_ne_some, ne_eq, after?_eq_some_iff]
  exact ⟨fun h ⟨rest, hrest⟩ => h rest hrest.symm, fun h rest hrest => h ⟨rest, hrest.symm⟩⟩

/-- The copies at the front, and no copy behind them. -/
theorem leadingRun_spec (hunit : unit ≠ []) (text : List α) :
    text = copies (leadingRun unit text).1 unit ++ (leadingRun unit text).2 ∧
      ¬ unit <+: (leadingRun unit text).2 := by
  fun_induction leadingRun unit text with
  | case1 text rest h hlt run ih =>
    obtain ⟨heq, hnot⟩ := ih
    refine ⟨?_, hnot⟩
    rw [copies_succ, List.append_assoc, ← heq]
    exact after?_eq_some_iff.mp h
  | case2 text rest h hlt =>
    have := length_after? h
    have := List.length_pos_iff.mpr hunit
    omega
  | case3 text h => exact ⟨rfl, after?_eq_none_iff.mp h⟩

/-- As many copies as are counted are at the front. -/
theorem le_leadingRun_iff (hunit : unit ≠ []) {n : Nat} {text : List α} :
    n ≤ (leadingRun unit text).1 ↔ copies n unit <+: text := by
  constructor
  · intro hn
    obtain ⟨k, hk⟩ := Nat.exists_eq_add_of_le hn
    have heq := (leadingRun_spec hunit text).1
    rw [hk, copies_add, List.append_assoc] at heq
    exact ⟨_, heq.symm⟩
  · intro h
    induction n generalizing text with
    | zero => exact Nat.zero_le _
    | succ n ih =>
      obtain ⟨rest, rfl⟩ := h
      rw [copies_succ, List.append_assoc, leadingRun_append hunit]
      exact Nat.succ_le_succ (ih (List.prefix_append _ rest))

/-- **Induction along a replacement of runs**: a run that is long enough is replaced with all its
copies, and any other character stays. -/
theorem replaceRuns_induct {P : List α → List α → Prop} (hunit : unit ≠ []) (hleast : 0 < least)
    (nil : P [] [])
    (keep : ∀ c text, ¬ copies least unit <+: c :: text → P text (replaceRuns unit least new text) →
      P (c :: text) (c :: replaceRuns unit least new text))
    (run : ∀ k text, least ≤ k → ¬ unit <+: text → P text (replaceRuns unit least new text) →
      P (copies k unit ++ text) (new ++ replaceRuns unit least new text))
    (text : List α) : P text (replaceRuns unit least new text) := by
  fun_induction replaceRuns unit least new text with
  | case1 => exact nil
  | case2 c cs found h ih =>
    obtain ⟨heq, hnot⟩ := leadingRun_spec hunit (c :: cs)
    have hrun := run _ _ h.1 hnot ih
    rwa [← heq] at hrun
  | case3 c cs found h ih =>
    refine keep c cs (fun hcopies => ?_) ih
    have hle := (le_leadingRun_iff hunit).mpr hcopies
    have hlt : (leadingRun unit (c :: cs)).2.length < (c :: cs).length := by
      have hlen := congrArg List.length (leadingRun_spec hunit (c :: cs)).1
      have hpos := Nat.mul_pos (Nat.lt_of_lt_of_le hleast hle) (List.length_pos_iff.mpr hunit)
      rw [List.length_append, length_copies] at hlen
      omega
    exact h ⟨hle, hlt⟩

/-- A text without a long enough run stays as it is. -/
theorem replaceRuns_of_not_infix (hunit : unit ≠ []) (hleast : 0 < least) {text : List α}
    (h : ¬ copies least unit <:+: text) : replaceRuns unit least new text = text := by
  refine replaceRuns_induct (P := fun text out => ¬ copies least unit <:+: text → out = text) hunit
    hleast (fun _ => rfl) (fun c text _ ih h => ?_) (fun k text hk _ ih h => ?_) text h
  · rw [ih fun hin => h (hin.trans (List.suffix_cons c text).isInfix)]
  · exact absurd ((copies_prefix_copies hk unit).trans (List.prefix_append _ _)).isInfix h

/-- **A long enough run makes the text shorter**, if what replaces it is shorter than the least
run. -/
theorem length_replaceRuns_lt (hunit : unit ≠ []) (hleast : 0 < least)
    (hnew : new.length < least * unit.length) {text : List α} (h : copies least unit <:+: text) :
    (replaceRuns unit least new text).length < text.length := by
  refine (replaceRuns_induct (P := fun text out => out.length ≤ text.length ∧
    (copies least unit <:+: text → out.length < text.length)) hunit hleast ?_
    (fun c text hnot ih => ⟨?_, fun h => ?_⟩) (fun k text hk _ ih => ?_) text).2 h
  · have hne : copies least unit ≠ [] := by
      have := Nat.lt_of_le_of_lt (Nat.zero_le _) hnew
      rwa [← length_copies, List.length_pos_iff] at this
    exact ⟨Nat.le_refl _, fun h => absurd (List.infix_nil.mp h) hne⟩
  · exact Nat.succ_le_succ ih.1
  · exact Nat.succ_lt_succ (ih.2 ((List.infix_cons_iff.mp h).resolve_left hnot))
  · have hlt : (new ++ replaceRuns unit least new text).length <
        (copies k unit ++ text).length := by
      have := Nat.mul_le_mul_right unit.length hk
      rw [List.length_append, List.length_append, length_copies]
      have := ih.1
      omega
    exact ⟨Nat.le_of_lt hlt, fun _ => hlt⟩

/-! ## Overlaps -/

/-- Copies of the text that overlap are in step: what it both begins and ends with can be moved from
its front to its end. -/
def InStep (text : List α) : Prop :=
  ∀ p, p <:+ text → p <+: text → p ≠ [] → text.drop p.length ++ p = text

/-- Copies of the text do not overlap. -/
def Unbordered (text : List α) : Prop := ∀ p, p <:+ text → p <+: text → p ≠ [] → p = text

/-- The text ends in something that the other one begins with. -/
def Meets (text other : List α) : Prop := ∃ p, p <:+ text ∧ p <+: other ∧ p ≠ []

instance (text : List α) : Decidable (InStep text) :=
  decidable_of_iff (∀ p ∈ text.tails, p <+: text → p ≠ [] → text.drop p.length ++ p = text)
    (forall_congr' fun p => by rw [List.mem_tails])

instance (text : List α) : Decidable (Unbordered text) :=
  decidable_of_iff (∀ p ∈ text.tails, p <+: text → p ≠ [] → p = text)
    (forall_congr' fun p => by rw [List.mem_tails])

instance (text other : List α) : Decidable (Meets text other) :=
  decidable_of_iff (∃ p ∈ text.tails, p <+: other ∧ p ≠ [])
    (exists_congr fun p => by rw [List.mem_tails])

section Overlaps

variable {s t p a b x : List α}

omit [DecidableEq α]

theorem InStep.eq_append (hs : InStep s) (hp : p ≠ []) (hfront : s = p ++ b) (hback : p <:+ s) :
    s = b ++ p := by
  have hrest : s.drop p.length = b := by rw [hfront, List.drop_left]
  rw [← hrest, hs p hback (hfront ▸ List.prefix_append p b) hp]

theorem Unbordered.inStep (hs : Unbordered s) : InStep s := by
  intro p hback hfront hp
  rw [hs p hback hfront hp, List.drop_length, List.nil_append]

theorem unbordered_singleton (c : α) : Unbordered [c] := by
  intro p hback _ hp
  exact (List.suffix_cons_iff.mp hback).resolve_right fun h => hp (List.suffix_nil.mp h)

/-- The copy that ends a text overlaps the copy inside by what it begins with. -/
theorem exists_of_append_eq (hlt : b.length < s.length) (h : x ++ s = a ++ s ++ b) :
    ∃ y p, p ≠ [] ∧ s = y ++ p ∧ s = p ++ b := by
  have hlen := congrArg List.length h
  simp only [List.length_append] at hlen
  obtain ⟨y, rfl⟩ : a <+: x := List.prefix_of_prefix_length_le
    ⟨s ++ b, by rw [h, List.append_assoc]⟩ (List.prefix_append x s) (by omega)
  rw [List.append_assoc, List.append_assoc, List.append_cancel_left_eq] at h
  simp only [List.length_append] at hlen
  obtain ⟨p, hp⟩ : y <+: s := List.prefix_of_prefix_length_le
    ⟨s, h⟩ (List.prefix_append s b) (by omega)
  refine ⟨y, p, ?_, hp.symm, ?_⟩
  · rintro rfl
    rw [← hp, List.append_nil] at hlt
    omega
  · rw [← hp, List.append_assoc, List.append_cancel_left_eq, hp] at h
    exact h

/-- A copy that ends before the last one begins stands before it. -/
theorem infix_of_append_eq (hle : s.length ≤ b.length) (h : x ++ s = a ++ s ++ b) : s <:+: x := by
  obtain ⟨b, rfl⟩ : s <:+ b :=
    List.suffix_of_suffix_length_le (List.suffix_append x s) (h ▸ List.suffix_append _ b) hle
  rw [← List.append_assoc, List.append_cancel_right_eq] at h
  exact ⟨a, b, h.symm⟩

/-- **What stands behind a copy that overlaps the last one** begins a copy. -/
theorem InStep.prefix_of_append_eq (hs : InStep s) (hlt : b.length < s.length)
    (h : x ++ s = a ++ s ++ b) : b <+: s := by
  obtain ⟨y, p, hp, hback, hfront⟩ := exists_of_append_eq hlt h
  have hturned := hs.eq_append hp hfront ⟨y, hback.symm⟩
  exact ⟨p, hturned.symm⟩

end Overlaps

/-! ## Two copies or more made one -/

section Collapse

variable {s f x : List α}

/-- Behind a copy inside the text a further copy could begin. -/
def GoesOn (s f : List α) : Prop := ∀ a b, f = a ++ s ++ b → a ≠ [] → b ≠ [] → b <+: s

omit [DecidableEq α] in
theorem goesOn_of_length_le (h : f.length ≤ s.length) : GoesOn s f := by
  intro a b heq ha _
  have := congrArg List.length heq
  have := List.length_pos_iff.mpr ha
  simp only [List.length_append] at *
  omega

omit [DecidableEq α] in
theorem InStep.goesOn_append_self (hs : InStep s) : GoesOn s (s ++ s) := by
  intro a b heq ha _
  refine hs.prefix_of_append_eq ?_ heq
  have := congrArg List.length heq
  have := List.length_pos_iff.mpr ha
  simp only [List.length_append] at *
  omega

omit [DecidableEq α] in
theorem InStep.goesOn_append (hs : InStep s) {t : List α} (ht : ¬ s <:+: t) :
    GoesOn s (t ++ s) := by
  intro a b heq _ _
  exact hs.prefix_of_append_eq (Nat.lt_of_not_le fun hle => ht (infix_of_append_eq hle heq)) heq

omit [DecidableEq α] in
/-- If two copies begin in the end of a copy, another one goes on behind that. -/
theorem InStep.prefix_of_two_eq (hs : InStep s) {p q : List α} (heq : s ++ s = p ++ q)
    (hback : p <:+ s) (hp : p ≠ []) : s <+: q := by
  obtain ⟨b, hb⟩ : p <+: s :=
    List.prefix_of_prefix_length_le ⟨q, heq.symm⟩ (List.prefix_append s s) hback.length_le
  have hturned := hs.eq_append hp hb.symm hback
  have hcut : p ++ q = p ++ (b ++ s) := by rw [← heq, ← List.append_assoc, hb]
  refine ⟨b, Eq.symm ?_⟩
  calc
    q = b ++ s := List.append_cancel_left hcut
    _ = b ++ p ++ b := by rw [List.append_assoc, hb]
    _ = s ++ b := by rw [← hturned]

/-- What a text begins with, it begins with before its copies are made one. -/
theorem prefix_of_prefix_replaceRuns (hs : s ≠ []) (hf : GoesOn s f) {text : List α} (hx : x ≠ [])
    (h : f <+: x ++ replaceRuns s 2 s text) : f <+: x ++ text := by
  refine replaceRuns_induct (P := fun text out => ∀ x, x ≠ [] → f <+: x ++ out → f <+: x ++ text) hs
    Nat.two_pos (fun _ _ h => h) (fun c text _ ih x _ h => ?_) (fun k text hk _ ih x hx h => ?_)
    text x hx h
  · rw [List.append_cons] at h ⊢
    exact ih _ (by simp) h
  · rw [← List.append_assoc] at h
    have hone := ih _ (by simp [hx]) h
    have htwo : x ++ s ++ s <+: x ++ (copies k s ++ text) := by
      rw [List.append_assoc, List.prefix_append_right_inj, ← copies_two]
      exact (copies_prefix_copies hk s).trans (List.prefix_append _ _)
    rcases List.prefix_or_prefix_of_prefix hone (List.prefix_append (x ++ s) text) with hle | hge
    · exact hle.trans ((List.prefix_append _ s).trans htwo)
    · obtain ⟨b, rfl⟩ := hge
      by_cases hb : b = []
      · subst hb
        rw [List.append_nil]
        exact (List.prefix_append _ s).trans htwo
      · exact ((List.prefix_append_right_inj _).mpr (hf x b rfl hx hb)).trans htwo

/-- **What stands in a text stands there before its copies are made one.** -/
theorem infix_of_infix_replaceRuns (hs : s ≠ []) (hf : GoesOn s f) {text : List α}
    (h : f <:+: replaceRuns s 2 s text) : f <:+: text := by
  refine replaceRuns_induct (P := fun text out => f <:+: out → f <:+: text) hs Nat.two_pos
    (fun h => h) (fun c text _ ih h => ?_) (fun k text hk _ ih h => ?_) text h
  · rcases List.infix_cons_iff.mp h with hfront | hin
    · exact (prefix_of_prefix_replaceRuns hs hf (List.cons_ne_nil c []) hfront).isInfix
    · exact (ih hin).trans (List.suffix_cons c text).isInfix
  · have hone : s ++ text <:+: copies k s ++ text := by
      obtain ⟨front, hfront⟩ := suffix_copies (Nat.lt_of_lt_of_le Nat.two_pos hk) s
      exact ⟨front, [], by rw [← hfront]; simp⟩
    refine List.IsInfix.trans ?_ hone
    rcases List.infix_append_iff.mp h with hin | hin | ⟨p, q, rfl, hback, hfront⟩
    · exact hin.trans (List.prefix_append s text).isInfix
    · exact (ih hin).trans (List.suffix_append s text).isInfix
    · obtain ⟨s', rfl⟩ := hback
      by_cases hp : p = []
      · subst hp
        exact (ih hfront.isInfix).trans (List.suffix_append _ text).isInfix
      · have hfront' := (List.prefix_append_right_inj p).mpr hfront
        have hin := (prefix_of_prefix_replaceRuns hs hf hp hfront').isInfix
        rw [List.append_assoc]
        exact hin.trans (List.suffix_append s' _).isInfix

/-- **No two copies in a row are left.** -/
theorem not_infix_replaceRuns (hstep : InStep s) (hs : s ≠ []) (text : List α) :
    ¬ s ++ s <:+: replaceRuns s 2 s text := by
  -- and none is at the front that was not there
  refine (replaceRuns_induct (P := fun text out => ¬ s ++ s <:+: out ∧ (s <+: out → s <+: text)) hs
    Nat.two_pos ⟨fun h => hs (by simpa using h), id⟩
    (fun c text hkeep ih => ⟨fun h => ?_, fun h => ?_⟩)
    (fun k text hk hend ih => ⟨fun h => ?_, fun _ => ?_⟩) text).1
  · rcases List.infix_cons_iff.mp h with hfront | hin
    · have hgoes := hstep.goesOn_append_self
      rw [copies_two] at hkeep
      exact hkeep (prefix_of_prefix_replaceRuns hs hgoes (List.cons_ne_nil c []) hfront)
    · exact ih.1 hin
  · have hgoes : GoesOn s s := goesOn_of_length_le (Nat.le_refl _)
    exact prefix_of_prefix_replaceRuns hs hgoes (List.cons_ne_nil c []) h
  · rcases List.infix_append_iff.mp h with hin | hin | ⟨p, q, heq, hback, hfront⟩
    · have := hin.length_le
      have := List.length_pos_iff.mpr hs
      rw [List.length_append] at *
      omega
    · exact ih.1 hin
    by_cases hp : p = []
    · subst hp
      exact ih.1 (heq ▸ hfront.isInfix)
    · exact hend (ih.2 ((hstep.prefix_of_two_eq heq hback hp).trans hfront))
  · have hone := copies_prefix_copies (Nat.le_of_succ_le hk) s
    rw [copies_one] at hone
    exact hone.trans (List.prefix_append _ text)

end Collapse

/-! ## Groups made separators -/

section Settle

variable {s t x : List α}

omit [DecidableEq α] in
/-- No copy stands inside a text that a copy ends, but for the copies before that one. -/
theorem Unbordered.eq_nil_of_append_eq (hs : Unbordered s) {b : List α} (hx : ¬ s <:+: x)
    {a : List α} (h : x ++ s = a ++ s ++ b) : b = [] := by
  have hlt := Nat.lt_of_not_le fun hle => hx (infix_of_append_eq hle h)
  obtain ⟨y, p, hp, hback, hfront⟩ := exists_of_append_eq hlt h
  have heq := hs p ⟨y, hback.symm⟩ ⟨b, hfront.symm⟩ hp
  rw [heq] at hfront
  exact List.append_right_eq_self.mp hfront.symm

omit [DecidableEq α] in
/-- **A group that ends in or behind a separator** ends before it, unless the token stands there. -/
theorem Unbordered.prefix_of_prefix_append (hs : Unbordered s) (ht : ¬ s <:+: t) (hx : x ≠ t)
    {out : List α} (h : t ++ s <+: x ++ s ++ out) : t ++ s <+: x := by
  rcases List.prefix_or_prefix_of_prefix h (List.prefix_append (x ++ s) out) with hle | ⟨b, hb⟩
  · rcases List.prefix_or_prefix_of_prefix hle (List.prefix_append x s) with hfront | ⟨y, hy⟩
    · exact hfront
    · -- the separator of the group would begin in `x`
      rw [← hy, List.prefix_append_right_inj] at hle
      have hback : y <:+ s := List.suffix_of_suffix_length_le (hy ▸ List.suffix_append x y)
        (List.suffix_append t s) hle.length_le
      by_cases hnil : y = []
      · rw [← hy, hnil, List.append_nil]
      · rw [hs y hback hle hnil] at hy
        exact absurd (List.append_cancel_right hy) hx
  · have hnil := hs.eq_nil_of_append_eq ht hb.symm
    rw [hnil, List.append_nil] at hb
    exact absurd (List.append_cancel_right hb) hx

/-- A group at the front of a text is there before groups are made separators, if no group stands
there behind a token. -/
theorem prefix_of_prefix_settle (hs : Unbordered s) (hne : s ≠ []) (ht : ¬ s <:+: t) {text : List α}
    (hfree : ¬ t ++ (t ++ s) <:+: x ++ text)
    (h : t ++ s <+: x ++ replaceRuns (t ++ s) 1 s text) : t ++ s <+: x ++ text := by
  refine replaceRuns_induct (P := fun text out => ∀ x, ¬ t ++ (t ++ s) <:+: x ++ text →
    t ++ s <+: x ++ out → t ++ s <+: x ++ text) (by simp [hne]) Nat.one_pos
    (fun _ _ h => h) (fun c text _ ih x hfree h => ?_) (fun k text hk _ _ x hfree h => ?_)
    text x hfree h
  · rw [List.append_cons] at h hfree ⊢
    exact ih _ hfree h
  · rw [← List.append_assoc] at h
    have hx : x ≠ t := by
      rintro rfl
      have hone := (copies_prefix_copies hk (x ++ s)).trans (List.prefix_append _ text)
      rw [copies_one] at hone
      exact hfree ((List.prefix_append_right_inj x).mpr hone).isInfix
    exact (hs.prefix_of_prefix_append ht hx h).trans (List.prefix_append x _)

/-- **No group is left.** -/
theorem not_infix_settle (hs : Unbordered s) (hne : s ≠ []) (ht : ¬ s <:+: t) (hst : ¬ t <:+: s)
    (hmeets : ¬ Meets s t) {text : List α} (hfree : ¬ t ++ (t ++ s) <:+: text) :
    ¬ t ++ s <:+: replaceRuns (t ++ s) 1 s text := by
  refine replaceRuns_induct (P := fun text out => ¬ t ++ (t ++ s) <:+: text → ¬ t ++ s <:+: out)
    (by simp [hne]) Nat.one_pos (fun _ h => by simp [hne] at h)
    (fun c text hkeep ih hfree h => ?_) (fun k text hk _ ih hfree h => ?_) text hfree
  · rcases List.infix_cons_iff.mp h with hfront | hin
    · rw [copies_one] at hkeep
      exact hkeep (prefix_of_prefix_settle (x := [c]) hs hne ht hfree hfront)
    · exact ih (fun hin => hfree (hin.trans (List.suffix_cons c text).isInfix)) hin
  · have hrest : ¬ t ++ s <:+: replaceRuns (t ++ s) 1 s text :=
      ih fun hin => hfree (hin.trans (List.suffix_append _ text).isInfix)
    rcases List.infix_append_iff.mp h with hin | hin | ⟨p, q, heq, hback, hfront⟩
    · exact hst ((List.prefix_append t s).isInfix.trans hin)
    · exact hrest hin
    by_cases hp : p = []
    · subst hp
      exact hrest (heq ▸ hfront.isInfix)
    · -- the token would begin in the separator that has been written
      rcases List.prefix_or_prefix_of_prefix ⟨q, heq.symm⟩ (List.prefix_append t s) with hle | hge
      · exact hmeets ⟨p, hback, hle, hp⟩
      · exact hst (hge.isInfix.trans hback.isInfix)

end Settle

end RefTree.Text
