import RefTree.Proofs.Keypath.Runs
import RefTree.Proofs.Keypath.Stack

/-!
# Proofs/Keypath/Canonical — keys that normalising leaves as they are

Each of the four passes over a key leaves a text as it is or makes it shorter (`Clears`), so a
normalised key is normalised again to itself just if it is canonical: no group, no two separators in
a row and no leading separator (`clears_normalize`).  That a normalised key *is* canonical takes
more than a separator and a token that hold not one another.  A separator that is written may still
end a group, or overlap with the next one; it does not if copies of the separator overlap in step
and, among siblings, not at all and not with the token either (`Separable`).
-/

namespace RefTree.Keypath

open Text

/-! ## Passes -/

/-- The pass leaves clear texts as they are and makes any other text shorter. -/
def Clears (pass : List Char → List Char) (Clear : List Char → Prop) : Prop :=
  ∀ text, Clear text ∧ pass text = text ∨ ¬ Clear text ∧ (pass text).length < text.length

namespace Clears

variable {f g : List Char → List Char} {P Q : List Char → Prop}

theorem eq_self_iff (hf : Clears f P) {text : List Char} : f text = text ↔ P text := by
  rcases hf text with ⟨hclear, heq⟩ | ⟨hnot, hlt⟩
  · exact iff_of_true heq hclear
  · refine iff_of_false (fun heq => ?_) hnot
    rw [heq] at hlt
    exact Nat.lt_irrefl _ hlt

theorem length_le (hf : Clears f P) (text : List Char) : (f text).length ≤ text.length := by
  rcases hf text with ⟨-, heq⟩ | ⟨-, hlt⟩
  · rw [heq]
  · exact Nat.le_of_lt hlt

/-- One pass after another leaves what is clear for both. -/
theorem comp (hf : Clears f P) (hg : Clears g Q) :
    Clears (fun text => f (g text)) fun text => Q text ∧ P text := by
  intro text
  rcases hg text with ⟨hclear, heq⟩ | ⟨hnot, hlt⟩
  · simp only [heq, hclear, true_and]
    exact hf text
  · exact .inr ⟨fun h => hnot h.1, Nat.lt_of_le_of_lt (hf.length_le (g text)) hlt⟩

theorem congr (hf : Clears f P) (h : ∀ text, P text ↔ Q text) : Clears f Q := by
  intro text
  rw [← h text]
  exact hf text

end Clears

theorem clears_replaceRuns {unit new : List Char} {least : Nat} (hunit : unit ≠ [])
    (hleast : 0 < least) (hnew : new.length < least * unit.length) :
    Clears (replaceRuns unit least new) fun text => ¬ copies least unit <:+: text := by
  intro text
  by_cases h : copies least unit <:+: text
  · exact .inr ⟨not_not.mpr h, length_replaceRuns_lt hunit hleast hnew h⟩
  · exact .inl ⟨h, replaceRuns_of_not_infix hunit hleast h⟩

theorem clears_stripFront {front : List Char} (hfront : front ≠ []) :
    Clears (stripFront front) fun text => ¬ front <+: text := by
  intro text
  unfold stripFront
  cases h : after? front text with
  | none => exact .inl ⟨after?_eq_none_iff.mp h, rfl⟩
  | some rest =>
    have hlen := length_after? h
    have := List.length_pos_iff.mpr hfront
    refine .inr ⟨not_not.mpr ⟨rest, (after?_eq_some_iff.mp h).symm⟩, ?_⟩
    rw [Option.getD_some]
    omega

/-- What stands at the front only once does not stand there when it is taken off. -/
theorem not_prefix_stripFront {front text : List Char} (hrun : ¬ front ++ front <:+: text) :
    ¬ front <+: stripFront front text := by
  intro hfront
  unfold stripFront at hfront
  cases h : after? front text with
  | none =>
    rw [h] at hfront
    exact after?_eq_none_iff.mp h hfront
  | some rest =>
    rw [h] at hfront
    refine hrun (List.IsPrefix.isInfix ?_)
    rw [after?_eq_some_iff.mp h, List.prefix_append_right_inj]
    exact hfront

theorem suffix_stripFront (front text : List Char) : stripFront front text <:+ text := by
  unfold stripFront
  cases h : after? front text with
  | none => exact List.suffix_refl text
  | some rest => exact after?_eq_some_iff.mp h ▸ List.suffix_append front rest

namespace Rules

variable {r : Rules}

/-! ## Climbing -/

/-- The shortest group that climbs: two tokens among siblings, one with parents. -/
def climber (r : Rules) : List Char :=
  match r.mode with
  | .sibling => r.token ++ (r.token ++ r.separator)
  | .parent => r.token ++ r.separator

/-- Where a climbing group stands, the shortest one does. -/
theorem forall_mem_units_iff {text : List Char} :
    (∀ unit ∈ r.units, ¬ unit.2 ++ r.separator <:+: text) ↔ ¬ r.climber <:+: text := by
  unfold units climber
  cases r.mode with
  | sibling => simp
  | parent =>
    simp only [List.forall_mem_cons, List.append_assoc, List.not_mem_nil, false_imp_iff,
      implies_true, and_true, and_iff_right_iff_imp]
    exact fun h hlong => h ((List.suffix_append _ _).isInfix.trans hlong)

theorem group?_eq_none_iff {text : List Char} :
    r.group? text = none ↔ ∀ unit ∈ r.units, ¬ unit.2 ++ r.separator <+: text := by
  simp only [group?_eq, List.findSome?_eq_none_iff, Option.map_eq_none_iff, after?_eq_none_iff]

theorem firstRun?_eq_none_iff {text : List Char} :
    r.firstRun? text = none ↔ ∀ unit ∈ r.units, ¬ unit.2 ++ r.separator <:+: text := by
  induction text with
  | nil =>
    refine iff_of_true rfl fun unit hunit h => ne_nil_of_mem_units hunit ?_
    exact (List.append_eq_nil_iff.mp (List.infix_nil.mp h)).1
  | cons c cs ih =>
    simp only [List.infix_cons_iff, not_or, forall_and, ← group?_eq_none_iff, ← ih]
    cases hgroup : r.group? (c :: cs) <;> simp [firstRun?, hgroup]

theorem climbOnce?_eq_none_iff {text : List Char} :
    r.climbOnce? text = none ↔ ¬ r.climber <:+: text := by
  rw [climbOnce?, Option.map_eq_none_iff, firstRun?_eq_none_iff, forall_mem_units_iff]

/-- **Climbing ends when no group climbs.** -/
theorem not_climber_infix_climb (text : List Char) : ¬ r.climber <:+: r.climb text := by
  fun_induction climb r text with
  | case1 text h => exact climbOnce?_eq_none_iff.mp h
  | case2 text next h ih => exact ih

theorem clears_climb : Clears r.climb fun text => ¬ r.climber <:+: text := by
  intro text
  fun_induction climb r text with
  | case1 text h => exact .inl ⟨climbOnce?_eq_none_iff.mp h, rfl⟩
  | case2 text next h ih =>
    have hshorter : next.length < text.length := by
      have := r.length_climbOnce? h
      have := r.length_token_pos
      omega
    refine .inr ⟨fun hclear => ?_, ?_⟩
    · rw [climbOnce?_eq_none_iff.mpr hclear] at h
      cases h
    · rcases ih with ⟨-, heq⟩ | ⟨-, hlt⟩
      · rwa [heq]
      · exact hlt.trans hshorter

/-! ## Canonical keys -/

/-- There is nothing in the key to normalise. -/
structure Canonical (r : Rules) (key : List Char) : Prop where
  group : ¬ r.token ++ r.separator <:+: key
  run : ¬ r.separator ++ r.separator <:+: key
  front : ¬ r.separator <+: key

instance (r : Rules) (key : List Char) : Decidable (r.Canonical key) :=
  decidable_of_iff (¬ r.token ++ r.separator <:+: key ∧ ¬ r.separator ++ r.separator <:+: key ∧
      ¬ r.separator <+: key)
    ⟨fun h => ⟨h.1, h.2.1, h.2.2⟩, fun h => ⟨h.group, h.run, h.front⟩⟩

theorem clears_settle :
    Clears r.settle fun text => r.mode = .sibling → ¬ r.token ++ r.separator <:+: text := by
  have hpass : Clears (replaceRuns (r.token ++ r.separator) 1 r.separator) _ :=
    clears_replaceRuns (by simp [r.apart.1]) Nat.one_pos (by simp [r.length_token_pos])
  unfold settle
  cases r.mode with
  | sibling => simpa using hpass
  | parent => exact fun text => .inl ⟨nofun, rfl⟩

theorem clears_collapse : Clears r.collapse fun text => ¬ r.separator ++ r.separator <:+: text := by
  have hpass : Clears r.collapse _ := clears_replaceRuns r.apart.1 Nat.two_pos
    (by have := r.length_separator_pos; omega)
  rwa [copies_two] at hpass

/-- **Normalising leaves canonical keys as they are** and makes any other key shorter. -/
theorem clears_normalize : Clears r.normalize r.Canonical := by
  have hpasses := (clears_stripFront r.apart.1).comp
    (r.clears_collapse.comp (r.clears_settle.comp r.clears_climb))
  refine hpasses.congr fun text =>
    ⟨fun ⟨⟨⟨hclimb, hsettle⟩, hrun⟩, hfront⟩ => ⟨?_, hrun, hfront⟩,
      fun h => ⟨⟨⟨?_, fun _ => h.group⟩, h.run⟩, h.front⟩⟩
  · unfold climber at hclimb
    cases hmode : r.mode with
    | sibling => exact hsettle hmode
    | parent => rwa [hmode] at hclimb
  · unfold climber
    cases r.mode with
    | sibling => exact fun hlong => h.group ((List.suffix_append _ _).isInfix.trans hlong)
    | parent => exact h.group

/-! ## Normalised keys -/

/-- **A separator that is written is no part of anything else.**  Copies of it overlap in step;
among siblings, where it takes the place of groups, they do not overlap, and it does not end in
anything that the token begins with. -/
def Separable (r : Rules) : Prop :=
  InStep r.separator ∧
    (r.mode = .sibling → Unbordered r.separator ∧ ¬ Meets r.separator r.token)

instance (r : Rules) : Decidable r.Separable := inferInstanceAs (Decidable (_ ∧ _))

/-- A token does not begin with a separator of one character. -/
theorem not_meets_of_singleton {c : Char} (hsep : r.separator = [c]) :
    ¬ Meets r.separator r.token := by
  rintro ⟨p, hback, hfront, hp⟩
  rw [hsep] at hback
  have heq := (List.suffix_cons_iff.mp hback).resolve_right fun h => hp (List.suffix_nil.mp h)
  exact r.apart.2.2.2 (hsep ▸ heq ▸ hfront.isInfix)

/-- A separator of one character is no part of anything else. -/
theorem separable_of_singleton {c : Char} (hsep : r.separator = [c]) : r.Separable := by
  have hunbordered : Unbordered r.separator := hsep ▸ unbordered_singleton c
  exact ⟨hunbordered.inStep, fun _ => ⟨hunbordered, not_meets_of_singleton hsep⟩⟩

/-- No group is left when groups have climbed and those that stay are made separators. -/
theorem not_infix_settle_climb (h : r.Separable) (text : List Char) :
    ¬ r.token ++ r.separator <:+: r.settle (r.climb text) := by
  have hfree := r.not_climber_infix_climb text
  unfold climber at hfree
  unfold settle
  cases hmode : r.mode with
  | sibling =>
    rw [hmode] at hfree
    obtain ⟨hunbordered, hmeets⟩ := h.2 hmode
    exact not_infix_settle hunbordered r.apart.1 r.apart.2.2.2 r.apart.2.2.1 hmeets hfree
  | parent =>
    rw [hmode] at hfree
    exact hfree

/-- **A normalised key is canonical**, if a separator that is written is no part of anything
else. -/
theorem canonical_normalize (h : r.Separable) (text : List Char) :
    r.Canonical (r.normalize text) := by
  have hgroup : ¬ r.token ++ r.separator <:+: r.collapse (r.settle (r.climb text)) := fun hin =>
    not_infix_settle_climb h text
      (infix_of_infix_replaceRuns r.apart.1 (h.1.goesOn_append r.apart.2.2.2) hin)
  have hrun : ¬ r.separator ++ r.separator <:+: r.collapse (r.settle (r.climb text)) :=
    not_infix_replaceRuns h.1 r.apart.1 _
  have hsuffix := suffix_stripFront r.separator (r.collapse (r.settle (r.climb text)))
  refine ⟨fun hin => hgroup (hin.trans hsuffix.isInfix),
    fun hin => hrun (hin.trans hsuffix.isInfix), not_prefix_stripFront hrun⟩

theorem canonical_join (h : r.Separable) (segments : List String) :
    r.Canonical (r.join segments).toList := by
  rw [join, String.toList_ofList]
  exact canonical_normalize h _

/-! ## Keys joined again -/

/-- A key alone is joined to itself just if it is canonical. -/
theorem join_singleton_eq_iff {key : String} : r.join [key] = key ↔ r.Canonical key.toList := by
  rw [← clears_normalize.eq_self_iff, join, List.map_singleton, List.intercalate_singleton]
  exact ⟨fun h => by rw [← String.toList_ofList (l := r.normalize key.toList), h],
    fun h => by rw [h, String.ofList_toList]⟩

/-- **Joining a key again changes nothing** just if it is canonical, as every joined key is when the
separator is one character or no part of anything else. -/
theorem join_join_eq_iff {config : Config} {r : Rules} (hr : ofConfig config = .ok r) :
    (∀ segments, r.join [r.join segments] = r.join segments ↔
        r.Canonical (r.join segments).toList) ∧
      ((∃ c, config.grammar.separator.toList = [c]) ∨ r.Separable →
        ∀ segments, r.join [r.join segments] = r.join segments) := by
  refine ⟨fun _ => join_singleton_eq_iff, fun h segments => join_singleton_eq_iff.mpr ?_⟩
  have hseparable : r.Separable := by
    rcases h with ⟨c, hsep⟩ | hseparable
    · exact separable_of_singleton ((of_ofConfig hr).1.trans hsep)
    · exact hseparable
  exact canonical_join hseparable segments

/-- Keys with arrows, in which two carets climb. -/
def arrowed : Config where
  grammar := { separator := "->", upLevelToken := "^" }

theorem join_join_arrowed :
    ∃ r, ofConfig arrowed = .ok r ∧ r.Separable ∧
      r.join [r.join ["a->b->c", "^^->d^->->e"]] = "a->b->d->e" := by
  have hr : ofConfig arrowed = .ok _ := ofConfig_eq_ok (by decide)
  refine ⟨_, hr, by decide, ?_⟩
  rw [(join_join_eq_iff hr).2 (.inr (by decide))]
  decide +kernel

/-- Keys with two colons between the segments, in which a word climbs. -/
def coloned : Config where
  grammar := { separator := "::", upLevelToken := "up" }

/-- **A separator that is written ends a group**: behind a colon, it makes one of the word before
it. -/
theorem join_join_coloned :
    ∃ r, ofConfig coloned = .ok r ∧ r.join ["a", "up:up::b"] = "a::up:::b" ∧
      r.join [r.join ["a", "up:up::b"]] = "a:::b" := by
  have hr : ofConfig coloned = .ok _ := ofConfig_eq_ok (by decide)
  exact ⟨_, hr, by decide +kernel, by decide +kernel⟩

end Rules

end RefTree.Keypath
