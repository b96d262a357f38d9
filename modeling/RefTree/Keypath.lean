import RefTree.Failure
import RefTree.Options
import RefTree.Text.Pieces

/-!
# Keypath — keys joined and normalised

A key names a node of a tree by segments with separators between them. An up-level group, which is
the token once or twice and a separator, moves instead of naming. `Rules.join` puts segments
together and normalises the result in four passes over its text: climbing groups take segments off
what stands in front of them, then groups that stay become separators, then separators in a row
become one, then a leading separator goes.

Each climb makes the text shorter (`Rules.length_climbOnce?`), so climbing ends.
-/

namespace RefTree.Keypath

open Text

/-- One of two texts holds the other. -/
def Overlap (separator token : List Char) : Prop := token <:+: separator ∨ separator <:+: token

instance (separator token : List Char) : Decidable (Overlap separator token) :=
  inferInstanceAs (Decidable (_ ∨ _))

/-- A separator and a token that can be told apart: neither is empty, neither holds the other. -/
def Apart (separator token : List Char) : Prop :=
  separator ≠ [] ∧ token ≠ [] ∧ ¬ token <:+: separator ∧ ¬ separator <:+: token

instance (separator token : List Char) : Decidable (Apart separator token) :=
  inferInstanceAs (Decidable (_ ∧ _ ∧ _ ∧ _))

/-- How keys are read under one configuration. -/
structure Rules where
  separator : List Char
  token : List Char
  apart : Apart separator token
  mode : UpLevelMode
  base : String
  policy : BasePolicy

/-- What is wrong with a separator and a token. -/
def fault? (separator token : List Char) : Option Fault :=
  if separator = [] then some .separatorEmpty
  else if token = [] then some .tokenEmpty
  else if Overlap separator token then
    some (.overlap (String.ofList separator) (String.ofList token))
  else none

theorem apart_of_fault?_eq_none {separator token : List Char} (h : fault? separator token = none) :
    Apart separator token := by
  unfold fault? at h
  split at h
  · cases h
  split at h
  · cases h
  split at h
  · cases h
  next hs ht ho => exact ⟨hs, ht, fun hc => ho (.inl hc), fun hc => ho (.inr hc)⟩

namespace Rules

/-- **The rules of a configuration**, if its separator and token can be told apart. -/
def ofConfig (config : Config) : Except Fault Rules :=
  let separator := config.grammar.separator.toList
  let token := config.grammar.upLevelToken.toList
  match h : fault? separator token with
  | some fault => .error fault
  | none =>
    .ok ⟨separator, token, apart_of_fault?_eq_none h, config.upLevelMode, config.keyBase,
      config.basePolicy⟩

variable (r : Rules)

theorem length_token_pos : 0 < r.token.length := List.length_pos_iff.mpr r.apart.2.1

theorem length_separator_pos : 0 < r.separator.length := List.length_pos_iff.mpr r.apart.1

/-! ## Segments -/

/-- The key starts with a separator and goes on after it. -/
def isAbsolute (key : String) : Bool :=
  match after? r.separator key.toList with
  | some (_ :: _) => true
  | _ => false

/-- The segments of a key; the empty key has none. -/
def split (key : String) : List String :=
  if key = "" then [] else (pieces r.separator key.toList).map String.ofList

/-- Segments with separators between them, not normalised. -/
def path (segments : List String) : String :=
  String.ofList (r.separator.intercalate (segments.map String.toList))

/-! ## Climbing -/

/-- The levels that a climbing group at the front of the text goes up, and what follows it. -/
def group? (text : List Char) : Option (Nat × List Char) :=
  match after? (r.token ++ r.token ++ r.separator) text with
  | some rest =>
    match r.mode with
    | .sibling => some (1, rest)
    | .parent => some (2, rest)
  | none =>
    match r.mode with
    | .sibling => none
    | .parent => (after? (r.token ++ r.separator) text).map (1, ·)

/-- A group is at least as long as a token and a separator. -/
theorem length_group? {text rest : List Char} {levels : Nat}
    (h : r.group? text = some (levels, rest)) :
    r.token.length + r.separator.length + rest.length ≤ text.length := by
  unfold group? at h
  split at h
  · next found hf =>
    have hlen := length_after? hf
    have hrest : found = rest := by
      split at h <;> exact (Prod.mk.inj (Option.some.inj h)).2
    subst hrest
    simp only [List.length_append] at hlen
    omega
  · split at h
    · cases h
    · obtain ⟨found, hf, heq⟩ := Option.map_eq_some_iff.mp h
      have hlen := length_after? hf
      obtain rfl := (Prod.mk.inj heq).2
      simp only [List.length_append] at hlen
      omega

/-- The levels of the climbing groups at the front of the text, and what follows the last. -/
def groups (text : List Char) : Nat × List Char :=
  match _h : r.group? text with
  | none => (0, text)
  | some (levels, rest) =>
    let more := groups rest
    (levels + more.1, more.2)
termination_by text.length
decreasing_by
  have := r.length_group? _h
  have := r.length_token_pos
  omega

theorem length_groups_le (text : List Char) : (r.groups text).2.length ≤ text.length := by
  fun_induction groups r text with
  | case1 => exact Nat.le_refl _
  | case2 text levels rest h more ih =>
    have := r.length_group? h
    change (r.groups rest).2.length ≤ text.length
    omega

/-- The first run of climbing groups: what stands before it, its levels, and what follows it. -/
def firstRun? : List Char → Option (List Char × Nat × List Char)
  | [] => none
  | c :: cs =>
    match r.group? (c :: cs) with
    | some (levels, rest) => some ([], levels + (r.groups rest).1, (r.groups rest).2)
    | none => (firstRun? cs).map fun (before, levels, rest) => (c :: before, levels, rest)

theorem length_firstRun? {text before rest : List Char} {levels : Nat}
    (h : r.firstRun? text = some (before, levels, rest)) :
    before.length + r.token.length + r.separator.length + rest.length ≤ text.length := by
  induction text generalizing before with
  | nil => cases h
  | cons c cs ih =>
    unfold firstRun? at h
    split at h
    · next found hg =>
      have hlen := r.length_group? hg
      have hle := r.length_groups_le found
      simp only [Option.some.injEq, Prod.mk.injEq] at h
      obtain ⟨rfl, -, rfl⟩ := h
      simp only [List.length_nil]
      omega
    · obtain ⟨⟨b, l, t⟩, hf, heq⟩ := Option.map_eq_some_iff.mp h
      simp only [Prod.mk.injEq] at heq
      obtain ⟨rfl, rfl, rfl⟩ := heq
      have := ih hf
      simp only [List.length_cons]
      omega

/-- The segments of what stands before a run, without the separator that leads to the run. -/
def segmentsBefore (before : List Char) : List (List Char) :=
  let before := stripBack r.separator before
  if before = [] then [] else pieces r.separator before

/-- One climb: the first run of groups takes as many segments off what stands before it as it has
levels, and becomes a separator. -/
def climbOnce? (text : List Char) : Option (List Char) :=
  (r.firstRun? text).map fun (before, levels, rest) =>
    let segments := r.segmentsBefore before
    r.separator.intercalate (segments.take (segments.length - levels)) ++ r.separator ++ rest

theorem length_intercalate_segmentsBefore_le (before : List Char) :
    (r.separator.intercalate (r.segmentsBefore before)).length ≤ before.length := by
  unfold segmentsBefore
  simp only
  split
  · simp
  · rw [intercalate_pieces]
    exact length_stripBack_le _ _

/-- **A climb makes the text shorter by a token at least.** -/
theorem length_climbOnce? {text next : List Char} (h : r.climbOnce? text = some next) :
    next.length + r.token.length ≤ text.length := by
  obtain ⟨⟨before, levels, rest⟩, hrun, rfl⟩ := Option.map_eq_some_iff.mp h
  have hlen := r.length_firstRun? hrun
  have hle := r.length_intercalate_segmentsBefore_le before
  have htake := length_intercalate_take_le r.separator
    ((r.segmentsBefore before).length - levels) (r.segmentsBefore before)
  simp only [List.length_append]
  omega

/-- Climb until no climbing group is left. -/
def climb (text : List Char) : List Char :=
  match _h : r.climbOnce? text with
  | none => text
  | some next => climb next
termination_by text.length
decreasing_by
  have := r.length_climbOnce? _h
  have := r.length_token_pos
  omega

/-! ## Normal form -/

/-- Groups that stay become separators. Among parents every group has climbed. -/
def settle (text : List Char) : List Char :=
  match r.mode with
  | .sibling => replaceRuns (r.token ++ r.separator) 1 r.separator text
  | .parent => text

/-- Separators in a row become one. -/
def collapse (text : List Char) : List Char := replaceRuns r.separator 2 r.separator text

/-- The four passes over the text of a key. -/
def normalize (text : List Char) : List Char :=
  stripFront r.separator (r.collapse (r.settle (r.climb text)))

/-- **Segments put together into a normalised key.** -/
def join (segments : List String) : String :=
  String.ofList (r.normalize (r.separator.intercalate (segments.map String.toList)))

/-- The key base goes in front of these segments. -/
def basePrecedes (segments : List String) : Bool :=
  r.base != "" &&
    match r.policy with
    | .always => true
    | .contextual =>
      match segments with
      | [] => true
      | first :: _ => !r.isAbsolute first

/-- **Segments put together under the key base.** -/
def resolve (segments : List String) : String :=
  r.join (if r.basePrecedes segments then r.base :: segments else segments)

end Rules

end RefTree.Keypath
