import RefTree.Proofs.Call

/-!
# Proofs/Strings — a tree is resolved string by string

The walk of a tree is the sequence of the loops over its strings, in the order in which they are
written, and what it makes of the tree is the tree with the values of its strings
(`answer_walk_strings`).  A call makes the same of a string by itself, so a tree has a value if all
its strings have one, and fails with the first of them that fails (`resolve_stringwise`).
-/

namespace RefTree

namespace Outcome

variable {α β γ : Type}

theorem done_bind (a : α) (f : α → Outcome β) : (done a).bind f = f a := rfl

/-- The last outcome, unless one before it has no result: then the first of these. -/
def after (before : List (Outcome α)) (last : Outcome β) : Outcome β :=
  before.foldr (fun o rest => o.bind fun _ => rest) last

@[simp] theorem after_nil (last : Outcome β) : after ([] : List (Outcome α)) last = last := rfl

theorem after_cons (o : Outcome α) (before : List (Outcome α)) (last : Outcome β) :
    after (o :: before) last = o.bind fun _ => after before last := rfl

theorem after_append (before between : List (Outcome α)) (last : Outcome β) :
    after (before ++ between) last = after before (after between last) := List.foldr_append

/-- What goes on with the last outcome comes after the others, too. -/
theorem after_bind (before : List (Outcome α)) (last : Outcome β) (f : β → Outcome γ) :
    (after before last).bind f = after before (last.bind f) := by
  induction before with
  | nil => rfl
  | cons o before ih =>
    rw [after_cons, after_cons, ← ih]
    cases o <;> rfl

theorem after_eq_done_iff {before : List (Outcome α)} {last : Outcome β} {b : β} :
    after before last = .done b ↔ (∀ o ∈ before, ∃ a, o = .done a) ∧ last = .done b := by
  induction before with
  | nil => simp
  | cons o before ih =>
    rw [after_cons, bind_eq_done_iff, List.forall_mem_cons, ih]
    exact ⟨fun ⟨a, ho, hrest, hb⟩ => ⟨⟨⟨a, ho⟩, hrest⟩, hb⟩,
      fun ⟨⟨⟨a, ho⟩, hrest⟩, hb⟩ => ⟨a, ho, hrest, hb⟩⟩

theorem after_ne_exhausted {outcomes : List (Outcome α)} (h : ∀ o ∈ outcomes, o ≠ .exhausted)
    {last : Outcome β} (hlast : last ≠ .exhausted) : after outcomes last ≠ .exhausted := by
  induction outcomes with
  | nil => exact hlast
  | cons o outcomes ih =>
    obtain ⟨ho, hrest⟩ := List.forall_mem_cons.mp h
    cases o with
    | done a => exact ih hrest
    | failed e => simp [after_cons, bind]
    | exhausted => exact absurd rfl ho

theorem after_eq_failed_iff {outcomes : List (Outcome α)} {b : β} {e : Failure} :
    after outcomes (.done b) = .failed e ↔ ∃ before rest, outcomes = before ++ .failed e :: rest ∧
      ∀ o ∈ before, ∃ a, o = .done a := by
  constructor
  · intro h
    induction outcomes with
    | nil => cases h
    | cons o outcomes ih =>
      rw [after_cons] at h
      cases o with
      | done a =>
        obtain ⟨before, rest, rfl, hbefore⟩ := ih h
        exact ⟨.done a :: before, rest, rfl, List.forall_mem_cons.mpr ⟨⟨a, rfl⟩, hbefore⟩⟩
      | failed e' =>
        obtain rfl : e' = e := Outcome.failed.inj h
        exact ⟨[], outcomes, rfl, List.forall_mem_nil _⟩
      | exhausted => cases h
  · rintro ⟨before, rest, rfl, hbefore⟩
    induction before with
    | nil => rfl
    | cons o before ih =>
      obtain ⟨⟨a, rfl⟩, hrest⟩ := List.forall_mem_cons.mp hbefore
      exact ih hrest

end Outcome

open Outcome (after)

theorem Inquiry.answer_map {α β : Type} (look : String → Outcome Value) (q : Inquiry α)
    (f : α → β) : (q.map f).answer look = (q.answer look).bind fun a => .done (f a) :=
  q.answer_bind look fun a => .done (f a)

namespace Resolver

variable {r : Resolver}

/-! ## The strings of a walk -/

section Walk

variable (look : String → Outcome Value) (n : Nat)

/-- The outcome of the loop over the string at a path. -/
def stringOutcome (r : Resolver) (at' : List String × String) : Outcome Value :=
  (r.substitute at'.1.dropLast n true at'.2).answer look

/-- What becomes of the string at a path, if anything does. -/
def stringValue (r : Resolver) (path : List String) (s : String) : Value :=
  ((r.substitute path.dropLast n true s).answer look).getD .null

/-- Each of the strings has a value. -/
def Resolves (r : Resolver) (ats : List (List String × String)) : Prop :=
  ∀ at' ∈ ats, (r.substitute at'.1.dropLast n true at'.2).answer look =
    .done (r.stringValue look n at'.1 at'.2)

variable {look n} {context : List String}

theorem answer_walkItems_strings {items : List Value}
    (ih : ∀ x ∈ items, (r.walk n context x).answer look =
      after ((x.strings context).map (r.stringOutcome look n))
        (.done (x.mapStrings (r.stringValue look n) context))) :
    (r.walkItems n context items).answer look =
      after ((Value.itemStrings context items).map (r.stringOutcome look n))
        (.done (Value.mapItemStrings (r.stringValue look n) context items)) := by
  induction items with
  | nil => rfl
  | cons x xs ihxs =>
    obtain ⟨hx, hxs⟩ := List.forall_mem_cons.mp ih
    rw [walkItems, Inquiry.answer_bind, hx, Outcome.after_bind, Outcome.done_bind,
      Inquiry.answer_map, ihxs hxs, Outcome.after_bind, Outcome.done_bind, Value.itemStrings,
      List.map_append, Outcome.after_append]
    rfl

theorem answer_walkEntries_strings {entries : List (String × Value)}
    (ih : ∀ e ∈ entries, (r.walk n (context ++ [e.1]) e.2).answer look =
      after ((e.2.strings (context ++ [e.1])).map (r.stringOutcome look n))
        (.done (e.2.mapStrings (r.stringValue look n) (context ++ [e.1])))) :
    (r.walkEntries n context entries).answer look =
      after ((Value.entryStrings context entries).map (r.stringOutcome look n))
        (.done (Value.mapEntryStrings (r.stringValue look n) context entries)) := by
  induction entries with
  | nil => rfl
  | cons e es ihes =>
    obtain ⟨he, hes⟩ := List.forall_mem_cons.mp ih
    rw [walkEntries, Inquiry.answer_bind, he, Outcome.after_bind, Outcome.done_bind,
      Inquiry.answer_map, ihes hes, Outcome.after_bind, Outcome.done_bind, Value.entryStrings,
      List.map_append, Outcome.after_append]
    rfl

/-- **A walk runs the loops over the strings in order**, and leaves everything else. -/
theorem answer_walk_strings (v : Value) : (r.walk n context v).answer look =
    after ((v.strings context).map (r.stringOutcome look n))
      (.done (v.mapStrings (r.stringValue look n) context)) := by
  induction v using Value.induct generalizing context with
  | null => rfl
  | bool b => rfl
  | number m => rfl
  | string s =>
    simp only [walk, Value.strings, Value.mapStrings, List.map_cons, List.map_nil,
      Outcome.after_cons, Outcome.after_nil, stringOutcome, stringValue]
    cases (r.substitute context.dropLast n true s).answer look <;> rfl
  | list items ih =>
    rw [walk, Inquiry.answer_map, answer_walkItems_strings fun x hx => ih x hx, Outcome.after_bind]
    rfl
  | map entries ih =>
    rw [walk, Inquiry.answer_map, answer_walkEntries_strings fun e he => ih e he,
      Outcome.after_bind]
    rfl

/-- **A walk ends if its strings do.** -/
theorem walk_ends {v : Value}
    (h : ∀ at' ∈ v.strings context, (r.substitute at'.1.dropLast n true at'.2).Ends look) :
    (r.walk n context v).Ends look := by
  rw [Inquiry.Ends, answer_walk_strings]
  exact Outcome.after_ne_exhausted (List.forall_mem_map.mpr h) (by simp)

theorem stringValue_of_stringOutcome {at' : List String × String} {v : Value}
    (h : r.stringOutcome look n at' = .done v) : r.stringValue look n at'.1 at'.2 = v :=
  congrArg (Outcome.getD Value.null) h

theorem resolves_iff {ats : List (List String × String)} :
    r.Resolves look n ats ↔ ∀ at' ∈ ats, ∃ v, r.stringOutcome look n at' = .done v := by
  refine ⟨fun h at' hat => ⟨_, h at' hat⟩, fun h at' hat => ?_⟩
  obtain ⟨v, hv⟩ := h at' hat
  exact hv.trans (congrArg _ (stringValue_of_stringOutcome hv).symm)

/-- **A walk has a result if all strings have values**: the tree with these. -/
theorem answer_walk_eq_done_iff {v w : Value} :
    (r.walk n context v).answer look = .done w ↔
      w = v.mapStrings (r.stringValue look n) context ∧ r.Resolves look n (v.strings context) := by
  rw [answer_walk_strings, Outcome.after_eq_done_iff, List.forall_mem_map, ← resolves_iff]
  exact ⟨fun ⟨h, hw⟩ => ⟨(Outcome.done.inj hw).symm, h⟩, fun ⟨hw, h⟩ => ⟨h, congrArg _ hw.symm⟩⟩

/-- **A walk fails with the first string that fails**, if those before it have values. -/
theorem answer_walk_eq_failed_iff {v : Value} {e : Failure} :
    (r.walk n context v).answer look = .failed e ↔
      ∃ before at' rest, v.strings context = before ++ at' :: rest ∧
        (∀ b ∈ before, ∃ w, r.stringOutcome look n b = .done w) ∧
        r.stringOutcome look n at' = .failed e := by
  rw [answer_walk_strings, Outcome.after_eq_failed_iff]
  constructor
  · rintro ⟨_, _, houtcomes, hbefore⟩
    obtain ⟨before, _, hstrings, rfl, hrest⟩ := List.map_eq_append_iff.mp houtcomes
    obtain ⟨at', rest, rfl, hat, rfl⟩ := List.map_eq_cons_iff.mp hrest
    exact ⟨before, at', rest, hstrings, fun b hb => hbefore _ (List.mem_map_of_mem hb), hat⟩
  · rintro ⟨before, at', rest, hstrings, hbefore, hat⟩
    refine ⟨before.map (r.stringOutcome look n), rest.map (r.stringOutcome look n), ?_,
      List.forall_mem_map.mpr hbefore⟩
    rw [hstrings, List.map_append, List.map_cons, hat]

end Walk

/-! ## The calls for the strings -/

/-- The call for a string by itself, at its path. -/
def callAt (at' : List String × String) : Call := .resolveAt at'.1 (.string at'.2)

/-- **The call resolves `v` at `context` string by string.**  It has a value if the calls for all
the strings have one, and then puts these in their places and leaves everything else; and it fails
as the first of these calls that fails, in the order in which the strings are written. -/
structure Stringwise (r : Resolver) (call : Call) (context : List String) (v : Value) : Prop where
  done_iff : (∃ n R, r.run n call = .done R) ↔
    ∀ at' ∈ v.strings context, ∃ n w, r.run n (callAt at') = .done w
  value : ∀ n R, r.run n call = .done R → ∃ f, R = v.mapStrings f context ∧
    ∀ at' ∈ v.strings context, r.run n (callAt at') = .done (f at'.1 at'.2)
  failed_iff : ∀ e, (∃ n, r.run n call = .failed e) ↔
    ∃ before at' rest, v.strings context = before ++ at' :: rest ∧
      (∀ b ∈ before, ∃ n w, r.run n (callAt b) = .done w) ∧
      ∃ n, r.run n (callAt at') = .failed e

theorem stringwise_resolveAt (context : List String) (v : Value) :
    r.Stringwise (.resolveAt context v) context v where
  done_iff := by
    constructor
    · rintro ⟨n, R, hR⟩ at' hat
      obtain ⟨-, hstrings⟩ := answer_walk_eq_done_iff.mp hR
      exact ⟨n, _, hstrings at' hat⟩
    · intro h
      obtain ⟨N, hN⟩ := r.exists_rescans ((v.strings context).map callAt)
      refine ⟨N, _, answer_walk_eq_done_iff.mpr ⟨rfl, resolves_iff.mpr fun at' hat => ?_⟩⟩
      obtain ⟨n, w, hw⟩ := h at' hat
      exact ⟨w, (hN _ (List.mem_map_of_mem hat) n (by simp [hw])).trans hw⟩
  value n R hR := by
    obtain ⟨hR, hstrings⟩ := answer_walk_eq_done_iff.mp hR
    exact ⟨_, hR, hstrings⟩
  failed_iff e := by
    constructor
    · rintro ⟨n, he⟩
      obtain ⟨before, at', rest, hstrings, hbefore, hat⟩ := answer_walk_eq_failed_iff.mp he
      exact ⟨before, at', rest, hstrings, fun b hb => ⟨n, hbefore b hb⟩, n, hat⟩
    · rintro ⟨before, at', rest, hstrings, hbefore, n, hat⟩
      obtain ⟨N, hN⟩ := r.exists_rescans ((at' :: before).map callAt)
      obtain ⟨hNat, hNbefore⟩ := List.forall_mem_cons.mp hN
      refine ⟨N, answer_walk_eq_failed_iff.mpr ⟨before, at', rest, hstrings, fun b hb => ?_, ?_⟩⟩
      · obtain ⟨n', w, hw⟩ := hbefore b hb
        exact ⟨w, (hNbefore _ (List.mem_map_of_mem hb) n' (by simp [hw])).trans hw⟩
      · exact (hNat n (by simp [hat])).trans hat

/-- **A tree is resolved string by string**, and so is a value at any path. -/
theorem resolve_stringwise (r : Resolver) :
    r.Stringwise .resolve [] r.tree ∧
      ∀ context v, r.Stringwise (.resolveAt context v) context v := by
  have htree := r.stringwise_resolveAt [] r.tree
  exact ⟨⟨htree.done_iff, htree.value, htree.failed_iff⟩, r.stringwise_resolveAt⟩

end Resolver

end RefTree
