import Mathlib.Logic.Relation
import Mathlib.Order.WellFounded
import RefTree.Proofs.Strings

/-!
# Proofs/Churning — what keeps a resolution from ending

A resolution that no number of rescans is enough for comes to a string in which markers are replaced
forever, each after a lookup that ends (`Churns`); and one that comes to such a string does not end
(`neverEnds_resolve_iff`).  So the nesting of lookups is never to blame.

What never ends is followed down to such a string.  A walk stays at the first of its strings that
has no value (`neverEnds_walk_iff`), a lookup in the walk of its raw value
(`neverEnds_lookup_iff`), and the loop over a string, unless it churns, at a key that it asks for
(`Hangs.churns_or_asks`).  Each key on the way leaves the chain less room
(`Searches.exists_churns`).
-/

namespace RefTree

namespace Outcome

variable {α β ι : Type}

/-! ## Computations on a budget -/

/-- An end within some budget is the end within every greater one. -/
def Budgeted (o : Nat → Outcome α) : Prop :=
  ∀ ⦃n n' : Nat⦄, n ≤ n' → o n ≠ .exhausted → o n' = o n

/-- No budget is enough. -/
def NeverEnds (o : Nat → Outcome α) : Prop := ∀ n, o n = .exhausted

/-- Within any budget there is the one end, or none yet. -/
theorem Budgeted.eq_or_exhausted {o : Nat → Outcome α} (h : Budgeted o) {n : Nat}
    (hn : o n ≠ .exhausted) (n' : Nat) : o n' = o n ∨ o n' = .exhausted := by
  by_cases hn' : o n' = .exhausted
  · exact .inr hn'
  · rcases Nat.le_total n n' with hle | hle
    · exact .inl (h hle hn)
    · exact .inl (h hle hn').symm

/-- What follows an outcome that is cut short is of no account. -/
theorem after_eq_exhausted {before : List (Outcome α)}
    (hbefore : ∀ o ∈ before, (∃ a, o = .done a) ∨ o = .exhausted) (rest : List (Outcome α))
    (last : Outcome β) : after (before ++ .exhausted :: rest) last = .exhausted := by
  induction before with
  | nil => rfl
  | cons o before ih =>
    obtain ⟨ho, hrest⟩ := List.forall_mem_cons.mp hbefore
    rcases ho with ⟨a, rfl⟩ | rfl
    · exact ih hrest
    · rfl

section InARow

variable {o : ι → Nat → Outcome α} (ho : ∀ i, Budgeted (o i)) {is : List ι} {b : Nat → β}
include ho

/-- Computations in a row that are cut short from some budget on include one that never ends, and
those before it have results. -/
theorem exists_neverEnds_of_after {k : Nat}
    (h : ∀ n ≥ k, after (is.map (o · n)) (.done (b n)) = .exhausted) :
    ∃ before i rest, is = before ++ i :: rest ∧ (∀ j ∈ before, ∃ n a, o j n = .done a) ∧
      NeverEnds (o i) := by
  induction is generalizing k with
  | nil => cases h k (Nat.le_refl k)
  | cons i is ih =>
    by_cases hi : NeverEnds (o i)
    · exact ⟨[], i, is, rfl, List.forall_mem_nil _, hi⟩
    -- the first ends within `n`, so from there on it is the rest that is cut short
    obtain ⟨n, hn⟩ := not_forall.mp hi
    have hlater : ∀ n' ≥ max n k, (o i n).bind
        (fun _ => after (is.map (o · n')) (.done (b n'))) = .exhausted := by
      intro n' hn'
      rw [← ho i (Nat.le_trans (Nat.le_max_left n k) hn') hn]
      exact h n' (Nat.le_trans (Nat.le_max_right n k) hn')
    cases hend : o i n with
    | done a =>
      rw [hend] at hlater
      obtain ⟨before, j, rest, rfl, hbefore, hj⟩ := ih hlater
      exact ⟨i :: before, j, rest, rfl, List.forall_mem_cons.mpr ⟨⟨n, a, hend⟩, hbefore⟩, hj⟩
    | failed e =>
      rw [hend] at hlater
      cases hlater _ (Nat.le_refl _)
    | exhausted => exact absurd hend hn

/-- **Computations in a row never end if one of them does not**, and those before it have
results. -/
theorem neverEnds_after_iff :
    NeverEnds (fun n => after (is.map (o · n)) (.done (b n))) ↔
      ∃ before i rest, is = before ++ i :: rest ∧ (∀ j ∈ before, ∃ n a, o j n = .done a) ∧
        NeverEnds (o i) := by
  refine ⟨fun h => exists_neverEnds_of_after ho (k := 0) fun n _ => h n, ?_⟩
  rintro ⟨before, i, rest, rfl, hbefore, hi⟩ n
  have hdone : ∀ o' ∈ before.map (o · n), (∃ a, o' = .done a) ∨ o' = .exhausted := by
    refine List.forall_mem_map.mpr fun j hj => ?_
    obtain ⟨n', a, hend⟩ := hbefore j hj
    have hj' := (ho j).eq_or_exhausted (by rw [hend]; simp) n
    exact hj'.imp_left fun heq => ⟨a, heq.trans hend⟩
  simp only [List.map_append, List.map_cons, hi n]
  exact after_eq_exhausted hdone _ _

end InARow

end Outcome

open Outcome (Budgeted NeverEnds)

namespace Resolver

/-! ## Where a resolution is -/

/-- Where the loop over a string is: its text, and whether no marker has been replaced yet. -/
structure Scan where
  untouched : Bool
  text : String

/-- The loop over a string begins. -/
def Scan.start (text : String) : Scan := ⟨true, text⟩

section Definitions

variable (r : Resolver)

/-- **One replacement in a string under `frame`**: the key of the first marker has a value, and this
leaves a text to search again. -/
inductive Rescans (c : Chain) (frame : List String) : Scan → Scan → Prop
  | replace {s : Scan} {m : Marker} {n : Nat} {v : Value} {text : String}
      (hfind : r.pattern.find? s.text = some m)
      (hlook : r.lookup n c (r.keyOf frame m.key) = .done v)
      (hreplace : r.replace s.untouched s.text m v = .inr text) : Rescans c frame s ⟨false, text⟩

/-- **Replacements without end** in the string at a path. -/
def Churns (c : Chain) (at' : List String × String) : Prop :=
  ∃ scans : Nat → Scan, scans 0 = .start at'.2 ∧
    ∀ i, r.Rescans c at'.1.dropLast (scans i) (scans (i + 1))

/-- The loop over the string at a path comes to ask for `key`. -/
def AsksFor (c : Chain) (at' : List String × String) (key : String) : Prop :=
  ∃ s m, Relation.ReflTransGen (r.Rescans c at'.1.dropLast) (.start at'.2) s ∧
    r.pattern.find? s.text = some m ∧ key = r.keyOf at'.1.dropLast m.key

/-- The walk of a value comes to the string at a path: those written before it have values. -/
def ComesTo (c : Chain) (context : List String) (v : Value) (at' : List String × String) : Prop :=
  ∃ before rest, v.strings context = before ++ at' :: rest ∧
    ∀ b ∈ before, ∃ n w, r.stringOutcome (r.lookup n c) n b = .done w

/-- **The strings that resolving the tree comes to**, each with the keys that are being resolved
there: strings of the tree, and of the raw values of the keys that such strings ask for. -/
inductive Searches : Chain → List String × String → Prop
  | tree {at' : List String × String}
      (hcomes : r.ComesTo (.ofLimit r.options.maxDepth) [] r.tree at') :
      Searches (.ofLimit r.options.maxDepth) at'
  | fetched {c inner : Chain} {at' at'' : List String × String} {key : String} {raw : Value}
      (hat : Searches c at') (hkey : r.AsksFor c at' key) (henter : c.enter key = .ok inner)
      (hraw : r.getter r.tree key r.options.toConfig = .ok raw)
      (hcomes : r.ComesTo inner (r.rules.split key) raw at'') : Searches inner at''

/-- The loop over a string, with `n` rescans for it and for every lookup. -/
def scanOutcome (c : Chain) (frame : List String) (s : Scan) (n : Nat) : Outcome Value :=
  (r.substitute frame n s.untouched s.text).answer (r.lookup n c)

/-- The loop over a string never ends. -/
def Hangs (c : Chain) (frame : List String) (s : Scan) : Prop :=
  NeverEnds (r.scanOutcome c frame s)

end Definitions

variable {r : Resolver} {c inner : Chain} {frame context : List String} {s t : Scan}
  {at' : List String × String} {key : String}

/-! ## Walks and lookups -/

theorem ComesTo.mem {v : Value} (h : r.ComesTo c context v at') : at' ∈ v.strings context := by
  obtain ⟨before, rest, heq, -⟩ := h
  rw [heq]
  exact List.mem_append_right _ (List.mem_cons_self ..)

theorem budgeted_lookup (c : Chain) (key : String) : Budgeted fun n => r.lookup n c key :=
  fun _ _ hle hne => lookup_of_le hle hne

/-- More rescans, in the string and in the lookups, only continue what was cut short. -/
theorem substitute_answer_of_le {n n' k k' : Nat} (hn : n ≤ n') (hk : k ≤ k') {untouched : Bool}
    {text : String} (h : (r.substitute frame n untouched text).answer (r.lookup k c) ≠ .exhausted) :
    (r.substitute frame n' untouched text).answer (r.lookup k' c) =
      (r.substitute frame n untouched text).answer (r.lookup k c) := by
  refine Outcome.eq_of_ne_exhausted ?_ h
  exact (substitute_agrees Outcome.cutShort_none hn frame untouched text).answer
    (lookup_agrees hk c)

theorem budgeted_scanOutcome (c : Chain) (frame : List String) (s : Scan) :
    Budgeted (r.scanOutcome c frame s) := fun _ _ hle hne => substitute_answer_of_le hle hle hne

/-- **A walk that never ends comes to a string that never does.** -/
theorem neverEnds_walk_iff {v : Value} :
    NeverEnds (fun n => (r.walk n context v).answer (r.lookup n c)) ↔
      ∃ at', r.ComesTo c context v at' ∧ r.Hangs c at'.1.dropLast (.start at'.2) := by
  have hstrings : (fun n => (r.walk n context v).answer (r.lookup n c)) = fun n =>
      Outcome.after ((v.strings context).map fun at' =>
        r.scanOutcome c at'.1.dropLast (.start at'.2) n)
          (.done (v.mapStrings (r.stringValue (r.lookup n c) n) context)) :=
    funext fun n => answer_walk_strings v
  rw [hstrings, Outcome.neverEnds_after_iff (o := fun at' : List String × String =>
    r.scanOutcome c at'.1.dropLast (.start at'.2)) fun at' => budgeted_scanOutcome c _ _]
  constructor
  · rintro ⟨before, at', rest, heq, hbefore, hat⟩
    exact ⟨at', ⟨before, rest, heq, hbefore⟩, hat⟩
  · rintro ⟨at', ⟨before, rest, heq, hbefore⟩, hat⟩
    exact ⟨before, at', rest, heq, hbefore, hat⟩

/-- **A lookup that never ends comes to a string that never does**, in the raw value of the key. -/
theorem neverEnds_lookup_iff :
    NeverEnds (fun n => r.lookup n c key) ↔
      ∃ inner raw at', c.enter key = .ok inner ∧
        r.getter r.tree key r.options.toConfig = .ok raw ∧
        r.ComesTo inner (r.rules.split key) raw at' ∧
        r.Hangs inner at'.1.dropLast (.start at'.2) := by
  constructor
  · intro h
    cases henter : c.enter key with
    | error e => cases (lookup_of_enter_error henter 0).symm.trans (h 0)
    | ok inner =>
      cases hraw : r.getter r.tree key r.options.toConfig with
      | error source => cases (lookup_of_getter_error henter hraw 0).symm.trans (h 0)
      | ok raw =>
        simp only [lookup_of_getter_ok henter hraw] at h
        obtain ⟨at', hcomes, hat⟩ := neverEnds_walk_iff.mp h
        exact ⟨inner, raw, at', rfl, rfl, hcomes, hat⟩
  · rintro ⟨inner, raw, at', henter, hraw, hcomes, hat⟩
    simp only [lookup_of_getter_ok henter hraw]
    exact neverEnds_walk_iff.mpr ⟨at', hcomes, hat⟩

/-! ## The loop over a string -/

/-- **The loop goes on with the lookup of its next key**, if that ends. -/
theorem scanOutcome_succ {m : Marker} (hfind : r.pattern.find? s.text = some m) {k n : Nat}
    (hle : k ≤ n) (hends : r.lookup k c (r.keyOf frame m.key) ≠ .exhausted) :
    r.scanOutcome c frame s (n + 1) = (r.lookup k c (r.keyOf frame m.key)).bind fun v =>
      (r.resume frame n (r.replace s.untouched s.text m v)).answer (r.lookup (n + 1) c) := by
  rw [scanOutcome, substitute_succ hfind, Inquiry.answer,
    lookup_of_le (Nat.le_succ_of_le hle) hends]

/-- A loop that finds no marker ends. -/
theorem scanOutcome_of_find?_none (hfind : r.pattern.find? s.text = none) (n : Nat) :
    r.scanOutcome c frame s n ≠ .exhausted := by
  rw [scanOutcome, substitute_of_find?_none hfind]
  unfold finish
  split
  · simp [Inquiry.answer]
  · split <;> simp [Inquiry.answer]

/-- **A loop never ends just if it never does after a replacement.** -/
theorem hangs_iff_of_rescans (hstep : r.Rescans c frame s t) :
    r.Hangs c frame s ↔ r.Hangs c frame t := by
  cases hstep with
  | @replace m k v text hfind hlook hreplace =>
    have hsucc : ∀ n ≥ k, r.scanOutcome c frame s (n + 1) =
        (r.substitute frame n false text).answer (r.lookup (n + 1) c) := fun n hn => by
      rw [scanOutcome_succ hfind hn (by rw [hlook]; simp), hlook, Outcome.bind, hreplace]
      rfl
    -- an end of one loop is an end of the other with more rescans
    constructor
    · intro h n
      by_contra hn
      have hmore := substitute_answer_of_le (Nat.le_max_right k n)
        (Nat.le_succ_of_le (Nat.le_max_right k n)) hn
      exact hn (hmore.symm.trans ((hsucc _ (Nat.le_max_left k n)).symm.trans (h _)))
    · intro h n
      by_contra hn
      have hmore := budgeted_scanOutcome c frame s (Nat.le_succ_of_le (Nat.le_max_right k n)) hn
      rw [hsucc _ (Nat.le_max_left k n)] at hmore
      have hafter := substitute_answer_of_le (Nat.le_succ _) (Nat.le_refl _) (hmore ▸ hn)
      exact hn (hmore.symm.trans (hafter.symm.trans (h _)))

theorem hangs_iff_of_reflTransGen (h : Relation.ReflTransGen (r.Rescans c frame) s t) :
    r.Hangs c frame s ↔ r.Hangs c frame t := by
  induction h with
  | refl => exact .rfl
  | tail _ hstep ih => exact ih.trans (hangs_iff_of_rescans hstep)

/-- A loop never ends if the lookup of its next key does not. -/
theorem hangs_of_lookup {m : Marker} (hfind : r.pattern.find? s.text = some m)
    (h : NeverEnds fun n => r.lookup n c (r.keyOf frame m.key)) : r.Hangs c frame s := by
  intro n
  cases n with
  | zero =>
    rw [scanOutcome, substitute_zero hfind]
    rfl
  | succ n =>
    have hlook : r.lookup (n + 1) c (r.keyOf frame m.key) = .exhausted := h (n + 1)
    rw [scanOutcome, substitute_succ hfind, Inquiry.answer, hlook]
    rfl

/-- **A loop that never ends goes on**: it asks for a key whose lookup never ends, or replaces a
marker. -/
theorem Hangs.exists_find? (h : r.Hangs c frame s) :
    ∃ m, r.pattern.find? s.text = some m ∧
      ((NeverEnds fun n => r.lookup n c (r.keyOf frame m.key)) ∨ ∃ t, r.Rescans c frame s t) := by
  cases hfind : r.pattern.find? s.text with
  | none => exact absurd (h 0) (scanOutcome_of_find?_none hfind 0)
  | some m =>
    refine ⟨m, rfl, ?_⟩
    by_cases hlookups : NeverEnds fun n => r.lookup n c (r.keyOf frame m.key)
    · exact .inl hlookups
    obtain ⟨k, hk⟩ := not_forall.mp hlookups
    have hcut := (scanOutcome_succ hfind (Nat.le_refl k) hk).symm.trans (h (k + 1))
    cases hlook : r.lookup k c (r.keyOf frame m.key) with
    | exhausted => exact absurd hlook hk
    | failed e =>
      rw [hlook] at hcut
      cases hcut
    | done v =>
      cases hreplace : r.replace s.untouched s.text m v with
      | inl w =>
        rw [hlook, Outcome.bind, hreplace] at hcut
        cases hcut
      | inr text => exact .inr ⟨_, .replace hfind hlook hreplace⟩

/-- A string churns just if its replacements come to no end. -/
theorem churns_iff_not_acc :
    r.Churns c at' ↔ ¬ Acc (fun t s => r.Rescans c at'.1.dropLast s t) (.start at'.2) := by
  rw [Churns, not_acc_iff_exists_descending_chain]

/-- A string churns if an invariant of its text always leaves one more replacement. -/
theorem churns_of_invariant (I : Scan → Prop) (hstart : I (.start at'.2))
    (hstep : ∀ s, I s → ∃ t, r.Rescans c at'.1.dropLast s t ∧ I t) : r.Churns c at' := by
  refine churns_iff_not_acc.mpr fun hacc => ?_
  generalize Scan.start at'.2 = s at hacc hstart
  induction hacc with
  | intro s _ ih =>
    obtain ⟨t, ht, hI⟩ := hstep s hstart
    exact ih t ht hI

/-- A loop that never ends although its replacements do asks for a key whose lookup never ends. -/
theorem Hangs.exists_lookup (hacc : Acc (fun t s => r.Rescans c frame s t) s)
    (h : r.Hangs c frame s) :
    ∃ t m, Relation.ReflTransGen (r.Rescans c frame) s t ∧ r.pattern.find? t.text = some m ∧
      NeverEnds fun n => r.lookup n c (r.keyOf frame m.key) := by
  induction hacc with
  | intro s _ ih =>
    obtain ⟨m, hfind, hlookup | ⟨t, hstep⟩⟩ := h.exists_find?
    · exact ⟨s, m, .refl, hfind, hlookup⟩
    · obtain ⟨u, m, hreach, hu⟩ := ih t hstep ((hangs_iff_of_rescans hstep).mp h)
      exact ⟨u, m, .head hstep hreach, hu⟩

/-- **A loop that never ends churns, or asks for a key whose lookup never ends.** -/
theorem Hangs.churns_or_asks (h : r.Hangs c at'.1.dropLast (.start at'.2)) :
    r.Churns c at' ∨ ∃ key, r.AsksFor c at' key ∧ NeverEnds fun n => r.lookup n c key := by
  by_cases hacc : Acc (fun t s => r.Rescans c at'.1.dropLast s t) (.start at'.2)
  · obtain ⟨t, m, hreach, hfind, hlookup⟩ := h.exists_lookup hacc
    exact .inr ⟨_, ⟨t, m, hreach, hfind, rfl⟩, hlookup⟩
  · exact .inl (churns_iff_not_acc.mpr hacc)

/-- **A loop never ends if a key that it asks for has no end.** -/
theorem AsksFor.hangs (hasks : r.AsksFor c at' key) (h : NeverEnds fun n => r.lookup n c key) :
    r.Hangs c at'.1.dropLast (.start at'.2) := by
  obtain ⟨t, m, hreach, hfind, rfl⟩ := hasks
  exact (hangs_iff_of_reflTransGen hreach).mpr (hangs_of_lookup hfind h)

theorem Rescans.exists_find? (h : r.Rescans c frame s t) :
    ∃ m, r.pattern.find? s.text = some m := by
  cases h with
  | replace hfind _ _ => exact ⟨_, hfind⟩

/-- Replacements without end use up every number of rescans.  Each lookup on the way has its value,
or is itself cut short. -/
theorem substitute_exhausted {scans : Nat → Scan}
    (hsteps : ∀ i, r.Rescans c frame (scans i) (scans (i + 1))) (n k i : Nat) :
    (r.substitute frame n (scans i).untouched (scans i).text).answer (r.lookup k c) =
      .exhausted := by
  induction n generalizing i with
  | zero =>
    obtain ⟨m, hfind⟩ := (hsteps i).exists_find?
    rw [substitute_zero hfind]
    rfl
  | succ n ih =>
    have hstep := hsteps i
    have hrest := ih (i + 1)
    generalize scans (i + 1) = t at hstep hrest
    cases hstep with
    | @replace m k' v text hfind hlook hreplace =>
      rw [substitute_succ hfind, Inquiry.answer]
      rcases (budgeted_lookup c _).eq_or_exhausted (by rw [hlook]; simp) k with heq | hcut
      · have hvalue : r.lookup k c (r.keyOf frame m.key) = .done v := heq.trans hlook
        rw [hvalue, Outcome.bind, hreplace]
        exact hrest
      · rw [hcut]
        rfl

/-- **The loop over a string that churns never ends.** -/
theorem Churns.hangs (h : r.Churns c at') : r.Hangs c at'.1.dropLast (.start at'.2) := by
  obtain ⟨scans, hzero, hsteps⟩ := h
  intro n
  rw [scanOutcome, ← hzero]
  exact substitute_exhausted hsteps n n 0

/-! ## Resolutions -/

/-- **Where a search never ends, a string churns.**  A key that is asked for leaves the chain less
room. -/
theorem Searches.exists_churns : ∀ {at' : List String × String}, r.Searches c at' →
    r.Hangs c at'.1.dropLast (.start at'.2) → ∃ c' at'', r.Searches c' at'' ∧ r.Churns c' at'' := by
  induction c using Chain.induct_enter with
  | step c ih =>
    intro at' hat hhangs
    rcases hhangs.churns_or_asks with hchurns | ⟨key, hkey, hlookup⟩
    · exact ⟨c, at', hat, hchurns⟩
    · obtain ⟨inner, raw, at'', henter, hraw, hcomes, hhangs'⟩ := neverEnds_lookup_iff.mp hlookup
      exact ih key inner henter (.fetched hat hkey henter hraw hcomes) hhangs'

/-- **A resolution that comes to a string whose loop never ends does not end either.** -/
theorem Searches.neverEnds (hat : r.Searches c at')
    (h : r.Hangs c at'.1.dropLast (.start at'.2)) : NeverEnds r.resolve := by
  induction hat with
  | tree hcomes => exact neverEnds_walk_iff.mpr ⟨_, hcomes, h⟩
  | fetched _ hkey henter hraw hcomes ih =>
    exact ih (hkey.hangs (neverEnds_lookup_iff.mpr ⟨_, _, _, henter, hraw, hcomes, h⟩))

/-- **A resolution never ends just if it comes to a string that churns.** -/
theorem neverEnds_resolve_iff :
    NeverEnds r.resolve ↔ ∃ c at', r.Searches c at' ∧ r.Churns c at' := by
  constructor
  · intro h
    obtain ⟨at', hcomes, hhangs⟩ := neverEnds_walk_iff.mp h
    exact Searches.exists_churns (.tree hcomes) hhangs
  · rintro ⟨c, at', hat, hchurns⟩
    exact hat.neverEnds hchurns.hangs

/-- Every string that the resolution comes to is one of the tree, if the getter finds no others. -/
theorem Searches.mem_texts
    (hget : ∀ key raw, r.getter r.tree key r.options.toConfig = .ok raw → raw.texts ⊆ r.tree.texts)
    (hat : r.Searches c at') : at'.2 ∈ r.tree.texts := by
  cases hat with
  | tree hcomes => exact (Value.mem_texts_iff []).mpr ⟨at'.1, hcomes.mem⟩
  | @fetched _ _ _ _ key raw _ _ _ hraw hcomes =>
    exact hget key raw hraw ((Value.mem_texts_iff (r.rules.split key)).mpr ⟨at'.1, hcomes.mem⟩)

end Resolver

end RefTree
