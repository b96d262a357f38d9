import RefTree.Proofs.Marker

/-!
# Proofs/Marker/Searches — the first marker, all markers, and whether there is one

All three searches of a pattern start at the first match of its expression, and go on differently if
the key takes no part in it: the search for one marker gives up, the search for all skips it, and
the search for a match counts it.  They agree on a text just if the key takes part in its first
match (`agree_iff`).  It takes part in every match of an expression that leads through the group of
the key whichever way it is read (`binds`), since a place that is reached keeps what the groups have
matched before (`Cursor.Holds.of_mem_ends`).
-/

namespace RefTree

namespace Regex

/-- Each way to read the expression leads through a group of that name. -/
def binds (name : String) : Regex → Bool
  | empty => false
  | set _ => false
  | look _ => false
  | named n r => n == name || binds name r
  | cat r q => binds name r || binds name q
  | alt r q => binds name r && binds name q
  | times least _ _ r => decide (0 < least) && binds name r

/-! ## Groups that have matched -/

/-- The group has matched something before the place. -/
def Cursor.Holds (name : String) (s : Cursor) : Prop := (s.groups.lookup name).isSome

theorem Cursor.holds_record_iff {name n : String} {s t : Cursor} :
    (s.record n t).Holds name ↔ n = name ∨ t.Holds name := by
  unfold Cursor.Holds Cursor.record
  rw [List.lookup_cons]
  by_cases h : n = name
  · simp [h]
  · have hbeq : (name == n) = false := beq_false_of_ne (Ne.symm h)
    simp [h, hbeq]

/-- What one step keeps is kept. -/
theorem Rounds.keeps {P : Cursor → Cursor → Prop} {p : Cursor → Prop}
    (hP : ∀ s t, P s t → p s → p t) {n : Nat} {s t : Cursor} (h : Rounds P n s t) (hs : p s) :
    p t := by
  induction n generalizing s with
  | zero =>
    obtain rfl : s = t := h
    exact hs
  | succ n ih =>
    obtain ⟨u, hsu, hut⟩ := h
    exact ih hut (hP s u hsu hs)

variable {name : String} {r : Regex}

/-- **What a group has matched is kept** on the way to a further place. -/
theorem Cursor.Holds.of_mem_ends : ∀ s, ∀ t ∈ ends r s, s.Holds name → t.Holds name := by
  induction r with
  | named n r ih =>
    intro s t ht hs
    obtain ⟨u, hu, rfl⟩ := List.mem_map.mp ht
    exact Cursor.holds_record_iff.mpr (.inr (ih s u hu hs))
  | cat r q ihr ihq =>
    intro s t ht hs
    obtain ⟨u, hu, ht⟩ := exists_of_mem_ends_cat ht
    exact ihq u t ht (ihr s u hu hs)
  | alt r q ihr ihq =>
    intro s t ht hs
    rcases List.mem_append.mp (mem_of_mem_distinct ht) with ht | ht
    · exact ihr s t ht hs
    · exact ihq s t ht hs
  | times least most greedy r ih =>
    intro s t ht hs
    obtain ⟨n, -, -, hst⟩ := rounds_of_mem_repeated ih ht
    exact hst.keeps (fun _ _ h => h) hs
  | _ =>
    intro s t ht hs
    rwa [Holds, groups_eq_of_mem_ends rfl s t ht]

/-- **A match that leads through a group has it matched something.** -/
theorem Cursor.Holds.of_binds (h : binds name r = true) : ∀ s, ∀ t ∈ ends r s, t.Holds name := by
  induction r with
  | named n r ih =>
    intro s t ht
    obtain ⟨u, hu, rfl⟩ := List.mem_map.mp ht
    rw [Cursor.holds_record_iff]
    rcases Bool.or_eq_true_iff.mp h with hname | hr
    · exact .inl (eq_of_beq hname)
    · exact .inr (ih hr s u hu)
  | cat r q ihr ihq =>
    intro s t ht
    obtain ⟨u, hu, ht⟩ := exists_of_mem_ends_cat ht
    rcases Bool.or_eq_true_iff.mp h with hr | hq
    · exact .of_mem_ends u t ht (ihr hr s u hu)
    · exact ihq hq u t ht
  | alt r q ihr ihq =>
    intro s t ht
    obtain ⟨hr, hq⟩ := Bool.and_eq_true_iff.mp h
    rcases List.mem_append.mp (mem_of_mem_distinct ht) with ht | ht
    · exact ihr hr s t ht
    · exact ihq hq s t ht
  | times least most greedy r ih =>
    intro s t ht
    obtain ⟨hleast, hr⟩ := Bool.and_eq_true_iff.mp h
    -- the first round matches the group, and the others keep it
    obtain ⟨n, hle, -, hst⟩ := rounds_of_mem_repeated (fun s t h => h) ht
    match n, hst with
    | 0, _ => exact absurd hle (Nat.not_le.mpr (of_decide_eq_true hleast))
    | n + 1, ⟨u, hu, hut⟩ => exact hut.keeps Cursor.Holds.of_mem_ends (ih hr s u hu)
  | _ => cases h

/-! ## The first match -/

theorem mem_ends_of_firstFrom {offset : Nat} {previous : Option Char} {text : List Char} {m : Span}
    (h : firstFrom r offset previous text = some m) : m.stop ∈ ends r m.start := by
  induction text generalizing offset previous with
  | nil =>
    obtain ⟨t, ht, rfl⟩ := Option.map_eq_some_iff.mp h
    exact List.mem_of_mem_head? ht
  | cons c text ih =>
    simp only [firstFrom] at h
    split at h
    · next t ht =>
      obtain rfl := Option.some.inj h
      exact List.mem_of_mem_head? ht
    · exact ih h

theorem isSome_group?_iff {m : Span} : (m.group? name).isSome ↔ m.stop.Holds name := by
  rw [Span.group?, Option.isSome_map, Cursor.Holds]

theorem nextSpan?_start (r : Regex) (text : String) :
    nextSpan? r (.start text.toList) none = r.find? text := by
  unfold nextSpan? find?
  split <;> simp [*]

theorem findAll_of_find?_none {text : String} (h : r.find? text = none) : r.findAll text = [] := by
  rw [findAll, spansFrom, nextSpan?_start, h]

/-- The first of all matches is the first match. -/
theorem exists_findAll_eq_cons {text : String} {m : Span} (h : r.find? text = some m) :
    ∃ ms, r.findAll text = m :: ms := by
  rw [findAll, spansFrom, nextSpan?_start, h]
  exact ⟨_, rfl⟩

end Regex

namespace Marker

open Regex

namespace Pattern

variable {p : Pattern} {text : String}

/-- The three searches say the same of a text. -/
def Agree (p : Pattern) (text : String) : Prop :=
  p.find? text = (p.findAll text).head? ∧ p.matches? text = (p.find? text).isSome

instance (p : Pattern) (text : String) : Decidable (p.Agree text) :=
  inferInstanceAs (Decidable (_ ∧ _))

/-- The searches agree just if the key takes part in the first match. -/
theorem agree_iff : p.Agree text ↔
    ∀ m, p.regex.find? text = some m → (m.group? keyGroup).isSome := by
  unfold Agree find? findAll matches?
  cases hfind : p.regex.find? text with
  | none => simp [findAll_of_find?_none hfind]
  | some m =>
    obtain ⟨ms, hall⟩ := exists_findAll_eq_cons hfind
    cases hgroup : m.group? keyGroup <;> simp [hall, marker?, hgroup]

theorem agree_of_binds (h : p.regex.binds keyGroup = true) (text : String) : p.Agree text := by
  refine agree_iff.mpr fun m hm => ?_
  rw [isSome_group?_iff]
  exact .of_binds h _ _ (mem_ends_of_firstFrom hm)

/-- A marker that is found is the first of all. -/
theorem head?_findAll_of_find? {m : Marker} (h : p.find? text = some m) :
    (p.findAll text).head? = some m := by
  obtain ⟨span, hspan, hmarker⟩ := Option.bind_eq_some_iff.mp h
  obtain ⟨ms, hall⟩ := exists_findAll_eq_cons hspan
  rw [findAll, hall, List.filterMap_cons_some hmarker, List.head?_cons]

theorem matches?_of_findAll_ne_nil (h : p.findAll text ≠ []) : p.matches? text = true := by
  unfold matches?
  cases hfind : p.regex.find? text with
  | none => exact absurd (by rw [findAll, findAll_of_find?_none hfind, List.filterMap_nil]) h
  | some m => rfl

theorem parse_source_of_ofGrammar {g : Grammar} (h : ofGrammar g = .ok p) :
    Regex.parse (Marker.source g) = some p.regex := by
  simp only [ofGrammar] at h
  split at h
  · cases h
  split at h
  · cases h
  split at h
  · cases h
  split at h
  · cases h
  next regex hparse =>
    cases h
    exact hparse

/-- **The three searches agree on a text** just if the key takes part in the first match, as it does
in every match of an expression that cannot be read without it.  A marker that is found is the first
of all in any case, and where there are markers there is a match. -/
theorem searches_agree {g : Grammar} (h : ofGrammar g = .ok p) :
    ∃ regex, Regex.parse (Marker.source g) = some regex ∧
      (∀ text, p.Agree text ↔ ∀ m, regex.find? text = some m → (m.group? keyGroup).isSome) ∧
      (regex.binds keyGroup = true → ∀ text, p.Agree text) ∧
      ∀ text, (∀ m, p.find? text = some m → (p.findAll text).head? = some m) ∧
        (p.findAll text ≠ [] → p.matches? text = true) :=
  ⟨p.regex, parse_source_of_ofGrammar h, fun _ => agree_iff, agree_of_binds,
    fun _ => ⟨fun _ => head?_findAll_of_find?, matches?_of_findAll_ne_nil⟩⟩

theorem searches_agree_default :
    ofGrammar {} = .ok Default.pattern ∧ Default.regex.binds keyGroup = true ∧
      ∀ text, Default.pattern.Agree text := by
  obtain ⟨regex, hparse, -, hbinds, -⟩ := searches_agree Default.ofGrammar_eq
  have hregex := parse_source_of_ofGrammar Default.ofGrammar_eq
  obtain rfl : regex = Default.regex := Option.some.inj (hparse.symm.trans hregex)
  exact ⟨Default.ofGrammar_eq, rfl, hbinds rfl⟩

/-- Markers as by default, or an exclamation mark. -/
def exclaimed : Grammar where
  referencePattern := "!|@\\\x7b\x7bkey\x7d\\\x7d"

/-- **An exclamation mark is a match without a key**: the search for one marker ends there, and the
search for all goes on behind it. -/
theorem searches_exclaimed :
    ∃ p, ofGrammar exclaimed = .ok p ∧ p.find? "! @\x7ba\x7d" = none ∧
      p.findAll "! @\x7ba\x7d" = [⟨"a", 2, 4, false⟩] ∧ p.matches? "! @\x7ba\x7d" = true := by
  have hsearches : (ofGrammar exclaimed).toOption.map (fun p =>
      (p.find? "! @\x7ba\x7d", p.findAll "! @\x7ba\x7d", p.matches? "! @\x7ba\x7d")) =
        some (none, [⟨"a", 2, 4, false⟩], true) := by decide +kernel
  cases hp : ofGrammar exclaimed with
  | error fault =>
    rw [hp] at hsearches
    cases hsearches
  | ok p =>
    rw [hp] at hsearches
    obtain ⟨hfind, hall, hmatches⟩ : _ ∧ _ ∧ _ := by
      simpa only [Except.toOption, Option.map_some, Option.some.injEq, Prod.mk.injEq]
        using hsearches
    exact ⟨p, rfl, hfind, hall, hmatches⟩

end Pattern

end Marker

end RefTree
