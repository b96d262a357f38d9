import RefTree.Proofs.Value
import RefTree.Value.Render

/-!
# Proofs/Sealed — texts in which no brace is opened

A marker opens with `@` and a brace.  In a *sealed* text no `@` stands before a brace or at the end,
so nothing can be put around the text that opens a brace with its help.  Sealed texts in a row are
sealed (`Sealed.append`), and a tree of sealed texts is rendered as one (`Value.Sealed.render`),
whatever JSON does to its strings and keys.
-/

namespace RefTree

/-- Every `@` of the text stands before some character other than a brace. -/
def Sealed (text : List Char) : Prop :=
  ∀ before after, text = before ++ '@' :: after → ∃ c rest, after = c :: rest ∧ c ≠ '\x7b'

/-- Somewhere in the text a brace is opened. -/
def Opens (text : List Char) : Prop := ['@', '\x7b'] <:+: text

instance (text : List Char) : Decidable (Opens text) := inferInstanceAs (Decidable (_ <:+: _))

namespace Sealed

variable {c : Char} {text text' : List Char}

theorem nil : Sealed [] := by
  intro before after h
  simp at h

theorem cons_iff :
    Sealed (c :: text) ↔ (c = '@' → ∃ d rest, text = d :: rest ∧ d ≠ '\x7b') ∧ Sealed text := by
  constructor
  · intro h
    refine ⟨fun hc => h [] text (by rw [hc]; rfl), fun before after heq => ?_⟩
    exact h (c :: before) after (by rw [heq]; rfl)
  · rintro ⟨hc, h⟩ before after heq
    cases before with
    | nil =>
      obtain ⟨rfl, rfl⟩ := List.cons.inj heq
      exact hc rfl
    | cons d before => exact h before after (List.cons.inj heq).2

/-- A text without `@` is sealed. -/
theorem of_notMem (h : '@' ∉ text) : Sealed text := by
  rintro before after rfl
  simp at h

theorem append (h : Sealed text) (h' : Sealed text') : Sealed (text ++ text') := by
  induction text with
  | nil => exact h'
  | cons c text ih =>
    obtain ⟨hc, h⟩ := cons_iff.mp h
    refine cons_iff.mpr ⟨fun heq => ?_, ih h⟩
    obtain ⟨d, rest, rfl, hd⟩ := hc heq
    exact ⟨d, rest ++ text', rfl, hd⟩

theorem cons (hc : c ≠ '@') (h : Sealed text) : Sealed (c :: text) :=
  cons_iff.mpr ⟨fun heq => absurd heq hc, h⟩

theorem not_opens (h : Sealed text) : ¬ Opens text := by
  rintro ⟨before, after, rfl⟩
  obtain ⟨c, rest, heq, hc⟩ := h before ('\x7b' :: after) (by simp)
  exact hc (List.cons.inj heq).1.symm

end Sealed

theorem not_opens_of_cons {c : Char} {text : List Char} (h : ¬ Opens (c :: text)) : ¬ Opens text :=
  fun hopens => h (hopens.trans (List.suffix_cons c text).isInfix)

/-! ## JSON -/

namespace Json

theorem hexDigit_ne_at : ∀ n < 16, hexDigit n ≠ '@' := by decide

/-- A character is written as itself, or behind a backslash and without `@`. -/
theorem escape_eq_or (c : Char) :
    escape c = [c] ∨ ∃ rest, escape c = '\\' :: rest ∧ '@' ∉ rest := by
  unfold escape
  repeat' split
  all_goals first | exact .inl rfl | exact .inr ⟨_, rfl, by decide⟩ | skip
  next hlow =>
    refine .inr ⟨_, rfl, ?_⟩
    have hhigh := hexDigit_ne_at (c.toNat / 16) (by omega)
    have hrest := hexDigit_ne_at (c.toNat % 16) (by omega)
    simp [hhigh.symm, hrest.symm]

/-- The text of a string is sealed up to its closing quote, if the string opens no brace. -/
theorem sealed_flatMap_escape {cs : List Char} (h : ¬ Opens cs) :
    Sealed (cs.flatMap escape ++ ['"']) := by
  induction cs with
  | nil => exact .of_notMem (by decide)
  | cons c cs ih =>
    have ih := ih (not_opens_of_cons h)
    rw [List.flatMap_cons, List.append_assoc]
    rcases escape_eq_or c with heq | ⟨rest, heq, hrest⟩
    · rw [heq]
      refine Sealed.cons_iff.mpr ⟨?_, ih⟩
      rintro rfl
      cases cs with
      | nil => exact ⟨'"', [], rfl, by decide⟩
      | cons d ds =>
        have hd : d ≠ '\x7b' := by
          rintro rfl
          exact h ⟨[], ds, rfl⟩
        rcases escape_eq_or d with heq' | ⟨rest', heq', -⟩
        · exact ⟨d, _, by rw [List.flatMap_cons, heq']; rfl, hd⟩
        · exact ⟨'\\', _, by rw [List.flatMap_cons, heq']; rfl, by decide⟩
    · rw [heq]
      exact .cons (by decide) (.append (.of_notMem hrest) ih)

/-- **A string that opens no brace is quoted as a sealed text.** -/
theorem sealed_quote {s : String} (h : ¬ Opens s.toList) : Sealed (quote s) :=
  .cons (by decide) (sealed_flatMap_escape h)

end Json

/-! ## Numbers -/

theorem notMem_toDigits (n : Nat) : '@' ∉ Nat.toDigits 10 n :=
  fun h => absurd (Nat.isDigit_of_mem_toDigits (by decide) (by decide) h) (by decide)

theorem Layout.notMem_positional {layout : Layout} (hwhole : '@' ∉ layout.wholeMark.toList)
    (hplus : '@' ∉ layout.exponentPlus.toList) (d : Decimal) :
    '@' ∉ (layout.positional d).toList := by
  have hdigits := notMem_toDigits d.digits
  have htake : ∀ n, '@' ∉ (Nat.toDigits 10 d.digits).take n :=
    fun n h => hdigits (List.mem_of_mem_take h)
  have hdrop : ∀ n, '@' ∉ (Nat.toDigits 10 d.digits).drop n :=
    fun n h => hdigits (List.mem_of_mem_drop h)
  have hfraction : ∀ fraction : List Char, '@' ∉ fraction →
      '@' ∉ (if fraction.isEmpty then [] else '.' :: fraction) := by
    intro fraction h
    split
    · simp
    · simp [h]
  have hsign : ∀ lead : Int, '@' ∉ (if lead < 0 then "-" else layout.exponentPlus).toList := by
    intro lead
    split
    · decide
    · exact hplus
  unfold Layout.positional
  simp only
  split
  · split
    · simp [hdigits, hwhole]
    · split
      · simp [htake, hdrop]
      · simp [hdigits]
  · simp only [String.toList_append, String.toList_ofList, Nat.toList_repr, List.mem_append, not_or]
    exact ⟨⟨⟨⟨htake 1, hfraction _ (hdrop 1)⟩, by decide⟩, hsign _⟩, notMem_toDigits _⟩

namespace Number

theorem notMem_text (n : Number) : '@' ∉ n.text.toList := by
  cases n with
  | integer n =>
    cases n with
    | ofNat n => simp [text, integerText, notMem_toDigits]
    | negSucc n => simp [text, integerText, notMem_toDigits]
  | float x =>
    have hsign : '@' ∉ (if x.negative then "-" else "").toList := by
      split <;> decide
    rw [text, Layout.text, String.toList_append, List.mem_append, not_or]
    refine ⟨hsign, ?_⟩
    split
    · decide
    · exact Layout.notMem_positional (by decide) (by decide) _

end Number

/-! ## Values -/

namespace Value

/-- The strings of the tree are sealed and its keys open no brace. -/
structure Sealed (v : Value) : Prop where
  texts : ∀ s ∈ v.texts, RefTree.Sealed s.toList
  keys : ∀ key ∈ v.keys, ¬ Opens key.toList

namespace Sealed

theorem list_iff {items : List Value} : Sealed (.list items) ↔ ∀ x ∈ items, Sealed x := by
  constructor
  · intro h x hx
    exact ⟨fun s hs => h.texts s (mem_texts_list.mpr ⟨x, hx, hs⟩),
      fun key hkey => h.keys key (mem_keys_list.mpr ⟨x, hx, hkey⟩)⟩
  · refine fun h => ⟨fun s hs => ?_, fun key hkey => ?_⟩
    · obtain ⟨x, hx, hs⟩ := mem_texts_list.mp hs
      exact (h x hx).texts s hs
    · obtain ⟨x, hx, hkey⟩ := mem_keys_list.mp hkey
      exact (h x hx).keys key hkey

theorem map_iff {entries : List (String × Value)} :
    Sealed (.map entries) ↔ ∀ e ∈ entries, ¬ Opens e.1.toList ∧ Sealed e.2 := by
  constructor
  · intro h e he
    exact ⟨h.keys e.1 (mem_keys_map.mpr ⟨e, he, .inl rfl⟩),
      fun s hs => h.texts s (mem_texts_map.mpr ⟨e, he, hs⟩),
      fun key hkey => h.keys key (mem_keys_map.mpr ⟨e, he, .inr hkey⟩)⟩
  · refine fun h => ⟨fun s hs => ?_, fun key hkey => ?_⟩
    · obtain ⟨e, he, hs⟩ := mem_texts_map.mp hs
      exact (h e he).2.texts s hs
    · obtain ⟨e, he, rfl | hkey⟩ := mem_keys_map.mp hkey
      · exact (h e he).1
      · exact (h e he).2.keys key hkey

theorem compactItems {items : List Value}
    (h : ∀ x ∈ items, RefTree.Sealed (Json.compact x)) :
    RefTree.Sealed (Json.compactItems items) := by
  induction items with
  | nil => exact .of_notMem (by decide)
  | cons x xs ih =>
    obtain ⟨hx, hxs⟩ := List.forall_mem_cons.mp h
    exact .cons (by decide) (hx.append (ih hxs))

/-- An entry is written behind a comma, or behind the brace that begins its mapping. -/
theorem compactEntry {key : String} (hkey : ¬ Opens key.toList) {text rest : List Char}
    (htext : RefTree.Sealed text) (hrest : RefTree.Sealed rest) :
    RefTree.Sealed (Json.quote key ++ ':' :: text ++ rest) :=
  .append (.append (Json.sealed_quote hkey) (.cons (by decide) htext)) hrest

theorem compactEntries {entries : List (String × Value)}
    (h : ∀ e ∈ entries, ¬ Opens e.1.toList ∧ RefTree.Sealed (Json.compact e.2)) :
    RefTree.Sealed (Json.compactEntries entries) := by
  induction entries with
  | nil => exact .of_notMem (by decide)
  | cons e es ih =>
    obtain ⟨⟨hkey, he⟩, hes⟩ := List.forall_mem_cons.mp h
    exact .cons (by decide) (compactEntry hkey he (ih hes))

/-- **The JSON text of a sealed tree is sealed.** -/
theorem compact {v : Value} (h : v.Sealed) : RefTree.Sealed (Json.compact v) := by
  induction v using induct with
  | null => exact .of_notMem (by decide)
  | bool b => cases b <;> exact .of_notMem (by decide)
  | number n => exact .of_notMem n.notMem_text
  | string s => exact Json.sealed_quote (h.texts s (List.mem_singleton_self s)).not_opens
  | list items ih =>
    have hall : ∀ x ∈ items, RefTree.Sealed (Json.compact x) :=
      fun x hx => ih x hx (list_iff.mp h x hx)
    cases items with
    | nil => exact .of_notMem (by decide)
    | cons x xs =>
      obtain ⟨hx, hxs⟩ := List.forall_mem_cons.mp hall
      exact .cons (by decide) (hx.append (compactItems hxs))
  | map entries ih =>
    have hall : ∀ e ∈ entries, ¬ Opens e.1.toList ∧ RefTree.Sealed (Json.compact e.2) :=
      fun e he => ⟨(map_iff.mp h e he).1, ih e he (map_iff.mp h e he).2⟩
    cases entries with
    | nil => exact .of_notMem (by decide)
    | cons e es =>
      obtain ⟨⟨hkey, he⟩, hes⟩ := List.forall_mem_cons.mp hall
      exact .cons (by decide) (compactEntry hkey he (compactEntries hes))

theorem renderItems {items : List Value} (h : ∀ x ∈ items, RefTree.Sealed x.render.toList) :
    RefTree.Sealed (renderItems items).toList := by
  induction items with
  | nil => exact .nil
  | cons x xs ih =>
    obtain ⟨hx, hxs⟩ := List.forall_mem_cons.mp h
    rw [Value.renderItems, String.toList_append, String.toList_append]
    exact .append (.append (.of_notMem (by decide)) hx) (ih hxs)

/-- **A sealed tree is rendered as a sealed text.** -/
theorem render {v : Value} (h : v.Sealed) : RefTree.Sealed v.render.toList := by
  induction v using induct with
  | null => exact .nil
  | bool b => cases b <;> exact .of_notMem (by decide)
  | number n => exact .of_notMem n.notMem_text
  | string s => exact h.texts s (List.mem_singleton_self s)
  | list items ih =>
    have hall : ∀ x ∈ items, RefTree.Sealed x.render.toList :=
      fun x hx => ih x hx (list_iff.mp h x hx)
    cases items with
    | nil => exact .nil
    | cons x xs =>
      obtain ⟨hx, hxs⟩ := List.forall_mem_cons.mp hall
      rw [Value.render, String.toList_append]
      exact hx.append (renderItems hxs)
  | map entries _ =>
    rw [Value.render, toJson, String.toList_ofList]
    exact h.compact

end Sealed

end Value

end RefTree
