import RefTree.Value

/-!
# Proofs/Value — the strings and the keys of a tree

`strings` lists the strings of a tree with their paths, in the order in which they are written, and
`keys` the keys of all its mappings.  What is below a node is among what is below the root
(`texts_subset_of_getPath?`, `keys_subset_of_getPath?`).
-/

namespace RefTree.Value

/-- **Induction over trees**: what holds of a list or a mapping may rest on its elements. -/
@[elab_as_elim]
theorem induct {P : Value → Prop} (null : P .null) (bool : ∀ b, P (.bool b))
    (number : ∀ n, P (.number n)) (string : ∀ s, P (.string s))
    (list : ∀ items, (∀ x ∈ items, P x) → P (.list items))
    (map : ∀ entries, (∀ e ∈ entries, P e.2) → P (.map entries)) (v : Value) : P v := by
  refine Value.rec (motive_1 := P) (motive_2 := fun items => ∀ x ∈ items, P x)
    (motive_3 := fun entries => ∀ e ∈ entries, P e.2) (motive_4 := fun e => P e.2)
    null bool number string list map ?_ ?_ ?_ ?_ ?_ v
  · simp
  · exact fun x xs hx hxs => List.forall_mem_cons.mpr ⟨hx, hxs⟩
  · simp
  · exact fun e es he hes => List.forall_mem_cons.mpr ⟨he, hes⟩
  · exact fun key v hv => hv

/-! ## Strings -/

mutual

/-- The strings of a tree at `context`, each with its path.  Elements of a list stand where the list
stands. -/
def strings (context : List String) : Value → List (List String × String)
  | .string s => [(context, s)]
  | .list items => itemStrings context items
  | .map entries => entryStrings context entries
  | _ => []

/-- The strings of the elements of a list. -/
def itemStrings (context : List String) : List Value → List (List String × String)
  | [] => []
  | x :: xs => strings context x ++ itemStrings context xs

/-- The strings of the entries of a mapping. -/
def entryStrings (context : List String) : List (String × Value) → List (List String × String)
  | [] => []
  | (key, v) :: es => strings (context ++ [key]) v ++ entryStrings context es

end

theorem mem_itemStrings {context : List String} {at' : List String × String}
    {items : List Value} :
    at' ∈ itemStrings context items ↔ ∃ x ∈ items, at' ∈ strings context x := by
  induction items with
  | nil => simp [itemStrings]
  | cons x xs ih => simp [itemStrings, ih]

theorem mem_entryStrings {context : List String} {at' : List String × String}
    {entries : List (String × Value)} :
    at' ∈ entryStrings context entries ↔
      ∃ e ∈ entries, at' ∈ strings (context ++ [e.1]) e.2 := by
  induction entries with
  | nil => simp [entryStrings]
  | cons e es ih => simp [entryStrings, ih]

theorem mem_strings_list {context : List String} {at' : List String × String}
    {items : List Value} :
    at' ∈ strings context (.list items) ↔ ∃ x ∈ items, at' ∈ strings context x := by
  rw [strings]
  exact mem_itemStrings

theorem mem_strings_map {context : List String} {at' : List String × String}
    {entries : List (String × Value)} :
    at' ∈ strings context (.map entries) ↔
      ∃ e ∈ entries, at' ∈ strings (context ++ [e.1]) e.2 := by
  rw [strings]
  exact mem_entryStrings

/-- The strings of a tree, without their paths. -/
def texts (v : Value) : List String := (v.strings []).map Prod.snd

/-- A tree holds the same strings wherever it stands. -/
theorem exists_mem_strings_of_exists {s : String} (v : Value) :
    ∀ context context' : List String,
      (∃ path, (path, s) ∈ strings context v) → ∃ path, (path, s) ∈ strings context' v := by
  induction v using induct with
  | null => simp [strings]
  | bool b => simp [strings]
  | number n => simp [strings]
  | string t => simp [strings]
  | list items ih =>
    rintro context context' ⟨path, hpath⟩
    obtain ⟨x, hx, hmem⟩ := mem_strings_list.mp hpath
    obtain ⟨path', hpath'⟩ := ih x hx context context' ⟨path, hmem⟩
    exact ⟨path', mem_strings_list.mpr ⟨x, hx, hpath'⟩⟩
  | map entries ih =>
    rintro context context' ⟨path, hpath⟩
    obtain ⟨e, he, hmem⟩ := mem_strings_map.mp hpath
    obtain ⟨path', hpath'⟩ := ih e he (context ++ [e.1]) (context' ++ [e.1]) ⟨path, hmem⟩
    exact ⟨path', mem_strings_map.mpr ⟨e, he, hpath'⟩⟩

theorem mem_texts_iff {s : String} {v : Value} (context : List String) :
    s ∈ v.texts ↔ ∃ path, (path, s) ∈ strings context v := by
  have hnil : s ∈ v.texts ↔ ∃ path, (path, s) ∈ strings [] v := by simp [texts]
  rw [hnil]
  exact ⟨exists_mem_strings_of_exists v [] context, exists_mem_strings_of_exists v context []⟩

@[simp] theorem texts_null : texts .null = [] := rfl

@[simp] theorem texts_bool (b : Bool) : texts (.bool b) = [] := rfl

@[simp] theorem texts_number (n : Number) : texts (.number n) = [] := rfl

@[simp] theorem texts_string (s : String) : texts (.string s) = [s] := rfl

@[simp] theorem mem_texts_list {s : String} {items : List Value} :
    s ∈ texts (.list items) ↔ ∃ x ∈ items, s ∈ x.texts := by
  simp only [mem_texts_iff [], mem_strings_list]
  exact ⟨fun ⟨path, x, hx, h⟩ => ⟨x, hx, path, h⟩, fun ⟨x, hx, path, h⟩ => ⟨path, x, hx, h⟩⟩

@[simp] theorem mem_texts_map {s : String} {entries : List (String × Value)} :
    s ∈ texts (.map entries) ↔ ∃ e ∈ entries, s ∈ e.2.texts := by
  rw [mem_texts_iff []]
  simp only [mem_strings_map]
  constructor
  · rintro ⟨path, e, he, h⟩
    exact ⟨e, he, (mem_texts_iff _).mpr ⟨path, h⟩⟩
  · rintro ⟨e, he, h⟩
    obtain ⟨path, h⟩ := (mem_texts_iff ([] ++ [e.1])).mp h
    exact ⟨path, e, he, h⟩

mutual

/-- The tree at `context` with its strings replaced: `f` makes a value of each string and its path.
-/
def mapStrings (f : List String → String → Value) (context : List String) : Value → Value
  | .string s => f context s
  | .list items => .list (mapItemStrings f context items)
  | .map entries => .map (mapEntryStrings f context entries)
  | v => v

/-- `mapStrings` in the elements of a list. -/
def mapItemStrings (f : List String → String → Value) (context : List String) :
    List Value → List Value
  | [] => []
  | x :: xs => mapStrings f context x :: mapItemStrings f context xs

/-- `mapStrings` in the entries of a mapping. -/
def mapEntryStrings (f : List String → String → Value) (context : List String) :
    List (String × Value) → List (String × Value)
  | [] => []
  | (key, v) :: es => (key, mapStrings f (context ++ [key]) v) :: mapEntryStrings f context es

end

/-! ## Keys -/

mutual

/-- The keys of all mappings of a tree. -/
def keys : Value → List String
  | .list items => itemKeys items
  | .map entries => entryKeys entries
  | _ => []

/-- The keys in the elements of a list. -/
def itemKeys : List Value → List String
  | [] => []
  | x :: xs => keys x ++ itemKeys xs

/-- The keys of a mapping, each before those in its value. -/
def entryKeys : List (String × Value) → List String
  | [] => []
  | (key, v) :: es => key :: keys v ++ entryKeys es

end

@[simp] theorem mem_keys_list {key : String} {items : List Value} :
    key ∈ keys (.list items) ↔ ∃ x ∈ items, key ∈ keys x := by
  rw [keys]
  induction items with
  | nil => simp [itemKeys]
  | cons x xs ih => simp [itemKeys, ih]

@[simp] theorem mem_keys_map {key : String} {entries : List (String × Value)} :
    key ∈ keys (.map entries) ↔ ∃ e ∈ entries, key = e.1 ∨ key ∈ keys e.2 := by
  rw [keys]
  induction entries with
  | nil => simp [entryKeys]
  | cons e es ih => simp [entryKeys, ih, or_assoc]

/-! ## Nodes -/

theorem mem_of_get?_eq_some {key : String} {v w : Value} (h : v.get? key = some w) :
    ∃ entries, v = .map entries ∧ (key, w) ∈ entries := by
  cases v with
  | map entries =>
    obtain ⟨before, after, rfl, -⟩ := List.lookup_eq_some_iff.mp h
    exact ⟨_, rfl, by simp⟩
  | null => cases h
  | bool b => cases h
  | number n => cases h
  | string s => cases h
  | list items => cases h

/-- The keys of a mapping that stand once each find their entries. -/
theorem get?_of_mem {entries : List (String × Value)} (h : (entries.map Prod.fst).Nodup)
    {e : String × Value} (he : e ∈ entries) : (map entries).get? e.1 = some e.2 := by
  obtain ⟨before, after, rfl⟩ := List.append_of_mem he
  refine List.lookup_eq_some_iff.mpr ⟨before, after, rfl, fun p hp => bne_iff_ne.mpr fun heq => ?_⟩
  rw [List.map_append, List.nodup_append] at h
  exact h.2.2 p.1 (List.mem_map_of_mem hp) e.1 (by simp) heq.symm

theorem getPath?_of_mem {entries : List (String × Value)} (h : (entries.map Prod.fst).Nodup)
    {e : String × Value} (he : e ∈ entries) : (map entries).getPath? [e.1] = some e.2 :=
  Option.bind_eq_some_iff.mpr ⟨e.2, get?_of_mem h he, rfl⟩

/-- **What is below a node is below the root.** -/
theorem texts_subset_of_getPath? {path : List String} {v w : Value}
    (h : v.getPath? path = some w) : w.texts ⊆ v.texts := by
  induction path generalizing v with
  | nil =>
    obtain rfl : v = w := Option.some.inj h
    exact List.Subset.refl _
  | cons key path ih =>
    obtain ⟨u, hu, hw⟩ := Option.bind_eq_some_iff.mp h
    obtain ⟨entries, rfl, hmem⟩ := mem_of_get?_eq_some hu
    exact fun s hs => mem_texts_map.mpr ⟨_, hmem, ih hw hs⟩

theorem keys_subset_of_getPath? {path : List String} {v w : Value}
    (h : v.getPath? path = some w) : w.keys ⊆ v.keys := by
  induction path generalizing v with
  | nil =>
    obtain rfl : v = w := Option.some.inj h
    exact List.Subset.refl _
  | cons key path ih =>
    obtain ⟨u, hu, hw⟩ := Option.bind_eq_some_iff.mp h
    obtain ⟨entries, rfl, hmem⟩ := mem_of_get?_eq_some hu
    exact fun k hk => mem_keys_map.mpr ⟨_, hmem, .inr (ih hw hk)⟩

/-- The keys on the way to a node are keys of the tree. -/
theorem mem_keys_of_getPath? {path : List String} {v w : Value} (h : v.getPath? path = some w) :
    ∀ key ∈ path, key ∈ v.keys := by
  induction path generalizing v with
  | nil => simp
  | cons key path ih =>
    obtain ⟨u, hu, hw⟩ := Option.bind_eq_some_iff.mp h
    obtain ⟨entries, rfl, hmem⟩ := mem_of_get?_eq_some hu
    refine List.forall_mem_cons.mpr ⟨mem_keys_map.mpr ⟨_, hmem, .inl rfl⟩, fun k hk => ?_⟩
    exact mem_keys_map.mpr ⟨_, hmem, .inr (ih hw k hk)⟩

end RefTree.Value
