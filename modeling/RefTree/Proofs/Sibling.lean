import RefTree.Proofs.Agreement
import RefTree.Proofs.Keypath.Plain
import RefTree.Proofs.Marker.Cut

/-!
# Proofs/Sibling — a plain key in a string names a key beside it

A key without a separator and without groups stands in a string under the path of its container, and
is the path of the entry beside the string unless a key on that path ends in the up-level token.
Then the value of that entry takes the place of the string (`resolve_sibling`); a tree in which a
key does end in the token loses the value (`resolve_dashed`).
-/

namespace RefTree

/-! ## Markers of plain keys -/

/-- The text matches the pattern of a segment in full. -/
def Grammar.IsSegment (g : Grammar) (text : String) : Prop :=
  ∃ regex, Regex.parse g.keyPattern = some regex ∧ text.toList ∈ regex.language

namespace Marker.Default

open Regex

theorem isSegment_iff {text : String} :
    ({} : Grammar).IsSegment text ↔ text.toList ∈ language segment := by
  constructor
  · rintro ⟨regex, hparse, hmem⟩
    obtain rfl := Option.some.inj (hparse.symm.trans parse_keyPattern)
    exact hmem
  · exact fun h => ⟨segment, parse_keyPattern, h⟩

/-- A segment is a key. -/
theorem mem_language_key_of_segment {k : List Char} (hk : k ∈ language segment) :
    k ∈ language key := by
  have hnone : ∀ (most : Option Nat) (r : Regex), [] ∈ language (times 0 most true r) :=
    fun most r => ⟨0, Nat.le_refl 0, fun _ _ => Nat.zero_le _, Language.nil_mem_one⟩
  have hkey : [] ++ (k ++ ([] ++ [])) ∈ language key :=
    Language.append_mem_mul (hnone _ _)
      (Language.append_mem_mul hk (Language.append_mem_mul (hnone _ _) Language.nil_mem_one))
  simpa using hkey

theorem dot_notMem_of_segment {k : List Char} (hk : k ∈ language segment) : '.' ∉ k := by
  have hover : segment.Over (wordChar.contains · = true) := ⟨fun _ hc => hc, trivial⟩
  exact fun hdot => absurd (hover.forall_mem k hk '.' hdot) (by decide)

theorem spells_of_segment {k : String} (hk : k.toList ∈ language segment) :
    Spells ("@\x7b " ++ k ++ " \x7d").toList k.toList := by
  have hblank : [' '] ∈ language blanks :=
    mem_language_blanks.mpr (List.forall_mem_singleton.mpr (by decide))
  exact ⟨[' '], [' '], hblank, mem_language_key_of_segment hk, hblank, by simp⟩

/-- A segment between blanks and braces is one marker, which is the whole text. -/
theorem find?_of_segment {k : String} (hk : k.toList ∈ language segment) :
    ∃ m, pattern.find? ("@\x7b " ++ k ++ " \x7d") = some m ∧ m.key = k ∧ m.whole = true := by
  have htext : ("@\x7b " ++ k ++ " \x7d").toList = [] ++ ("@\x7b " ++ k ++ " \x7d").toList ++ [] :=
    (List.append_nil _).symm
  exact ⟨_, find?_of_sealed htext .nil (spells_of_segment hk), String.ofList_toList,
    (whole_markerAt_iff htext).mpr ⟨rfl, rfl⟩⟩

end Marker.Default

namespace Resolver

open Keypath.Rules (Plain)

variable {r : Resolver} {options : Options}

/-- **Without a key base a plain key in a string means the entry beside it**, just if no key on the
path of the container ends in the up-level token. -/
theorem keyOf_eq_path_iff {c : Char} (hsep : r.rules.separator = [c]) (hbase : r.rules.base = "")
    {path : List String} (hpath : ∀ key ∈ path, Plain c key) {k : String} (hk : c ∉ k.toList) :
    r.keyOf path k = r.rules.path (path ++ [k]) ↔ ∀ key ∈ path, ¬ r.rules.token <:+ key.toList := by
  have hrelative : r.rules.isAbsolute k = false := by
    rw [Keypath.Rules.isAbsolute, hsep, Text.after?_of_notMem (List.mem_singleton_self c) hk]
  have hprecedes : ∀ segments, r.rules.basePrecedes segments = false := by
    intro segments
    simp [Keypath.Rules.basePrecedes, hbase]
  rw [keyOf, hrelative, if_neg Bool.false_ne_true, Keypath.Rules.resolve, hprecedes,
    if_neg Bool.false_ne_true, Keypath.Rules.join_path_eq_iff hsep hpath hk]

theorem exists_of_getPath?_eq_map {path : List String} {tree : Value}
    {entries : List (String × Value)} (h : tree.getPath? path = some (.map entries)) :
    ∃ top, tree = .map top := by
  cases path with
  | nil => exact ⟨entries, Option.some.inj h⟩
  | cons key path =>
    obtain ⟨u, hu, -⟩ := Option.bind_eq_some_iff.mp h
    obtain ⟨top, rfl, -⟩ := Value.mem_of_get?_eq_some hu
    exact ⟨top, rfl⟩

/-- The loop over a string with a marker has a value only after that of the marker. -/
theorem exists_of_answer_substitute {look : String → Outcome Value} {frame : List String} {n : Nat}
    {untouched : Bool} {text : String} {m : Marker} (hfind : r.pattern.find? text = some m)
    {w : Value} (h : (r.substitute frame n untouched text).answer look = .done w) :
    ∃ n' v, look (r.keyOf frame m.key) = .done v ∧
      (r.resume frame n' (r.replace untouched text m v)).answer look = .done w := by
  cases n with
  | zero => rw [substitute_zero hfind] at h; cases h
  | succ n =>
    rw [substitute_succ hfind] at h
    obtain ⟨v, hv, hrest⟩ := Outcome.bind_eq_done_iff.mp h
    exact ⟨n, v, hv, hrest⟩

/-- A string that is one marker can only become the raw value of its key, if that has no markers. -/
theorem eq_of_answer_substitute_whole (hpost : r.options.postParser = none) {n n' : Nat} {c : Chain}
    {frame : List String} {text : String} {m : Marker} (hfind : r.pattern.find? text = some m)
    (hwhole : (m.whole && r.options.keepTypes) = true) {v : Value} (hv : v.MarkerFree r.pattern)
    (hget : r.getter r.tree (r.keyOf frame m.key) r.options.toConfig = .ok v) {w : Value}
    (h : (r.substitute frame n true text).answer (r.lookup n' c) = .done w) : w = v := by
  obtain ⟨more, u, hlook, hresume⟩ := exists_of_answer_substitute hfind h
  obtain ⟨inner, raw, -, hraw, hvalue⟩ := exists_of_lookup_eq_done hlook
  obtain rfl : v = raw := Except.ok.inj (hget.symm.trans hraw)
  rw [walk_of_markerFree hpost n' _ hv] at hvalue
  obtain rfl : v = u := Outcome.done.inj hvalue
  rw [resume_replace_of_whole hpost hwhole frame more hv] at hresume
  exact (Outcome.done.inj hresume).symm

/-- **A string that refers to an entry beside it by a plain key becomes the value of that entry.**
The value has no markers, and no key on the path of the mapping ends in the up-level token. -/
theorem resolve_sibling {tree : Value} (hr : ofTree tree options = .ok r)
    (hgrammar : options.grammar = {}) (hgetter : options.getter = none)
    (hpost : options.postParser = none) (hbase : options.keyBase = "")
    (hkeep : options.keepTypes = true) (hkeys : ∀ key ∈ tree.keys, Plain '.' key)
    {path : List String} {entries : List (String × Value)}
    (hmap : tree.getPath? path = some (.map entries))
    (hpath : ∀ key ∈ path, ¬ ['-'] <:+ key.toList) {f k : String} {v : Value}
    (hf : entries.lookup f = some (.string ("@\x7b " ++ k ++ " \x7d")))
    (hk : entries.lookup k = some v) (hsegment : options.grammar.IsSegment k)
    (hv : v.MarkerFree r.pattern) {n : Nat} {R : Value} (hR : r.resolve n = .done R) :
    R.getPath? (path ++ [f]) = some v := by
  obtain ⟨top, rfl⟩ := exists_of_getPath?_eq_map hmap
  obtain ⟨htree, hoptions, -, hrules, hpattern⟩ := ofTree_eq_ok_iff.mp hr
  obtain ⟨hsep, htoken, -, hrbase, -⟩ := Keypath.Rules.of_ofConfig hrules
  rw [hgrammar] at hsep htoken hsegment
  rw [hgrammar, Marker.Default.ofGrammar_eq] at hpattern
  have hword := Marker.Default.isSegment_iff.mp hsegment
  have hentry : ∀ {key u}, entries.lookup key = some u →
      (Value.map top).getPath? (path ++ [key]) = some u := by
    intro key u hu
    rw [Value.getPath?_append, hmap, Option.bind_some]
    exact Option.bind_eq_some_iff.mpr ⟨u, hu, rfl⟩
  -- the key of the marker is the path of the entry, which the getter finds
  have hplain : ∀ key ∈ path, Plain '.' key := fun key hkey =>
    hkeys key (Value.mem_keys_of_getPath? hmap key hkey)
  have hkey : r.keyOf path k = r.rules.path (path ++ [k]) :=
    (keyOf_eq_path_iff hsep (hrbase.trans hbase) hplain
      (Marker.Default.dot_notMem_of_segment hword)).mpr (htoken ▸ hpath)
  have hget := (getter_path hr hgetter (by rw [hgrammar]; rfl) hkeys (by simp) (hentry hk)).1
  -- the string is that marker, and resolves
  obtain ⟨m, hfind, hmkey, hwhole⟩ := Marker.Default.find?_of_segment hword
  rw [Except.ok.inj hpattern] at hfind
  rw [resolve, resolveAt, htree] at hR
  obtain ⟨w, hw, hwalk⟩ := answer_walk_getPath? hR (hentry hf)
  rw [walk, List.nil_append, List.dropLast_concat] at hwalk
  have hcond : (m.whole && r.options.keepTypes) = true := by rw [hwhole, hoptions, hkeep]; rfl
  rw [← hkey, ← hmkey] at hget
  rw [hw, eq_of_answer_substitute_whole (hoptions ▸ hpost) hfind hcond hv hget hwalk]

/-! ## Keys that end in the token -/

/-- A mapping under a key, in which `f` refers to `k`. -/
def referring (key : String) (v : Value) : Value :=
  .map [(key, .map [("k", v), ("f", .string "@\x7b k \x7d")])]

/-- What the mapping resolves to hangs on the key that its marker means. -/
theorem resolve_referring {key meant : String} {v u : Value}
    (hkey : (default (referring key v) 64).keyOf [key] "k" = meant)
    (hget : Getter.keyPath (referring key v) meant {} = .ok u)
    (hv : v.MarkerFree Marker.Default.pattern) (hu : u.MarkerFree Marker.Default.pattern) :
    (default (referring key v) 64).resolve 1 = .done (.map [(key, .map [("k", v), ("f", u)])]) := by
  have hfind : Marker.Default.pattern.find? "@\x7b k \x7d" = some ⟨"k", 0, 6, true⟩ := by
    decide +kernel
  have hlook : (default (referring key v) 64).lookupFirst 1 meant = .done u :=
    lookupFirst_default hget hu 1
  have hk : ((default (referring key v) 64).walk 1 ([] ++ [key] ++ ["k"]) v).answer
      ((default (referring key v) 64).lookupFirst 1) = .done v := by
    rw [walk_of_markerFree rfl 1 _ hv]
    rfl
  have hf : ((default (referring key v) 64).walk 1 ([] ++ [key] ++ ["f"])
      (.string "@\x7b k \x7d")).answer ((default (referring key v) 64).lookupFirst 1) =
        .done u := by
    have hvalue : (default (referring key v) 64).lookupFirst 1
        ((default (referring key v) 64).keyOf [key] "k") = .done u := by rw [hkey, hlook]
    rw [walk, List.dropLast_concat, List.nil_append]
    exact answer_substitute_of_whole rfl hfind rfl hu hvalue 0
  have hinner : ((default (referring key v) 64).walk 1 ([] ++ [key])
      (.map [("k", v), ("f", .string "@\x7b k \x7d")])).answer
        ((default (referring key v) 64).lookupFirst 1) = .done (.map [("k", v), ("f", u)]) :=
    Inquiry.answer_map_eq_done_iff.mpr
      ⟨_, answer_walkEntries_cons hk (answer_walkEntries_cons hf rfl), rfl⟩
  exact Inquiry.answer_map_eq_done_iff.mpr ⟨_, answer_walkEntries_cons hinner rfl, rfl⟩

/-- The number that the mapping holds. -/
def one : Value := .number (.integer 1)

theorem one_markerFree : one.MarkerFree Marker.Default.pattern := List.forall_mem_nil _

theorem isSegment_k : ({} : Grammar).IsSegment "k" := by
  refine Marker.Default.isSegment_iff.mpr ?_
  have hone : ['k'] ∈ Regex.language (.set Marker.Default.wordChar) := ⟨'k', by decide, rfl⟩
  exact ⟨['k'], ⟨1, Nat.le_refl 1, by simp, by rw [pow_one]; exact hone⟩, [], rfl, rfl⟩

/-- The getter by key path, where the key is that of a path. -/
theorem keyPath_of_segments {tree u : Value} {config : Config} {key : String} {path : List String}
    (htop : tree.get? key = none) (hsegments : Getter.segments config key = path)
    (hpath : (tree.getPath? path).getD .null = u) : Getter.keyPath tree key config = .ok u := by
  rw [Getter.keyPath, htop]
  simp only [hsegments, hpath]

theorem resolve_sibling_referring :
    ofTree (referring "a" one) {} = .ok (default (referring "a" one) 64) ∧
      ({} : Options).grammar = {} ∧ ({} : Options).getter = none ∧
      ({} : Options).postParser = none ∧ ({} : Options).keyBase = "" ∧
      ({} : Options).keepTypes = true ∧ (∀ key ∈ (referring "a" one).keys, Plain '.' key) ∧
      (∀ key ∈ ["a"], ¬ ['-'] <:+ key.toList) ∧ ({} : Grammar).IsSegment "k" ∧
      ∃ R, (default (referring "a" one) 64).resolve 1 = .done R ∧
        R.getPath? ["a", "f"] = some one := by
  have hkeys : ∀ key ∈ (referring "a" one).keys, Plain '.' key := by
    have hall : ∀ key ∈ (referring "a" one).keys, key ≠ "" ∧ '.' ∉ key.toList := by decide
    exact hall
  have hpath : ∀ key ∈ ["a"], ¬ ['-'] <:+ key.toList := by decide
  have hsegments : Getter.segments {} "a.k" = ["a", "k"] := by decide +kernel
  have hget : Getter.keyPath (referring "a" one) "a.k" {} = .ok one :=
    keyPath_of_segments rfl hsegments rfl
  have hmap : (referring "a" one).getPath? ["a"] =
      some (.map [("k", one), ("f", .string ("@\x7b " ++ "k" ++ " \x7d"))]) := rfl
  have hR := resolve_referring (by decide +kernel) hget one_markerFree one_markerFree
  refine ⟨ofTree_default _ 64, rfl, rfl, rfl, rfl, rfl, hkeys, hpath, isSegment_k, _, hR, ?_⟩
  exact resolve_sibling (ofTree_default _ 64) rfl rfl rfl rfl rfl hkeys hmap hpath rfl rfl
    isSegment_k one_markerFree hR

/-- **A key that ends in the token sends the reference elsewhere**, here to nothing. -/
theorem resolve_dashed :
    ofTree (referring "a-" one) {} = .ok (default (referring "a-" one) 64) ∧
      (∀ key ∈ (referring "a-" one).keys, Plain '.' key) ∧ ({} : Grammar).IsSegment "k" ∧
      (referring "a-" one).getPath? ["a-", "k"] = some one ∧
      (referring "a-" one).getPath? ["a-", "f"] = some (.string "@\x7b k \x7d") ∧
      ∃ R, (default (referring "a-" one) 64).resolve 1 = .done R ∧
        R.getPath? ["a-", "k"] = some one ∧ R.getPath? ["a-", "f"] = some .null := by
  have hkeys : ∀ key ∈ (referring "a-" one).keys, key ≠ "" ∧ '.' ∉ key.toList := by decide
  have hsegments : Getter.segments {} "a.k" = ["a", "k"] := by decide +kernel
  have hget : Getter.keyPath (referring "a-" one) "a.k" {} = .ok .null :=
    keyPath_of_segments rfl hsegments rfl
  have hR := resolve_referring (by decide +kernel) hget one_markerFree (List.forall_mem_nil _)
  exact ⟨ofTree_default _ 64, hkeys, isSegment_k, rfl, rfl, _, hR, rfl, rfl⟩

end Resolver

end RefTree
