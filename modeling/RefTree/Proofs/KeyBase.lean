import RefTree.Proofs.Failure
import RefTree.Proofs.Sibling

/-!
# Proofs/KeyBase — references in fetched values under a key base

A key that a reference means has the key base in front, and the value that is fetched under it is
resolved as one that stands there.  So the path of its container begins with the base already, and a
relative reference in it gets the base once more (`keyOf_path`): it means the key beside its own
just if there is no base (`dependency_under_base`), and a tree shows the difference (`get_rebased`).
-/

namespace RefTree.Resolver

open Keypath.Rules (Plain Steady)

variable {r : Resolver} {n : Nat}

theorem asked_finish (look : String → Outcome Value) (frame : List String) (text : String) :
    (r.finish frame text).asked look = [] := by
  unfold finish
  split
  · rfl
  · split <;> rfl

/-- **What the loop over a string asks for** are the keys of the first markers of its texts. -/
theorem exists_of_mem_asked_substitute {look : String → Outcome Value} {frame : List String}
    {untouched : Bool} {text key : String}
    (h : key ∈ (r.substitute frame n untouched text).asked look) :
    ∃ last m, r.Becomes look frame untouched text last ∧ r.pattern.find? last = some m ∧
      key = r.keyOf frame m.key := by
  induction n generalizing untouched text with
  | zero =>
    cases hfind : r.pattern.find? text with
    | none => rw [substitute_of_find?_none hfind, asked_finish] at h; cases h
    | some m => rw [substitute_zero hfind] at h; cases h
  | succ n ih =>
    cases hfind : r.pattern.find? text with
    | none => rw [substitute_of_find?_none hfind, asked_finish] at h; cases h
    | some m =>
      rw [substitute_succ hfind, Inquiry.asked] at h
      rcases List.mem_cons.mp h with rfl | h
      · exact ⟨text, m, .refl, hfind, rfl⟩
      cases hv : look (r.keyOf frame m.key) with
      | done v =>
        simp only [hv] at h
        cases hreplace : r.replace untouched text m v with
        | inl w => rw [hreplace] at h; cases h
        | inr next =>
          rw [hreplace] at h
          obtain ⟨last, m', hbecomes, hlast⟩ := ih h
          exact ⟨last, m', .step hfind hv hreplace hbecomes, hlast⟩
      | failed e => simp only [hv] at h; cases h
      | exhausted => simp only [hv] at h; cases h

/-- The key of the first marker is asked for first. -/
theorem mem_asked_substitute {text : String} {m : Marker} (hfind : r.pattern.find? text = some m)
    (look : String → Outcome Value) (frame : List String) (untouched : Bool) :
    r.keyOf frame m.key ∈ (r.substitute frame (n + 1) untouched text).asked look := by
  rw [substitute_succ hfind, Inquiry.asked]
  exact List.mem_cons_self

/-- A string that is one marker asks for nothing else, if the value of that key has no markers. -/
theorem asked_substitute_of_whole (hpost : r.options.postParser = none)
    {look : String → Outcome Value} {frame : List String} {text : String} {m : Marker}
    (hfind : r.pattern.find? text = some m) (hwhole : (m.whole && r.options.keepTypes) = true)
    {v : Value} (hv : v.MarkerFree r.pattern) (hlook : look (r.keyOf frame m.key) = .done v) :
    (r.substitute frame (n + 1) true text).asked look = [r.keyOf frame m.key] := by
  rw [substitute_succ hfind, Inquiry.asked, hlook]
  simp only [resume_replace_of_whole hpost hwhole _ n hv, Inquiry.asked]

/-- **A path in a string means itself behind the key base and the path of the container**, if no
segment climbs. -/
theorem keyOf_path {c : Char} (hsep : r.rules.separator = [c]) {base frame ks : List String}
    (hbase : r.rules.base = r.rules.path base) (hbaseSteady : ∀ s ∈ base, Steady c r.rules.token s)
    (hframe : ∀ s ∈ frame, Steady c r.rules.token s) (hks : ∀ s ∈ ks, Steady c r.rules.token s)
    (hne : ks ≠ []) :
    r.keyOf frame (r.rules.path ks) = r.rules.path (base ++ frame ++ ks) := by
  have hrelative : ∀ {path}, (∀ s ∈ path, Steady c r.rules.token s) →
      r.rules.isAbsolute (r.rules.path path) = false := fun h =>
    r.rules.isAbsolute_path hsep fun s hs => (h s hs).1
  have hprecedes : r.rules.basePrecedes [r.rules.path frame, r.rules.path ks] =
      (r.rules.base != "") := by
    rw [Keypath.Rules.basePrecedes]
    cases r.rules.policy <;> simp [hrelative hframe]
  rw [keyOf, hrelative hks, if_neg Bool.false_ne_true, Keypath.Rules.resolve, hprecedes, hbase]
  by_cases hempty : base = []
  · subst hempty
    have hpaths : ∀ path ∈ [frame], ∀ s ∈ path, Steady c r.rules.token s :=
      List.forall_mem_singleton.mpr hframe
    have hjoin := Keypath.Rules.join_paths hsep hpaths hks hne
    have hnone : (r.rules.path [] != "") = false := rfl
    simpa [hnone] using hjoin
  · have hpaths : ∀ path ∈ [base, frame], ∀ s ∈ path, Steady c r.rules.token s :=
      List.forall_mem_cons.mpr ⟨hbaseSteady, List.forall_mem_singleton.mpr hframe⟩
    have hjoin := Keypath.Rules.join_paths hsep hpaths hks hne
    have hsome := r.rules.path_ne_empty hsep hempty fun s hs => (hbaseSteady s hs).1
    simpa [hsome] using hjoin

/-- **What is looked up for a value that is a string** is what its markers mean in its container. -/
theorem Dependency.exists_becomes {call : Call} {keys : List String} {key next s : String}
    (h : r.Dependency n call (keys ++ [key] ++ [next]))
    (hraw : r.getter r.tree key r.options.toConfig = .ok (.string s)) :
    ∃ text m, r.Becomes
        (r.lookup n ⟨keys ++ [key], r.options.maxDepth - (keys ++ [key]).length⟩)
        (r.rules.split key).dropLast true s text ∧
      r.pattern.find? text = some m ∧ next = r.keyOf (r.rules.split key).dropLast m.key := by
  obtain ⟨raw, hget, hasked⟩ := h.looksUp
  obtain rfl := Except.ok.inj (hraw.symm.trans hget)
  rw [walk] at hasked
  exact exists_of_mem_asked_substitute hasked

/-- **A reference in a fetched value is put under the key base once more.**  Where the value of a
key is a string, the key is the path to that string.  What is looked up for a marker of it is the
path that the marker spells, behind the path of the container and the base, so the path beside the
string is looked up just if there is no base. -/
theorem dependency_under_base {tree : Value} {options : Options} (hr : ofTree tree options = .ok r)
    (hgrammar : options.grammar = {}) (hgetter : options.getter = none) {base : List String}
    (hbase : options.keyBase = r.rules.path base) (hbaseSteady : ∀ s ∈ base, Steady '.' ['-'] s)
    (hkeys : ∀ key ∈ tree.keys, Steady '.' ['-'] key) {call : Call} {keys : List String}
    {key next s : String} (h : r.Dependency n call (keys ++ [key] ++ [next]))
    (hraw : r.getter tree key options.toConfig = .ok (.string s)) :
    ∃ container f text m, key = r.rules.path (container ++ [f]) ∧
      tree.getPath? (container ++ [f]) = some (.string s) ∧
      r.Becomes (r.lookup n ⟨keys ++ [key], options.maxDepth - (keys ++ [key]).length⟩) container
        true s text ∧
      r.pattern.find? text = some m ∧ next = r.keyOf container m.key ∧
      ∀ ks, ks ≠ [] → (∀ k ∈ ks, Steady '.' ['-'] k) → m.key = r.rules.path ks →
        next = r.rules.path (base ++ container ++ ks) ∧
          (next = r.rules.path (container ++ ks) ↔ base = []) := by
  obtain ⟨rfl, rfl, -, hrules, -⟩ := ofTree_eq_ok_iff.mp hr
  obtain ⟨hsep, htoken, -, hrbase, -⟩ := Keypath.Rules.of_ofConfig hrules
  rw [hgrammar] at hsep htoken
  -- the key is the path to the string
  rw [getter_of_ofTree hr hgetter] at hraw
  have hconfig : r.options.toConfig.grammar.separator.toList = ['.'] := by rw [hgrammar]; rfl
  obtain ⟨path, hne, rfl, hpath⟩ :=
    r.rules.exists_path_of_keyPath hsep hconfig hraw (fun hnull => nomatch hnull)
  obtain ⟨container, f, rfl⟩ := (List.eq_nil_or_concat' path).resolve_left hne
  have hsteady : ∀ k ∈ container ++ [f], Steady '.' ['-'] k := fun k hk =>
    hkeys k (Value.mem_keys_of_getPath? hpath k hk)
  obtain ⟨hcontainer, -⟩ := List.forall_mem_append.mp hsteady
  have hsplit := r.rules.split_path hsep hne fun k hk => (hsteady k hk).1
  -- so the next key is that of a marker in its container
  rw [← getter_of_ofTree hr hgetter] at hraw
  obtain ⟨text, m, hbecomes, hfind, rfl⟩ := h.exists_becomes hraw
  rw [hsplit, List.dropLast_concat] at hbecomes ⊢
  refine ⟨container, f, text, m, rfl, hpath, hbecomes, hfind, rfl, fun ks hks hplain hm => ?_⟩
  have hkey : r.keyOf container m.key = r.rules.path (base ++ container ++ ks) := by
    rw [hm]
    exact keyOf_path hsep (hrbase.trans hbase) (htoken ▸ hbaseSteady) (htoken ▸ hcontainer)
      (htoken ▸ hplain) hks
  have hbelow : ∀ k ∈ container ++ ks, Plain '.' k := fun k hk =>
    (List.forall_mem_append.mpr ⟨hcontainer, hplain⟩ k hk).1
  refine ⟨hkey, ?_⟩
  rw [hkey, List.append_assoc,
    r.rules.path_append_eq_iff hsep (by simp [hks]) (fun k hk => (hbaseSteady k hk).1) hbelow]

/-! ## A tree under a key base -/

/-- A mapping in which one entry refers to the other, and a reference to it from outside. -/
def rebased : Value :=
  .map [("b", .map [("k", .number (.integer 1)), ("f", .string "@\x7b k \x7d")]),
    ("a", .string "@\x7b f \x7d")]

/-- Its resolver, where the key base is the mapping. -/
def based : Resolver :=
  { default rebased 64 with
    options := { keyBase := "b" }
    rules := { Keypath.Rules.default with base := "b" } }

theorem ofTree_based : ofTree rebased { keyBase := "b" } = .ok based :=
  ofTree_eq_ok_iff.mpr
    ⟨rfl, rfl, rfl, Keypath.Rules.ofConfig_eq_ok (by decide), Marker.Default.ofGrammar_eq⟩

theorem find?_based :
    based.pattern.find? "@\x7b f \x7d" = some ⟨"f", 0, 6, true⟩ ∧
      based.pattern.find? "@\x7b k \x7d" = some ⟨"k", 0, 6, true⟩ := by
  decide +kernel

theorem steady_of_mem : ∀ s ∈ ["a", "b", "f", "k"], Steady '.' ['-'] s := by
  have hall : ∀ s ∈ ["a", "b", "f", "k"], (s ≠ "" ∧ '.' ∉ s.toList) ∧ ¬ ['-'] <:+ s.toList := by
    decide
  exact hall

theorem steady_of_subset {path : List String} (h : path ⊆ ["a", "b", "f", "k"]) :
    ∀ s ∈ path, Steady '.' ['-'] s := fun s hs => steady_of_mem s (h hs)

theorem keyOf_based : based.keyOf [] "f" = "b.f" ∧ based.keyOf ["b"] "k" = "b.b.k" := by
  have hbase : based.rules.base = based.rules.path ["b"] := rfl
  have hkey : ∀ frame ks, frame ⊆ ["a", "b", "f", "k"] → ks ⊆ ["a", "b", "f", "k"] → ks ≠ [] →
      based.keyOf frame (based.rules.path ks) = based.rules.path (["b"] ++ frame ++ ks) :=
    fun _ _ hframe hks => keyOf_path (c := '.') rfl hbase (steady_of_subset (by simp))
      (steady_of_subset hframe) (steady_of_subset hks)
  exact ⟨hkey [] ["f"] (by simp) (by simp) (by simp),
    hkey ["b"] ["k"] (by simp) (by simp) (by simp)⟩

theorem split_based : based.rules.split "a" = ["a"] ∧ based.rules.split "b.f" = ["b", "f"] := by
  have hsplit : ∀ path, path ⊆ ["a", "b", "f", "k"] → path ≠ [] →
      based.rules.split (based.rules.path path) = path := fun _ hpath hne =>
    based.rules.split_path (c := '.') rfl hne fun s hs => (steady_of_subset hpath s hs).1
  exact ⟨hsplit ["a"] (by simp) (by simp), hsplit ["b", "f"] (by simp) (by simp)⟩

/-- What the getter finds: the key that is looked up last names nothing. -/
theorem getter_based :
    Getter.keyPath rebased "a" { keyBase := "b" } = .ok (.string "@\x7b f \x7d") ∧
      Getter.keyPath rebased "b.f" { keyBase := "b" } = .ok (.string "@\x7b k \x7d") ∧
      Getter.keyPath rebased "b.b.k" { keyBase := "b" } = .ok .null ∧
      Getter.keyPath rebased "b.k" { keyBase := "b" } = .ok (.number (.integer 1)) := by
  have hsegments : ∀ path, path ⊆ ["a", "b", "f", "k"] → path ≠ [] →
      Getter.segments { keyBase := "b" } (based.rules.path path) = path := fun _ hpath hne =>
    based.rules.segments_path (c := '.') rfl rfl hne fun s hs => (steady_of_subset hpath s hs).1
  exact ⟨rfl, keyPath_of_segments rfl (hsegments ["b", "f"] (by simp) (by simp)) rfl,
    keyPath_of_segments rfl (hsegments ["b", "b", "k"] (by simp) (by simp)) rfl,
    keyPath_of_segments rfl (hsegments ["b", "k"] (by simp) (by simp)) rfl⟩

theorem null_markerFree : Value.null.MarkerFree based.pattern := List.forall_mem_nil _

theorem lookup_based :
    based.lookup 1 ⟨["a", "b.f"], 62⟩ "b.b.k" = .done .null :=
  have henter : (⟨["a", "b.f"], 62⟩ : Chain).enter "b.b.k" = .ok ⟨["a", "b.f", "b.b.k"], 61⟩ := rfl
  lookup_of_markerFree rfl henter getter_based.2.2.1 null_markerFree 1

theorem asked_based : (based.walk 1 (based.rules.split "b.f") (.string "@\x7b k \x7d")).asked
    (based.lookup 1 ⟨["a", "b.f"], 62⟩) = ["b.b.k"] := by
  have hasked := asked_substitute_of_whole (n := 0) rfl find?_based.2 rfl null_markerFree
    ((congrArg _ keyOf_based.2).trans lookup_based)
  rw [keyOf_based.2] at hasked
  rw [split_based.2, walk]
  exact hasked

/-- **The lookup of `a` goes on to `b.f`, and from there to `b.b.k`.** -/
theorem dependency_based :
    based.Dependency 1 (.get "a") (["a"] ++ ["b.f"] ++ ["b.b.k"]) := by
  have hfirst : based.Dependency 1 (.get "a") ([] ++ ["a"]) := by
    refine .first ?_
    rw [inquiry, Inquiry.asked]
    exact List.mem_cons_self
  have hnext : based.LooksUp 1 ([] ++ ["a"]) "a" "b.f" := by
    refine ⟨_, getter_based.1, ?_⟩
    have hasked := mem_asked_substitute (n := 0) find?_based.1
      (based.lookup 1 ⟨[] ++ ["a"], 63⟩) [] true
    rw [keyOf_based.1] at hasked
    rw [split_based.1, walk]
    exact hasked
  have hlast : based.LooksUp 1 (["a"] ++ ["b.f"]) "b.f" "b.b.k" :=
    ⟨_, getter_based.2.1, asked_based ▸ List.mem_singleton_self _⟩
  exact .next (.next hfirst hnext) hlast

theorem get_based : based.get 1 "a" = .done .null := by
  have hstring : ∀ {look : String → Outcome Value} {frame : List String} {text : String}
      {m : Marker}, based.pattern.find? text = some m → (m.whole && true) = true →
      look (based.keyOf frame m.key) = .done .null →
      (based.substitute frame 1 true text).answer look = .done .null :=
    fun hfind hwhole hlook => answer_substitute_of_whole rfl hfind hwhole null_markerFree hlook 0
  have henterA : (Chain.ofLimit 64).enter "a" = .ok ⟨["a"], 63⟩ := rfl
  have henterF : (⟨["a"], 63⟩ : Chain).enter "b.f" = .ok ⟨["a", "b.f"], 62⟩ := rfl
  have hf : based.lookup 1 ⟨["a"], 63⟩ "b.f" = .done .null := by
    rw [lookup_of_getter_ok henterF getter_based.2.1, split_based.2, walk]
    exact hstring find?_based.2 rfl ((congrArg _ keyOf_based.2).trans lookup_based)
  have ha : based.lookup 1 (.ofLimit 64) "a" = .done .null := by
    rw [lookup_of_getter_ok henterA getter_based.1, split_based.1, walk]
    exact hstring find?_based.1 rfl ((congrArg _ keyOf_based.1).trans hf)
  exact ha

theorem steady_rebased : ∀ key ∈ rebased.keys, Steady '.' ['-'] key :=
  steady_of_subset (by decide)

theorem dependency_under_base_rebased :
    ofTree rebased { keyBase := "b" } = .ok based ∧ ({ keyBase := "b" } : Options).grammar = {} ∧
      ({ keyBase := "b" } : Options).getter = none ∧ "b" = based.rules.path ["b"] ∧
      (∀ s ∈ ["b"], Steady '.' ['-'] s) ∧ (∀ key ∈ rebased.keys, Steady '.' ['-'] key) ∧
      based.Dependency 1 (.get "a") (["a"] ++ ["b.f"] ++ ["b.b.k"]) ∧
      based.getter rebased "b.f" { keyBase := "b" } = .ok (.string "@\x7b k \x7d") ∧
      ∃ container f text m, "b.f" = based.rules.path (container ++ [f]) ∧
        based.pattern.find? text = some m ∧ "b.b.k" = based.keyOf container m.key := by
  have hbase : "b" = based.rules.path ["b"] := (based.rules.path_singleton "b").symm
  have hsteady : ∀ s ∈ ["b"], Steady '.' ['-'] s := steady_of_subset (by simp)
  obtain ⟨container, f, text, m, hkey, -, -, hfind, hnext, -⟩ :=
    dependency_under_base ofTree_based rfl rfl hbase hsteady steady_rebased dependency_based
      getter_based.2.1
  exact ⟨ofTree_based, rfl, rfl, hbase, hsteady, steady_rebased, dependency_based,
    getter_based.2.1, container, f, text, m, hkey, hfind, hnext⟩

/-- **Under a key base the value of a key does not see the entry beside it**, here a number. -/
theorem get_rebased :
    ofTree rebased { keyBase := "b" } = .ok based ∧
      (∀ key ∈ rebased.keys, Steady '.' ['-'] key) ∧
      based.Dependency 1 (.get "a") (["a"] ++ ["b.f"] ++ ["b.b.k"]) ∧
      based.getter rebased "b.f" { keyBase := "b" } = .ok (.string "@\x7b k \x7d") ∧
      (based.walk 1 (based.rules.split "b.f") (.string "@\x7b k \x7d")).asked
        (based.lookup 1 ⟨["a", "b.f"], 62⟩) = ["b.b.k"] ∧
      based.getter rebased "b.k" { keyBase := "b" } = .ok (.number (.integer 1)) ∧
      based.get 1 "a" = .done .null :=
  ⟨ofTree_based, steady_rebased, dependency_based, getter_based.2.1, asked_based,
    getter_based.2.2.2, get_based⟩

end RefTree.Resolver
