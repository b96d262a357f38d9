import RefTree.Proofs.Default

/-!
# Proofs/Fixpoint — nothing is left to resolve in a result

Without a post-parser every value that a resolution gives is free of markers, whether its strings
come out of a loop or whole values are taken over from a lookup (`run_markerFree`).  A tree without
markers is walked without a question and stays what it is (`walk_of_markerFree`), so resolving a
resolved tree changes nothing (`resolve_fixpoint`).
-/

namespace RefTree

/-- No string of the tree has a marker. -/
def Value.MarkerFree (p : Marker.Pattern) (v : Value) : Prop := ∀ s ∈ v.texts, p.find? s = none

namespace Value.MarkerFree

variable {p : Marker.Pattern}

theorem string_iff {s : String} : MarkerFree p (.string s) ↔ p.find? s = none :=
  List.forall_mem_singleton

theorem list_iff {items : List Value} :
    MarkerFree p (.list items) ↔ ∀ x ∈ items, MarkerFree p x := by
  simp only [MarkerFree, mem_texts_list]
  constructor
  · intro h x hx s hs
    exact h s ⟨x, hx, hs⟩
  · rintro h s ⟨x, hx, hs⟩
    exact h x hx s hs

theorem map_iff {entries : List (String × Value)} :
    MarkerFree p (.map entries) ↔ ∀ e ∈ entries, MarkerFree p e.2 := by
  simp only [MarkerFree, mem_texts_map]
  constructor
  · intro h e he s hs
    exact h s ⟨e, he, hs⟩
  · rintro h s ⟨e, he, hs⟩
    exact h e he s hs

end Value.MarkerFree

namespace Resolver

variable {r : Resolver}

/-! ## Results have no markers -/

/-- **A walk gives a value without markers**, if it is answered with such values. -/
theorem walk_endsIn_markerFree (hpost : r.options.postParser = none) (n : Nat)
    (context : List String) (v : Value) :
    (r.walk n context v).EndsIn (Value.MarkerFree r.pattern) (Value.MarkerFree r.pattern)
      fun _ => True := by
  refine walk_endsIn (fun at' _ => ?_) (fun w hw _ => ?_) (fun ys hys => ?_) fun fs _ hfs => ?_
  · refine substitute_endsIn (fun _ _ => True) (fun _ text _ hfind => ?_)
      (fun _ _ _ _ _ _ _ hv hrep => ?_) (fun _ _ _ _ _ _ _ _ _ => trivial) trivial
    · rw [finish_of_postParser_none hpost]
      exact Value.MarkerFree.string_iff.mpr hfind
    · exact eq_of_replace_eq_inl hrep ▸ hv
  · intro s hs
    rw [hw] at hs
    cases hs
  · exact Value.MarkerFree.list_iff.mpr hys
  · exact Value.MarkerFree.map_iff.mpr hfs

theorem lookup_markerFree (hpost : r.options.postParser = none) {n : Nat} (c : Chain) :
    ∀ key v, r.lookup n c key = .done v → v.MarkerFree r.pattern := by
  induction c using Chain.induct_enter with
  | step c ih =>
    intro key v hv
    obtain ⟨inner, raw, henter, -, hwalk⟩ := exists_of_lookup_eq_done hv
    exact (walk_endsIn_markerFree hpost n _ raw).of_done (ih key inner henter) hwalk

/-- **The value of a call has no markers.** -/
theorem run_markerFree (hpost : r.options.postParser = none) {n : Nat} {call : Call} {v : Value}
    (h : r.run n call = .done v) : v.MarkerFree r.pattern := by
  rw [run_eq_answer] at h
  have hlook := lookup_markerFree hpost (n := n) (.ofLimit r.options.maxDepth)
  cases call with
  | get key => exact hlook key v ((answer_ask_done _ key).symm.trans h)
  | resolve => exact (walk_endsIn_markerFree hpost n _ _).of_done hlook h
  | resolveAt context w => exact (walk_endsIn_markerFree hpost n _ _).of_done hlook h
  | resolveUnder key w => exact (walk_endsIn_markerFree hpost n _ _).of_done hlook h

/-! ## A tree without markers stays what it is -/

theorem walkItems_eq_self {n : Nat} {context : List String} {items : List Value}
    (h : ∀ x ∈ items, r.walk n context x = .done x) :
    r.walkItems n context items = .done items := by
  induction items with
  | nil => rfl
  | cons x xs ih =>
    obtain ⟨hx, hxs⟩ := List.forall_mem_cons.mp h
    rw [walkItems, hx, ih hxs]
    rfl

theorem walkEntries_eq_self {n : Nat} {context : List String} {entries : List (String × Value)}
    (h : ∀ e ∈ entries, r.walk n (context ++ [e.1]) e.2 = .done e.2) :
    r.walkEntries n context entries = .done entries := by
  induction entries with
  | nil => rfl
  | cons e es ih =>
    obtain ⟨he, hes⟩ := List.forall_mem_cons.mp h
    rw [walkEntries, he, ih hes]
    rfl

/-- **Walking a tree without markers asks for nothing and changes nothing.** -/
theorem walk_of_markerFree (hpost : r.options.postParser = none) (n : Nat) {v : Value} :
    ∀ context : List String, v.MarkerFree r.pattern → r.walk n context v = .done v := by
  induction v using Value.induct with
  | null => exact fun _ _ => rfl
  | bool b => exact fun _ _ => rfl
  | number m => exact fun _ _ => rfl
  | string s =>
    intro context h
    rw [walk, substitute_of_find?_none (Value.MarkerFree.string_iff.mp h),
      finish_of_postParser_none hpost]
  | list items ih =>
    intro context h
    have hitems := Value.MarkerFree.list_iff.mp h
    rw [walk, walkItems_eq_self fun x hx => ih x hx context (hitems x hx)]
    rfl
  | map entries ih =>
    intro context h
    have hentries := Value.MarkerFree.map_iff.mp h
    rw [walk, walkEntries_eq_self fun e he => ih e he (context ++ [e.1]) (hentries e he)]
    rfl

/-- A marker that is the whole string stands for its value, if that has no markers. -/
theorem resume_replace_of_whole (hpost : r.options.postParser = none) {text : String} {m : Marker}
    (hwhole : (m.whole && r.options.keepTypes) = true) (frame : List String) (n : Nat) {v : Value}
    (hv : v.MarkerFree r.pattern) : r.resume frame n (r.replace true text m v) = .done v := by
  have hcond : (true && m.whole && r.options.keepTypes) = true := by rwa [Bool.true_and]
  unfold replace
  rw [if_pos hcond]
  cases v with
  | string s =>
    have hend : r.substitute frame n false s = r.finish frame s :=
      substitute_of_find?_none (Value.MarkerFree.string_iff.mp hv) n false
    exact hend.trans (finish_of_postParser_none hpost frame s)
  | null => rfl
  | bool b => rfl
  | number m => rfl
  | list items => rfl
  | map entries => rfl

/-- **A string that is one marker becomes the value of its key**, or fails as the key does. -/
theorem answer_substitute_of_whole (hpost : r.options.postParser = none)
    {look : String → Outcome Value} {frame : List String} {text : String} {m : Marker}
    (hfind : r.pattern.find? text = some m) (hwhole : (m.whole && r.options.keepTypes) = true)
    {v : Value} (hv : v.MarkerFree r.pattern) (hlook : look (r.keyOf frame m.key) = .done v)
    (n : Nat) : (r.substitute frame (n + 1) true text).answer look = .done v := by
  rw [substitute_succ hfind, Inquiry.answer, hlook, Outcome.bind,
    resume_replace_of_whole hpost hwhole _ n hv]
  rfl

theorem answer_substitute_of_failed {look : String → Outcome Value} {frame : List String}
    {untouched : Bool} {text : String} {m : Marker} (hfind : r.pattern.find? text = some m)
    {e : Failure} (hlook : look (r.keyOf frame m.key) = .failed e) (n : Nat) :
    (r.substitute frame (n + 1) untouched text).answer look = .failed e := by
  rw [substitute_succ hfind, Inquiry.answer, hlook]
  rfl

/-- A lookup of a value without markers gives that value. -/
theorem lookup_of_markerFree (hpost : r.options.postParser = none) {c inner : Chain} {key : String}
    (henter : c.enter key = .ok inner) {raw : Value}
    (hget : r.getter r.tree key r.options.toConfig = .ok raw) (hfree : raw.MarkerFree r.pattern)
    (n : Nat) : r.lookup n c key = .done raw := by
  rw [lookup_of_getter_ok henter hget, walk_of_markerFree hpost n _ hfree]
  rfl

/-- **Resolution reaches a fixpoint.**  No string in the value of a call has a marker, and the
resolver of a resolved tree gives that tree back. -/
theorem resolve_fixpoint {tree : Value} {options : Options} {r : Resolver}
    (hr : ofTree tree options = .ok r) (hpost : options.postParser = none) :
    (∀ n call v, r.run n call = .done v → ∀ s ∈ v.texts, r.pattern.find? s = none) ∧
      ∀ n resolved, r.resolve n = .done resolved →
        ∃ r', ofTree resolved options = .ok r' ∧ ∀ n', r'.resolve n' = .done resolved := by
  obtain ⟨rfl, rfl, hgetter, hrules, hpattern⟩ := ofTree_eq_ok_iff.mp hr
  refine ⟨fun n call v h => run_markerFree hpost h, fun n resolved h => ?_⟩
  refine ⟨{ r with tree := resolved },
    ofTree_eq_ok_iff.mpr ⟨rfl, rfl, hgetter, hrules, hpattern⟩, fun n' => ?_⟩
  have hfree : resolved.MarkerFree r.pattern :=
    run_markerFree hpost (show r.run n .resolve = .done resolved from h)
  have hwalk := walk_of_markerFree (r := { r with tree := resolved }) hpost n' [] hfree
  exact congrArg (Inquiry.answer _) hwalk

/-! ## A tree with a reference -/

/-- Under the default options a key whose value has no markers has that value. -/
theorem lookupFirst_default {tree raw : Value} {key : String}
    (hget : Getter.keyPath tree key {} = .ok raw)
    (hfree : raw.MarkerFree Marker.Default.pattern) (n : Nat) :
    (default tree 64).lookupFirst n key = .done raw := by
  have henter : (Chain.ofLimit 64).enter key = .ok ⟨[key], 63⟩ := rfl
  exact lookup_of_markerFree rfl henter hget hfree n

/-- A tree in which `a.b` refers to `c`. -/
def aliased : Value :=
  .map [("a", .map [("b", .string "@\x7b .c \x7d")]), ("c", .string "y")]

/-- The same tree with the reference resolved. -/
def unaliased : Value := .map [("a", .map [("b", .string "y")]), ("c", .string "y")]

theorem resolve_aliased : (default aliased 64).resolve 1 = .done unaliased := by
  have hnone : Marker.Default.pattern.find? "y" = none := by decide +kernel
  have hfree : (Value.string "y").MarkerFree Marker.Default.pattern :=
    Value.MarkerFree.string_iff.mpr hnone
  have hfind : Marker.Default.pattern.find? "@\x7b .c \x7d" = some ⟨".c", 0, 7, true⟩ := by
    decide +kernel
  have hkey : (default aliased 64).keyOf ["a"] ".c" = "c" := by decide +kernel
  have hlook : (default aliased 64).lookupFirst 1 "c" = .done (.string "y") :=
    lookupFirst_default rfl hfree 1
  have hb : ((default aliased 64).walk 1 ["a", "b"] (.string "@\x7b .c \x7d")).answer
      ((default aliased 64).lookupFirst 1) = .done (.string "y") := by
    have hask : (default aliased 64).substitute ["a"] 1 true "@\x7b .c \x7d" = _ :=
      substitute_succ hfind 0 true
    have hend : (default aliased 64).substitute ["a"] 0 false "y" = _ :=
      substitute_of_find?_none hnone 0 false
    have hwhole : (default aliased 64).replace true "@\x7b .c \x7d" ⟨".c", 0, 7, true⟩
        (.string "y") = .inr "y" := rfl
    rw [walk]
    simp only [List.dropLast]
    rw [hask, Inquiry.answer, hkey, hlook, Outcome.bind, hwhole, resume, hend]
    rfl
  have hc : ((default aliased 64).walk 1 ["c"] (.string "y")).answer
      ((default aliased 64).lookupFirst 1) = .done (.string "y") := by
    rw [walk_of_markerFree rfl 1 ["c"] hfree]
    rfl
  have hinner : ((default aliased 64).walk 1 ["a"] (.map [("b", .string "@\x7b .c \x7d")])).answer
      ((default aliased 64).lookupFirst 1) = .done (.map [("b", .string "y")]) :=
    Inquiry.answer_map_eq_done_iff.mpr ⟨_, answer_walkEntries_cons hb rfl, rfl⟩
  exact Inquiry.answer_map_eq_done_iff.mpr
    ⟨_, answer_walkEntries_cons hinner (answer_walkEntries_cons hc rfl), rfl⟩

theorem resolve_fixpoint_aliased :
    ofTree aliased {} = .ok (default aliased 64) ∧ ({} : Options).postParser = none ∧
      (default aliased 64).resolve 1 = .done unaliased ∧
      ∃ r', ofTree unaliased {} = .ok r' ∧ ∀ n', r'.resolve n' = .done unaliased :=
  ⟨ofTree_default aliased 64, rfl, resolve_aliased,
    (resolve_fixpoint (ofTree_default aliased 64) rfl).2 1 unaliased resolve_aliased⟩

end Resolver

end RefTree
