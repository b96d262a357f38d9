import RefTree.Proofs.Inquiry
import RefTree.Proofs.Value
import RefTree.Resolver

/-!
# Proofs/Walk — walking a tree, one replacement at a time

A replacement either ends the loop over a string with a value of another kind, or leaves a text that
is searched again (`replace`, `substitute_succ`).  What holds of the strings of a tree carries over
to the walk of the tree: how its ends look (`walk_endsIn`), what it takes account of
(`walk_congr`), and that more rescans only continue what was cut short (`walk_agrees`).
-/

namespace RefTree.Resolver

variable (r : Resolver)

/-! ## One replacement -/

/-- What the value of a marker makes of the text: the value itself, or a text to search again. -/
def replace (untouched : Bool) (text : String) (m : Marker) (v : Value) : Value ⊕ String :=
  if untouched && m.whole && r.options.keepTypes then
    match v with
    | .string s => .inr s
    | v => .inl v
  else .inr (splice text m v.render)

/-- The loop over a string, after a replacement. -/
def resume (frame : List String) (n : Nat) : Value ⊕ String → Inquiry Value
  | .inl v => .done v
  | .inr text => r.substitute frame n false text

variable {r}

theorem substitute_of_find?_none {frame : List String} {text : String}
    (h : r.pattern.find? text = none) (n : Nat) (untouched : Bool) :
    r.substitute frame n untouched text = r.finish frame text := by
  rw [substitute, h]

theorem substitute_zero {frame : List String} {text : String} {m : Marker}
    (h : r.pattern.find? text = some m) (untouched : Bool) :
    r.substitute frame 0 untouched text = .exhausted := by
  rw [substitute, h]

/-- **The loop over a string**: ask for the key of the first marker, and go on with what its value
makes of the text. -/
theorem substitute_succ {frame : List String} {text : String} {m : Marker}
    (h : r.pattern.find? text = some m) (n : Nat) (untouched : Bool) :
    r.substitute frame (n + 1) untouched text =
      .ask (r.keyOf frame m.key) fun v => r.resume frame n (r.replace untouched text m v) := by
  rw [substitute, h]
  refine congrArg (Inquiry.ask _) (funext fun v => ?_)
  unfold replace
  split
  · cases v <;> rfl
  · rfl

/-- A replacement that ends the loop ends it with the value of the marker. -/
theorem eq_of_replace_eq_inl {untouched : Bool} {text : String} {m : Marker} {v w : Value}
    (h : r.replace untouched text m v = .inl w) : w = v := by
  unfold replace at h
  split at h
  · cases v <;> cases h <;> rfl
  · cases h

/-- A replacement that leaves a text leaves the string that the marker stands for, or the text with
its value spliced in. -/
theorem eq_or_eq_splice_of_replace_eq_inr {untouched : Bool} {text next : String} {m : Marker}
    {v : Value} (h : r.replace untouched text m v = .inr next) :
    v = .string next ∨ next = splice text m v.render := by
  unfold replace at h
  split at h
  · cases v with
    | string s => exact .inl (congrArg Value.string (Sum.inr.inj h))
    | null => cases h
    | bool b => cases h
    | number n => cases h
    | list items => cases h
    | map entries => cases h
  · exact .inr (Sum.inr.inj h).symm

/-- Without a post-parser a string without markers stands for itself. -/
theorem finish_of_postParser_none (h : r.options.postParser = none) (frame : List String)
    (text : String) : r.finish frame text = .done (.string text) := by
  rw [finish, h]

/-- Ending a string fails in the post-parser only. -/
theorem finish_endsIn (frame : List String) (text : String) {A P : Value → Prop}
    {F : Failure → Prop} (hdone : ∀ v, r.finish frame text = .done v → P v)
    (hfailed : ∀ source, F (.postParse (r.rules.path frame) source)) :
    (r.finish frame text).EndsIn A P F := by
  unfold finish at hdone ⊢
  split
  · next hp => exact hdone _ (by rw [hp])
  · next postParser hp =>
    cases hres : postParser r.tree text r.options.toConfig with
    | ok v => exact hdone v (by rw [hp]; simp only [hres])
    | error source => exact hfailed source

/-- A mapping is walked entry by entry. -/
theorem answer_walkEntries_cons {look : String → Outcome Value} {n : Nat} {context : List String}
    {key : String} {v w : Value} {entries resolved : List (String × Value)}
    (hv : (r.walk n (context ++ [key]) v).answer look = .done w)
    (hentries : (r.walkEntries n context entries).answer look = .done resolved) :
    (r.walkEntries n context ((key, v) :: entries)).answer look = .done ((key, w) :: resolved) := by
  rw [walkEntries]
  exact Inquiry.answer_bind_eq_done_iff.mpr
    ⟨w, hv, Inquiry.answer_map_eq_done_iff.mpr ⟨resolved, hentries, rfl⟩⟩

/-! ## The ends of a walk -/

section EndsIn

variable {A P : Value → Prop} {F : Failure → Prop} {n : Nat}

/-- **The loop over a string ends well**, if an invariant `I` of its texts holds at the start, is
kept by the replacements, and makes every end of the loop a good one. -/
theorem substitute_endsIn {frame : List String} (I : Bool → String → Prop)
    (hfinish : ∀ untouched text, I untouched text → r.pattern.find? text = none →
      (r.finish frame text).EndsIn A P F)
    (hvalue : ∀ untouched text m v w, I untouched text → r.pattern.find? text = some m → A v →
      r.replace untouched text m v = .inl w → P w)
    (hnext : ∀ untouched text m v next, I untouched text → r.pattern.find? text = some m → A v →
      r.replace untouched text m v = .inr next → I false next)
    {untouched : Bool} {text : String} (hstart : I untouched text) :
    (r.substitute frame n untouched text).EndsIn A P F := by
  induction n generalizing untouched text with
  | zero =>
    cases hfind : r.pattern.find? text with
    | none =>
      rw [substitute_of_find?_none hfind]
      exact hfinish _ _ hstart hfind
    | some m =>
      rw [substitute_zero hfind]
      trivial
  | succ n ih =>
    cases hfind : r.pattern.find? text with
    | none =>
      rw [substitute_of_find?_none hfind]
      exact hfinish _ _ hstart hfind
    | some m =>
      rw [substitute_succ hfind]
      intro v hv
      cases hrep : r.replace untouched text m v with
      | inl w =>
        simp only [hrep]
        exact hvalue _ _ m v w hstart hfind hv hrep
      | inr next =>
        simp only [hrep]
        exact ih (hnext _ _ m v next hstart hfind hv hrep)

theorem walkItems_endsIn {context : List String} {items : List Value}
    (h : ∀ x ∈ items, (r.walk n context x).EndsIn A P F) :
    (r.walkItems n context items).EndsIn A (fun ys => ∀ y ∈ ys, P y) F := by
  induction items with
  | nil => exact List.forall_mem_nil _
  | cons x xs ih =>
    obtain ⟨hx, hxs⟩ := List.forall_mem_cons.mp h
    rw [walkItems]
    exact hx.bind fun y hy => (ih hxs).map fun ys hys => List.forall_mem_cons.mpr ⟨hy, hys⟩

theorem walkEntries_endsIn {context : List String} {entries : List (String × Value)}
    (h : ∀ e ∈ entries, (r.walk n (context ++ [e.1]) e.2).EndsIn A P F) :
    (r.walkEntries n context entries).EndsIn A
      (fun fs => fs.map Prod.fst = entries.map Prod.fst ∧ ∀ f ∈ fs, P f.2) F := by
  induction entries with
  | nil => exact ⟨rfl, List.forall_mem_nil _⟩
  | cons e es ih =>
    obtain ⟨he, hes⟩ := List.forall_mem_cons.mp h
    rw [walkEntries]
    refine he.bind fun w hw => (ih hes).map fun fs hfs => ⟨?_, ?_⟩
    · rw [List.map_cons, List.map_cons, hfs.1]
    · exact List.forall_mem_cons.mpr ⟨hw, hfs.2⟩

/-- **A walk ends as its strings do**, where `P` is passed from the elements of a list or a mapping
to the whole. -/
theorem walk_endsIn {v : Value} {context : List String}
    (hstring : ∀ at' ∈ v.strings context,
      (r.substitute at'.1.dropLast n true at'.2).EndsIn A P F)
    (hscalar : ∀ w : Value, w.texts = [] → w.keys = [] → P w)
    (hlist : ∀ ys : List Value, (∀ y ∈ ys, P y) → P (.list ys))
    (hmap : ∀ fs : List (String × Value), (∀ f ∈ fs, f.1 ∈ v.keys) → (∀ f ∈ fs, P f.2) →
      P (.map fs)) :
    (r.walk n context v).EndsIn A P F := by
  induction v using Value.induct generalizing context with
  | null => exact hscalar _ rfl rfl
  | bool b => exact hscalar _ rfl rfl
  | number m => exact hscalar _ rfl rfl
  | string s => exact hstring (context, s) (by simp [Value.strings])
  | list items ih =>
    rw [walk]
    refine (walkItems_endsIn fun x hx => ih x hx (fun at' hat => ?_) fun fs hfs => ?_).map hlist
    · exact hstring at' (Value.mem_strings_list.mpr ⟨x, hx, hat⟩)
    · exact hmap fs fun f hf => Value.mem_keys_list.mpr ⟨x, hx, hfs f hf⟩
  | map entries ih =>
    rw [walk]
    refine (walkEntries_endsIn fun e he => ih e he (fun at' hat => ?_) fun fs hfs => ?_).map
      fun fs hfs => ?_
    · exact hstring at' (Value.mem_strings_map.mpr ⟨e, he, hat⟩)
    · exact hmap fs fun f hf => Value.mem_keys_map.mpr ⟨e, he, .inr (hfs f hf)⟩
    · refine hmap fs (fun f hf => ?_) hfs.2
      have hmem : f.1 ∈ entries.map Prod.fst := hfs.1 ▸ List.mem_map_of_mem hf
      obtain ⟨e, he, heq⟩ := List.mem_map.mp hmem
      exact Value.mem_keys_map.mpr ⟨e, he, .inl heq.symm⟩

end EndsIn

/-- **A failure of a walk's own is a failure of the post-parser.** -/
theorem walk_endsIn_postParse (n : Nat) (context : List String) (v : Value) :
    (r.walk n context v).EndsIn (fun _ => True) (fun _ => True)
      fun e => ∃ path source, e = .postParse path source := by
  refine walk_endsIn (fun at' _ => ?_) (fun _ _ _ => trivial) (fun _ _ => trivial)
    fun _ _ _ => trivial
  refine substitute_endsIn (fun _ _ => True) (fun _ _ _ _ => ?_) (fun _ _ _ _ _ _ _ _ _ => trivial)
    (fun _ _ _ _ _ _ _ _ _ => trivial) trivial
  exact finish_endsIn _ _ (fun _ _ => trivial) fun source => ⟨_, source, rfl⟩

/-! ## Resolvers that walk alike -/

section Congr

variable {r' : Resolver} {n : Nat}

theorem walkItems_congr {context : List String} {items : List Value}
    (hitems : ∀ x ∈ items, r'.walk n context x = r.walk n context x) :
    r'.walkItems n context items = r.walkItems n context items := by
  induction items with
  | nil => rfl
  | cons x xs ih =>
    obtain ⟨hx, hxs⟩ := List.forall_mem_cons.mp hitems
    rw [walkItems, walkItems, hx, ih hxs]

theorem walkEntries_congr {context : List String} {entries : List (String × Value)}
    (hentries : ∀ e ∈ entries, r'.walk n (context ++ [e.1]) e.2 = r.walk n (context ++ [e.1]) e.2) :
    r'.walkEntries n context entries = r.walkEntries n context entries := by
  induction entries with
  | nil => rfl
  | cons e es ih =>
    obtain ⟨he, hes⟩ := List.forall_mem_cons.mp hentries
    rw [walkEntries, walkEntries, he, ih hes]

variable (hpattern : r'.pattern = r.pattern)
  (hkeyOf : ∀ frame expression, r'.keyOf frame expression = r.keyOf frame expression)
  (hreplace : ∀ untouched text m v, r'.replace untouched text m v = r.replace untouched text m v)
  (hfinish : ∀ frame text, r'.finish frame text = r.finish frame text)
include hpattern hkeyOf hreplace hfinish

theorem substitute_congr (frame : List String) (untouched : Bool) (text : String) :
    r'.substitute frame n untouched text = r.substitute frame n untouched text := by
  induction n generalizing untouched text with
  | zero =>
    cases hfind : r.pattern.find? text with
    | none =>
      rw [substitute_of_find?_none hfind, substitute_of_find?_none (hpattern ▸ hfind), hfinish]
    | some m => rw [substitute_zero hfind, substitute_zero (hpattern ▸ hfind)]
  | succ n ih =>
    cases hfind : r.pattern.find? text with
    | none =>
      rw [substitute_of_find?_none hfind, substitute_of_find?_none (hpattern ▸ hfind), hfinish]
    | some m =>
      rw [substitute_succ hfind, substitute_succ (hpattern ▸ hfind), hkeyOf]
      refine congrArg (Inquiry.ask _) (funext fun v => ?_)
      rw [hreplace]
      cases r.replace untouched text m v with
      | inl w => rfl
      | inr next => exact ih false next

/-- **Resolvers that find, ask and end alike walk alike**, whatever they look up. -/
theorem walk_congr (context : List String) (v : Value) :
    r'.walk n context v = r.walk n context v := by
  induction v using Value.induct generalizing context with
  | null => rfl
  | bool b => rfl
  | number m => rfl
  | string s => exact substitute_congr hpattern hkeyOf hreplace hfinish _ true s
  | list items ih => rw [walk, walk, walkItems_congr fun x hx => ih x hx context]
  | map entries ih => rw [walk, walk, walkEntries_congr fun e he => ih e he _]

end Congr

/-! ## More rescans -/

section Agrees

variable {bad : Option Failure → Prop}

theorem substitute_agrees (hbad : bad none) {n n' : Nat} (hle : n ≤ n') (frame : List String)
    (untouched : Bool) (text : String) :
    Inquiry.Agrees bad (r.substitute frame n untouched text)
      (r.substitute frame n' untouched text) := by
  induction n generalizing n' untouched text with
  | zero =>
    cases hfind : r.pattern.find? text with
    | none =>
      rw [substitute_of_find?_none hfind, substitute_of_find?_none hfind]
      exact .refl _
    | some m =>
      rw [substitute_zero hfind]
      exact .cut hbad _
  | succ n ih =>
    obtain ⟨n', rfl⟩ : ∃ k, n' = k + 1 := ⟨n' - 1, by omega⟩
    cases hfind : r.pattern.find? text with
    | none =>
      rw [substitute_of_find?_none hfind, substitute_of_find?_none hfind]
      exact .refl _
    | some m =>
      rw [substitute_succ hfind, substitute_succ hfind]
      refine .ask _ fun v => ?_
      cases r.replace untouched text m v with
      | inl w => exact .done w
      | inr next => exact ih (by omega) false next

theorem walkItems_agrees {n n' : Nat} {context : List String} {items : List Value}
    (h : ∀ x ∈ items, Inquiry.Agrees bad (r.walk n context x) (r.walk n' context x)) :
    Inquiry.Agrees bad (r.walkItems n context items) (r.walkItems n' context items) := by
  induction items with
  | nil => exact .done _
  | cons x xs ih =>
    obtain ⟨hx, hxs⟩ := List.forall_mem_cons.mp h
    rw [walkItems, walkItems]
    exact hx.bind fun y => (ih hxs).map _

theorem walkEntries_agrees {n n' : Nat} {context : List String} {entries : List (String × Value)}
    (h : ∀ e ∈ entries,
      Inquiry.Agrees bad (r.walk n (context ++ [e.1]) e.2) (r.walk n' (context ++ [e.1]) e.2)) :
    Inquiry.Agrees bad (r.walkEntries n context entries) (r.walkEntries n' context entries) := by
  induction entries with
  | nil => exact .done _
  | cons e es ih =>
    obtain ⟨he, hes⟩ := List.forall_mem_cons.mp h
    rw [walkEntries, walkEntries]
    exact he.bind fun w => (ih hes).map _

/-- **More rescans only continue a walk that was cut short.** -/
theorem walk_agrees (hbad : bad none) {n n' : Nat} (hle : n ≤ n') (v : Value) :
    ∀ context : List String, Inquiry.Agrees bad (r.walk n context v) (r.walk n' context v) := by
  induction v using Value.induct with
  | null => exact fun context => .done _
  | bool b => exact fun context => .done _
  | number m => exact fun context => .done _
  | string s => exact fun context => substitute_agrees hbad hle _ _ _
  | list items ih =>
    intro context
    rw [walk, walk]
    exact (walkItems_agrees fun x hx => ih x hx context).map _
  | map entries ih =>
    intro context
    rw [walk, walk]
    exact (walkEntries_agrees fun e he => ih e he (context ++ [e.1])).map _

end Agrees

end RefTree.Resolver
