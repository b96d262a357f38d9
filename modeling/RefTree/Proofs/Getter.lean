import RefTree.Proofs.Default
import RefTree.Proofs.Keypath.Canonical

/-!
# Proofs/Getter — the keys that the getter is handed

A lookup hands its key to the getter and goes on to the keys that the walk of the raw value asks for
(`lookupKeys`).  These are all that the getter is handed: an outcome depends on nothing that it
would find elsewhere (`run_of_getter_eq`).  A walk asks for keys that have been normalised, whatever
the strings, the paths and the key base are (`walk_asks`), so the one key that need not be canonical
is the key of a call, which goes to the getter as it is.
-/

namespace RefTree

namespace Inquiry

variable {α β : Type} {K : String → Prop}

/-- All keys that the inquiry may come to ask for are in `K`. -/
def Asks (K : String → Prop) : Inquiry α → Prop
  | ask key next => K key ∧ ∀ v, Asks K (next v)
  | _ => True

theorem Asks.bind {q : Inquiry α} (h : q.Asks K) {f : α → Inquiry β} (hf : ∀ a, (f a).Asks K) :
    (q.bind f).Asks K := by
  induction q with
  | done a => exact hf a
  | failed e => trivial
  | exhausted => trivial
  | ask key next ih => exact ⟨h.1, fun v => ih v (h.2 v)⟩

theorem Asks.map {q : Inquiry α} (h : q.Asks K) (f : α → β) : (q.map f).Asks K :=
  h.bind fun _ => trivial

theorem Asks.of_mem_asked {q : Inquiry α} (h : q.Asks K) {look : String → Outcome Value}
    {key : String} (hkey : key ∈ q.asked look) : K key := by
  induction q with
  | done a => cases hkey
  | failed e => cases hkey
  | exhausted => cases hkey
  | ask other next ih =>
    rw [asked] at hkey
    rcases List.mem_cons.mp hkey with rfl | hkey
    · exact h.1
    · cases hv : look other with
      | done v => rw [hv] at hkey; exact ih v (h.2 v) hkey
      | failed e => rw [hv] at hkey; cases hkey
      | exhausted => rw [hv] at hkey; cases hkey

/-- **An answer depends on the keys that are asked.** -/
theorem answer_eq_of_asked {q : Inquiry α} {look look' : String → Outcome Value}
    (h : ∀ key ∈ q.asked look, look' key = look key) : q.answer look' = q.answer look := by
  induction q with
  | done a => rfl
  | failed e => rfl
  | exhausted => rfl
  | ask key next ih =>
    rw [asked] at h
    obtain ⟨hkey, hnext⟩ := List.forall_mem_cons.mp h
    rw [answer, answer, hkey]
    cases hv : look key with
    | done v =>
      rw [hv] at hnext
      exact ih v hnext
    | failed e => rfl
    | exhausted => rfl

end Inquiry

namespace Resolver

/-! ## What the getter is handed -/

section Definitions

variable (r : Resolver)

/-- **The keys that a lookup hands to the getter**, in order: its own, if the chain lets it in, and
those of the lookups that it makes. -/
def lookupKeys (n : Nat) (chain : Chain) (key : String) : List String :=
  match _h : chain.enter key with
  | .error _ => []
  | .ok inner =>
    key ::
      match r.getter r.tree key r.options.toConfig with
      | .error _ => []
      | .ok raw =>
        ((r.walk n (r.rules.split key) raw).asked (r.lookup n inner)).flatMap fun k =>
          lookupKeys n inner k
termination_by chain.room
decreasing_by exact Chain.room_lt_of_enter _h

/-- **The keys that a call hands to the getter**, in order. -/
def runKeys (n : Nat) (call : Call) : List String :=
  ((r.inquiry n call).asked (r.lookupFirst n)).flatMap
    (r.lookupKeys n (.ofLimit r.options.maxDepth))

end Definitions

variable {r : Resolver} {n : Nat} {c inner : Chain} {key : String}

theorem lookupKeys_of_enter_error {e : Failure} (h : c.enter key = .error e) :
    r.lookupKeys n c key = [] := by
  rw [lookupKeys]
  split
  · rfl
  · next inner h' => cases h'.symm.trans h

theorem lookupKeys_of_enter_ok (h : c.enter key = .ok inner) :
    r.lookupKeys n c key = key ::
      match r.getter r.tree key r.options.toConfig with
      | .error _ => []
      | .ok raw => ((r.walk n (r.rules.split key) raw).asked (r.lookup n inner)).flatMap
          (r.lookupKeys n inner) := by
  rw [lookupKeys]
  split
  · next e h' => cases h'.symm.trans h
  · next inner' h' =>
    obtain rfl : inner' = inner := Except.ok.inj (h'.symm.trans h)
    rfl

/-- A key that is looked up first is handed to the getter, unless no key may be entered. -/
theorem mem_lookupKeys_ofLimit {limit : Nat} (h : 0 < limit) :
    key ∈ r.lookupKeys n (.ofLimit limit) key := by
  obtain ⟨room, rfl⟩ := Nat.exists_eq_add_of_le' h
  have henter : (Chain.ofLimit (room + 1)).enter key = .ok ⟨[key], room⟩ := rfl
  rw [lookupKeys_of_enter_ok henter]
  exact List.mem_cons_self

theorem mem_runKeys_get (h : 0 < r.options.maxDepth) : key ∈ r.runKeys n (.get key) := by
  refine List.mem_flatMap.mpr ⟨key, ?_, mem_lookupKeys_ofLimit h⟩
  rw [inquiry, Inquiry.asked]
  exact List.mem_cons_self

/-! ## Nothing else is handed to it -/

section Congr

variable {getter : Getter}

/-- A walk asks, and leaves it open what is found. -/
theorem walk_getter (context : List String) (v : Value) :
    ({ r with getter } : Resolver).walk n context v = r.walk n context v := by
  apply walk_congr <;> intros <;> rfl

/-- **A lookup depends on what the getter finds for the keys that it is handed.** -/
theorem lookup_of_getter_eq (h : ∀ k ∈ r.lookupKeys n c key,
      getter r.tree k r.options.toConfig = r.getter r.tree k r.options.toConfig) :
    ({ r with getter } : Resolver).lookup n c key = r.lookup n c key := by
  induction c using Chain.induct_enter generalizing key with
  | step c ih =>
    cases henter : c.enter key with
    | error e => rw [lookup_of_enter_error henter, lookup_of_enter_error henter]
    | ok inner =>
      rw [lookupKeys_of_enter_ok henter] at h
      obtain ⟨hkey, hrest⟩ := List.forall_mem_cons.mp h
      cases hget : r.getter r.tree key r.options.toConfig with
      | error source =>
        rw [lookup_of_getter_error henter hget]
        exact lookup_of_getter_error henter (hkey.trans hget) n
      | ok raw =>
        rw [hget] at hrest
        rw [lookup_of_getter_ok henter hget,
          lookup_of_getter_ok henter (hkey.trans hget), walk_getter]
        refine Inquiry.answer_eq_of_asked fun k hk => ih key inner henter fun k' hk' => ?_
        exact hrest k' (List.mem_flatMap.mpr ⟨k, hk, hk'⟩)

/-- **A call depends on what the getter finds for the keys that it is handed.** -/
theorem run_of_getter_eq {call : Call} (h : ∀ k ∈ r.runKeys n call,
      getter r.tree k r.options.toConfig = r.getter r.tree k r.options.toConfig) :
    ({ r with getter } : Resolver).run n call = r.run n call := by
  have hinquiry : ({ r with getter } : Resolver).inquiry n call = r.inquiry n call := by
    cases call with
    | get key => rfl
    | resolve => exact walk_getter _ _
    | resolveAt context v => exact walk_getter _ _
    | resolveUnder key v => exact walk_getter _ _
  rw [run_eq_answer, run_eq_answer, hinquiry]
  exact Inquiry.answer_eq_of_asked fun k hk => lookup_of_getter_eq fun k' hk' =>
    h k' (List.mem_flatMap.mpr ⟨k, hk, hk'⟩)

end Congr

/-! ## Normalised keys -/

section Asks

variable {K : String → Prop}

theorem finish_asks (frame : List String) (text : String) : (r.finish frame text).Asks K := by
  unfold finish
  split
  · trivial
  · split <;> trivial

theorem walkItems_asks {context : List String} {items : List Value}
    (h : ∀ x ∈ items, (r.walk n context x).Asks K) : (r.walkItems n context items).Asks K := by
  induction items with
  | nil => trivial
  | cons x xs ih =>
    obtain ⟨hx, hxs⟩ := List.forall_mem_cons.mp h
    rw [walkItems]
    exact hx.bind fun y => (ih hxs).map _

theorem walkEntries_asks {context : List String} {entries : List (String × Value)}
    (h : ∀ e ∈ entries, (r.walk n (context ++ [e.1]) e.2).Asks K) :
    (r.walkEntries n context entries).Asks K := by
  induction entries with
  | nil => trivial
  | cons e es ih =>
    obtain ⟨he, hes⟩ := List.forall_mem_cons.mp h
    rw [walkEntries]
    exact he.bind fun w => (ih hes).map _

variable (hK : ∀ frame expression, K (r.keyOf frame expression))
include hK

theorem substitute_asks (frame : List String) (untouched : Bool) (text : String) :
    (r.substitute frame n untouched text).Asks K := by
  induction n generalizing untouched text with
  | zero =>
    cases hfind : r.pattern.find? text with
    | none =>
      rw [substitute_of_find?_none hfind]
      exact finish_asks frame text
    | some m =>
      rw [substitute_zero hfind]
      trivial
  | succ n ih =>
    cases hfind : r.pattern.find? text with
    | none =>
      rw [substitute_of_find?_none hfind]
      exact finish_asks frame text
    | some m =>
      rw [substitute_succ hfind]
      refine ⟨hK frame m.key, fun v => ?_⟩
      simp only
      cases r.replace untouched text m v with
      | inl w => trivial
      | inr next => exact ih false next

/-- **A walk asks for what expressions mean**, and for nothing else. -/
theorem walk_asks (context : List String) (v : Value) : (r.walk n context v).Asks K := by
  induction v using Value.induct generalizing context with
  | null => trivial
  | bool b => trivial
  | number m => trivial
  | string s => exact substitute_asks hK _ _ _
  | list items ih =>
    rw [walk]
    exact (walkItems_asks fun x hx => ih x hx context).map _
  | map entries ih =>
    rw [walk]
    exact (walkEntries_asks fun e he => ih e he _).map _

/-- The keys that a lookup hands on are those of its walk and of further lookups. -/
theorem eq_or_of_mem_lookupKeys {k : String} (h : k ∈ r.lookupKeys n c key) : k = key ∨ K k := by
  induction c using Chain.induct_enter generalizing key with
  | step c ih =>
    cases henter : c.enter key with
    | error e => rw [lookupKeys_of_enter_error henter] at h; cases h
    | ok inner =>
      rw [lookupKeys_of_enter_ok henter] at h
      rcases List.mem_cons.mp h with rfl | h
      · exact .inl rfl
      cases hget : r.getter r.tree key r.options.toConfig with
      | error source => rw [hget] at h; cases h
      | ok raw =>
        rw [hget] at h
        obtain ⟨other, hother, h⟩ := List.mem_flatMap.mp h
        have hasked : K other := (walk_asks hK _ raw).of_mem_asked hother
        rcases ih key inner henter h with rfl | hk
        · exact .inr hasked
        · exact .inr hk

/-- What a call hands to the getter is its own key, or what an expression means. -/
theorem eq_get_or_of_mem_runKeys {call : Call} {k : String} (h : k ∈ r.runKeys n call) :
    call = .get k ∨ K k := by
  obtain ⟨other, hother, h⟩ := List.mem_flatMap.mp h
  have hcall : call = .get other ∨ K other := by
    cases call with
    | get key =>
      have hasks : (Inquiry.ask key Inquiry.done).Asks fun k => Call.get key = .get k :=
        ⟨rfl, fun _ => trivial⟩
      exact .inl (hasks.of_mem_asked hother)
    | resolve => exact .inr ((walk_asks hK _ _).of_mem_asked hother)
    | resolveAt context v => exact .inr ((walk_asks hK _ _).of_mem_asked hother)
    | resolveUnder key v => exact .inr ((walk_asks hK _ _).of_mem_asked hother)
  rcases eq_or_of_mem_lookupKeys hK h with rfl | hk
  · exact hcall
  · exact .inr hk

end Asks

theorem canonical_keyOf (h : r.rules.Separable) (frame : List String) (expression : String) :
    r.rules.Canonical (r.keyOf frame expression).toList := by
  unfold keyOf
  split <;> exact Keypath.Rules.canonical_join h _

/-- **Every key that the getter is handed is canonical**, but for the key of a call, which is handed
to it as it is. -/
theorem runKeys_canonical {tree : Value} {options : Options} (hr : ofTree tree options = .ok r)
    {a : Char} (hsep : options.grammar.separator.toList = [a]) (n : Nat) (call : Call) :
    (∀ key ∈ r.runKeys n call, call ≠ .get key → r.rules.Canonical key.toList) ∧
      ∀ key, call = .get key → 0 < options.maxDepth → key ∈ r.runKeys n call := by
  obtain ⟨rfl, rfl, -, hrules, -⟩ := ofTree_eq_ok_iff.mp hr
  have hseparable : r.rules.Separable :=
    Keypath.Rules.separable_of_singleton ((Keypath.Rules.of_ofConfig hrules).1.trans hsep)
  refine ⟨fun key hkey hcall => ?_, ?_⟩
  · exact (eq_get_or_of_mem_runKeys (K := fun key => r.rules.Canonical key.toList)
      (canonical_keyOf hseparable) hkey).resolve_left hcall
  · rintro key rfl hdepth
    exact mem_runKeys_get hdepth

/-- A key that ends in separators leaves one of them in front of a reference below it. -/
theorem runKeys_canonical_dotted :
    ofTree .null { maxDepth := 64 } = .ok (default .null 64) ∧
      ({ maxDepth := 64 } : Options).grammar.separator.toList = ['.'] ∧
      "a.b" ∈ (default .null 64).runKeys 1 (.resolveAt ["a..", "k"] (.string "@\x7b b \x7d")) ∧
      ∀ key ∈ (default .null 64).runKeys 1 (.resolveAt ["a..", "k"] (.string "@\x7b b \x7d")),
        (default .null 64).rules.Canonical key.toList := by
  have hsep : ({ maxDepth := 64 } : Options).grammar.separator.toList = ['.'] := by decide
  have hfind : (default .null 64).pattern.find? "@\x7b b \x7d" = some ⟨"b", 0, 6, true⟩ := by
    decide +kernel
  have hkey : (default .null 64).keyOf ["a.."] "b" = "a.b" := by decide +kernel
  obtain ⟨hcanonical, -⟩ := runKeys_canonical (ofTree_default .null 64) hsep 1
    (.resolveAt ["a..", "k"] (.string "@\x7b b \x7d"))
  refine ⟨ofTree_default .null 64, hsep, ?_, fun key h => hcanonical key h (fun h => nomatch h)⟩
  refine List.mem_flatMap.mpr ⟨"a.b", ?_, mem_lookupKeys_ofLimit (by decide)⟩
  rw [inquiry, walk, substitute_succ hfind, Inquiry.asked, ← hkey]
  exact List.mem_cons_self

/-- Whatever the tree, a key has itself in angle brackets as its value. -/
def echoing : Options where
  getter := some fun _ key _ => .ok (.string ("<" ++ key ++ ">"))

/-- **A key that starts with a separator is handed to the getter** as it is. -/
theorem runKeys_echoing :
    ∃ r, ofTree (.map []) echoing = .ok r ∧ ".a" ∈ r.runKeys 0 (.get ".a") ∧
      ¬ r.rules.Canonical ".a".toList ∧ r.run 0 (.get ".a") = .done (.string "<.a>") := by
  have hr : ofTree (.map []) echoing = .ok
      { default (.map []) 64 with
        options := echoing, getter := fun _ key _ => .ok (.string ("<" ++ key ++ ">")) } :=
    ofTree_eq_ok_iff.mpr
      ⟨rfl, rfl, rfl, Keypath.Rules.ofConfig_default 64, Marker.Default.ofGrammar_eq⟩
  have hfind : Marker.Default.pattern.find? "<.a>" = none := by decide +kernel
  have henter : (Chain.ofLimit 64).enter ".a" = .ok ⟨[".a"], 63⟩ := rfl
  refine ⟨_, hr, mem_runKeys_get (by decide), fun h => h.front (by decide), ?_⟩
  refine (lookup_of_getter_ok henter rfl 0).trans ?_
  rw [walk]
  exact congrArg _ (substitute_of_find?_none hfind 0 true)

end Resolver

end RefTree
