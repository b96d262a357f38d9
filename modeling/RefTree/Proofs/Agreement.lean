import RefTree.Proofs.Cycle
import RefTree.Proofs.Fixpoint

/-!
# Proofs/Agreement — resolving a tree and looking up its nodes agree

The walk of a tree is the walk of its nodes, each under its path (`answer_walk_getPath?`), and with
the getter by key path a lookup of a node's key is the walk of that node, with the key on the chain
and one key less of room.  Neither makes a difference to values: the chain does not, since a lookup
without the cycle check would be too deep where the check refuses, and less room can only be too
little.

`get_resolve_agree` states this for plain keys and a separator of one character.
-/

namespace RefTree.Resolver

variable {r : Resolver} {n : Nat} {look : String → Outcome Value}

/-! ## The nodes of a walk -/

/-- **An entry of a walked mapping is the walk of the entry**, under its key. -/
theorem answer_walkEntries_lookup {context : List String} {entries resolved : List (String × Value)}
    (h : (r.walkEntries n context entries).answer look = .done resolved) {key : String} {v : Value}
    (hv : entries.lookup key = some v) :
    ∃ w, resolved.lookup key = some w ∧
      (r.walk n (context ++ [key]) v).answer look = .done w := by
  induction entries generalizing resolved with
  | nil => cases hv
  | cons e es ih =>
    obtain ⟨k, u⟩ := e
    rw [walkEntries] at h
    obtain ⟨w, hw, hrest⟩ := Inquiry.answer_bind_eq_done_iff.mp h
    obtain ⟨fs, hfs, rfl⟩ := Inquiry.answer_map_eq_done_iff.mp hrest
    by_cases hk : key = k
    · subst hk
      rw [List.lookup_cons_self] at hv
      obtain rfl := Option.some.inj hv
      exact ⟨w, List.lookup_cons_self, hw⟩
    · have hbeq : (key == k) = false := beq_false_of_ne hk
      rw [List.lookup_cons, hbeq] at hv
      obtain ⟨w', hlookup, hw'⟩ := ih hfs hv
      refine ⟨w', ?_, hw'⟩
      rw [List.lookup_cons, hbeq]
      exact hlookup

/-- A mapping is walked to a value if its entries are. -/
theorem exists_answer_walkEntries {context : List String} {entries : List (String × Value)}
    (h : ∀ e ∈ entries, ∃ w, (r.walk n (context ++ [e.1]) e.2).answer look = .done w) :
    ∃ resolved, (r.walkEntries n context entries).answer look = .done resolved := by
  induction entries with
  | nil => exact ⟨[], rfl⟩
  | cons e es ih =>
    obtain ⟨⟨w, hw⟩, hes⟩ := List.forall_mem_cons.mp h
    obtain ⟨fs, hfs⟩ := ih hes
    exact ⟨(e.1, w) :: fs, answer_walkEntries_cons hw hfs⟩

/-- **A node of a walked tree is the walk of the node**, under its path. -/
theorem answer_walk_getPath? {path : List String} :
    ∀ {context : List String} {v w u : Value}, (r.walk n context v).answer look = .done w →
      v.getPath? path = some u →
      ∃ w', w.getPath? path = some w' ∧
        (r.walk n (context ++ path) u).answer look = .done w' := by
  induction path with
  | nil =>
    intro context v w u h hu
    obtain rfl : v = u := Option.some.inj hu
    exact ⟨w, rfl, by rwa [List.append_nil]⟩
  | cons key path ih =>
    intro context v w u h hu
    obtain ⟨v', hv', hrest⟩ := Option.bind_eq_some_iff.mp hu
    cases v with
    | map entries =>
      rw [walk] at h
      obtain ⟨resolved, hresolved, rfl⟩ := Inquiry.answer_map_eq_done_iff.mp h
      obtain ⟨w₁, hlookup, hw₁⟩ := answer_walkEntries_lookup hresolved hv'
      obtain ⟨w', hw', hans⟩ := ih hw₁ hrest
      refine ⟨w', Option.bind_eq_some_iff.mpr ⟨w₁, hlookup, hw'⟩, ?_⟩
      rwa [List.append_assoc, List.singleton_append] at hans
    | null => cases hv'
    | bool b => cases hv'
    | number m => cases hv'
    | string s => cases hv'
    | list items => cases hv'

/-! ## Chains and limits do not change values -/

/-- A value that some chain allows is the value without the cycle check, under every chain of as
much room. -/
theorem answer_unguarded_of_room_le {α : Type} {q : Inquiry α} {a : α} {c c' : Chain}
    (hle : c.room ≤ c'.room) (h : q.answer (r.lookupUnguarded n c) = .done a) :
    q.answer (r.lookupUnguarded n c') = .done a := by
  refine ((q.answer_eq_or_stops (lookupUnguarded_of_room_le c c' hle)).resolve_right ?_).trans h
  rw [h]
  exact id

theorem answer_unguarded_of_answer {α : Type} {q : Inquiry α} {a : α} {c : Chain}
    (h : q.answer (r.lookup n c) = .done a) : q.answer (r.lookupUnguarded n c) = .done a := by
  refine ((q.answer_eq_or_stops (lookupUnguarded_eq_or_stops c)).resolve_right ?_).trans h
  rw [h]
  exact id

/-- **A call that has a value under some limit is not refused by the cycle check**: a refused call
would be too deep under every limit. -/
theorem runUnguarded_eq_run {call : Call} {v : Value} {limit : Nat}
    (h : r.runUnguarded n limit call = .done v) :
    r.runUnguarded n r.options.maxDepth call = r.run n call := by
  refine (runUnguarded_eq_or_stops call).resolve_right fun hstop => ?_
  cases hrun : r.run n call with
  | done w => rw [hrun] at hstop; exact hstop
  | failed e =>
    rw [hrun] at hstop
    obtain ⟨key, keys, he⟩ := hstop
    have hdeep := runUnguarded_of_run_cyclic (hrun.trans (congrArg _ (Option.some.inj he))) limit
    rw [h] at hdeep
    exact hdeep
  | exhausted =>
    rw [hrun] at hstop
    obtain ⟨key, keys, he⟩ := hstop
    cases he

/-- **A call that has a value under some limit has that value or is too deep.** -/
theorem run_of_runUnguarded {call : Call} {v : Value} {limit : Nat}
    (h : r.runUnguarded n limit call = .done v) :
    r.run n call = .done v ∨ ∃ key, r.run n call = .failed (.tooDeep key r.options.maxDepth) := by
  rw [← runUnguarded_eq_run h, ← Outcome.stops_tooDeep_iff]
  rcases Nat.le_total r.options.maxDepth limit with hle | hle
  · have hroom : ∀ key, r.lookupUnguarded n (.ofLimit limit) key =
        r.lookupUnguarded n (.ofLimit r.options.maxDepth) key ∨ _ :=
      lookupUnguarded_of_room_le (.ofLimit r.options.maxDepth) (.ofLimit limit) hle
    rw [Chain.limit_ofLimit] at hroom
    exact ((r.inquiry n call).answer_eq_or_stops hroom).imp_left fun heq => heq.symm.trans h
  · exact .inl (answer_unguarded_of_room_le (c := .ofLimit limit) hle h)

/-! ## Keys of nodes -/

/-- A resolver whose options supply no getter looks keys up by their paths. -/
theorem getter_of_ofTree {tree : Value} {options : Options} (hr : ofTree tree options = .ok r)
    (hgetter : options.getter = none) : r.getter = Getter.keyPath := by
  obtain ⟨-, -, hget, -⟩ := ofTree_eq_ok_iff.mp hr
  unfold getterOf at hget
  rw [hgetter] at hget
  cases hmode : options.getterMode with
  | fallback => rw [hmode] at hget; exact (Except.ok.inj hget).symm
  | required => rw [hmode] at hget; cases hget

section Plain

variable {entries : List (String × Value)} {options : Options} {a : Char}

/-- **The getter finds a node under the key of its path**, and the key is cut into the path. -/
theorem getter_path (hr : ofTree (.map entries) options = .ok r) (hgetter : options.getter = none)
    (hsep : options.grammar.separator.toList = [a])
    (hkeys : ∀ key ∈ (Value.map entries).keys, Keypath.Rules.Plain a key) {path : List String}
    (hne : path ≠ []) {v : Value} (hv : (Value.map entries).getPath? path = some v) :
    r.getter r.tree (r.rules.path path) r.options.toConfig = .ok v ∧
      r.rules.split (r.rules.path path) = path := by
  obtain ⟨htree, hoptions, -, hrules, -⟩ := ofTree_eq_ok_iff.mp hr
  have hrsep : r.rules.separator = [a] := (Keypath.Rules.of_ofConfig hrules).1.trans hsep
  have hplain : ∀ key ∈ path, Keypath.Rules.Plain a key :=
    fun key hkey => hkeys key (Value.mem_keys_of_getPath? hv key hkey)
  have htop : ∀ es, Value.map entries = .map es → ∀ e ∈ es, a ∉ e.1.toList := by
    intro es hes e he
    exact (hkeys e.1 (hes ▸ Value.mem_keys_map.mpr ⟨e, he, .inl rfl⟩)).2
  rw [getter_of_ofTree hr hgetter, htree, hoptions]
  exact ⟨r.rules.keyPath_path hrsep hsep hne hplain htop hv, r.rules.split_path hrsep hne hplain⟩

/-- **Where the tree resolves, its nodes can be looked up**, unless they are too deep. -/
theorem get_of_resolve (hr : ofTree (.map entries) options = .ok r)
    (hgetter : options.getter = none) (hsep : options.grammar.separator.toList = [a])
    (hkeys : ∀ key ∈ (Value.map entries).keys, Keypath.Rules.Plain a key) {R : Value}
    (hR : r.resolve n = .done R) {path : List String} (hne : path ≠ []) {v : Value}
    (hv : (Value.map entries).getPath? path = some v) :
    ∃ w, R.getPath? path = some w ∧ ∀ n' ≥ n,
      r.get n' (r.rules.path path) = .done w ∨
        ∃ key, r.get n' (r.rules.path path) = .failed (.tooDeep key options.maxDepth) := by
  obtain ⟨htree, hoptions, -⟩ := ofTree_eq_ok_iff.mp hr
  obtain ⟨hget, hsplit⟩ := getter_path hr hgetter hsep hkeys hne hv
  have hroot : (r.walk n [] (.map entries)).answer
      (r.lookupUnguarded n (.ofLimit r.options.maxDepth)) = .done R :=
    answer_unguarded_of_answer (htree ▸ hR)
  obtain ⟨w, hw, hnode⟩ := answer_walk_getPath? hroot hv
  refine ⟨w, hw, fun n' hn' => ?_⟩
  -- the lookup has one key on its chain, so its limit is one more than that of the whole tree
  have hlookup :
      r.runUnguarded n (r.options.maxDepth + 1) (.get (r.rules.path path)) = .done w := by
    have hinner : (Chain.ofLimit (r.options.maxDepth + 1)).extend (r.rules.path path) =
        .ok ⟨[r.rules.path path], r.options.maxDepth⟩ := rfl
    rw [runUnguarded, inquiry, answer_ask_done, lookupUnguarded_of_extend_ok hinner, hget, hsplit]
    rw [List.nil_append] at hnode
    exact answer_unguarded_of_room_le (c := .ofLimit r.options.maxDepth) (Nat.le_refl _) hnode
  have hrun := run_of_runUnguarded hlookup
  have hended : r.run n (.get (r.rules.path path)) ≠ .exhausted := by
    rcases hrun with hdone | ⟨key, hfail⟩
    · rw [hdone]; simp
    · rw [hfail]; simp
  rw [← hoptions]
  rw [← run_of_le hn' hended] at hrun
  exact hrun

/-- Finitely many keys that have values have them within one number of rescans. -/
theorem exists_rescans_get {entries : List (String × Value)}
    (h : ∀ e ∈ entries, ∃ n v, r.get n e.1 = .done v) :
    ∃ n, ∀ e ∈ entries, ∃ v, r.get n e.1 = .done v := by
  obtain ⟨N, hN⟩ := r.exists_rescans (entries.map fun e => .get e.1)
  refine ⟨N, fun e he => ?_⟩
  obtain ⟨n, v, hv⟩ := h e he
  have hrun : r.run n (.get e.1) = .done v := hv
  exact ⟨v, (hN _ (List.mem_map_of_mem he) n (by simp [hrun])).trans hrun⟩

/-- **Where the keys at the top can be looked up, the tree resolves.** -/
theorem resolve_of_get (hr : ofTree (.map entries) options = .ok r)
    (hgetter : options.getter = none) (hsep : options.grammar.separator.toList = [a])
    (hkeys : ∀ key ∈ (Value.map entries).keys, Keypath.Rules.Plain a key)
    (hdistinct : (entries.map Prod.fst).Nodup)
    (hget : ∀ e ∈ entries, ∃ v, r.get n e.1 = .done v) : ∃ R, r.resolve n = .done R := by
  have htree := (ofTree_eq_ok_iff.mp hr).1
  have hentry : ∀ e ∈ entries, ∃ w, (r.walk n ([] ++ [e.1]) e.2).answer
      (r.lookupUnguarded n (.ofLimit r.options.maxDepth)) = .done w := by
    intro e he
    obtain ⟨v, hv⟩ := hget e he
    obtain ⟨inner, raw, henter, hraw, hwalk⟩ := exists_of_lookup_eq_done hv
    have hnode := Value.getPath?_of_mem hdistinct he
    obtain ⟨hfound, hsplit⟩ := getter_path hr hgetter hsep hkeys (List.cons_ne_nil _ _) hnode
    rw [Keypath.Rules.path_singleton] at hfound hsplit
    obtain rfl : e.2 = raw := Except.ok.inj (hfound.symm.trans hraw)
    rw [hsplit] at hwalk
    have hroom : inner.room ≤ (Chain.ofLimit r.options.maxDepth).room :=
      Nat.le_of_lt (Chain.room_lt_of_enter henter)
    exact ⟨v, answer_unguarded_of_room_le hroom (answer_unguarded_of_answer hwalk)⟩
  obtain ⟨resolved, hresolved⟩ := exists_answer_walkEntries hentry
  have hrun : r.runUnguarded n r.options.maxDepth .resolve = .done (.map resolved) := by
    rw [runUnguarded, inquiry, htree, walk]
    exact Inquiry.answer_map_eq_done_iff.mpr ⟨resolved, hresolved, rfl⟩
  exact ⟨.map resolved, (runUnguarded_eq_run hrun).symm.trans hrun⟩

/-- **Resolving a tree and looking up its nodes agree.**  Once the tree resolves, the lookup of a
node's key gives the node of the resolved tree, or is too deep.  And if every key at the top can be
looked up, the tree resolves, with these values at the top. -/
theorem get_resolve_agree (hr : ofTree (.map entries) options = .ok r)
    (hgetter : options.getter = none) (hsep : options.grammar.separator.toList = [a])
    (hkeys : ∀ key ∈ (Value.map entries).keys, Keypath.Rules.Plain a key)
    (hdistinct : (entries.map Prod.fst).Nodup) :
    (∀ n R, r.resolve n = .done R →
      ∀ path ≠ [], ∀ v, (Value.map entries).getPath? path = some v →
        ∃ w, R.getPath? path = some w ∧ ∀ n' ≥ n,
          r.get n' (r.rules.path path) = .done w ∨
            ∃ key, r.get n' (r.rules.path path) = .failed (.tooDeep key options.maxDepth)) ∧
    ((∀ e ∈ entries, ∃ n v, r.get n e.1 = .done v) →
      ∃ n R, r.resolve n = .done R ∧
        ∀ e ∈ entries, ∀ n' v, r.get n' e.1 = .done v → R.get? e.1 = some v) := by
  refine ⟨fun n R hR path hne v hv => ?_, fun hget => ?_⟩
  · exact get_of_resolve hr hgetter hsep hkeys hR hne hv
  obtain ⟨n, hn⟩ := exists_rescans_get hget
  obtain ⟨R, hR⟩ := resolve_of_get hr hgetter hsep hkeys hdistinct hn
  refine ⟨n, R, hR, fun e he n' v hv => ?_⟩
  have hnode := Value.getPath?_of_mem hdistinct he
  obtain ⟨w, hw, hgets⟩ := get_of_resolve hr hgetter hsep hkeys hR (List.cons_ne_nil _ _) hnode
  have hmax : r.get (max n n') e.1 = .done v :=
    get_done_of_le (Nat.le_max_right n n') hv
  have hmore := hgets _ (Nat.le_max_left n n')
  rw [Keypath.Rules.path_singleton, hmax] at hmore
  rcases hmore with hdone | ⟨key, hfail⟩
  · obtain ⟨u, hu, hleaf⟩ := Option.bind_eq_some_iff.mp hw
    obtain rfl : u = w := Option.some.inj hleaf
    rw [hu, Outcome.done.inj hdone]
  · cases hfail

end Plain

theorem get_resolve_agree_aliased :
    ofTree aliased {} = .ok (default aliased 64) ∧ ({} : Options).getter = none ∧
      ({} : Options).grammar.separator.toList = ['.'] ∧
      (∀ key ∈ aliased.keys, Keypath.Rules.Plain '.' key) ∧ (["a", "c"] : List String).Nodup ∧
      (default aliased 64).resolve 1 = .done unaliased ∧
      ∃ w, unaliased.getPath? ["a", "b"] = some w ∧ ∀ n ≥ 1,
        (default aliased 64).get n "a.b" = .done w ∨
          ∃ key, (default aliased 64).get n "a.b" = .failed (.tooDeep key 64) := by
  have hkeys : ∀ key ∈ aliased.keys, Keypath.Rules.Plain '.' key := by
    have hall : ∀ key ∈ aliased.keys, key ≠ "" ∧ '.' ∉ key.toList := by decide
    exact hall
  have hdistinct : (["a", "c"] : List String).Nodup := by decide
  have hagree := get_resolve_agree (ofTree_default aliased 64) rfl rfl hkeys hdistinct
  exact ⟨ofTree_default aliased 64, rfl, rfl, hkeys, hdistinct, resolve_aliased,
    hagree.1 1 unaliased resolve_aliased ["a", "b"] (by simp) _ rfl⟩

end RefTree.Resolver
