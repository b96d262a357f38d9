import RefTree.Proofs.Walk

/-!
# Proofs/Call — the calls of a resolver, and the number of rescans they get

Every call is an inquiry whose keys are looked up while no key is being resolved
(`run_eq_answer`).  The number of rescans is a budget and nothing else: a call that ends within it
ends alike with every greater one (`run_of_le`).
-/

namespace RefTree

namespace Chain

/-- **Induction along entering**: what holds of a chain may rest on the chains that one more key
leads to. -/
theorem induct_enter {P : Chain → Prop}
    (step : ∀ c : Chain, (∀ key inner, c.enter key = .ok inner → P inner) → P c) (c : Chain) :
    P c := by
  induction hroom : c.room using Nat.strongRecOn generalizing c with
  | ind room ih =>
    refine step c fun key inner henter => ih inner.room ?_ inner rfl
    exact hroom ▸ room_lt_of_enter henter

end Chain

namespace Resolver

/-- **What a resolver is made of**, if the options are accepted. -/
theorem ofTree_eq_ok_iff {tree : Value} {options : Options} {r : Resolver} :
    ofTree tree options = .ok r ↔
      r.tree = tree ∧ r.options = options ∧ getterOf options = .ok r.getter ∧
        Keypath.Rules.ofConfig options.toConfig = .ok r.rules ∧
        Marker.Pattern.ofGrammar options.grammar = .ok r.pattern := by
  obtain ⟨tree', options', getter, rules, pattern⟩ := r
  unfold ofTree
  cases getterOf options with
  | error fault => exact ⟨fun h => (nomatch h), fun h => (nomatch h.2.2.1)⟩
  | ok getter' =>
    cases Keypath.Rules.ofConfig options.toConfig with
    | error fault => exact ⟨fun h => (nomatch h), fun h => (nomatch h.2.2.2.1)⟩
    | ok rules' =>
      cases Marker.Pattern.ofGrammar options.grammar with
      | error fault => exact ⟨fun h => (nomatch h), fun h => (nomatch h.2.2.2.2)⟩
      | ok pattern' =>
        constructor
        · intro h
          cases h
          exact ⟨rfl, rfl, rfl, rfl, rfl⟩
        · rintro ⟨rfl, rfl, hgetter, hrules, hpattern⟩
          cases hgetter
          cases hrules
          cases hpattern
          rfl

variable {r : Resolver} {c inner : Chain} {key : String}

/-! ## One lookup -/

theorem lookup_of_enter_error {e : Failure} (h : c.enter key = .error e) (n : Nat) :
    r.lookup n c key = .failed e := by
  rw [lookup]
  split
  · next e' h' =>
    obtain rfl : e' = e := Except.error.inj (h'.symm.trans h)
    rfl
  · next inner h' => cases h'.symm.trans h

theorem lookup_of_enter_ok (h : c.enter key = .ok inner) (n : Nat) :
    r.lookup n c key =
      match r.getter r.tree key r.options.toConfig with
      | .error source => .failed (.resolution key source)
      | .ok raw => (r.walk n (r.rules.split key) raw).answer (r.lookup n inner) := by
  rw [lookup]
  split
  · next e' h' => cases h'.symm.trans h
  · next inner' h' =>
    obtain rfl : inner' = inner := Except.ok.inj (h'.symm.trans h)
    rfl

theorem lookup_of_getter_error {source : String} (h : c.enter key = .ok inner)
    (hget : r.getter r.tree key r.options.toConfig = .error source) (n : Nat) :
    r.lookup n c key = .failed (.resolution key source) := by
  rw [lookup_of_enter_ok h, hget]

/-- **A lookup is the walk of the raw value**, with the key on the chain. -/
theorem lookup_of_getter_ok {raw : Value} (h : c.enter key = .ok inner)
    (hget : r.getter r.tree key r.options.toConfig = .ok raw) (n : Nat) :
    r.lookup n c key = (r.walk n (r.rules.split key) raw).answer (r.lookup n inner) := by
  rw [lookup_of_enter_ok h, hget]

/-- A lookup that gives a value has entered its key and fetched a raw value. -/
theorem exists_of_lookup_eq_done {n : Nat} {v : Value} (h : r.lookup n c key = .done v) :
    ∃ inner raw, c.enter key = .ok inner ∧
      r.getter r.tree key r.options.toConfig = .ok raw ∧
      (r.walk n (r.rules.split key) raw).answer (r.lookup n inner) = .done v := by
  cases henter : c.enter key with
  | error e => rw [lookup_of_enter_error henter] at h; cases h
  | ok inner =>
    cases hget : r.getter r.tree key r.options.toConfig with
    | error source => rw [lookup_of_getter_error henter hget] at h; cases h
    | ok raw =>
      rw [lookup_of_getter_ok henter hget] at h
      exact ⟨inner, raw, rfl, rfl, h⟩

/-- **More rescans only continue what was cut short.** -/
theorem lookup_agrees {n n' : Nat} (hle : n ≤ n') (c : Chain) :
    ∀ key, r.lookup n' c key = r.lookup n c key ∨ (r.lookup n c key).Stops Outcome.CutShort := by
  induction c using Chain.induct_enter with
  | step c ih =>
    intro key
    cases henter : c.enter key with
    | error e => exact .inl (by rw [lookup_of_enter_error henter, lookup_of_enter_error henter])
    | ok inner =>
      rw [lookup_of_enter_ok henter, lookup_of_enter_ok henter]
      cases r.getter r.tree key r.options.toConfig with
      | error source => exact .inl rfl
      | ok raw => exact (walk_agrees Outcome.cutShort_none hle raw _).answer (ih key inner henter)

theorem lookup_of_le {n n' : Nat} (hle : n ≤ n') {c : Chain} {key : String}
    (h : r.lookup n c key ≠ .exhausted) : r.lookup n' c key = r.lookup n c key :=
  Outcome.eq_of_ne_exhausted (lookup_agrees hle c key) h

end Resolver

/-! ## Calls -/

/-- What a resolver can be asked for. -/
inductive Call where
  /-- The value of a key. -/
  | get (key : String)
  /-- The whole tree. -/
  | resolve
  /-- A value as if it stood at `context`. -/
  | resolveAt (context : List String) (v : Value)
  /-- A value as if it were the value of `key`. -/
  | resolveUnder (key : String) (v : Value)

namespace Resolver

variable (r : Resolver)

/-- **The outcome of a call**, where every string gets the same number of rescans. -/
def run (n : Nat) : Call → Outcome Value
  | .get key => r.get n key
  | .resolve => r.resolve n
  | .resolveAt context v => r.resolveAt n context v
  | .resolveUnder key v => r.resolveUnder n key v

/-- What a call asks for. -/
def inquiry (n : Nat) : Call → Inquiry Value
  | .get key => .ask key .done
  | .resolve => r.walk n [] r.tree
  | .resolveAt context v => r.walk n context v
  | .resolveUnder key v => r.walk n (r.rules.split key) v

variable {r}

theorem answer_ask_done (look : String → Outcome Value) (key : String) :
    (Inquiry.ask key Inquiry.done).answer look = look key := by
  simp only [Inquiry.answer]
  cases look key <;> rfl

/-- **A call is its inquiry, answered while no key is being resolved.** -/
theorem run_eq_answer (n : Nat) (call : Call) :
    r.run n call = (r.inquiry n call).answer (r.lookupFirst n) := by
  cases call with
  | get key => exact (answer_ask_done _ key).symm
  | resolve => rfl
  | resolveAt context v => rfl
  | resolveUnder key v => rfl

theorem inquiry_agrees {bad : Option Failure → Prop} (hbad : bad none) {n n' : Nat} (hle : n ≤ n')
    (call : Call) : Inquiry.Agrees bad (r.inquiry n call) (r.inquiry n' call) := by
  cases call with
  | get key => exact .refl _
  | resolve => exact walk_agrees hbad hle _ _
  | resolveAt context v => exact walk_agrees hbad hle _ _
  | resolveUnder key v => exact walk_agrees hbad hle _ _

/-- A failure of a call's own is a failure of the post-parser. -/
theorem inquiry_endsIn_postParse (n : Nat) (call : Call) :
    (r.inquiry n call).EndsIn (fun _ => True) (fun _ => True)
      fun e => ∃ path source, e = .postParse path source := by
  cases call with
  | get key => exact fun _ _ => trivial
  | resolve => exact walk_endsIn_postParse _ _ _
  | resolveAt context v => exact walk_endsIn_postParse _ _ _
  | resolveUnder key v => exact walk_endsIn_postParse _ _ _

/-- **A call that ends within its rescans ends alike with more of them.** -/
theorem run_of_le {n n' : Nat} (hle : n ≤ n') {call : Call} (h : r.run n call ≠ .exhausted) :
    r.run n' call = r.run n call := by
  rw [run_eq_answer] at h ⊢
  rw [run_eq_answer]
  refine Outcome.eq_of_ne_exhausted ?_ h
  exact (inquiry_agrees Outcome.cutShort_none hle call).answer (lookup_agrees hle _)

/-- A value within some rescans is the value within more. -/
theorem run_done_of_le {n n' : Nat} (hle : n ≤ n') {call : Call} {v : Value}
    (h : r.run n call = .done v) : r.run n' call = .done v :=
  (run_of_le hle (by rw [h]; simp)).trans h

/-- **Some number of rescans is enough for every call of a list** that ends with any. -/
theorem exists_rescans (calls : List Call) : ∃ N, ∀ call ∈ calls, ∀ n,
    r.run n call ≠ .exhausted → r.run N call = r.run n call := by
  induction calls with
  | nil => exact ⟨0, List.forall_mem_nil _⟩
  | cons call calls ih =>
    obtain ⟨N, hN⟩ := ih
    by_cases hends : ∃ n, r.run n call ≠ .exhausted
    · obtain ⟨n₁, hn₁⟩ := hends
      refine ⟨max n₁ N, List.forall_mem_cons.mpr ⟨fun n hn => ?_, fun other hother n hn => ?_⟩⟩
      · rw [run_of_le (Nat.le_max_left n₁ N) hn₁, ← run_of_le (Nat.le_max_left n₁ n) hn₁,
          run_of_le (Nat.le_max_right n₁ n) hn]
      · have heq := hN other hother n hn
        exact (run_of_le (Nat.le_max_right n₁ N) (heq ▸ hn)).trans heq
    · exact ⟨N, List.forall_mem_cons.mpr ⟨fun n hn => absurd ⟨n, hn⟩ hends, hN⟩⟩

theorem get_done_of_le {n n' : Nat} (hle : n ≤ n') {v : Value} (h : r.get n key = .done v) :
    r.get n' key = .done v := by
  have hrun : r.run n (.get key) = .done v := h
  exact run_done_of_le hle hrun

end Resolver

end RefTree
