import RefTree.Proofs.Agreement
import RefTree.Proofs.Failure

/-!
# Proofs/Limit — a greater limit on the depth only continues what was too deep

Two resolvers that ask and answer alike (`Matches`) walk alike, so their lookups differ in the room
of their chains and in nothing else.  A key on the chain is refused before the room is looked at;
hence a lookup under a chain with more room ends as the one with less room does, unless that was too
deep (`Matches.lookup_of_room_le`), and so does every call (`run_of_maxDepth_le`).  A getter that is
handed the limit and reads it is another matter (`get_limiting`).
-/

namespace RefTree

open Outcome (TooDeep)

namespace Resolver

variable {r r' : Resolver}

/-- A key on the chain is refused, whatever else there is. -/
theorem lookup_congr_of_mem {c c' : Chain} (hkeys : c'.keys = c.keys) {key : String}
    (hmem : key ∈ c.keys) (n : Nat) : r'.lookup n c' key = r.lookup n c key := by
  have hmem' : key ∈ c'.keys := hkeys ▸ hmem
  rw [lookup_of_enter_error (Chain.enter_of_mem hmem),
    lookup_of_enter_error (Chain.enter_of_mem hmem'), hkeys]

/-- **The resolvers ask and answer alike**: they find the same markers, read and fetch keys in the
same way, and end strings in the same way.  Their limits may differ. -/
structure Matches (r r' : Resolver) : Prop where
  tree : r'.tree = r.tree
  rules : r'.rules = r.rules
  pattern : r'.pattern = r.pattern
  keepTypes : r'.options.keepTypes = r.options.keepTypes
  fetch : ∀ key, r'.getter r'.tree key r'.options.toConfig = r.getter r.tree key r.options.toConfig
  finish : ∀ frame text, r'.finish frame text = r.finish frame text

namespace Matches

variable (h : r.Matches r')
include h

/-! ## Walks -/

theorem keyOf (frame : List String) (expression : String) :
    r'.keyOf frame expression = r.keyOf frame expression := by
  rw [Resolver.keyOf, Resolver.keyOf, h.rules]

theorem replace (untouched : Bool) (text : String) (m : Marker) (v : Value) :
    r'.replace untouched text m v = r.replace untouched text m v := by
  simp only [Resolver.replace, h.keepTypes]

/-- **A walk takes no account of the limit.** -/
theorem walk (n : Nat) (v : Value) (context : List String) :
    r'.walk n context v = r.walk n context v :=
  walk_congr h.pattern h.keyOf h.replace h.finish context v

theorem inquiry (n : Nat) (call : Call) : r'.inquiry n call = r.inquiry n call := by
  cases call with
  | get key => rfl
  | resolve => rw [Resolver.inquiry, Resolver.inquiry, h.tree, h.walk]
  | resolveAt context v => exact h.walk n v context
  | resolveUnder key v => rw [Resolver.inquiry, Resolver.inquiry, h.rules, h.walk]

/-! ## Lookups -/

/-- Under chains that let the key in, the lookups differ in the lookups that they make. -/
theorem lookup_of_enter_ok {c c' inner inner' : Chain} {key : String} {n : Nat}
    {bad : Option Failure → Prop} (henter : c.enter key = .ok inner)
    (henter' : c'.enter key = .ok inner')
    (hlook : ∀ key, r'.lookup n inner' key = r.lookup n inner key ∨
      (r.lookup n inner key).Stops bad) :
    r'.lookup n c' key = r.lookup n c key ∨ (r.lookup n c key).Stops bad := by
  cases hget : r.getter r.tree key r.options.toConfig with
  | error source =>
    rw [lookup_of_getter_error henter hget,
      lookup_of_getter_error henter' ((h.fetch key).trans hget)]
    exact .inl rfl
  | ok raw =>
    rw [lookup_of_getter_ok henter hget, lookup_of_getter_ok henter' ((h.fetch key).trans hget),
      h.rules, h.walk]
    exact (r.walk n _ raw).answer_eq_or_stops hlook

/-- **More room only continues a lookup that was too deep.**  The chains hold the same keys, so the
same keys are refused, with the same report. -/
theorem lookup_of_room_le {n : Nat} (c : Chain) :
    ∀ c' : Chain, c'.keys = c.keys → c.room ≤ c'.room → ∀ key,
      r'.lookup n c' key = r.lookup n c key ∨ (r.lookup n c key).Stops (TooDeep c.limit) := by
  induction hroom : c.room generalizing c with
  | zero =>
    intro c' hkeys _ key
    by_cases hmem : key ∈ c.keys
    · exact .inl (lookup_congr_of_mem hkeys hmem n)
    · have hfull := (Chain.enter_of_notMem hmem).trans (Chain.extend_of_room_zero hroom)
      rw [lookup_of_enter_error hfull]
      exact .inr ⟨key, rfl⟩
  | succ room ih =>
    intro c' hkeys hle key
    by_cases hmem : key ∈ c.keys
    · exact .inl (lookup_congr_of_mem hkeys hmem n)
    · have henter : c.enter key = .ok ⟨c.keys ++ [key], room⟩ :=
        Chain.enter_eq_ok_iff.mpr ⟨hmem, rfl, hroom.symm⟩
      have henter' : c'.enter key = .ok ⟨c'.keys ++ [key], c'.room - 1⟩ :=
        Chain.enter_eq_ok_iff.mpr ⟨hkeys ▸ hmem, rfl, by simp only; omega⟩
      rw [← Chain.limit_enter henter]
      exact h.lookup_of_enter_ok henter henter'
        (ih _ rfl _ (by rw [hkeys]) (by simp only; omega))

/-- **A call ends as it does under a lower limit**, unless that was too low. -/
theorem run_eq_or_tooDeep (hle : r.options.maxDepth ≤ r'.options.maxDepth) (n : Nat)
    (call : Call) :
    r'.run n call = r.run n call ∨
      ∃ key, r.run n call = .failed (.tooDeep key r.options.maxDepth) := by
  have hlook : ∀ key, r'.lookupFirst n key = r.lookupFirst n key ∨ _ :=
    h.lookup_of_room_le (.ofLimit r.options.maxDepth) (.ofLimit r'.options.maxDepth) rfl hle
  rw [run_eq_answer, run_eq_answer, h.inquiry, ← Outcome.stops_tooDeep_iff]
  rw [Chain.limit_ofLimit] at hlook
  exact (r.inquiry n call).answer_eq_or_stops hlook

end Matches

/-! ## Options with a greater limit -/

variable {tree : Value} {options : Options} {limit : Nat}

/-- **A resolver with another limit matches**, if the functions supplied to it answer alike: they
are handed the configuration, and the limit is part of it. -/
theorem exists_matches (hr : ofTree tree options = .ok r)
    (hgetter : ∀ getter, options.getter = some getter → ∀ key,
      getter tree key { options.toConfig with maxDepth := limit } =
        getter tree key options.toConfig)
    (hpost : ∀ postParser, options.postParser = some postParser → ∀ text,
      postParser tree text { options.toConfig with maxDepth := limit } =
        postParser tree text options.toConfig) :
    ∃ r', ofTree tree { options with maxDepth := limit } = .ok r' ∧ r.Matches r' ∧
      r'.options.maxDepth = limit := by
  have hkeyPath : options.getter = none → r.getter = Getter.keyPath := getter_of_ofTree hr
  obtain ⟨rfl, rfl, hget, hrules, hpattern⟩ := ofTree_eq_ok_iff.mp hr
  refine ⟨{ r with options := { r.options with maxDepth := limit } },
    ofTree_eq_ok_iff.mpr ⟨rfl, rfl, hget, hrules, hpattern⟩,
    ⟨rfl, rfl, rfl, rfl, fun key => ?_, fun frame text => ?_⟩, rfl⟩
  · cases hsupplied : r.options.getter with
    | some getter =>
      have hown : r.getter = getter := by
        rw [getterOf, hsupplied] at hget
        exact (Except.ok.inj hget).symm
      simp only [hown, hgetter getter hsupplied key]
    | none =>
      simp only [hkeyPath hsupplied]
      rfl
  · unfold finish
    cases hsupplied : r.options.postParser with
    | none => rfl
    | some postParser => simp only [hpost postParser hsupplied text]

/-- **Raising the limit on the depth changes no outcome but "too deep".**  With a getter and a
post-parser that answer alike under both limits, a resolver with the greater limit is made too, and
within any number of rescans every call ends on it as before, unless it was too deep before. -/
theorem run_of_maxDepth_le (hr : ofTree tree options = .ok r) (hle : options.maxDepth ≤ limit)
    (hgetter : ∀ getter, options.getter = some getter → ∀ key,
      getter tree key { options.toConfig with maxDepth := limit } =
        getter tree key options.toConfig)
    (hpost : ∀ postParser, options.postParser = some postParser → ∀ text,
      postParser tree text { options.toConfig with maxDepth := limit } =
        postParser tree text options.toConfig) :
    ∃ r', ofTree tree { options with maxDepth := limit } = .ok r' ∧
      ∀ call n, r'.run n call = r.run n call ∨
        ∃ key, r.run n call = .failed (.tooDeep key options.maxDepth) := by
  obtain ⟨r', hr', hmatches, hlimit⟩ := exists_matches hr hgetter hpost
  obtain ⟨-, rfl, -⟩ := ofTree_eq_ok_iff.mp hr
  exact ⟨r', hr', fun call n => hmatches.run_eq_or_tooDeep (hlimit ▸ hle) n call⟩

/-- Options that supply the functions that the defaults stand for. -/
def supplied : Options where
  getter := some Getter.keyPath
  postParser := some fun _ text _ => .ok (.string text)

/-- The resolver of the two strings that refer to each other, with these options. -/
def entwinedSupplied : Resolver := { default entwined 64 with options := supplied }

theorem ofTree_entwinedSupplied : ofTree entwined supplied = .ok entwinedSupplied :=
  ofTree_eq_ok_iff.mpr
    ⟨rfl, rfl, rfl, Keypath.Rules.ofConfig_default 64, Marker.Default.ofGrammar_eq⟩

theorem run_entwinedSupplied :
    entwinedSupplied.run 1 .resolve = .failed (.cyclic "b" ["b", "a", "b"]) := by
  have hmatches : (default entwined 64).Matches entwinedSupplied :=
    ⟨rfl, rfl, rfl, rfl, fun _ => rfl, fun _ _ => rfl⟩
  refine ((hmatches.run_eq_or_tooDeep (Nat.le_refl _) 1 .resolve).resolve_right ?_).trans
    run_entwined
  rw [run_entwined]
  rintro ⟨key, hkey⟩
  cases hkey

theorem run_of_maxDepth_le_entwined :
    ofTree entwined supplied = .ok entwinedSupplied ∧ supplied.maxDepth ≤ 100 ∧
      supplied.getter = some Getter.keyPath ∧
      (∀ key, Getter.keyPath entwined key { supplied.toConfig with maxDepth := 100 } =
        Getter.keyPath entwined key supplied.toConfig) ∧
      ∃ r', ofTree entwined { supplied with maxDepth := 100 } = .ok r' ∧
        r'.run 1 .resolve = .failed (.cyclic "b" ["b", "a", "b"]) := by
  have hgetter : ∀ getter, supplied.getter = some getter → ∀ key,
      getter entwined key { supplied.toConfig with maxDepth := 100 } =
        getter entwined key supplied.toConfig := by
    rintro getter hsupplied key
    obtain rfl : Getter.keyPath = getter := Option.some.inj hsupplied
    rfl
  have hpost : ∀ postParser, supplied.postParser = some postParser → ∀ text,
      postParser entwined text { supplied.toConfig with maxDepth := 100 } =
        postParser entwined text supplied.toConfig := by
    rintro postParser hsupplied text
    obtain rfl := Option.some.inj hsupplied
    rfl
  have hle : supplied.maxDepth ≤ 100 := by decide
  obtain ⟨r', hr', hruns⟩ := run_of_maxDepth_le ofTree_entwinedSupplied hle hgetter hpost
  refine ⟨ofTree_entwinedSupplied, hle, rfl, hgetter _ rfl, r', hr', ?_⟩
  have hrun := hruns .resolve 1
  rw [run_entwinedSupplied] at hrun
  refine hrun.resolve_right ?_
  rintro ⟨key, hkey⟩
  cases hkey

/-- A getter that finds the limit on the depth, whatever the key. -/
def limitGetter : Getter := fun _ _ config => .ok (.number (.integer config.maxDepth))

/-- Options with this getter. -/
def limiting (limit : Nat) : Options where
  getter := some limitGetter
  maxDepth := limit

/-- The resolver of the empty tree with these options. -/
def limitingResolver (limit : Nat) : Resolver :=
  { default (.map []) limit with options := limiting limit, getter := limitGetter }

theorem ofTree_limiting (limit : Nat) :
    ofTree (.map []) (limiting limit) = .ok (limitingResolver limit) :=
  ofTree_eq_ok_iff.mpr
    ⟨rfl, rfl, rfl, Keypath.Rules.ofConfig_default limit, Marker.Default.ofGrammar_eq⟩

theorem run_limiting (limit n : Nat) (key : String) :
    (limitingResolver (limit + 1)).run n (.get key) =
      .done (.number (.integer (limit + 1 : Nat))) := by
  have henter : (Chain.ofLimit (limit + 1)).enter key = .ok ⟨[key], limit⟩ :=
    Chain.enter_eq_ok_iff.mpr ⟨List.not_mem_nil, rfl, rfl⟩
  exact lookup_of_getter_ok (r := limitingResolver (limit + 1)) henter rfl n

/-- **The functions have to answer alike**: with a getter that reads the limit, raising it from one
to two turns the value of a key from one into two. -/
theorem get_limiting :
    ∃ r r', ofTree (.map []) (limiting 1) = .ok r ∧
      ofTree (.map []) { limiting 1 with maxDepth := 2 } = .ok r' ∧
        ∀ n, r.run n (.get "x") = .done (.number (.integer 1)) ∧
          r'.run n (.get "x") = .done (.number (.integer 2)) :=
  ⟨_, _, ofTree_limiting 1, ofTree_limiting 2,
    fun n => ⟨run_limiting 0 n "x", run_limiting 1 n "x"⟩⟩

end Resolver

end RefTree
