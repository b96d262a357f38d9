import RefTree.Proofs.Chain
import RefTree.Proofs.Fixpoint

/-!
# Proofs/Failure — where the failure of a call comes from

A lookup is a call inside a call (`Within`), so each failure comes out of one of them: a key is
refused, the getter fails, or the post-parser does (`Origin`, `origin_of_failed`).  The keys on the
chain of an inner call are distinct, and each of them makes the walk look up the next one
(`Within.dependency`).  Hence everything that a failure reports is so (`run_failed_truthful`).
-/

namespace RefTree

namespace Inquiry

variable {α β : Type} {look : String → Outcome Value} {e : Failure}

/-- The failure of the inquiry's own, after lookups that gave values. -/
def raised? (look : String → Outcome Value) : Inquiry α → Option Failure
  | failed e => some e
  | ask key next =>
    match look key with
    | .done v => raised? look (next v)
    | _ => none
  | _ => none

/-- **A failure is raised, or it is that of a key that is asked.** -/
theorem raised_or_asked {q : Inquiry α} (h : q.answer look = .failed e) :
    q.raised? look = some e ∨ ∃ key ∈ q.asked look, look key = .failed e := by
  induction q with
  | done a => cases h
  | failed e' => exact .inl (congrArg some (Outcome.failed.inj h))
  | exhausted => cases h
  | ask key next ih =>
    rw [answer] at h
    rw [raised?, asked]
    cases hk : look key with
    | done v =>
      rw [hk] at h
      rcases ih v h with hraised | ⟨key', hmem, hkey'⟩
      · exact .inl hraised
      · exact .inr ⟨key', List.mem_cons_of_mem _ hmem, hkey'⟩
    | failed e' =>
      rw [hk] at h
      obtain rfl : e' = e := Outcome.failed.inj h
      exact .inr ⟨key, List.mem_cons_self, hk⟩
    | exhausted => rw [hk] at h; cases h

theorem raised?_bind {q : Inquiry α} {f : α → Inquiry β}
    (h : (q.bind f).raised? look = some e) :
    q.raised? look = some e ∨ ∃ a, (f a).raised? look = some e := by
  induction q with
  | done a => exact .inr ⟨a, h⟩
  | failed e' => exact .inl h
  | exhausted => cases h
  | ask key next ih =>
    rw [bind, raised?] at h
    rw [raised?]
    cases hk : look key with
    | done v => rw [hk] at h; exact ih v h
    | failed e' => rw [hk] at h; cases h
    | exhausted => rw [hk] at h; cases h

theorem raised?_map {q : Inquiry α} {f : α → β} (h : (q.map f).raised? look = some e) :
    q.raised? look = some e := by
  rcases raised?_bind h with hq | ⟨a, ha⟩
  · exact hq
  · cases ha

end Inquiry

namespace Resolver

variable {r : Resolver} {n : Nat}

/-! ## Failures of a walk's own -/

/-- The text turns into another one as values replace its markers, one after the other. -/
inductive Becomes (r : Resolver) (look : String → Outcome Value) (frame : List String) :
    Bool → String → String → Prop
  | refl {untouched : Bool} {text : String} : Becomes r look frame untouched text text
  | step {untouched : Bool} {text next last : String} {m : Marker} {v : Value}
      (hfind : r.pattern.find? text = some m) (hv : look (r.keyOf frame m.key) = .done v)
      (hreplace : r.replace untouched text m v = .inr next)
      (h : Becomes r look frame false next last) : Becomes r look frame untouched text last

section Raised

variable {look : String → Outcome Value} {e : Failure}

/-- The loop over a string fails by itself at its end. -/
theorem exists_of_raised?_substitute {frame : List String} {untouched : Bool} {text : String}
    (h : (r.substitute frame n untouched text).raised? look = some e) :
    ∃ last, r.Becomes look frame untouched text last ∧ r.pattern.find? last = none ∧
      (r.finish frame last).raised? look = some e := by
  induction n generalizing untouched text with
  | zero =>
    cases hfind : r.pattern.find? text with
    | none =>
      rw [substitute_of_find?_none hfind] at h
      exact ⟨text, .refl, hfind, h⟩
    | some m => rw [substitute_zero hfind] at h; cases h
  | succ n ih =>
    cases hfind : r.pattern.find? text with
    | none =>
      rw [substitute_of_find?_none hfind] at h
      exact ⟨text, .refl, hfind, h⟩
    | some m =>
      rw [substitute_succ hfind, Inquiry.raised?] at h
      cases hv : look (r.keyOf frame m.key) with
      | done v =>
        simp only [hv] at h
        cases hreplace : r.replace untouched text m v with
        | inl w => rw [hreplace] at h; cases h
        | inr next =>
          rw [hreplace] at h
          obtain ⟨last, hbecomes, hlast⟩ := ih h
          exact ⟨last, .step hfind hv hreplace hbecomes, hlast⟩
      | failed e' => simp only [hv] at h; cases h
      | exhausted => simp only [hv] at h; cases h

theorem exists_of_raised?_walkItems {context : List String} {items : List Value}
    (h : (r.walkItems n context items).raised? look = some e) :
    ∃ x ∈ items, (r.walk n context x).raised? look = some e := by
  induction items with
  | nil => cases h
  | cons x xs ih =>
    rw [walkItems] at h
    rcases Inquiry.raised?_bind h with hx | ⟨y, hrest⟩
    · exact ⟨x, List.mem_cons_self, hx⟩
    · obtain ⟨x', hmem, hx'⟩ := ih (Inquiry.raised?_map hrest)
      exact ⟨x', List.mem_cons_of_mem _ hmem, hx'⟩

theorem exists_of_raised?_walkEntries {context : List String} {entries : List (String × Value)}
    (h : (r.walkEntries n context entries).raised? look = some e) :
    ∃ entry ∈ entries, (r.walk n (context ++ [entry.1]) entry.2).raised? look = some e := by
  induction entries with
  | nil => cases h
  | cons entry es ih =>
    rw [walkEntries] at h
    rcases Inquiry.raised?_bind h with hentry | ⟨w, hrest⟩
    · exact ⟨entry, List.mem_cons_self, hentry⟩
    · obtain ⟨entry', hmem, hentry'⟩ := ih (Inquiry.raised?_map hrest)
      exact ⟨entry', List.mem_cons_of_mem _ hmem, hentry'⟩

/-- **A walk fails by itself in one of its strings.** -/
theorem exists_of_raised?_walk {v : Value} {context : List String}
    (h : (r.walk n context v).raised? look = some e) :
    ∃ at' ∈ v.strings context,
      (r.substitute at'.1.dropLast n true at'.2).raised? look = some e := by
  induction v using Value.induct generalizing context with
  | null => cases h
  | bool b => cases h
  | number m => cases h
  | string s => exact ⟨(context, s), by simp [Value.strings], h⟩
  | list items ih =>
    rw [walk] at h
    obtain ⟨x, hx, hraised⟩ := exists_of_raised?_walkItems (Inquiry.raised?_map h)
    obtain ⟨at', hat, hstring⟩ := ih x hx hraised
    exact ⟨at', Value.mem_strings_list.mpr ⟨x, hx, hat⟩, hstring⟩
  | map entries ih =>
    rw [walk] at h
    obtain ⟨entry, hentry, hraised⟩ := exists_of_raised?_walkEntries (Inquiry.raised?_map h)
    obtain ⟨at', hat, hstring⟩ := ih entry hentry hraised
    exact ⟨at', Value.mem_strings_map.mpr ⟨entry, hentry, hat⟩, hstring⟩

end Raised

/-- The strings that a call walks, with their paths. -/
def strings (r : Resolver) : Call → List (List String × String)
  | .get _ => []
  | .resolve => r.tree.strings []
  | .resolveAt context v => v.strings context
  | .resolveUnder key v => v.strings (r.rules.split key)

theorem exists_of_raised?_inquiry {look : String → Outcome Value} {e : Failure} {call : Call}
    (h : (r.inquiry n call).raised? look = some e) :
    ∃ at' ∈ r.strings call, (r.substitute at'.1.dropLast n true at'.2).raised? look = some e := by
  cases call with
  | get key =>
    rw [inquiry, Inquiry.raised?] at h
    cases hk : look key <;> rw [hk] at h <;> cases h
  | resolve => exact exists_of_raised?_walk h
  | resolveAt context v => exact exists_of_raised?_walk h
  | resolveUnder key v => exact exists_of_raised?_walk h

/-! ## Calls inside a call -/

/-- The inner call is answered under the chain in the course of `call`: a lookup that enters its key
and fetches a raw value resolves that value as the value of the key. -/
inductive Within (r : Resolver) (n : Nat) (call : Call) : Chain → Call → Prop
  | self : Within r n call (.ofLimit r.options.maxDepth) call
  | lookup {c inner : Chain} {call' : Call} {key : String} {raw : Value}
      (h : Within r n call c call') (hkey : key ∈ (r.inquiry n call').asked (r.lookup n c))
      (henter : c.enter key = .ok inner)
      (hget : r.getter r.tree key r.options.toConfig = .ok raw) :
      Within r n call inner (.resolveUnder key raw)

/-- Where failures come from. -/
inductive Origin (r : Resolver) (n : Nat) (call : Call) : Failure → Prop
  | refused {c : Chain} {call' : Call} {key : String} {e : Failure} (h : Within r n call c call')
      (hkey : key ∈ (r.inquiry n call').asked (r.lookup n c)) (henter : c.enter key = .error e) :
      Origin r n call e
  | unfetched {c : Chain} {call' : Call} {key source : String} (h : Within r n call c call')
      (hkey : key ∈ (r.inquiry n call').asked (r.lookup n c))
      (hget : r.getter r.tree key r.options.toConfig = .error source) :
      Origin r n call (.resolution key source)
  | raised {c : Chain} {call' : Call} {e : Failure} (h : Within r n call c call')
      (hraised : (r.inquiry n call').raised? (r.lookup n c) = some e) : Origin r n call e

variable {call call' : Call} {c : Chain} {key : String} {e : Failure}

/-- **Every failure in the course of a call has an origin.**  The induction follows the chain. -/
theorem origin_of_failed (h : r.Within n call c call')
    (he : (r.inquiry n call').answer (r.lookup n c) = .failed e) : r.Origin n call e := by
  induction c using Chain.induct_enter generalizing call' with
  | step c ih =>
    rcases Inquiry.raised_or_asked he with hraised | ⟨key, hkey, hfailed⟩
    · exact .raised h hraised
    cases henter : c.enter key with
    | error e' =>
      rw [lookup_of_enter_error henter] at hfailed
      exact .refused h hkey (Outcome.failed.inj hfailed ▸ henter)
    | ok inner =>
      cases hget : r.getter r.tree key r.options.toConfig with
      | error source =>
        rw [lookup_of_getter_error henter hget] at hfailed
        exact Outcome.failed.inj hfailed ▸ .unfetched h hkey hget
      | ok raw =>
        rw [lookup_of_getter_ok henter hget] at hfailed
        exact ih key inner henter (.lookup h hkey henter hget) hfailed

/-! ## Chains of dependent keys -/

/-- While the keys, of which `key` is the last, are being resolved, walking the raw value of `key`
looks up `next`. -/
def LooksUp (r : Resolver) (n : Nat) (keys : List String) (key next : String) : Prop :=
  ∃ raw, r.getter r.tree key r.options.toConfig = .ok raw ∧
    next ∈ (r.walk n (r.rules.split key) raw).asked
      (r.lookup n ⟨keys, r.options.maxDepth - keys.length⟩)

/-- **The call looks up the first key, and each key looks up the next one.** -/
inductive Dependency (r : Resolver) (n : Nat) (call : Call) : List String → Prop
  | first {key : String} (h : key ∈ (r.inquiry n call).asked (r.lookupFirst n)) :
      Dependency r n call [key]
  | next {keys : List String} {key next : String} (h : Dependency r n call (keys ++ [key]))
      (hnext : r.LooksUp n (keys ++ [key]) key next) :
      Dependency r n call (keys ++ [key] ++ [next])

/-- The walk of a key's raw value looks up the key that comes next. -/
theorem Dependency.looksUp {keys : List String} {key next : String}
    (h : r.Dependency n call (keys ++ [key] ++ [next])) : r.LooksUp n (keys ++ [key]) key next := by
  generalize hchain : keys ++ [key] ++ [next] = chain at h
  cases h with
  | first h => exact absurd (congrArg List.length hchain) (by simp)
  | next h hnext =>
    obtain ⟨hfront, hlast⟩ := List.append_inj' hchain rfl
    obtain ⟨rfl, hkey⟩ := List.append_inj' hfront rfl
    obtain rfl := List.singleton_inj.mp hkey
    obtain rfl := List.singleton_inj.mp hlast
    exact hnext

/-- A call for a key looks up that key first. -/
theorem Dependency.head?_eq {keys : List String} (h : r.Dependency n (.get key) keys) :
    keys.head? = some key := by
  induction h with
  | @first k hk =>
    rw [inquiry, Inquiry.asked] at hk
    obtain rfl : k = key := by
      cases hv : r.lookupFirst n key <;> simpa [hv, Inquiry.asked] using hk
    rfl
  | @next keys k next h hnext ih => rw [List.head?_append, ih]; rfl

namespace Within

theorem sound (h : r.Within n call c call') : c.Sound r.options.maxDepth := by
  induction h with
  | self => exact .ofLimit _
  | lookup _ _ henter _ ih => exact ih.enter henter

theorem eq_mk (h : r.Within n call c call') :
    c = ⟨c.keys, r.options.maxDepth - c.keys.length⟩ := by
  have hroom := h.sound.length_add_room
  exact congrArg (Chain.mk c.keys) (by omega)

/-- **What an inner call asks for depends on the keys of its chain.** -/
theorem dependency (h : r.Within n call c call')
    (hkey : key ∈ (r.inquiry n call').asked (r.lookup n c)) :
    r.Dependency n call (c.keys ++ [key]) := by
  induction h generalizing key with
  | self => exact .first hkey
  | @lookup c inner call' key' raw hwithin hkey' henter hget ih =>
    obtain ⟨-, hkeys, -⟩ := Chain.enter_eq_ok_iff.mp henter
    have hmk := (Within.lookup hwithin hkey' henter hget).eq_mk
    rw [hmk] at hkey
    rw [hkeys] at hkey ⊢
    exact .next (ih hkey') ⟨raw, hget, hkey⟩

end Within

/-! ## Reports -/

/-- What a failure of a call says about the call. -/
def Truthful (r : Resolver) (n : Nat) (call : Call) : Failure → Prop
  | .configuration _ => False
  | .resolution key source =>
    r.getter r.tree key r.options.toConfig = .error source ∧
      ∃ keys, r.Dependency n call (keys ++ [key])
  | .cyclic key chain =>
    r.Dependency n call chain ∧ (∀ k, call = .get k → chain.head? = some k) ∧
      ∃ keys, chain = keys ++ [key] ∧ keys.Nodup ∧ keys.count key = 1 ∧
        keys.length ≤ r.options.maxDepth
  | .tooDeep key limit =>
    limit = r.options.maxDepth ∧
      ∃ keys, r.Dependency n call (keys ++ [key]) ∧
        (∀ k, call = .get k → (keys ++ [key]).head? = some k) ∧ keys.Nodup ∧ key ∉ keys ∧
        keys.length = r.options.maxDepth
  | .postParse context source =>
    ∃ postParser c call', r.options.postParser = some postParser ∧ r.Within n call c call' ∧
      ∃ at' ∈ r.strings call', ∃ text, r.Becomes (r.lookup n c) at'.1.dropLast true at'.2 text ∧
        r.pattern.find? text = none ∧
        postParser r.tree text r.options.toConfig = .error source ∧
        context = r.rules.path at'.1.dropLast

/-- A key is refused because it is on the chain, or because the chain is full. -/
theorem truthful_of_refused (h : r.Within n call c call')
    (hkey : key ∈ (r.inquiry n call').asked (r.lookup n c)) (henter : c.enter key = .error e) :
    r.Truthful n call e := by
  have hlimit := h.sound.limit_eq
  have hdependency := h.dependency hkey
  have hhead : ∀ k, call = .get k → (c.keys ++ [key]).head? = some k := by
    rintro k rfl
    exact hdependency.head?_eq
  rw [Chain.enter] at henter
  split at henter
  · next hmem =>
    obtain rfl := Except.error.inj henter
    refine ⟨hdependency, hhead, c.keys, rfl, h.sound.nodup,
      List.count_eq_one_of_mem h.sound.nodup hmem, ?_⟩
    rw [← hlimit, Chain.limit, Chain.depth]
    exact Nat.le_add_right _ _
  · next hmem =>
    split at henter
    · next hroom =>
      obtain rfl := Except.error.inj henter
      refine ⟨hlimit, c.keys, hdependency, hhead, h.sound.nodup, hmem, ?_⟩
      rw [← hlimit, Chain.limit, Chain.depth, hroom, Nat.add_zero]
    · cases henter

/-- A failure that is raised is that of the post-parser at the end of a string. -/
theorem truthful_of_raised (h : r.Within n call c call')
    (hraised : (r.inquiry n call').raised? (r.lookup n c) = some e) : r.Truthful n call e := by
  obtain ⟨at', hat, hstring⟩ := exists_of_raised?_inquiry hraised
  obtain ⟨text, hbecomes, hnone, hfinish⟩ := exists_of_raised?_substitute hstring
  unfold finish at hfinish
  split at hfinish
  · cases hfinish
  · next postParser hpost =>
    split at hfinish
    · cases hfinish
    · next source herror =>
      obtain rfl := Option.some.inj hfinish
      exact ⟨postParser, c, call', hpost, h, at', hat, text, hbecomes, hnone, herror, rfl⟩

/-- **Every failure tells the truth about the call.** -/
theorem run_failed_truthful (h : r.run n call = .failed e) : r.Truthful n call e := by
  rw [run_eq_answer] at h
  cases origin_of_failed .self h with
  | refused hwithin hkey henter => exact truthful_of_refused hwithin hkey henter
  | unfetched hwithin hkey hget => exact ⟨hget, _, hwithin.dependency hkey⟩
  | raised hwithin hraised => exact truthful_of_raised hwithin hraised

/-- A tree in which two strings refer to each other. -/
def entwined : Value := .map [("a", .string "@\x7b b \x7d"), ("b", .string "@\x7b a \x7d")]

theorem run_entwined :
    (default entwined 64).run 1 .resolve = .failed (.cyclic "b" ["b", "a", "b"]) := by
  have hfind : ∀ key ∈ ["a", "b"], (default entwined 64).pattern.find?
      ("@\x7b " ++ key ++ " \x7d") = some ⟨key, 0, 6, true⟩ := by decide +kernel
  have hkey : ∀ key ∈ ["a", "b"], (default entwined 64).keyOf [] key = key ∧
      (default entwined 64).rules.split key = [key] := by decide +kernel
  -- a string that refers to a key fails as the lookup of the key does
  have hstring : ∀ key ∈ ["a", "b"], ∀ at' look e, look key = .failed e →
      ((default entwined 64).walk 1 [at'] (.string ("@\x7b " ++ key ++ " \x7d"))).answer look =
        .failed e := by
    intro key hmem at' look e he
    have hlook : look ((default entwined 64).keyOf [] key) = .failed e := by
      rw [(hkey key hmem).1, he]
    rw [walk, List.dropLast_singleton]
    exact answer_substitute_of_failed (hfind key hmem) hlook 0
  have henterb : (Chain.ofLimit 64).enter "b" = .ok ⟨["b"], 63⟩ := rfl
  have hentera : (⟨["b"], 63⟩ : Chain).enter "a" = .ok ⟨["b", "a"], 62⟩ := rfl
  have htwice : (default entwined 64).lookup 1 ⟨["b", "a"], 62⟩ "b" =
      .failed (.cyclic "b" ["b", "a", "b"]) := lookup_of_enter_error rfl 1
  have ha : (default entwined 64).lookup 1 ⟨["b"], 63⟩ "a" =
      .failed (.cyclic "b" ["b", "a", "b"]) := by
    rw [lookup_of_getter_ok hentera rfl, (hkey "a" (by decide)).2]
    exact hstring "b" (by decide) "a" _ _ htwice
  have hb : (default entwined 64).lookup 1 (.ofLimit 64) "b" =
      .failed (.cyclic "b" ["b", "a", "b"]) := by
    rw [lookup_of_getter_ok henterb rfl, (hkey "b" (by decide)).2]
    exact hstring "a" (by decide) "b" _ _ ha
  have hwalk : ((default entwined 64).walk 1 ([] ++ ["a"]) (.string "@\x7b b \x7d")).answer
      ((default entwined 64).lookupFirst 1) = .failed (.cyclic "b" ["b", "a", "b"]) :=
    hstring "b" (by decide) "a" _ _ hb
  have htree : (default entwined 64).tree =
      .map [("a", .string "@\x7b b \x7d"), ("b", .string "@\x7b a \x7d")] := rfl
  rw [run, resolve, resolveAt, htree, walk, Inquiry.map, Inquiry.answer_bind, walkEntries,
    Inquiry.answer_bind, hwalk]
  rfl

theorem run_failed_truthful_entwined :
    (default entwined 64).run 1 .resolve = .failed (.cyclic "b" ["b", "a", "b"]) ∧
      (default entwined 64).Truthful 1 .resolve (.cyclic "b" ["b", "a", "b"]) :=
  ⟨run_entwined, run_failed_truthful run_entwined⟩

end Resolver

end RefTree
