import Mathlib.Algebra.Order.BigOperators.Group.List
import Mathlib.Algebra.Order.Group.Nat
import RefTree.Proofs.Simultaneous
import RefTree.Proofs.Strings

/-!
# Proofs/Neat — trees in which every `@` begins a marker

A walk replaces the strings of a tree one by one.  In a tree of neat strings without `@` in its keys
each of them is replaced at once, since every value that comes out of a lookup is sealed; so as many
rescans as a string has markers are enough, and the tree resolves to what the replacements at once
make of its strings (`resolve_simultaneous`).
-/

namespace RefTree

/-- The strings of the tree are neat, and its keys have no `@`. -/
structure Value.Neat (p : Marker.Pattern) (v : Value) : Prop where
  texts : ∀ s ∈ v.texts, p.Neat s
  keys : ∀ key ∈ v.keys, '@' ∉ key.toList

theorem Value.Neat.tidy {p : Marker.Pattern} (hp : p = Marker.Default.pattern) {v : Value}
    (h : v.Neat p) : v.Tidy p := by
  subst hp
  exact ⟨fun s hs => Marker.Default.tidy_of_neat (h.texts s hs),
    fun key hkey => (Sealed.of_notMem (h.keys key hkey)).not_opens⟩

namespace Resolver

variable {r : Resolver}

/-! ## Neat trees -/

/-- **The loop over a string replaces all its markers at once**: it asks for their keys in order,
fails with the first that fails, and gives what the values make of the string. -/
structure AtOnce (r : Resolver) (look : String → Outcome Value) (frame : List String) (s : String)
    (q : Inquiry Value) : Prop where
  asked : q.asked look = Inquiry.tried look (r.keysOf frame s)
  failed : ∀ before key after e, r.keysOf frame s = before ++ key :: after →
    (∀ k ∈ before, (look k).isDone = true) → look key = .failed e → q.answer look = .failed e
  done : ∀ values, List.Forall₂ (fun key v => look key = .done v) (r.keysOf frame s) values →
    q.answer look = .done (r.replaceAll s values)

theorem atOnce_of_alike {look : String → Outcome Value} {frame : List String} {s : String}
    {q : Inquiry Value} (h : Inquiry.Alike look q (r.substituteOnce frame s)) :
    r.AtOnce look frame s q where
  asked := by rw [h.asked, substituteOnce, Inquiry.asked_map, Inquiry.asked_askAll]
  failed before key after e hkeys hbefore hkey := by
    rw [h.answer, substituteOnce, hkeys, Inquiry.map, Inquiry.answer_bind,
      Inquiry.answer_askAll_of_failed hbefore hkey]
    rfl
  done values hvalues := by
    rw [h.answer, substituteOnce, Inquiry.answer_map_eq_done_iff]
    exact ⟨values, Inquiry.answer_askAll_eq_done_iff.mpr hvalues, rfl⟩

section Neat

variable (hp : r.pattern = Marker.Default.pattern) (hpost : r.options.postParser = none)
  (hraw : ∀ key raw, r.getter r.tree key r.options.toConfig = .ok raw →
    raw.texts ⊆ r.tree.texts ∧ raw.keys ⊆ r.tree.keys)
  (hneat : r.tree.Neat r.pattern) {n : Nat}
  (hn : ∀ s ∈ r.tree.texts, (r.pattern.findAll s).length ≤ n)
include hp hpost hraw hneat

theorem lookup_sealed_of_neat (n : Nat) (c : Chain) (key : String) (v : Value)
    (h : r.lookup n c key = .done v) : v.Sealed := by
  refine lookup_sealed hp hpost (fun key raw hget => ?_) c key v h
  obtain ⟨htexts, hkeys⟩ := hraw key raw hget
  have htidy := hneat.tidy hp
  exact ⟨fun s hs => htidy.texts s (htexts hs), fun k hk => htidy.keys k (hkeys hk)⟩

include hn

theorem substitute_alike_of_neat (c : Chain) (frame : List String) {s : String}
    (hs : s ∈ r.tree.texts) :
    Inquiry.Alike (r.lookup n c) (r.substitute frame n true s) (r.substituteOnce frame s) :=
  substitute_alike hp hpost (lookup_sealed_of_neat hp hpost hraw hneat n c) frame
    (hneat.texts s hs) (hn s hs)

/-- A walk ends where every string is rescanned once for each of its markers. -/
theorem walk_ends_of_neat {c : Chain} (hc : ∀ key, r.lookup n c key ≠ .exhausted) {v : Value}
    (hv : v.texts ⊆ r.tree.texts) (context : List String) :
    (r.walk n context v).Ends (r.lookup n c) := by
  refine walk_ends fun at' hat => ?_
  have hs : at'.2 ∈ r.tree.texts := hv ((Value.mem_texts_iff context).mpr ⟨at'.1, hat⟩)
  rw [Inquiry.Ends, (substitute_alike_of_neat hp hpost hraw hneat hn c _ hs).answer]
  exact (Inquiry.askAll_ends hc _).map _

theorem lookup_ne_exhausted (c : Chain) : ∀ key, r.lookup n c key ≠ .exhausted := by
  induction c using Chain.induct_enter with
  | step c ih =>
    intro key
    cases henter : c.enter key with
    | error e => rw [lookup_of_enter_error henter]; simp
    | ok inner =>
      cases hget : r.getter r.tree key r.options.toConfig with
      | error source => rw [lookup_of_getter_error henter hget]; simp
      | ok raw =>
        rw [lookup_of_getter_ok henter hget]
        exact walk_ends_of_neat hp hpost hraw hneat hn (ih key inner henter) (hraw key raw hget).1 _

/-- **What a neat tree resolves to.** -/
theorem exists_of_resolve_eq_done {R : Value} (h : r.resolve n = .done R) :
    ∃ f, R = r.tree.mapStrings f [] ∧ ∀ at' ∈ r.tree.strings [], ∃ values,
      List.Forall₂ (fun key v => r.lookupFirst n key = .done v)
        (r.keysOf at'.1.dropLast at'.2) values ∧ f at'.1 at'.2 = r.replaceAll at'.2 values := by
  obtain ⟨hR, hstrings⟩ := answer_walk_eq_done_iff.mp h
  refine ⟨_, hR, fun at' hat => ?_⟩
  have hs : at'.2 ∈ r.tree.texts := (Value.mem_texts_iff []).mpr ⟨at'.1, hat⟩
  have halike := substitute_alike_of_neat hp hpost hraw hneat hn (.ofLimit r.options.maxDepth)
    at'.1.dropLast hs
  have hdone := hstrings at' hat
  rw [lookupFirst, halike.answer, substituteOnce] at hdone
  obtain ⟨values, hvalues, hvalue⟩ := Inquiry.answer_map_eq_done_iff.mp hdone
  exact ⟨values, Inquiry.answer_askAll_eq_done_iff.mp hvalues, hvalue.symm⟩

end Neat

/-- **In a neat tree the loop over a string is one replacement of all its markers.**  With the
default grammar and the getter by key path the tree resolves or fails with enough rescans, and so
does every lookup.  Under every chain each of its strings is replaced at once, and a resolved tree
is the tree with its strings replaced so. -/
theorem resolve_simultaneous {tree : Value} {options : Options} (hr : ofTree tree options = .ok r)
    (hgrammar : options.grammar = {}) (hgetter : options.getter = none)
    (hpost : options.postParser = none) (hneat : tree.Neat r.pattern) :
    ∃ N, ∀ n ≥ N, r.resolve n ≠ .exhausted ∧ (∀ c key, r.lookup n c key ≠ .exhausted) ∧
      (∀ c frame, ∀ s ∈ tree.texts,
        r.AtOnce (r.lookup n c) frame s (r.substitute frame n true s)) ∧
      ∀ R, r.resolve n = .done R →
        ∃ f, R = tree.mapStrings f [] ∧ ∀ at' ∈ tree.strings [], ∃ values,
          List.Forall₂ (fun key v => r.lookupFirst n key = .done v)
            (r.keysOf at'.1.dropLast at'.2) values ∧ f at'.1 at'.2 = r.replaceAll at'.2 values := by
  have hby := getter_of_ofTree hr hgetter
  obtain ⟨rfl, rfl, -, -, hpattern⟩ := ofTree_eq_ok_iff.mp hr
  have hp : r.pattern = Marker.Default.pattern := by
    rw [hgrammar, Marker.Default.ofGrammar_eq] at hpattern
    exact (Except.ok.inj hpattern).symm
  have hraw : ∀ key raw, r.getter r.tree key r.options.toConfig = .ok raw →
      raw.texts ⊆ r.tree.texts ∧ raw.keys ⊆ r.tree.keys := by
    rw [hby]
    exact fun key raw h => keyPath_subset h
  refine ⟨(r.tree.texts.map fun s => (r.pattern.findAll s).length).sum, fun n hN => ?_⟩
  have hn : ∀ s ∈ r.tree.texts, (r.pattern.findAll s).length ≤ n := fun s hs =>
    (List.le_sum_of_mem (List.mem_map_of_mem hs)).trans hN
  have hlook := lookup_ne_exhausted hp hpost hraw hneat hn
  refine ⟨?_, hlook, fun c frame s hs => ?_, fun R hR => ?_⟩
  · exact walk_ends_of_neat hp hpost hraw hneat hn (hlook _) (List.Subset.refl _) []
  · exact atOnce_of_alike (substitute_alike_of_neat hp hpost hraw hneat hn c frame hs)
  · exact exists_of_resolve_eq_done hp hpost hraw hneat hn hR

/-- A tree with two markers in one string. -/
def paired : Value := .map [("a", .string "@\x7b b \x7d-@\x7b b \x7d"), ("b", .string "x")]

theorem paired_neat : paired.Neat Marker.Default.pattern := by
  have htexts : ∀ s ∈ ["@\x7b b \x7d-@\x7b b \x7d", "x"], Marker.Default.pattern.Neat s := by
    decide +kernel
  have hkeys : ∀ key ∈ ["a", "b"], '@' ∉ key.toList := by decide
  exact ⟨htexts, hkeys⟩

theorem resolve_simultaneous_paired :
    ofTree paired {} = .ok (default paired 64) ∧ ({} : Options).grammar = {} ∧
      ({} : Options).getter = none ∧ ({} : Options).postParser = none ∧
      paired.Neat (default paired 64).pattern ∧
      ∃ N, ∀ n ≥ N, (default paired 64).resolve n ≠ .exhausted ∧
        ((default paired 64).substitute [] n true "@\x7b b \x7d-@\x7b b \x7d").answer
          ((default paired 64).lookupFirst n) = .done (.string "x-x") := by
  obtain ⟨N, hN⟩ := resolve_simultaneous (ofTree_default paired 64) rfl rfl rfl paired_neat
  refine ⟨ofTree_default paired 64, rfl, rfl, rfl, paired_neat, N, fun n hn => ?_⟩
  obtain ⟨hends, -, hstrings, -⟩ := hN n hn
  have honce := hstrings (.ofLimit 64) [] "@\x7b b \x7d-@\x7b b \x7d" (by decide)
  have hkeys : (default paired 64).keysOf [] "@\x7b b \x7d-@\x7b b \x7d" = ["b", "b"] := by
    decide +kernel
  have hfree : (Value.string "x").MarkerFree Marker.Default.pattern :=
    Value.MarkerFree.string_iff.mpr (by decide +kernel)
  have hb : (default paired 64).lookup n (.ofLimit 64) "b" = .done (.string "x") :=
    lookupFirst_default rfl hfree n
  have hresult : (default paired 64).replaceAll "@\x7b b \x7d-@\x7b b \x7d"
      [.string "x", .string "x"] = .string "x-x" := by
    have hms : Marker.Default.pattern.findAll "@\x7b b \x7d-@\x7b b \x7d" =
        [⟨"b", 0, 6, false⟩, ⟨"b", 7, 6, false⟩] := by decide +kernel
    rw [replaceAll_of_not_whole hms (by simp)]
    rfl
  refine ⟨hends, ?_⟩
  rw [← hresult]
  exact honce.done _ (hkeys ▸ .cons hb (.cons hb .nil))

end Resolver

end RefTree
