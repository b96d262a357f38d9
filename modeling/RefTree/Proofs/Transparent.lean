import RefTree.Proofs.Fixpoint

/-!
# Proofs/Transparent — a string that is one marker is its reference

A marker that is the whole string stands for the value of its key, and that value is resolved: it
has no marker left, so the loop over the string ends with it, whether it is a string or not
(`answer_substitute_eq`).  The key is looked up while no key is being resolved, as in a call for it,
so that the two calls coincide: in their values, in their failures, and where they do not end.
-/

namespace RefTree

/-- A marker is the whole text if it starts at the front and has the length of the text. -/
theorem Marker.Pattern.whole_eq_true_iff {p : Pattern} {text : String} {m : Marker}
    (h : p.find? text = some m) :
    m.whole = true ↔ m.start = 0 ∧ m.length = text.utf8ByteSize := by
  obtain ⟨span, -, hspan⟩ := Option.bind_eq_some_iff.mp h
  obtain ⟨key, -, rfl⟩ := Option.map_eq_some_iff.mp hspan
  simp only [Bool.and_eq_true, beq_iff_eq]
  refine and_congr_right fun hstart => ?_
  rw [hstart, Nat.sub_zero]

namespace Resolver

variable {r : Resolver}

/-- **The calls coincide**: if one of them ends, in a value or a failure, the other one ends in the
same, and if one of them does not end, neither does the other. -/
structure Coincide (r : Resolver) (call call' : Call) : Prop where
  done_iff : ∀ v, (∃ n, r.run n call = .done v) ↔ ∃ n, r.run n call' = .done v
  failed_iff : ∀ e, (∃ n, r.run n call = .failed e) ↔ ∃ n, r.run n call' = .failed e
  endless_iff : (∀ n, r.run n call = .exhausted) ↔ ∀ n, r.run n call' = .exhausted

/-- Calls coincide if they do with one rescan and more. -/
theorem coincide_of_run_succ {call call' : Call}
    (h : ∀ n, r.run (n + 1) call = r.run (n + 1) call') : r.Coincide call call' := by
  have hends : ∀ {a b : Call}, (∀ n, r.run (n + 1) a = r.run (n + 1) b) → ∀ o, o ≠ .exhausted →
      (∃ n, r.run n a = o) → ∃ n, r.run n b = o := by
    rintro a b hab o ho ⟨n, rfl⟩
    exact ⟨n + 1, (hab n).symm.trans (run_of_le (Nat.le_succ n) ho)⟩
  have hiff : ∀ o, o ≠ .exhausted → ((∃ n, r.run n call = o) ↔ ∃ n, r.run n call' = o) :=
    fun o ho => ⟨hends h o ho, hends (fun n => (h n).symm) o ho⟩
  have hendless : ∀ {a b : Call}, (∀ n, r.run (n + 1) a = r.run (n + 1) b) →
      (∀ n, r.run n a = .exhausted) → ∀ n, r.run n b = .exhausted := by
    intro a b hab ha n
    by_contra hb
    obtain ⟨n', hn'⟩ := hends (fun n => (hab n).symm) _ hb ⟨n, rfl⟩
    exact hb (hn'.symm.trans (ha n'))
  exact ⟨fun v => hiff _ (by simp), fun e => hiff _ (by simp),
    hendless h, hendless fun n => (h n).symm⟩

/-- **The loop over a string that is one marker ends as the lookup of its key does**, where lookups
give values without markers. -/
theorem answer_substitute_eq (hpost : r.options.postParser = none) {look : String → Outcome Value}
    {frame : List String} {text : String} {m : Marker} (hfind : r.pattern.find? text = some m)
    (hwhole : (m.whole && r.options.keepTypes) = true)
    (hlook : ∀ key v, look key = .done v → v.MarkerFree r.pattern) (n : Nat) :
    (r.substitute frame (n + 1) true text).answer look = look (r.keyOf frame m.key) := by
  cases hkey : look (r.keyOf frame m.key) with
  | done v => exact answer_substitute_of_whole hpost hfind hwhole (hlook _ v hkey) hkey n
  | failed e => exact answer_substitute_of_failed hfind hkey n
  | exhausted =>
    rw [substitute_succ hfind, Inquiry.answer, hkey]
    rfl

/-- **A string that is one marker is transparent**: resolving it at a path and looking up the key
that its expression means there coincide. -/
theorem resolveAt_coincide_get (hpost : r.options.postParser = none)
    (hkeep : r.options.keepTypes = true) {s : String} {m : Marker}
    (hfind : r.pattern.find? s = some m) (hstart : m.start = 0)
    (hlength : m.length = s.utf8ByteSize) (context : List String) :
    r.Coincide (.resolveAt context (.string s))
      (.get (if r.rules.isAbsolute m.key then r.rules.resolve [m.key]
        else r.rules.resolve [r.rules.path context.dropLast, m.key])) := by
  have hwhole : (m.whole && r.options.keepTypes) = true := by
    rw [(Marker.Pattern.whole_eq_true_iff hfind).mpr ⟨hstart, hlength⟩, hkeep, Bool.and_self]
  refine coincide_of_run_succ fun n => ?_
  have hrun : r.run (n + 1) (.resolveAt context (.string s)) =
      (r.substitute context.dropLast (n + 1) true s).answer (r.lookupFirst (n + 1)) := by
    rw [run, resolveAt, walk]
  rw [hrun]
  exact answer_substitute_eq hpost hfind hwhole (lookup_markerFree hpost _) n

/-- In a tree in which `a.b` refers to `c`, a reference from `a` one level up. -/
theorem resolveAt_coincide_get_aliased :
    (default aliased 64).options.postParser = none ∧
      (default aliased 64).options.keepTypes = true ∧
      (default aliased 64).pattern.find? "@\x7b --.c \x7d" = some ⟨"--.c", 0, 9, true⟩ ∧
      "@\x7b --.c \x7d".utf8ByteSize = 9 ∧
      (default aliased 64).Coincide (.resolveAt ["a", "b"] (.string "@\x7b --.c \x7d"))
        (.get "c") := by
  have hfind : (default aliased 64).pattern.find? "@\x7b --.c \x7d" =
      some ⟨"--.c", 0, 9, true⟩ := by decide +kernel
  have hsize : "@\x7b --.c \x7d".utf8ByteSize = 9 := by decide +kernel
  have hkey : (if (default aliased 64).rules.isAbsolute "--.c" then
        (default aliased 64).rules.resolve ["--.c"]
      else (default aliased 64).rules.resolve
        [(default aliased 64).rules.path ["a", "b"].dropLast, "--.c"]) = "c" := by decide +kernel
  have hcoincide := resolveAt_coincide_get (r := default aliased 64) rfl rfl hfind rfl hsize.symm
    ["a", "b"]
  rw [hkey] at hcoincide
  exact ⟨rfl, rfl, hfind, hsize, hcoincide⟩

end Resolver

end RefTree
