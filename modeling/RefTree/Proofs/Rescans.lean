import RefTree.Proofs.Churning
import RefTree.Proofs.Fixpoint
import RefTree.Proofs.Tidy

/-!
# Proofs/Rescans — when a resolution ends

Under the default options a resolution ends unless it comes to a string in which markers are
replaced forever (`resolve_ends`).  That does happen: text around a marker can join with what
replaces it (`churns_rejoined`), and the keys of a mapping can bring new markers into a string
(`churns_regrowing`).

Neither happens in a tree of tidy strings in which no key opens a brace.  There every value of a
lookup is sealed, so every replacement leaves less text that can still hold a marker
(`acc_of_settled`).
-/

namespace RefTree

namespace Resolver

variable {r : Resolver}

/-! ## Tidy trees -/

section Tidy

variable (hp : r.pattern = Marker.Default.pattern)
include hp

/-- **The replacements in a settled text come to an end**, if the values of lookups are sealed.  The
induction is on what is left to settle. -/
theorem acc_of_settled {c : Chain} (hsealed : ∀ n key v, r.lookup n c key = .done v → v.Sealed)
    (frame : List String) {w : List Char} :
    ∀ {s : Scan}, Settled s.text w → Acc (fun t s => r.Rescans c frame s t) s := by
  induction hw : w.length using Nat.strongRecOn generalizing w with
  | ind length ih =>
    intro s hs
    refine .intro s fun t hstep => ?_
    cases hstep with
    | @replace m k v text hfind hlook hreplace =>
      obtain ⟨w', hnext, hlt⟩ := hs.replace hp hfind (hsealed k _ v hlook) hreplace
      exact ih w'.length (hw ▸ hlt) rfl hnext

variable (hpost : r.options.postParser = none)
include hpost

/-- **A walk of a tidy tree gives a sealed one**, if it is answered with sealed values. -/
theorem walk_endsIn_sealed {v : Value} (hv : v.Tidy r.pattern) (n : Nat) (context : List String) :
    (r.walk n context v).EndsIn Value.Sealed Value.Sealed fun _ => True := by
  refine walk_endsIn (fun at' hat => ?_) (fun w htexts hkeys => ?_)
    (fun ys hys => Value.Sealed.list_iff.mpr hys) fun fs hkeys hfs => ?_
  · have hmem : at'.2 ∈ v.texts := (Value.mem_texts_iff context).mpr ⟨at'.1, hat⟩
    have htidy : Marker.Default.pattern.Tidy at'.2.toList := hp ▸ hv.texts _ hmem
    refine substitute_endsIn (fun _ text => ∃ w, Settled text w) (fun _ text htext hfind => ?_)
      (fun _ _ _ _ _ _ _ hv hrep => eq_of_replace_eq_inl hrep ▸ hv)
      (fun _ _ _ _ _ htext hfind hv hrep => ?_) ⟨_, settled_of_tidy htidy⟩
    · obtain ⟨w, htext⟩ := htext
      rw [finish_of_postParser_none hpost]
      refine ⟨fun s hs => ?_, fun key hkey => by cases hkey⟩
      obtain rfl := List.mem_singleton.mp hs
      exact htext.sealed (hp ▸ hfind)
    · obtain ⟨w, htext⟩ := htext
      obtain ⟨w', hnext, -⟩ := htext.replace hp hfind hv hrep
      exact ⟨w', hnext⟩
  · refine ⟨fun s hs => ?_, fun key hkey => ?_⟩
    · rw [htexts] at hs
      cases hs
    · rw [hkeys] at hkey
      cases hkey
  · exact Value.Sealed.map_iff.mpr fun f hf => ⟨hv.keys _ (hkeys f hf), hfs f hf⟩

theorem lookup_sealed {n : Nat}
    (hraw : ∀ key raw, r.getter r.tree key r.options.toConfig = .ok raw → raw.Tidy r.pattern)
    (c : Chain) : ∀ key v, r.lookup n c key = .done v → v.Sealed := by
  induction c using Chain.induct_enter with
  | step c ih =>
    intro key v hv
    obtain ⟨inner, raw, henter, hget, hwalk⟩ := exists_of_lookup_eq_done hv
    exact (walk_endsIn_sealed hp hpost (hraw key raw hget) n _).of_done (ih key inner henter) hwalk

/-- **No string of a tidy tree churns.** -/
theorem not_churns
    (hraw : ∀ key raw, r.getter r.tree key r.options.toConfig = .ok raw → raw.Tidy r.pattern)
    {at' : List String × String} (hat : r.pattern.Tidy at'.2.toList) (c : Chain) :
    ¬ r.Churns c at' := by
  rw [churns_iff_not_acc, not_not]
  exact acc_of_settled hp (fun _ => lookup_sealed hp hpost hraw c) _ (settled_of_tidy (hp ▸ hat))

end Tidy

/-! ## The default options -/

/-- The getter by key path finds null, or a node of the tree. -/
theorem keyPath_subset {tree raw : Value} {key : String} {config : Config}
    (h : Getter.keyPath tree key config = .ok raw) :
    raw.texts ⊆ tree.texts ∧ raw.keys ⊆ tree.keys := by
  have hnull : Value.null.texts ⊆ tree.texts ∧ Value.null.keys ⊆ tree.keys :=
    ⟨List.nil_subset _, List.nil_subset _⟩
  have hpath : ∀ path v, (tree.getPath? path).getD .null = v →
      v.texts ⊆ tree.texts ∧ v.keys ⊆ tree.keys := by
    rintro path v rfl
    cases hv : tree.getPath? path with
    | none => exact hnull
    | some v =>
      exact ⟨Value.texts_subset_of_getPath? hv, Value.keys_subset_of_getPath? hv⟩
  unfold Getter.keyPath at h
  cases hv : tree.get? key with
  | none =>
    rw [hv] at h
    exact hpath _ raw (Except.ok.inj h)
  | some v =>
    rw [hv] at h
    refine hpath [key] raw ?_
    rw [Value.getPath?, hv]
    exact Except.ok.inj h

/-- **A resolution ends unless it comes to a string in which markers are replaced forever**, and
there is no such string in a tidy tree.  This is so under the default options, with any limit on the
depth. -/
theorem resolve_ends (tree : Value) (limit : Nat) :
    ∃ r, ofTree tree { maxDepth := limit } = .ok r ∧
      ((∀ n, r.resolve n = .exhausted) ↔
        ∃ c at', at'.2 ∈ tree.texts ∧ r.Searches c at' ∧ r.Churns c at') ∧
      (tree.Tidy r.pattern → ∃ n, r.resolve n ≠ .exhausted) := by
  have hget : ∀ key raw, (default tree limit).getter tree key
      (default tree limit).options.toConfig = .ok raw →
        raw.texts ⊆ tree.texts ∧ raw.keys ⊆ tree.keys := fun key raw h => keyPath_subset h
  have hends : (∀ n, (default tree limit).resolve n = .exhausted) ↔ ∃ c at', at'.2 ∈ tree.texts ∧
      (default tree limit).Searches c at' ∧ (default tree limit).Churns c at' := by
    refine neverEnds_resolve_iff.trans (exists₂_congr fun c at' => ?_)
    have hmem : (default tree limit).Searches c at' → at'.2 ∈ tree.texts :=
      Searches.mem_texts fun key raw h => (hget key raw h).1
    exact ⟨fun h => ⟨hmem h.1, h⟩, And.right⟩
  refine ⟨default tree limit, ofTree_default tree limit, hends, fun htidy => ?_⟩
  by_contra hnever
  obtain ⟨c, at', hat, -, hchurns⟩ := hends.mp (by simpa using hnever)
  refine not_churns rfl rfl (fun key raw h => ?_) (htidy.texts _ hat) c hchurns
  obtain ⟨htexts, hkeys⟩ := hget key raw h
  exact ⟨fun t ht => htidy.texts t (htexts ht), fun k hk => htidy.keys k (hkeys hk)⟩

/-- A tidy tree with a marker and with `@` elsewhere. -/
def addressed : Value :=
  .map [("to", .string "@\x7b name \x7d me@here.org"), ("name", .string "Me")]

theorem addressed_tidy : addressed.Tidy Marker.Default.pattern := by
  have hfind : Marker.Default.pattern.find? "@\x7b name \x7d" = some ⟨"name", 0, 9, true⟩ := by
    decide +kernel
  have hspells : Marker.Default.Spells "@\x7b name \x7d".toList "name".toList :=
    Marker.Default.spells_of_find?_eq_some hfind
  have htail : Sealed " me@here.org".toList := by
    have hat : Sealed ('@' :: "here.org".toList) :=
      Sealed.cons_iff.mpr ⟨fun _ => ⟨'h', _, rfl, by decide⟩, .of_notMem (by decide)⟩
    have hfront : Sealed " me".toList := .of_notMem (by decide)
    exact hfront.append hat
  refine ⟨fun s hs => ?_, fun key hkey => ?_⟩
  · obtain rfl | rfl : s = "@\x7b name \x7d me@here.org" ∨ s = "Me" := by
      simpa [addressed] using hs
    · exact Marker.Default.tidy_append_of_spells hspells (Marker.Default.tidy_of_sealed htail)
    · exact Marker.Default.tidy_of_sealed (.of_notMem (by decide))
  · obtain rfl | rfl : key = "to" ∨ key = "name" := by
      simpa [addressed, Value.keys, Value.entryKeys] using hkey
    · decide
    · decide

theorem resolve_ends_addressed :
    ∃ r, ofTree addressed {} = .ok r ∧ addressed.Tidy r.pattern ∧
      ∃ n, r.resolve n ≠ .exhausted := by
  obtain ⟨r, hr, -, hends⟩ := resolve_ends addressed 64
  obtain rfl : default addressed 64 = r :=
    Except.ok.inj ((ofTree_default addressed 64).symm.trans hr)
  exact ⟨_, hr, addressed_tidy, hends addressed_tidy⟩

/-! ## Searches that never end -/

/-- A marker that is not the whole string is replaced within it. -/
theorem replace_of_not_whole {untouched : Bool} {text : String} {m : Marker} (h : m.whole = false)
    (v : Value) : r.replace untouched text m v = .inr (splice text m v.render) := by
  have hcond : (untouched && m.whole && r.options.keepTypes) = false := by
    rw [h, Bool.and_false, Bool.false_and]
  unfold replace
  rw [if_neg (by rw [hcond]; decide)]

theorem rescans_of_not_whole {c : Chain} {frame : List String} {untouched : Bool} {text : String}
    {m : Marker} (hfind : r.pattern.find? text = some m) (hwhole : m.whole = false) {n : Nat}
    {v : Value} (hlook : r.lookup n c (r.keyOf frame m.key) = .done v) :
    r.Rescans c frame ⟨untouched, text⟩ ⟨false, splice text m v.render⟩ :=
  .replace hfind hlook (replace_of_not_whole hwhole v)

/-- A tree in which text around a marker joins with what replaces the marker: the text of `a`
becomes `@@{ c }` and then its old self again. -/
def rejoined : Value :=
  .map [("a", .string "@\x7b b \x7d\x7b c \x7d"), ("b", .string "@@"),
    ("c", .string "\x7b b \x7d\x7b c \x7d")]

/-- A tree in which a key of a mapping is a marker: each time the mapping replaces `@{ m }` in the
text of `a`, it brings in a new one. -/
def regrowing : Value :=
  .map [("a", .string "x@\x7b m \x7d"),
    ("m", .map [("@\x7b m \x7d", .number (.integer 1))])]

/-- A resolution does not end if the first string of the tree churns. -/
theorem resolve_of_churns {key s : String} {entries : List (String × Value)}
    (htree : r.tree = .map ((key, .string s) :: entries))
    (h : r.Churns (.ofLimit r.options.maxDepth) ([key], s)) (n : Nat) :
    r.resolve n = .exhausted := by
  refine neverEnds_resolve_iff.mpr ⟨_, ([key], s), .tree ?_, h⟩ n
  rw [htree]
  exact ⟨[], _, rfl, List.forall_mem_nil _⟩

theorem churns_rejoined :
    (default rejoined 64).Churns (.ofLimit 64) (["a"], "@\x7b b \x7d\x7b c \x7d") := by
  have hlook : ∀ expression key s, (default rejoined 64).keyOf [] expression = key →
      Getter.keyPath rejoined key {} = .ok (.string s) → Marker.Default.pattern.find? s = none →
      (default rejoined 64).lookup 0 (.ofLimit 64) ((default rejoined 64).keyOf [] expression) =
        .done (.string s) := by
    rintro expression key s rfl hget hfree
    exact lookupFirst_default hget (Value.MarkerFree.string_iff.mpr hfree) 0
  refine churns_of_invariant (fun s =>
    s.text = "@\x7b b \x7d\x7b c \x7d" ∨ s.text = "@@\x7b c \x7d") (.inl rfl) ?_
  rintro ⟨untouched, text⟩ (rfl | rfl)
  · have hfind : Marker.Default.pattern.find? "@\x7b b \x7d\x7b c \x7d" =
        some ⟨"b", 0, 6, false⟩ := by decide +kernel
    have hb := hlook "b" "b" "@@" (by decide +kernel) rfl (by decide +kernel)
    exact ⟨_, rescans_of_not_whole hfind rfl hb, .inr (by decide +kernel)⟩
  · have hfind : Marker.Default.pattern.find? "@@\x7b c \x7d" = some ⟨"c", 1, 6, false⟩ := by
      decide +kernel
    have hc := hlook "c" "c" "\x7b b \x7d\x7b c \x7d" (by decide +kernel) rfl (by decide +kernel)
    exact ⟨_, rescans_of_not_whole hfind rfl hc, .inl (by decide +kernel)⟩

theorem churns_regrowing :
    (default regrowing 64).Churns (.ofLimit 64) (["a"], "x@\x7b m \x7d") := by
  have hfind : Marker.Default.pattern.find? "@\x7b m \x7d" = some ⟨"m", 0, 6, true⟩ := by
    decide +kernel
  have hspells : Marker.Default.Spells "@\x7b m \x7d".toList ['m'] :=
    Marker.Default.spells_of_find?_eq_some hfind
  have hkey : (default regrowing 64).keyOf [] "m" = "m" := by decide +kernel
  obtain ⟨v, hv⟩ : ∃ v : Value, v = .map [("@\x7b m \x7d", .number (.integer 1))] := ⟨_, rfl⟩
  have hlook : (default regrowing 64).lookupFirst 0 "m" = .done v := by
    rw [hv]
    exact lookupFirst_default rfl (by simp [Value.MarkerFree]) 0
  have hrender : v.render.toList =
      "\x7b\"".toList ++ "@\x7b m \x7d".toList ++ "\":1\x7d".toList := by
    rw [hv]
    decide +kernel
  -- the text keeps a marker behind something without `@`
  refine churns_of_invariant (fun s =>
    ∃ u w, s.text.toList = u ++ "@\x7b m \x7d".toList ++ w ∧ '@' ∉ u ∧ u ≠ [])
    ⟨['x'], [], rfl, by decide, by decide⟩ ?_
  rintro ⟨untouched, text⟩ ⟨u, w, htext, hu, hne⟩
  have hwhole : (Marker.Default.markerAt text u "@\x7b m \x7d".toList ['m']).whole = false := by
    have hlen : Text.byteLength u ≠ 0 := fun h => hne (Text.byteLength_eq_zero_iff.mp h)
    simp [Marker.Default.markerAt, hlen]
  have hm : (default regrowing 64).lookupFirst 0 ((default regrowing 64).keyOf []
      (Marker.Default.markerAt text u "@\x7b m \x7d".toList ['m']).key) = .done v := hkey ▸ hlook
  refine ⟨_, rescans_of_not_whole (Marker.Default.find?_of_sealed htext (.of_notMem hu) hspells)
    hwhole hm, u ++ "\x7b\"".toList, "\":1\x7d".toList ++ w, ?_, ?_, by simp⟩
  · rw [splice_markerAt htext, String.toList_ofList, hrender]
    simp only [List.append_assoc]
  · exact fun h => (List.mem_append.mp h).elim hu (by decide)

/-- **There are trees that do not resolve under the default options**, with untidy strings and with
untidy keys. -/
theorem exists_resolve_exhausted :
    (∃ r, ofTree rejoined {} = .ok r ∧ ∀ n, r.resolve n = .exhausted) ∧
      ∃ r, ofTree regrowing {} = .ok r ∧ ∀ n, r.resolve n = .exhausted :=
  ⟨⟨_, ofTree_default rejoined 64, resolve_of_churns rfl churns_rejoined⟩,
    ⟨_, ofTree_default regrowing 64, resolve_of_churns rfl churns_regrowing⟩⟩

end Resolver

end RefTree
