import RefTree.Getter
import RefTree.Keypath

/-!
# Proofs/Keypath — keys cut into segments and put together

Where the separator is one character, and no segment holds it, a path of segments is cut into the
same segments again (`split_path`), by the rules and by the getters alike (`segments_path`).
-/

namespace RefTree

namespace Text

variable {α : Type} [DecidableEq α]

/-- **Cutting at a piece of one element** is cutting at that element. -/
theorem pieces_singleton (c : α) (text : List α) : pieces [c] text = text.splitOn c := by
  induction text with
  | nil => rw [pieces, List.splitOn_nil]
  | cons d ds ih =>
    rw [List.splitOn_cons_eq_if_modifyHead, pieces, ← ih]
    by_cases h : c = d
    · subst h
      simp [after?]
    · have hbeq : (d == c) = false := beq_false_of_ne (Ne.symm h)
      simp only [after?, if_neg h, hbeq]
      obtain ⟨p, ps, hps⟩ := List.exists_cons_of_ne_nil (pieces_ne_nil [c] ds)
      rw [hps]
      rfl

end Text

namespace Keypath.Rules

/-- **Accepted rules are those that the configuration spells.** -/
theorem of_ofConfig {config : Config} {r : Rules} (h : ofConfig config = .ok r) :
    r.separator = config.grammar.separator.toList ∧
      r.token = config.grammar.upLevelToken.toList ∧ r.mode = config.upLevelMode ∧
      r.base = config.keyBase ∧ r.policy = config.basePolicy := by
  simp only [ofConfig] at h
  split at h
  · cases h
  · cases h
    exact ⟨rfl, rfl, rfl, rfl, rfl⟩

/-- A separator and a token that can be told apart are accepted. -/
theorem ofConfig_eq_ok {config : Config}
    (h : fault? config.grammar.separator.toList config.grammar.upLevelToken.toList = none) :
    ofConfig config = .ok ⟨config.grammar.separator.toList, config.grammar.upLevelToken.toList,
      apart_of_fault?_eq_none h, config.upLevelMode, config.keyBase, config.basePolicy⟩ := by
  simp only [ofConfig]
  split
  · next fault hfault => cases hfault.symm.trans h
  · rfl

variable (r : Rules) {c : Char}

/-- The segments can be told apart in a path: each has characters, none of them the separator. -/
def Plain (c : Char) (segment : String) : Prop := segment ≠ "" ∧ c ∉ segment.toList

theorem Plain.toList_ne_nil {segment : String} (h : Plain c segment) : segment.toList ≠ [] :=
  fun hnil => h.1 (String.toList_eq_nil_iff.mp hnil)

/-- The characters of a path of plain segments, cut at the separator. -/
theorem splitOn_path (hsep : r.separator = [c]) {segments : List String} (hne : segments ≠ [])
    (hplain : ∀ s ∈ segments, Plain c s) :
    (r.path segments).toList.splitOn c = segments.map String.toList := by
  rw [path, String.toList_ofList, hsep]
  have hfree : ∀ l ∈ segments.map String.toList, c ∉ l :=
    List.forall_mem_map.mpr fun s hs => (hplain s hs).2
  exact List.splitOn_intercalate c hfree (by simpa using hne)

theorem path_ne_empty (hsep : r.separator = [c]) {segments : List String} (hne : segments ≠ [])
    (hplain : ∀ s ∈ segments, Plain c s) : r.path segments ≠ "" := by
  intro hempty
  have hcut := r.splitOn_path hsep hne hplain
  rw [hempty, String.toList_empty, List.splitOn_nil] at hcut
  obtain ⟨s, ss, rfl⟩ := List.exists_cons_of_ne_nil hne
  rw [List.map_cons, List.cons.injEq] at hcut
  exact (hplain s List.mem_cons_self).toList_ne_nil hcut.1.symm

/-- **A path of plain segments is cut into the same segments again.** -/
theorem split_path (hsep : r.separator = [c]) {segments : List String} (hne : segments ≠ [])
    (hplain : ∀ s ∈ segments, Plain c s) : r.split (r.path segments) = segments := by
  rw [split, if_neg (r.path_ne_empty hsep hne hplain), hsep, Text.pieces_singleton,
    r.splitOn_path hsep hne hplain, List.map_map]
  exact List.map_id'' (fun s => String.ofList_toList) segments

/-- The getters cut a key as the rules do. -/
theorem segments_eq_split {config : Config}
    (hconfig : config.grammar.separator.toList = r.separator) {key : String} (hne : key ≠ "") :
    Getter.segments config key = r.split key := by
  rw [Getter.segments, hconfig, Text.split, if_neg r.apart.1, split, if_neg hne]

theorem segments_path {config : Config} (hsep : r.separator = [c])
    (hconfig : config.grammar.separator.toList = [c]) {segments : List String}
    (hne : segments ≠ []) (hplain : ∀ s ∈ segments, Plain c s) :
    Getter.segments config (r.path segments) = segments := by
  rw [r.segments_eq_split (hconfig.trans hsep.symm) (r.path_ne_empty hsep hne hplain),
    r.split_path hsep hne hplain]

theorem path_singleton (segment : String) : r.path [segment] = segment := by
  rw [path, List.map_singleton, List.intercalate_singleton, String.ofList_toList]

/-- A path of two segments or more holds the separator. -/
theorem separator_infix_path (first second : String) (more : List String) :
    r.separator <:+: (r.path (first :: second :: more)).toList := by
  rw [path, String.toList_ofList, List.map_cons, List.map_cons, List.intercalate_cons_cons]
  exact ⟨_, _, rfl⟩

/-- A path of plain segments does not begin with the separator. -/
theorem isAbsolute_path (hsep : r.separator = [c]) {segments : List String}
    (hplain : ∀ s ∈ segments, Plain c s) : r.isAbsolute (r.path segments) = false := by
  rw [isAbsolute, hsep]
  cases hafter : Text.after? [c] (r.path segments).toList with
  | none => rfl
  | some rest =>
    have htext := Text.after?_eq_some_iff.mp hafter
    cases segments with
    | nil => simp [path] at htext
    | cons s more =>
      have hcut := r.splitOn_path hsep (List.cons_ne_nil s more) hplain
      rw [htext, List.singleton_append, List.splitOn_cons_eq_if_modifyHead] at hcut
      simp only [BEq.rfl, if_true, List.map_cons, List.cons.injEq] at hcut
      exact absurd hcut.1.symm (hplain s List.mem_cons_self).toList_ne_nil

/-- **Paths of plain segments are told apart.** -/
theorem path_inj (hsep : r.separator = [c]) {segments segments' : List String}
    (hne : segments ≠ []) (hne' : segments' ≠ []) (hplain : ∀ s ∈ segments, Plain c s)
    (hplain' : ∀ s ∈ segments', Plain c s) :
    r.path segments = r.path segments' ↔ segments = segments' := by
  refine ⟨fun h => ?_, fun h => h ▸ rfl⟩
  rw [← r.split_path hsep hne hplain, h, r.split_path hsep hne' hplain']

/-- A path with another one in front is a different path, unless that is empty. -/
theorem path_append_eq_iff (hsep : r.separator = [c]) {base segments : List String}
    (hne : segments ≠ []) (hbase : ∀ s ∈ base, Plain c s) (hplain : ∀ s ∈ segments, Plain c s) :
    r.path (base ++ segments) = r.path segments ↔ base = [] := by
  rw [r.path_inj hsep (List.append_ne_nil_of_right_ne_nil base hne) hne
    (List.forall_mem_append.mpr ⟨hbase, hplain⟩) hplain]
  exact List.append_left_eq_self

/-- No entry at the top has a path of several segments as its key. -/
theorem get?_path_eq_none {tree : Value}
    (htop : ∀ entries, tree = .map entries → ∀ e ∈ entries, ¬ r.separator <:+: e.1.toList)
    (first second : String) (more : List String) :
    tree.get? (r.path (first :: second :: more)) = none := by
  cases tree with
  | map entries =>
    rw [Value.get?, List.lookup_eq_none_iff]
    intro e he
    have hne : r.path (first :: second :: more) ≠ e.1 := by
      intro heq
      exact htop entries rfl e he (heq ▸ r.separator_infix_path first second more)
    exact bne_iff_ne.mpr hne
  | null => rfl
  | bool b => rfl
  | number n => rfl
  | string s => rfl
  | list items => rfl

/-- **The key of a path names the node at the path**, for the getter by key path, if the key is cut
into the path. -/
theorem keyPath_of_split {config : Config}
    (hconfig : config.grammar.separator.toList = r.separator) {tree v : Value} {path : List String}
    (hne : path ≠ []) (hcut : r.split (r.path path) = path)
    (htop : ∀ entries, tree = .map entries → ∀ e ∈ entries, ¬ r.separator <:+: e.1.toList)
    (h : tree.getPath? path = some v) : Getter.keyPath tree (r.path path) config = .ok v := by
  match path, hne with
  | [key], _ =>
    obtain ⟨u, hu, hv⟩ := Option.bind_eq_some_iff.mp h
    obtain rfl : u = v := Option.some.inj hv
    rw [Getter.keyPath, path_singleton, hu]
  | first :: second :: more, hne =>
    have hkey : r.path (first :: second :: more) ≠ "" := by
      intro hempty
      rw [hempty, split, if_pos rfl] at hcut
      exact hne hcut.symm
    have hsegments := (r.segments_eq_split hconfig hkey).trans hcut
    rw [Getter.keyPath, r.get?_path_eq_none htop first second more]
    simp only [hsegments, h, Option.getD_some]

/-- The key of a path of plain segments names the node at the path. -/
theorem keyPath_path {config : Config} (hsep : r.separator = [c])
    (hconfig : config.grammar.separator.toList = [c]) {tree v : Value} {path : List String}
    (hne : path ≠ []) (hkeys : ∀ key ∈ path, Plain c key)
    (htop : ∀ entries, tree = .map entries → ∀ e ∈ entries, c ∉ e.1.toList)
    (h : tree.getPath? path = some v) : Getter.keyPath tree (r.path path) config = .ok v := by
  refine r.keyPath_of_split (hconfig.trans hsep.symm) hne (r.split_path hsep hne hkeys)
    (fun entries hentries e he hin => htop entries hentries e he ?_) h
  rw [hsep] at hin
  exact hin.subset List.mem_cons_self

/-- **A key that names something is the path to it**, for the getter by key path. -/
theorem exists_path_of_keyPath {config : Config} (hsep : r.separator = [c])
    (hconfig : config.grammar.separator.toList = [c]) {tree v : Value} {key : String}
    (h : Getter.keyPath tree key config = .ok v) (hv : v ≠ .null) :
    ∃ path, path ≠ [] ∧ key = r.path path ∧ tree.getPath? path = some v := by
  rw [Getter.keyPath] at h
  cases htop : tree.get? key with
  | some u =>
    rw [htop] at h
    obtain rfl : u = v := Except.ok.inj h
    exact ⟨[key], List.cons_ne_nil _ _, (r.path_singleton key).symm,
      Option.bind_eq_some_iff.mpr ⟨u, htop, rfl⟩⟩
  | none =>
    rw [htop] at h
    have hcut : (Getter.segments config key).map String.toList =
        Text.pieces [c] key.toList := by
      rw [Getter.segments, hconfig, Text.split, if_neg (List.cons_ne_nil _ _), List.map_map]
      exact List.map_id'' (fun piece => String.toList_ofList) _
    refine ⟨Getter.segments config key, ?_, ?_, ?_⟩
    · intro hnil
      rw [hnil] at hcut
      exact Text.pieces_ne_nil _ _ hcut.symm
    · rw [path, hcut, hsep, Text.intercalate_pieces, String.ofList_toList]
    · cases hpath : tree.getPath? (Getter.segments config key) with
      | none =>
        rw [hpath] at h
        exact absurd (Except.ok.inj h).symm hv
      | some u =>
        rw [hpath] at h
        exact congrArg some (Except.ok.inj h)

end Keypath.Rules

end RefTree
