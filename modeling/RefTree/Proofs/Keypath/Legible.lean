import RefTree.Proofs.Keypath.Canonical
import RefTree.Proofs.Value

/-!
# Proofs/Keypath/Legible — paths that are read back from their keys

The key of a path is plain text, in which nothing tells the separators that were written from what
else looks like one.  A joined path is cut into the same path just if that holds of its text and
there is nothing in the text to normalise (`Legible`).

A separator is *detached* if copies of it do not overlap and it does not end in anything that the
token begins with.  Then no separator stands in the text of a path of names but those that were
written (`Unbordered.exists_of_intercalate_eq`), so every such path is legible; with any other
separator some path of names is not (`forall_legible_iff`).
-/

namespace RefTree.Text

/-! ## Texts cut where they were put together -/

section Pieces

variable {α : Type} {s : List α}

theorem intercalate_append {ps qs : List (List α)} (hps : ps ≠ []) (hqs : qs ≠ []) :
    s.intercalate (ps ++ qs) = s.intercalate ps ++ s ++ s.intercalate qs := by
  induction ps with
  | nil => exact absurd rfl hps
  | cons p ps ih =>
    by_cases hnil : ps = []
    · subst hnil
      rw [List.singleton_append, List.intercalate_cons_of_ne_nil hqs, List.intercalate_singleton]
    · have hne : ps ++ qs ≠ [] := List.append_ne_nil_of_left_ne_nil hnil qs
      rw [List.cons_append, List.intercalate_cons_of_ne_nil hne, ih hnil,
        List.intercalate_cons_of_ne_nil hnil]
      simp only [List.append_assoc]

/-- A copy does not begin in a text and end in the copy behind it. -/
theorem Unbordered.not_prefix_append (hs : Unbordered s) {p : List α} (hp : ¬ s <:+: p)
    (hne : p ≠ []) (text : List α) : ¬ s <+: p ++ s ++ text := by
  intro h
  obtain ⟨b, hb⟩ : s <+: p ++ s :=
    List.prefix_of_prefix_length_le h (List.prefix_append _ text) (by simp)
  have hnil := hs.eq_nil_of_append_eq (a := []) hp (by rw [List.nil_append, hb])
  rw [hnil, List.append_nil] at hb
  exact hne (List.append_left_eq_self.mp hb.symm)

/-- No separator begins a text whose first piece has characters. -/
theorem Unbordered.not_prefix_intercalate (hs : Unbordered s) (hne : s ≠ []) {ps : List (List α)}
    (hps : ∀ p ∈ ps, p ≠ [] ∧ ¬ s <:+: p) : ¬ s <+: s.intercalate ps := by
  intro hfront
  match ps with
  | [] => exact hne (List.prefix_nil.mp hfront)
  | [p] =>
    rw [List.intercalate_singleton] at hfront
    exact (hps p List.mem_cons_self).2 hfront.isInfix
  | p :: q :: more =>
    obtain ⟨hp, hfree⟩ := hps p List.mem_cons_self
    rw [List.intercalate_cons_cons] at hfront
    exact hs.not_prefix_append hfree hp _ hfront

variable [DecidableEq α]

/-- Where no separator begins, the first piece goes on. -/
theorem pieces_cons {c : α} {text : List α} (h : ¬ s <+: c :: text) :
    pieces s (c :: text) = consPiece c (pieces s text) := by
  rw [pieces, after?_eq_none_iff.mpr h]

theorem pieces_of_not_infix {text : List α} (h : ¬ s <:+: text) :
    pieces s text = [text] := by
  induction text with
  | nil => rw [pieces]
  | cons c text ih =>
    rw [pieces_cons fun hfront => h hfront.isInfix,
      ih fun hin => h (hin.trans (List.suffix_cons c text).isInfix), consPiece]

/-- A separator cuts. -/
theorem pieces_append_self (hs : s ≠ []) (text : List α) :
    pieces s (s ++ text) = [] :: pieces s text := by
  have hlt : text.length < (s ++ text).length := by
    have := List.length_pos_iff.mpr hs
    rw [List.length_append]
    omega
  obtain ⟨c, cs, htext⟩ := List.exists_cons_of_ne_nil (List.append_ne_nil_of_left_ne_nil hs text)
  rw [htext, pieces, ← htext, after?_eq_some_iff.mpr rfl]
  simp only [hlt, if_true]

/-- The first separator that was written is the first that is found. -/
theorem Unbordered.pieces_append (hs : Unbordered s) (hne : s ≠ []) {p : List α} (hp : ¬ s <:+: p)
    (text : List α) : pieces s (p ++ s ++ text) = p :: pieces s text := by
  induction p with
  | nil => rw [List.nil_append, pieces_append_self hne]
  | cons c p ih =>
    have hfront := hs.not_prefix_append hp (List.cons_ne_nil c p) text
    have hin : ¬ s <:+: p := fun hin => hp (hin.trans (List.suffix_cons c p).isInfix)
    rw [List.cons_append, List.cons_append] at hfront ⊢
    rw [pieces_cons hfront, ih hin, consPiece]

/-- **Texts without the separator are cut where they were put together**, if copies of the separator
do not overlap. -/
theorem Unbordered.pieces_intercalate (hs : Unbordered s) (hne : s ≠ []) {ps : List (List α)}
    (hnil : ps ≠ []) (hps : ∀ p ∈ ps, ¬ s <:+: p) : pieces s (s.intercalate ps) = ps := by
  induction ps with
  | nil => exact absurd rfl hnil
  | cons p ps ih =>
    obtain ⟨hp, hps⟩ := List.forall_mem_cons.mp hps
    by_cases hlast : ps = []
    · subst hlast
      rw [List.intercalate_singleton, pieces_of_not_infix hp]
    · rw [List.intercalate_cons_of_ne_nil hlast, hs.pieces_append hne hp, ih hlast hps]

/-- No separator is left in a piece. -/
theorem not_infix_of_mem_pieces (hs : s ≠ []) {text p : List α} (h : p ∈ pieces s text) :
    ¬ s <:+: p := by
  fun_induction pieces s text generalizing p with
  | case1 =>
    rw [List.mem_singleton.mp h]
    exact fun hin => hs (List.infix_nil.mp hin)
  | case2 c cs rest hafter hlt ih =>
    rcases List.mem_cons.mp h with rfl | h
    · exact fun hin => hs (List.infix_nil.mp hin)
    · exact ih h
  | case3 c cs rest hafter hlt =>
    have := length_after? hafter
    have := List.length_pos_iff.mpr hs
    omega
  | case4 c cs hafter ih =>
    obtain ⟨q, qs, hpieces⟩ := List.exists_cons_of_ne_nil (pieces_ne_nil s cs)
    rw [hpieces] at h ih
    rcases List.mem_cons.mp h with rfl | h
    · intro hin
      rcases List.infix_cons_iff.mp hin with hfront | hin
      · -- the first piece begins the text
        have htext := intercalate_pieces s cs
        rw [hpieces] at htext
        have hprefix : q <+: cs := by
          cases qs with
          | nil => rw [← htext, List.intercalate_singleton]
          | cons => rw [← htext, List.intercalate_cons_cons, List.append_assoc]; exact ⟨_, rfl⟩
        exact after?_eq_none_iff.mp hafter
          (hfront.trans ((List.prefix_cons_inj c).mpr hprefix))
      · exact ih List.mem_cons_self hin
    · exact ih (List.mem_cons_of_mem q h)

/-- **Every separator in a text was written**, if copies of it do not overlap and stand in none of
the pieces. -/
theorem Unbordered.exists_of_intercalate_eq (hs : Unbordered s) (hne : s ≠ [])
    {ps : List (List α)} (hnil : ps ≠ []) (hps : ∀ p ∈ ps, ¬ s <:+: p) {a b : List α}
    (h : s.intercalate ps = a ++ s ++ b) :
    ∃ front back, ps = front ++ back ∧ front ≠ [] ∧ back ≠ [] ∧
      s.intercalate front = a ∧ s.intercalate back = b := by
  refine ⟨pieces s a, pieces s b, ?_, pieces_ne_nil s a, pieces_ne_nil s b,
    intercalate_pieces s a, intercalate_pieces s b⟩
  have hcut : s.intercalate ps = s.intercalate (pieces s a ++ pieces s b) := by
    rw [intercalate_append (pieces_ne_nil s a) (pieces_ne_nil s b), intercalate_pieces,
      intercalate_pieces, h]
  rw [← hs.pieces_intercalate hne hnil hps, hcut, hs.pieces_intercalate hne
    (List.append_ne_nil_of_left_ne_nil (pieces_ne_nil s a) _)]
  exact List.forall_mem_append.mpr
    ⟨fun _ => not_infix_of_mem_pieces hne, fun _ => not_infix_of_mem_pieces hne⟩

end Pieces

end RefTree.Text

namespace RefTree.Keypath

open Text

namespace Rules

variable {r : Rules}

/-! ## Legible paths -/

/-- The key that is cut into the segments of a path is the key of that path. -/
theorem path_split (key : String) : r.path (r.split key) = key := by
  rw [split]
  split
  · next h => rw [h, path, List.map_nil, List.intercalate_nil, String.ofList_nil]
  · have hpieces : ((pieces r.separator key.toList).map String.ofList).map String.toList =
        pieces r.separator key.toList := by
      rw [List.map_map]
      exact List.map_id'' (fun _ => String.toList_ofList) _
    rw [path, hpieces, intercalate_pieces, String.ofList_toList]

/-- Segments are joined as their text is. -/
theorem join_path (path : List String) : r.join [r.path path] = r.join path := by
  rw [join, List.map_singleton, List.intercalate_singleton, Rules.path, String.toList_ofList]
  rfl

/-- **The text of the path is cut into the path**, and there is nothing in it to normalise. -/
structure Legible (r : Rules) (path : List String) : Prop where
  cut : r.split (r.path path) = path
  canonical : r.Canonical (r.path path).toList

theorem Legible.join_eq {path : List String} (h : r.Legible path) : r.join path = r.path path := by
  rw [← join_path, join_singleton_eq_iff.mpr h.canonical]

/-- **A joined path is cut into the path just if the path is legible.** -/
theorem split_join_eq_iff {path : List String} : r.split (r.join path) = path ↔ r.Legible path := by
  constructor
  · intro h
    have hjoin : r.join path = r.path path := by rw [← r.path_split (r.join path), h]
    exact ⟨hjoin ▸ h, join_singleton_eq_iff.mp ((join_path path).trans hjoin)⟩
  · intro h
    rw [h.join_eq, h.cut]

/-! ## Names -/

/-- The segment has characters, no separator, and no token at its end. -/
def IsName (r : Rules) (segment : String) : Prop :=
  segment ≠ "" ∧ ¬ r.separator <:+: segment.toList ∧ ¬ r.token <:+ segment.toList

instance (r : Rules) (segment : String) : Decidable (r.IsName segment) :=
  inferInstanceAs (Decidable (_ ∧ _ ∧ _))

/-- **A separator that is part of nothing else**: copies of it do not overlap, and it does not end
in anything that the token begins with. -/
def Detached (r : Rules) : Prop := Unbordered r.separator ∧ ¬ Meets r.separator r.token

instance (r : Rules) : Decidable r.Detached := inferInstanceAs (Decidable (_ ∧ _))

theorem detached_of_singleton {c : Char} (hsep : r.separator = [c]) : r.Detached :=
  ⟨hsep ▸ unbordered_singleton c, not_meets_of_singleton hsep⟩

section Names

variable {path : List String}

theorem forall_map_toList (hpath : ∀ key ∈ path, r.IsName key) :
    ∀ p ∈ path.map String.toList, p ≠ [] ∧ ¬ r.separator <:+: p ∧ ¬ r.token <:+ p := by
  refine List.forall_mem_map.mpr fun key hkey => ⟨fun hnil => ?_, (hpath key hkey).2⟩
  exact (hpath key hkey).1 (String.toList_eq_nil_iff.mp hnil)

/-- The last of the pieces ends their text, and if it is not all of it, a separator is before. -/
theorem exists_intercalate_concat (init : List (List Char)) (last : List Char) :
    ∃ x, r.separator.intercalate (init ++ [last]) = x ++ last ∧ (x = [] ∨ r.separator <:+ x) := by
  by_cases hinit : init = []
  · subst hinit
    exact ⟨[], by simp, .inl rfl⟩
  · refine ⟨r.separator.intercalate init ++ r.separator, ?_, .inr (List.suffix_append _ _)⟩
    rw [intercalate_append hinit (List.cons_ne_nil _ _), List.intercalate_singleton]

/-- **No name and separator make a group**, if the separator is detached. -/
theorem Detached.not_group_infix (h : r.Detached) (hpath : ∀ key ∈ path, r.IsName key) :
    ¬ r.token ++ r.separator <:+: r.separator.intercalate (path.map String.toList) := by
  rintro ⟨a, b, hab⟩
  have hnames := forall_map_toList hpath
  by_cases hnil : path = []
  · subst hnil
    simp [r.apart.1] at hab
  obtain ⟨front, back, hcut, hfront, -, ha, -⟩ := h.1.exists_of_intercalate_eq r.apart.1
    (by simpa using hnil) (fun p hp => (hnames p hp).2.1) (a := a ++ r.token)
    (b := b) (by rw [← hab]; simp only [List.append_assoc])
  obtain ⟨init, last, rfl⟩ := (List.eq_nil_or_concat' front).resolve_left hfront
  have hlast : ¬ r.token <:+ last := (hnames last (by simp [hcut])).2.2
  obtain ⟨x, hx, hseparated⟩ := exists_intercalate_concat (r := r) init last
  rw [hx, List.append_eq_append_iff] at ha
  rcases ha with ⟨m, -, rfl⟩ | ⟨m, rfl, htoken⟩
  · exact hlast (List.suffix_append m r.token)
  · -- the token begins in what is before the last name, so it begins in a separator
    have hm : m ≠ [] := fun hm => hlast (by rw [htoken, hm, List.nil_append])
    have hx : r.separator <:+ a ++ m := hseparated.resolve_left (by simp [hm])
    have hfront : m <+: r.token := htoken ▸ List.prefix_append m last
    rcases List.suffix_or_suffix_of_suffix (List.suffix_append a m) hx with hback | hback
    · exact h.2 ⟨m, hback, hfront, hm⟩
    · exact r.apart.2.2.2 (hback.isInfix.trans hfront.isInfix)

/-- The text of a path of names is cut into the path, if the separator is detached. -/
theorem Detached.split_path (h : r.Detached) (hne : path ≠ [])
    (hpath : ∀ key ∈ path, r.IsName key) : r.split (r.path path) = path := by
  have hnames := forall_map_toList hpath
  have hcut : pieces r.separator (r.path path).toList = path.map String.toList := by
    rw [Rules.path, String.toList_ofList]
    exact h.1.pieces_intercalate r.apart.1 (by simpa using hne) fun p hp => (hnames p hp).2.1
  have hkey : r.path path ≠ "" := by
    intro hempty
    rw [hempty, String.toList_empty, pieces] at hcut
    exact (hnames [] (hcut ▸ List.mem_cons_self)).1 rfl
  rw [split, if_neg hkey, hcut, List.map_map]
  exact List.map_id'' (fun _ => String.ofList_toList) path

/-- There is nothing to normalise in the text of a path of names, if the separator is detached. -/
theorem Detached.canonical_path (h : r.Detached) (hne : path ≠ [])
    (hpath : ∀ key ∈ path, r.IsName key) : r.Canonical (r.path path).toList := by
  have hnames : ∀ p ∈ path.map String.toList, p ≠ [] ∧ ¬ r.separator <:+: p :=
    fun p hp => (forall_map_toList hpath p hp).imp_right And.left
  rw [Rules.path, String.toList_ofList]
  refine ⟨h.not_group_infix hpath, ?_, h.1.not_prefix_intercalate r.apart.1 hnames⟩
  -- behind the first of two separators in a row, the second begins the text of names
  rintro ⟨a, b, hab⟩
  obtain ⟨front, back, hcut, -, -, -, hback⟩ := h.1.exists_of_intercalate_eq r.apart.1
    (by simpa using hne) (fun p hp => (hnames p hp).2) (a := a) (b := r.separator ++ b)
    (by rw [← hab]; simp only [List.append_assoc])
  have hrest : ∀ p ∈ back, p ≠ [] ∧ ¬ r.separator <:+: p :=
    fun p hp => hnames p (hcut ▸ List.mem_append_right front hp)
  exact h.1.not_prefix_intercalate r.apart.1 hrest (hback ▸ List.prefix_append r.separator b)

/-- The empty path is legible. -/
theorem legible_nil : r.Legible [] := by
  have htext : (r.path []).toList = [] := by
    rw [Rules.path, String.toList_ofList, List.map_nil, List.intercalate_nil]
  refine ⟨rfl, ?_⟩
  rw [htext]
  exact ⟨by simp [r.apart.1], by simp [r.apart.1], by simp [r.apart.1]⟩

/-- **Names are told apart in the text of their path**, if the separator is detached. -/
theorem Detached.legible (h : r.Detached) (hpath : ∀ key ∈ path, r.IsName key) :
    r.Legible path := by
  by_cases hne : path = []
  · exact hne ▸ legible_nil
  · exact ⟨h.split_path hne hpath, h.canonical_path hne hpath⟩

theorem isName_ofList {text : List Char} (hne : text ≠ []) (hsep : ¬ r.separator <:+: text)
    (htoken : ¬ r.token <:+ text) : r.IsName (String.ofList text) := by
  rw [IsName, String.toList_ofList]
  exact ⟨by simpa using hne, hsep, htoken⟩

/-- If the paths of names are legible, copies of the separator do not overlap: what stands before
the second copy would be a name, which completes a separator with the one behind it. -/
theorem unbordered_of_forall_legible
    (h : ∀ path, (∀ key ∈ path, r.IsName key) → r.Legible path) : Unbordered r.separator := by
  rintro p ⟨y, hback⟩ ⟨x, hfront⟩ hp
  by_contra hne
  have hy : y ≠ [] := fun hy => hne (by rw [← hback, hy, List.nil_append])
  have hname : r.IsName (String.ofList y) := by
    refine isName_ofList hy (fun hin => ?_)
      fun hsuffix => r.apart.2.2.1 (hsuffix.isInfix.trans ⟨[], p, hback⟩)
    have hlen := hin.length_le
    have := List.length_pos_iff.mpr hp
    rw [← hback, List.length_append] at hlen
    omega
  refine (h [String.ofList y, String.ofList y] (by simp [hname])).canonical.front ⟨x ++ y, ?_⟩
  calc
    r.separator ++ (x ++ y) = (y ++ p) ++ (x ++ y) := by rw [hback]
    _ = y ++ (p ++ x) ++ y := by simp only [List.append_assoc]
    _ = (r.path [String.ofList y, String.ofList y]).toList := by simp [path, hfront]

/-- If the paths of names are legible, the separator does not end in anything that the token begins
with: the rest of the token would be a name, which completes a group between two separators. -/
theorem not_meets_of_forall_legible
    (h : ∀ path, (∀ key ∈ path, r.IsName key) → r.Legible path) :
    ¬ Meets r.separator r.token := by
  rintro ⟨p, ⟨u, hback⟩, ⟨v, hfront⟩, hp⟩
  have hv : v ≠ [] := by
    rintro rfl
    rw [List.append_nil] at hfront
    exact r.apart.2.2.1 (hfront ▸ ⟨u, [], by rw [List.append_nil, hback]⟩)
  have hname : r.IsName (String.ofList v) := by
    refine isName_ofList hv
      (fun hin => r.apart.2.2.2 (hin.trans ⟨p, [], by rw [List.append_nil, hfront]⟩))
      fun hsuffix => ?_
    have hlen := hsuffix.length_le
    have := List.length_pos_iff.mpr hp
    rw [← hfront, List.length_append] at hlen
    omega
  have hlegible := h [String.ofList v, String.ofList v, String.ofList v] (by simp [hname])
  refine hlegible.canonical.group ⟨v ++ u, v, ?_⟩
  calc
    v ++ u ++ (r.token ++ r.separator) ++ v
        = v ++ (u ++ p) ++ v ++ r.separator ++ v := by
          rw [← hfront]; simp only [List.append_assoc]
    _ = (r.path [String.ofList v, String.ofList v, String.ofList v]).toList := by
          simp [path, hback]

/-- **Every path of names is legible just if the separator is detached.** -/
theorem forall_legible_iff :
    (∀ path, (∀ key ∈ path, r.IsName key) → r.Legible path) ↔ r.Detached :=
  ⟨fun h => ⟨unbordered_of_forall_legible h, not_meets_of_forall_legible h⟩,
    fun h _ hpath => h.legible hpath⟩

end Names

/-! ## Nodes of a tree -/

/-- **A joined path addresses what it was made from if it is legible**, as every path of names is
just if the separator is detached, and so if it is one character.  Then the path is read back from
the key, and the getter by key path finds the node at the path. -/
theorem join_addresses {config : Config} {r : Rules} (hr : ofConfig config = .ok r) :
    ((∀ path, (∀ key ∈ path, r.IsName key) → r.split (r.join path) = path) ↔ r.Detached) ∧
      ((∃ c, config.grammar.separator.toList = [c]) → r.Detached) ∧
      ∀ tree : Value, (∀ key ∈ tree.keys, r.IsName key) →
        ∀ path v, tree.getPath? path = some v →
          (r.split (r.join path) = path ↔ r.Legible path) ∧
            (r.Legible path → path ≠ [] → Getter.keyPath tree (r.join path) config = .ok v) := by
  have hsep := (of_ofConfig hr).1
  refine ⟨?_, fun ⟨c, hc⟩ => detached_of_singleton (hsep.trans hc), fun tree htree path v hv =>
    ⟨split_join_eq_iff, fun hlegible hne => ?_⟩⟩
  · simp only [split_join_eq_iff]
    exact forall_legible_iff
  · rw [hlegible.join_eq]
    refine r.keyPath_of_split hsep.symm hne hlegible.cut (fun entries htop e he => ?_) hv
    exact (htree e.1 (htop ▸ Value.mem_keys_map.mpr ⟨e, he, .inl rfl⟩)).2.1

/-- A tree with names that begin and end like the separators of `arrowed`. -/
def pointed : Value := .map [("a-", .map [(">b", .bool true)])]

theorem join_addresses_arrowed :
    ∃ r, ofConfig arrowed = .ok r ∧ r.split (r.join ["a-", ">b"]) = ["a-", ">b"] ∧
      Getter.keyPath pointed (r.join ["a-", ">b"]) arrowed = .ok (.bool true) := by
  have hr : ofConfig arrowed = .ok _ := ofConfig_eq_ok (by decide)
  obtain ⟨hall, -, htree⟩ := join_addresses hr
  obtain ⟨hsplit, hnode⟩ := htree pointed (by decide) ["a-", ">b"] (.bool true) (by rfl)
  have hcut := hall.mpr (by decide) ["a-", ">b"] (by decide)
  exact ⟨_, hr, hcut, hnode (hsplit.mp hcut) (List.cons_ne_nil _ _)⟩

/-- A tree with a name that ends like the separator of `coloned` begins. -/
def trailing : Value := .map [("a:", .map [("b", .bool true)])]

/-- **A separator is found before the one that was written**, where a name ends in a colon: the key
is that of another path, and names nothing.  The key of the empty path names nothing either. -/
theorem join_misread_coloned :
    ∃ r, ofConfig coloned = .ok r ∧ (∀ key ∈ trailing.keys, r.IsName key) ∧
      trailing.getPath? ["a:", "b"] = some (.bool true) ∧
        r.join ["a:", "b"] = "a:::b" ∧ r.join ["a", ":b"] = "a:::b" ∧
          r.split "a:::b" = ["a", ":b"] ∧ Getter.keyPath trailing "a:::b" coloned = .ok .null ∧
            r.join [] = "" ∧ Getter.keyPath trailing "" coloned = .ok .null := by
  have hr : ofConfig coloned = .ok _ := ofConfig_eq_ok (by decide)
  have hcut : Getter.segments coloned "a:::b" = ["a", ":b"] := by decide +kernel
  have hempty : Getter.segments coloned "" = [""] := by decide +kernel
  refine ⟨_, hr, by decide, rfl, by decide +kernel, by decide +kernel, by decide +kernel, ?_,
    by decide +kernel, ?_⟩
  · rw [Getter.keyPath, hcut]
    rfl
  · rw [Getter.keyPath, hempty]
    rfl

end Rules

end RefTree.Keypath
