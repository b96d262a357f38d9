import Mathlib.Data.List.Chain
import RefTree.Proofs.Sibling

/-!
# Proofs/Aliases — strings that are a marker and nothing else

A string that is one marker adopts the value of its key, which the post-parser has seen at the end
of the string it comes from.  If that is a string again, the loop runs on and hands it to the
post-parser once more (`exists_ended_of_answer_substitute`).  So a string is post-parsed as many
times as there are strings on the way to it, itself included (`Leads.endedTimes_of_lookup`), and
what it becomes is the same all along the way just if the post-parser leaves its own result as it is
(`resolve_aliases`).
-/

namespace RefTree

namespace Value

/-- What a value becomes at the end of a string that adopts it: a string is parsed, and a value of
any other kind stays. -/
def ended (parse : String → Except String Value) : Value → Except String Value
  | .string s => parse s
  | v => .ok v

/-- What a value becomes at the end of `k` strings, one after the other. -/
def endedTimes (parse : String → Except String Value) : Nat → Value → Except String Value
  | 0, v => .ok v
  | k + 1, v => (endedTimes parse k v).bind (ended parse)

variable {parse : String → Except String Value}

theorem endedTimes_succ_of_ok {k : Nat} {v w : Value} (h : endedTimes parse k v = .ok w) :
    endedTimes parse (k + 1) v = ended parse w := by
  rw [endedTimes, h]
  rfl

/-- What is left as it is once is left as it is at every further end. -/
theorem endedTimes_of_fixed {s t : String} (hs : parse s = .ok (.string t))
    (ht : parse t = .ok (.string t)) (k : Nat) :
    endedTimes parse (k + 1) (.string s) = .ok (.string t) := by
  induction k with
  | zero => exact hs
  | succ k ih =>
    rw [endedTimes_succ_of_ok ih]
    exact ht

end Value

open Value (ended endedTimes)

/-- A string in a tree, and a key for it. -/
structure Field where
  path : List String
  key : String
  text : String

namespace Resolver

variable {r : Resolver} {f : PostParser}

/-- The string stands at its path, and the getter finds it under its key. -/
def Stands (r : Resolver) (x : Field) : Prop :=
  r.tree.getPath? x.path = some (.string x.text) ∧
    r.getter r.tree x.key r.options.toConfig = .ok (.string x.text)

/-- **The first string is one marker, which names the second one**, both where it stands and where
it is fetched. -/
def Aliases (r : Resolver) (x y : Field) : Prop :=
  ∃ m, r.pattern.find? x.text = some m ∧ m.whole = true ∧
    r.keyOf x.path.dropLast m.key = y.key ∧
    r.keyOf (r.rules.split x.key).dropLast m.key = y.key

/-- What the post-parser makes of a string. -/
def parsed (r : Resolver) (f : PostParser) (text : String) : Except String Value :=
  f r.tree text r.options.toConfig

/-! ## One string -/

section String

variable {look : String → Outcome Value} {frame : List String} {n : Nat} {v : Value}

theorem answer_finish_eq_done_iff (hpost : r.options.postParser = some f) {text : String} :
    (r.finish frame text).answer look = .done v ↔ r.parsed f text = .ok v := by
  unfold finish parsed
  simp only [hpost]
  cases f r.tree text r.options.toConfig <;> simp [Inquiry.answer]

/-- The loop over a string without markers ends with what the post-parser makes of it. -/
theorem answer_substitute_eq_done_iff (hpost : r.options.postParser = some f) {untouched : Bool}
    {text : String} (hfind : r.pattern.find? text = none) :
    (r.substitute frame n untouched text).answer look = .done v ↔ r.parsed f text = .ok v := by
  rw [substitute_of_find?_none hfind, answer_finish_eq_done_iff hpost]

/-- **A string that is one marker ends with the value of its key**, which is parsed if it is a
string. -/
theorem exists_ended_of_answer_substitute (hpost : r.options.postParser = some f)
    (hkeep : r.options.keepTypes = true) {text : String} {m : Marker}
    (hfind : r.pattern.find? text = some m) (hwhole : m.whole = true)
    (h : (r.substitute frame n true text).answer look = .done v) :
    ∃ w, look (r.keyOf frame m.key) = .done w ∧
      ((∀ u, w = .string u → r.pattern.find? u = none) → ended (r.parsed f) w = .ok v) := by
  obtain ⟨n', w, hlook, hresume⟩ := exists_of_answer_substitute hfind h
  refine ⟨w, hlook, fun hfree => ?_⟩
  simp only [replace, hwhole, hkeep, Bool.and_self, if_true] at hresume
  cases w with
  | string u => exact (answer_substitute_eq_done_iff hpost (hfree u rfl)).mp hresume
  | _ => exact congrArg Except.ok (Outcome.done.inj hresume)

end String

/-! ## Strings on the way to another one -/

/-- `k` strings lead from the string to a text without markers, the string itself not counted. -/
inductive Leads (r : Resolver) (s : String) : Nat → Field → Prop
  | here {x : Field} (hx : r.Stands x) (htext : x.text = s) (hfree : r.pattern.find? s = none) :
      Leads r s 0 x
  | further {k : Nat} {x y : Field} (hx : r.Stands x) (hnames : r.Aliases x y) (h : Leads r s k y) :
      Leads r s (k + 1) x

/-- The strings that the post-parser makes of a string have no markers, up to the `k`th. -/
def FreeUpTo (r : Resolver) (f : PostParser) (s : String) (k : Nat) : Prop :=
  ∀ j < k, ∀ u, endedTimes (r.parsed f) (j + 1) (.string s) = .ok (.string u) →
    r.pattern.find? u = none

theorem leads_of_isChain {x last : Field} {fields : List Field}
    (hstands : ∀ y ∈ x :: fields, r.Stands y) (hchain : (x :: fields).IsChain r.Aliases)
    (hlast : (x :: fields).getLast? = some last) (hfree : r.pattern.find? last.text = none) :
    r.Leads last.text fields.length x := by
  induction fields generalizing x with
  | nil =>
    obtain rfl : x = last := Option.some.inj hlast
    exact .here (hstands x List.mem_cons_self) rfl hfree
  | cons y fields ih =>
    obtain ⟨hx, hrest⟩ := List.forall_mem_cons.mp hstands
    obtain ⟨hnames, hchain⟩ := List.isChain_cons_cons.mp hchain
    rw [List.getLast?_cons_cons] at hlast
    exact .further hx hnames (ih hrest hchain hlast)

section Leads

variable (hpost : r.options.postParser = some f) (hkeep : r.options.keepTypes = true) {s : String}
  {k n : Nat} {x y : Field} {v : Value}
include hpost hkeep

/-- One more string on the way is one more end. -/
theorem endedTimes_of_answer_substitute {look : String → Outcome Value} {frame : List String}
    {m : Marker} (hfind : r.pattern.find? x.text = some m) (hwhole : m.whole = true)
    (hlook : ∀ w, look (r.keyOf frame m.key) = .done w →
      endedTimes (r.parsed f) (k + 1) (.string s) = .ok w)
    (hfree : r.FreeUpTo f s (k + 1))
    (h : (r.substitute frame n true x.text).answer look = .done v) :
    endedTimes (r.parsed f) (k + 1 + 1) (.string s) = .ok v := by
  obtain ⟨w, hw, hended⟩ := exists_ended_of_answer_substitute hpost hkeep hfind hwhole h
  have htimes := hlook w hw
  rw [Value.endedTimes_succ_of_ok htimes]
  refine hended fun u hu => hfree k (Nat.lt_succ_self k) u ?_
  rw [htimes, hu]

/-- **What is fetched has been parsed at the end of each string on the way.** -/
theorem Leads.endedTimes_of_lookup (hleads : r.Leads s k x) (hfree : r.FreeUpTo f s k) {c : Chain}
    (h : r.lookup n c x.key = .done v) :
    endedTimes (r.parsed f) (k + 1) (.string s) = .ok v := by
  induction hleads generalizing c v with
  | here hx htext hnone =>
    obtain ⟨inner, raw, -, hget, hwalk⟩ := exists_of_lookup_eq_done h
    obtain rfl := Except.ok.inj (hget.symm.trans hx.2)
    rw [walk, htext] at hwalk
    exact (answer_substitute_eq_done_iff hpost hnone).mp hwalk
  | further hx hnames _ ih =>
    obtain ⟨inner, raw, -, hget, hwalk⟩ := exists_of_lookup_eq_done h
    obtain rfl := Except.ok.inj (hget.symm.trans hx.2)
    obtain ⟨m, hfind, hwhole, -, hkey⟩ := hnames
    rw [walk] at hwalk
    refine endedTimes_of_answer_substitute hpost hkeep hfind hwhole (fun w hw => ?_) hfree hwalk
    rw [hkey] at hw
    exact ih (fun j hj => hfree j (Nat.lt_succ_of_lt hj)) hw

/-- **What a string of the tree becomes has been parsed at the end of each string on the way.** -/
theorem Leads.endedTimes_of_resolve (hleads : r.Leads s k x) (hfree : r.FreeUpTo f s k) {R : Value}
    (hR : r.resolve n = .done R) :
    ∃ w, endedTimes (r.parsed f) (k + 1) (.string s) = .ok w ∧ R.getPath? x.path = some w := by
  have hpath : ∀ {x}, r.Stands x → ∃ w, R.getPath? x.path = some w ∧
      (r.substitute x.path.dropLast n true x.text).answer (r.lookupFirst n) = .done w := by
    intro x hx
    obtain ⟨w, hw, hwalk⟩ := answer_walk_getPath? hR hx.1
    rw [List.nil_append, walk] at hwalk
    exact ⟨w, hw, hwalk⟩
  cases hleads with
  | here hx htext hnone =>
    obtain ⟨w, hw, hstring⟩ := hpath hx
    rw [htext] at hstring
    exact ⟨w, (answer_substitute_eq_done_iff hpost hnone).mp hstring, hw⟩
  | further hx hnames hleads =>
    obtain ⟨w, hw, hstring⟩ := hpath hx
    obtain ⟨m, hfind, hwhole, hkey, -⟩ := hnames
    refine ⟨w, ?_, hw⟩
    refine endedTimes_of_answer_substitute hpost hkeep hfind hwhole (fun u hu => ?_) hfree hstring
    rw [hkey] at hu
    exact hleads.endedTimes_of_lookup hpost hkeep (fun j hj => hfree j (Nat.lt_succ_of_lt hj)) hu

end Leads

theorem freeUpTo_of_endedTimes {s t : String} {k : Nat}
    (h : ∀ j < k, endedTimes (r.parsed f) (j + 1) (.string s) = .ok (.string t))
    (hfree : r.pattern.find? t = none) : r.FreeUpTo f s k := by
  intro j hj u hu
  obtain rfl := Value.string.inj (Except.ok.inj ((h j hj).symm.trans hu))
  exact hfree

/-! ## Chains of strings -/

section Fields

variable (hpost : r.options.postParser = some f) (hkeep : r.options.keepTypes = true)
  {fields : List Field} (hstands : ∀ x ∈ fields, r.Stands x) (hchain : fields.IsChain r.Aliases)
  {last : Field} (hlast : fields.getLast? = some last) (hnone : r.pattern.find? last.text = none)
  {n : Nat} {R : Value} (hR : r.resolve n = .done R)
include hpost hkeep hstands hchain hlast hnone hR

theorem exists_endedTimes {front behind : List Field} {x : Field}
    (hsplit : fields = front ++ x :: behind) (hfree : r.FreeUpTo f last.text behind.length) :
    ∃ v, endedTimes (r.parsed f) (behind.length + 1) (.string last.text) = .ok v ∧
      R.getPath? x.path = some v := by
  subst hsplit
  rw [List.getLast?_append_of_ne_nil _ (List.cons_ne_nil x behind)] at hlast
  have hleads : r.Leads last.text behind.length x :=
    leads_of_isChain (fun y hy => hstands y (List.mem_append_right front hy))
      hchain.right_of_append hlast hnone
  exact hleads.endedTimes_of_resolve hpost hkeep hfree hR

variable {t : String} (hparsed : r.parsed f last.text = .ok (.string t))
  (hfree : r.pattern.find? t = none)
include hparsed hfree

/-- The last alias is parsed twice, so it shows whether the result is left as it is. -/
theorem fixed_of_forall_getPath? (hall : ∀ x ∈ fields, R.getPath? x.path = some (.string t)) :
    fields.length = 1 ∨ r.parsed f t = .ok (.string t) := by
  obtain ⟨init, hinit⟩ := List.getLast?_eq_some_iff.mp hlast
  rcases List.eq_nil_or_concat' init with rfl | ⟨front, x, rfl⟩
  · exact .inl (congrArg List.length hinit)
  have hsplit : fields = front ++ x :: [last] := by simp [hinit]
  have hone : ∀ j < 1, endedTimes (r.parsed f) (j + 1) (.string last.text) = .ok (.string t) := by
    intro j hj
    obtain rfl := Nat.lt_one_iff.mp hj
    exact hparsed
  obtain ⟨v, htwo, hv⟩ := exists_endedTimes hpost hkeep hstands hchain hlast hnone hR hsplit
    (freeUpTo_of_endedTimes hone hfree)
  obtain rfl := Option.some.inj (hv.symm.trans (hall x (by simp [hsplit])))
  rw [List.length_singleton, Value.endedTimes_succ_of_ok (hone 0 Nat.one_pos)] at htwo
  exact .inr htwo

theorem getPath?_of_fixed (h : fields.length = 1 ∨ r.parsed f t = .ok (.string t)) :
    ∀ x ∈ fields, R.getPath? x.path = some (.string t) := by
  intro x hx
  have htimes : ∀ j < fields.length,
      endedTimes (r.parsed f) (j + 1) (.string last.text) = .ok (.string t) := by
    rcases h with hlength | hfixed
    · intro j hj
      obtain rfl : j = 0 := by omega
      exact hparsed
    · exact fun j _ => Value.endedTimes_of_fixed hparsed hfixed j
  obtain ⟨front, behind, hsplit⟩ := List.append_of_mem hx
  have hlt : behind.length < fields.length := by simp [hsplit]; omega
  obtain ⟨v, hbehind, hv⟩ := exists_endedTimes hpost hkeep hstands hchain hlast hnone hR hsplit
    (freeUpTo_of_endedTimes (fun j hj => htimes j (hj.trans hlt)) hfree)
  obtain rfl := Except.ok.inj (hbehind.symm.trans (htimes _ hlt))
  exact hv

end Fields

/-- **A string is parsed once for every string on the way to it**, so all of them become the same
just if there is only one, or the post-parser leaves its own result as it is. -/
theorem resolve_aliases {tree : Value} {options : Options} (hr : ofTree tree options = .ok r)
    (hpost : options.postParser = some f) (hkeep : options.keepTypes = true) {fields : List Field}
    (hstands : ∀ x ∈ fields, r.Stands x) (hchain : fields.IsChain r.Aliases) {last : Field}
    (hlast : fields.getLast? = some last) (hnone : r.pattern.find? last.text = none) {t : String}
    (hparsed : f tree last.text options.toConfig = .ok (.string t))
    (hfree : r.pattern.find? t = none) {n : Nat} {R : Value} (hR : r.resolve n = .done R) :
    (∀ front x behind, fields = front ++ x :: behind →
        r.FreeUpTo f last.text behind.length →
        ∃ v, endedTimes (fun text => f tree text options.toConfig) (behind.length + 1)
            (.string last.text) = .ok v ∧
          R.getPath? x.path = some v) ∧
      ((∀ x ∈ fields, R.getPath? x.path = some (.string t)) ↔
        fields.length = 1 ∨ f tree t options.toConfig = .ok (.string t)) := by
  obtain ⟨rfl, rfl, -⟩ := ofTree_eq_ok_iff.mp hr
  exact ⟨fun _ _ _ => exists_endedTimes hpost hkeep hstands hchain hlast hnone hR,
    fixed_of_forall_getPath? hpost hkeep hstands hchain hlast hnone hR hparsed hfree,
    getPath?_of_fixed hpost hkeep hstands hchain hlast hnone hR hparsed hfree⟩

/-! ## Strings that are fetched where they stand -/

section Paths

variable {entries : List (String × Value)} {options : Options} {a : Char} {path : List String}
  {text : String}

/-- With the getter by key path, a string is found under the key of its path. -/
theorem stands_of_path (hr : ofTree (.map entries) options = .ok r)
    (hgetter : options.getter = none) (hsep : options.grammar.separator.toList = [a])
    (hkeys : ∀ key ∈ (Value.map entries).keys, Keypath.Rules.Plain a key) (hne : path ≠ [])
    (hpath : (Value.map entries).getPath? path = some (.string text)) :
    r.Stands ⟨path, r.rules.path path, text⟩ :=
  ⟨(ofTree_eq_ok_iff.mp hr).1 ▸ hpath, (getter_path hr hgetter hsep hkeys hne hpath).1⟩

/-- What a string names where it stands it names where it is fetched, if the keys of its path can be
told apart. -/
theorem aliases_of_path (hsep : r.rules.separator = [a])
    (hplain : ∀ key ∈ path, Keypath.Rules.Plain a key) (hne : path ≠ []) {m : Marker}
    (hfind : r.pattern.find? text = some m) (hwhole : m.whole = true) {y : Field}
    (hkey : r.keyOf path.dropLast m.key = y.key) :
    r.Aliases ⟨path, r.rules.path path, text⟩ y := by
  refine ⟨m, hfind, hwhole, hkey, ?_⟩
  rw [r.rules.split_path hsep hne hplain]
  exact hkey

end Paths

/-! ## A tree with one alias -/

/-- A string, and one that is a marker for it. -/
def linked : Value := .map [("x", .string "@\x7b y \x7d"), ("y", .string "s")]

/-- Its resolver with a post-parser. -/
def linking (f : PostParser) : Resolver :=
  { default linked 64 with options := { postParser := f } }

theorem ofTree_linking (f : PostParser) :
    ofTree linked { postParser := f } = .ok (linking f) :=
  ofTree_eq_ok_iff.mpr
    ⟨rfl, rfl, rfl, Keypath.Rules.ofConfig_default 64, Marker.Default.ofGrammar_eq⟩

theorem find?_linked :
    Marker.Default.pattern.find? "@\x7b y \x7d" = some ⟨"y", 0, 6, true⟩ ∧
      Marker.Default.pattern.find? "s" = none := by
  decide +kernel

theorem keyOf_linking (f : PostParser) : (linking f).keyOf [] "y" = "y" := by
  have hdefault : (default linked 64).keyOf [] "y" = "y" := by decide +kernel
  exact hdefault

theorem plain_of_mem_linked : ∀ key ∈ linked.keys, Keypath.Rules.Plain '.' key := by
  have hall : ∀ key ∈ linked.keys, key ≠ "" ∧ '.' ∉ key.toList := by decide
  exact hall

/-- What the tree resolves to hangs on what the post-parser makes of its own result. -/
theorem resolve_linking {t : String} {v : Value} (hs : f linked "s" {} = .ok (.string t))
    (ht : Marker.Default.pattern.find? t = none) (hv : f linked t {} = .ok v) :
    (linking f).resolve 1 = .done (.map [("x", v), ("y", .string t)]) := by
  have hy : ∀ look : String → Outcome Value,
      ((linking f).walk 1 ["y"] (.string "s")).answer look = .done (.string t) := fun _ =>
    (answer_substitute_eq_done_iff (r := linking f) rfl find?_linked.2).mpr hs
  have henter : (Chain.ofLimit 64).enter "y" = .ok ⟨["y"], 63⟩ := rfl
  have hsplit : (linking f).rules.split "y" = ["y"] :=
    (linking f).rules.split_path (c := '.') rfl (List.cons_ne_nil "y" [])
      (List.forall_mem_singleton.mpr (plain_of_mem_linked "y" (by decide)))
  have hlook : (linking f).lookupFirst 1 ((linking f).keyOf [] "y") = .done (.string t) := by
    rw [keyOf_linking]
    refine (lookup_of_getter_ok henter rfl 1).trans ?_
    rw [hsplit]
    exact hy _
  have hask : (linking f).substitute [] 1 true "@\x7b y \x7d" = _ :=
    substitute_succ find?_linked.1 0 true
  have hx : ((linking f).walk 1 ["x"] (.string "@\x7b y \x7d")).answer
      ((linking f).lookupFirst 1) = .done v := by
    rw [walk, List.dropLast_singleton, hask, Inquiry.answer, hlook]
    exact (answer_substitute_eq_done_iff (r := linking f) rfl ht).mpr hv
  exact Inquiry.answer_map_eq_done_iff.mpr
    ⟨_, answer_walkEntries_cons hx (answer_walkEntries_cons (hy _) rfl), rfl⟩

/-- The strings of the tree: `x` is an alias of `y`. -/
def linkedFields : List Field := [⟨["x"], "x", "@\x7b y \x7d"⟩, ⟨["y"], "y", "s"⟩]

theorem stands_linking (f : PostParser) : ∀ x ∈ linkedFields, (linking f).Stands x := by
  have hsep : ({} : Grammar).separator.toList = ['.'] := by decide
  have hstands : ∀ path text, path ≠ [] → linked.getPath? path = some (.string text) →
      (linking f).Stands ⟨path, (linking f).rules.path path, text⟩ := fun _ _ =>
    stands_of_path (ofTree_linking f) rfl hsep plain_of_mem_linked
  exact List.forall_mem_cons.mpr ⟨hstands ["x"] _ (List.cons_ne_nil _ _) rfl,
    List.forall_mem_singleton.mpr (hstands ["y"] _ (List.cons_ne_nil _ _) rfl)⟩

theorem isChain_linking (f : PostParser) : linkedFields.IsChain (linking f).Aliases := by
  have hplain := List.forall_mem_singleton.mpr (plain_of_mem_linked "x" (by decide))
  have haliases : (linking f).Aliases ⟨["x"], (linking f).rules.path ["x"], "@\x7b y \x7d"⟩
      ⟨["y"], "y", "s"⟩ :=
    aliases_of_path (m := ⟨"y", 0, 6, true⟩) rfl hplain (List.cons_ne_nil _ _) find?_linked.1 rfl
      (keyOf_linking f)
  exact List.isChain_cons_cons.mpr ⟨haliases, .singleton _⟩

/-- Every string becomes a star. -/
def starring : PostParser := fun _ _ _ => .ok (.string "*")

theorem resolve_aliases_starring :
    ofTree linked { postParser := starring } = .ok (linking starring) ∧
      ({ postParser := starring } : Options).postParser = some starring ∧
      ({ postParser := starring } : Options).keepTypes = true ∧
      (∀ x ∈ linkedFields, (linking starring).Stands x) ∧
      linkedFields.IsChain (linking starring).Aliases ∧
      linkedFields.getLast? = some ⟨["y"], "y", "s"⟩ ∧
      Marker.Default.pattern.find? "s" = none ∧ Marker.Default.pattern.find? "*" = none ∧
      ∃ R, (linking starring).resolve 1 = .done R ∧
        ∀ x ∈ linkedFields, R.getPath? x.path = some (.string "*") := by
  have hfree : Marker.Default.pattern.find? "*" = none := by decide +kernel
  have hR := resolve_linking (f := starring) rfl hfree rfl
  refine ⟨ofTree_linking _, rfl, rfl, stands_linking _, isChain_linking _, rfl, find?_linked.2,
    hfree, _, hR, ?_⟩
  exact (resolve_aliases (ofTree_linking starring) rfl rfl (stands_linking _) (isChain_linking _)
    rfl find?_linked.2 rfl hfree hR).2.mpr (.inr rfl)

/-- Every string is put in brackets. -/
def bracketing : PostParser := fun _ text _ => .ok (.string ("[" ++ text ++ "]"))

/-- **The alias is put in brackets twice**, and the string once. -/
theorem resolve_bracketing :
    ofTree linked { postParser := bracketing } = .ok (linking bracketing) ∧
      (∀ x ∈ linkedFields, (linking bracketing).Stands x) ∧
      linkedFields.IsChain (linking bracketing).Aliases ∧
      Marker.Default.pattern.find? "s" = none ∧
      bracketing linked "s" {} = .ok (.string "[s]") ∧
      Marker.Default.pattern.find? "[s]" = none ∧
      (linking bracketing).resolve 1 =
        .done (.map [("x", .string "[[s]]"), ("y", .string "[s]")]) := by
  have hfree : Marker.Default.pattern.find? "[s]" = none := by decide +kernel
  exact ⟨ofTree_linking _, stands_linking _, isChain_linking _, find?_linked.2, rfl, hfree,
    resolve_linking (f := bracketing) rfl hfree rfl⟩

end Resolver

end RefTree
