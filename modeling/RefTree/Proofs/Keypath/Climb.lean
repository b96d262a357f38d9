import Mathlib.Algebra.GroupWithZero.Nat
import Mathlib.Logic.Function.Iterate
import RefTree.Proofs.Default
import RefTree.Proofs.Keypath.Canonical
import RefTree.Proofs.Marker.Grammar
import RefTree.Proofs.Regex.Code

/-!
# Proofs/Keypath/Climb — climbing as searches in the text of a key

A climb is made by two expressions.  The first finds a run of groups in a key, the second goes over
the run again and counts the tokens of each group in it.  Both read groups only, and a group is told
from what follows it since neither token nor separator holds the other (`groupText_unique`).  So the
run found is the longest one (`firstFrom_runRegex`), its groups are found one behind the other from
its start to its end (`spansFrom_groupRegex`), and they climb as many levels as the run does
(`climbSearch?_eq`).

A climb makes a key shorter by the bytes of a token at least, which bounds their number
(`exists_iterate_climbOnce?`).
-/

namespace RefTree

namespace Regex

/-- The matches stand one behind the other, from one offset to another. -/
def Tiles : Nat → List Span → Nat → Prop
  | first, [], last => first = last
  | first, m :: ms, last => m.start.offset = first ∧ Tiles m.stop.offset ms last

end Regex

namespace Keypath.Rules

open Text Regex Marker

variable (r : Rules)

/-! ## The two expressions -/

/-- The fewest tokens of a group that climbs; two are the most. -/
def leastTokens : Nat :=
  match r.mode with
  | .sibling => 2
  | .parent => 1

/-- The levels that the tokens of a group climb. -/
def levelsOf (tokens : Nat) : Nat :=
  match r.mode with
  | .sibling => tokens - 1
  | .parent => tokens

/-- A group with so many tokens. -/
def groupText (tokens : Nat) : List Char := copies tokens r.token ++ r.separator

/-- A group with so many tokens climbs. -/
def Climbing (tokens : Nat) : Prop := r.leastTokens ≤ tokens ∧ tokens ≤ 2

/-- The bounds of the tokens of a group that climbs. -/
def boundsSource : String :=
  match r.mode with
  | .sibling => "\x7b2\x7d"
  | .parent => "\x7b1,2\x7d"

/-- The expression of a run of groups that climb. -/
def runSource : String :=
  "(?:(?:" ++ escape (String.ofList r.token) ++ ")" ++ r.boundsSource ++
    escape (String.ofList r.separator) ++ ")+"

/-- The name of the group that holds the tokens. -/
def tokensGroup : String := "ups"

/-- The expression of one group in a run. -/
def groupSource : String :=
  "(?P<" ++ tokensGroup ++ ">(?:" ++ escape (String.ofList r.token) ++ ")\x7b1,2\x7d)" ++
    escape (String.ofList r.separator)

/-- Tokens, two at most. -/
def tokensRegex (least : Nat) : Regex := .times least (some 2) true (literals r.token .empty)

/-- Tokens, two at most, and a separator. -/
def closedTokens (tokens : Regex) : Regex := .cat tokens (literals r.separator .empty)

/-- A run of groups that climb. -/
def runRegex : Regex :=
  .cat (.times 1 none true (r.closedTokens (r.tokensRegex r.leastTokens))) .empty

/-- One group in a run. -/
def groupRegex : Regex := r.closedTokens (.named tokensGroup (.cat (r.tokensRegex 1) .empty))

/-- **The levels that the groups of a run climb**, each counted by the bytes of its tokens. -/
def climbCount (run : String) : Nat :=
  (((r.groupRegex.findAll run).filterMap (·.group? tokensGroup)).map fun tokens =>
    r.levelsOf (tokens.utf8ByteSize / byteLength r.token)).sum

/-- **One climb, as the two searches make it.** -/
def climbSearch? (text : List Char) : Option (List Char) :=
  (r.runRegex.find? (String.ofList text)).map fun m =>
    let segments := r.segmentsBefore (cutAt m.start.offset text).1
    let levels := r.climbCount (String.ofList (m.start.upTo m.stop))
    r.separator.intercalate (segments.take (segments.length - levels)) ++ r.separator ++
      (cutAt m.stop.offset text).2

variable {r}

theorem readsRepetitions_boundsSource :
    ReadsRepetitions r.boundsSource.toList (.times r.leastTokens (some 2) true) := by
  unfold boundsSource leastTokens
  cases r.mode with
  | sibling =>
    refine .of_step (by decide) fun rest hrest q fuel => ?_
    have hbounds : bounds {} ("2\x7d".toList ++ rest) = some ((2, some 2), rest) := rfl
    have htext : "\x7b2\x7d".toList ++ rest = '\x7b' :: ("2\x7d".toList ++ rest) := rfl
    simp only [htext]
    rw [repetitions, skip_default]
    simp only [hbounds, Option.bind_some, skip_default, greed_of_unrepeated hrest]
  | parent => exact .oneOrTwo

theorem readsItems_escape_ofList (names : List String) (text : List Char) :
    ReadsItems names (escape (String.ofList text)).toList (literals text .empty) names := by
  have h := readsItems_escape_last names (String.ofList text)
  rw [String.toList_ofList] at h
  exact h

theorem readsItem_token (names : List String) :
    ReadsItem names ("(?:".toList ++ (escape (String.ofList r.token)).toList ++ [')'])
      (literals r.token .empty) names :=
  .group (.of_items (readsItems_escape_ofList names r.token))

theorem parse_runSource : Regex.parse r.runSource = some r.runRegex := by
  have hgroup := ReadsItems.cons (readsItem_token (r := r) [])
    (readsRepetitions_boundsSource (r := r)) (readsItems_escape_ofList [] r.separator)
  have hplus : ReadsRepetitions ['+'] (.times 1 none true) := .operator (by decide)
  have hrun := ReadsItems.cons (.group (.of_items hgroup)) hplus (.nil [])
  exact ReadsAlternatives.parse (.of_items (hrun.of_eq (by simp [runSource])))

theorem parse_groupSource : Regex.parse r.groupSource = some r.groupRegex := by
  have htokens := ReadsItems.cons (readsItem_token (r := r) [tokensGroup]) .oneOrTwo (.nil _)
  have hnamed : ReadsItem [] _ (.named tokensGroup (.cat (r.tokensRegex 1) .empty)) _ :=
    .named (fun rest => rfl) List.not_mem_nil (.of_items htokens)
  have hgroup := ReadsItems.cons hnamed .once (readsItems_escape_ofList _ r.separator)
  exact ReadsAlternatives.parse (.of_items (hgroup.of_eq (by simp [groupSource])))

/-! ## Groups -/

theorem groupText_ne_nil (n : Nat) : r.groupText n ≠ [] := by
  simp [groupText, r.apart.1]

/-- **A group is told from what follows it.** -/
theorem groupText_unique {m n : Nat} {x y : List Char}
    (h : r.groupText m ++ x = r.groupText n ++ y) : m = n := by
  -- the separator of the shorter one would stand where the longer one has a token
  have hlt : ∀ {m n : Nat} {x y : List Char}, r.groupText m ++ x = r.groupText n ++ y →
      ¬ m < n := by
    intro m n x y h hlt
    obtain ⟨k, rfl⟩ : ∃ k, n = m + (1 + k) := ⟨n - m - 1, by omega⟩
    rw [groupText, groupText, copies_add, copies_add, copies_one] at h
    simp only [List.append_assoc, List.append_cancel_left_eq] at h
    rcases List.prefix_or_prefix_of_prefix ⟨x, h⟩ (List.prefix_append r.token _) with hle | hge
    · exact r.apart.2.2.2 hle.isInfix
    · exact r.apart.2.2.1 hge.isInfix
  exact Nat.le_antisymm (Nat.le_of_not_lt (hlt h.symm)) (Nat.le_of_not_lt (hlt h))

theorem climbing_two : r.Climbing 2 := by
  unfold Climbing leastTokens
  cases r.mode <;> decide

theorem group?_eq_some_iff {text rest : List Char} {levels : Nat} :
    r.group? text = some (levels, rest) ↔
      ∃ n, r.Climbing n ∧ levels = r.levelsOf n ∧ text = r.groupText n ++ rest := by
  have htwo : ∀ x, after? (r.token ++ r.token ++ r.separator) text = some x ↔
      text = r.groupText 2 ++ x := fun x => by rw [after?_eq_some_iff, groupText, copies_two]
  have hone : ∀ x, after? (r.token ++ r.separator) text = some x ↔
      text = r.groupText 1 ++ x := fun x => by rw [after?_eq_some_iff, groupText, copies_one]
  cases hafter : after? (r.token ++ r.token ++ r.separator) text with
  | some x =>
    have htext := (htwo x).mp hafter
    have hgroup : r.group? text = some (r.levelsOf 2, x) := by
      unfold group? levelsOf
      rw [hafter]
      cases r.mode <;> rfl
    rw [hgroup]
    constructor
    · intro h
      cases h
      exact ⟨2, climbing_two, rfl, htext⟩
    · rintro ⟨n, -, rfl, heq⟩
      obtain rfl := groupText_unique (htext.symm.trans heq)
      rw [List.append_cancel_left (htext.symm.trans heq)]
  | none =>
    have hne : text ≠ r.groupText 2 ++ rest := fun heq => by
      cases hafter.symm.trans ((htwo rest).mpr heq)
    unfold group? Climbing leastTokens levelsOf
    rw [hafter]
    cases r.mode with
    | sibling =>
      refine iff_of_false nofun ?_
      rintro ⟨n, ⟨hle, hge⟩, -, heq⟩
      obtain rfl : n = 2 := Nat.le_antisymm hge hle
      exact hne heq
    | parent =>
      simp only [Option.map_eq_some_iff, Prod.mk.injEq, hone]
      constructor
      · rintro ⟨x, htext, rfl, rfl⟩
        exact ⟨1, ⟨Nat.le_refl 1, Nat.le_succ 1⟩, rfl, htext⟩
      · rintro ⟨n, ⟨hle, hge⟩, hlevels, heq⟩
        obtain rfl | rfl : n = 1 ∨ n = 2 := by omega
        · exact ⟨rest, heq, hlevels.symm, rfl⟩
        · exact absurd heq hne

/-- Groups with these numbers of tokens, one behind the other. -/
def groupsText (r : Rules) (ns : List Nat) : List Char := ns.flatMap r.groupText

theorem exists_groups (text : List Char) :
    ∃ ns, (∀ n ∈ ns, r.Climbing n) ∧ text = r.groupsText ns ++ (r.groups text).2 ∧
      (r.groups text).1 = (ns.map r.levelsOf).sum := by
  fun_induction groups r text with
  | case1 text h => exact ⟨[], by simp, rfl, rfl⟩
  | case2 text levels rest h more ih =>
    obtain ⟨n, hn, rfl, rfl⟩ := group?_eq_some_iff.mp h
    obtain ⟨ns, hns, htext, hlevels⟩ := ih
    refine ⟨n :: ns, List.forall_mem_cons.mpr ⟨hn, hns⟩, ?_, ?_⟩
    · rw [groupsText, List.flatMap_cons, List.append_assoc]
      exact congrArg (r.groupText n ++ ·) htext
    · rw [List.map_cons, List.sum_cons, ← hlevels]

/-- **The first run** is groups one behind the other, one at least. -/
theorem exists_firstRun? {text before rest : List Char} {levels : Nat}
    (h : r.firstRun? text = some (before, levels, rest)) :
    ∃ ns, ns ≠ [] ∧ (∀ n ∈ ns, r.Climbing n) ∧ text = before ++ r.groupsText ns ++ rest ∧
      levels = (ns.map r.levelsOf).sum := by
  induction text generalizing before with
  | nil => cases h
  | cons c cs ih =>
    rw [firstRun?] at h
    split at h
    · next found hgroup =>
      obtain ⟨n, hn, rfl, htext⟩ := group?_eq_some_iff.mp hgroup
      obtain ⟨ns, hns, hfound, hlevels⟩ := exists_groups (r := r) found
      simp only [Option.some.injEq, Prod.mk.injEq] at h
      obtain ⟨rfl, rfl, rfl⟩ := h
      refine ⟨n :: ns, List.cons_ne_nil _ _, List.forall_mem_cons.mpr ⟨hn, hns⟩, ?_, ?_⟩
      · rw [htext, groupsText, List.flatMap_cons, List.nil_append, List.append_assoc]
        exact congrArg (r.groupText n ++ ·) hfound
      · rw [List.map_cons, List.sum_cons, ← hlevels]
    · obtain ⟨⟨b, l, x⟩, hrun, heq⟩ := Option.map_eq_some_iff.mp h
      simp only [Prod.mk.injEq] at heq
      obtain ⟨rfl, rfl, rfl⟩ := heq
      obtain ⟨ns, hne, hns, hcs, hlevels⟩ := ih hrun
      exact ⟨ns, hne, hns, by rw [hcs]; rfl, hlevels⟩

/-! ## The texts of the expressions -/

theorem mem_language_tokensRegex {least : Nat} {w : List Char} :
    w ∈ language (r.tokensRegex least) ↔
      ∃ n, least ≤ n ∧ n ≤ max least 2 ∧ w = copies n r.token := by
  have hpow : ∀ n : Nat, ({r.token} : Language Char) ^ n = {copies n r.token} := by
    intro n
    induction n with
    | zero => rfl
    | succ n ih => rw [pow_succ', ih, singleton_mul_singleton, copies_succ]
  have htokens : ∀ n, w ∈ language (literals r.token .empty) ^ n ↔ w = copies n r.token := by
    intro n
    rw [language_literals_last, hpow]
    rfl
  simp only [tokensRegex, language, Option.some.injEq, forall_eq']
  exact exists_congr fun n => and_congr_right fun _ => and_congr_right fun _ => htokens n

theorem mem_language_closedTokens {q : Regex} {w : List Char} :
    w ∈ language (r.closedTokens q) ↔ ∃ v ∈ language q, w = v ++ r.separator := by
  rw [closedTokens, language_cat, language_literals_last, Language.mem_mul]
  constructor
  · rintro ⟨v, hv, x, rfl, rfl⟩
    exact ⟨v, hv, rfl⟩
  · rintro ⟨v, hv, rfl⟩
    exact ⟨v, hv, r.separator, rfl, rfl⟩

theorem mem_language_run {w : List Char} :
    w ∈ language (r.closedTokens (r.tokensRegex r.leastTokens)) ↔
      ∃ n, r.Climbing n ∧ w = r.groupText n := by
  have hmost : max r.leastTokens 2 = 2 := by
    unfold leastTokens
    cases r.mode <;> rfl
  simp only [mem_language_closedTokens, mem_language_tokensRegex, hmost, Climbing, groupText]
  constructor
  · rintro ⟨v, ⟨n, hle, hge, rfl⟩, rfl⟩
    exact ⟨n, ⟨hle, hge⟩, rfl⟩
  · rintro ⟨n, ⟨hle, hge⟩, rfl⟩
    exact ⟨_, ⟨n, hle, hge, rfl⟩, rfl⟩

theorem mem_language_groupRegex {w : List Char} :
    w ∈ language r.groupRegex ↔ ∃ n, 1 ≤ n ∧ n ≤ 2 ∧ w = r.groupText n := by
  rw [groupRegex, mem_language_closedTokens]
  simp only [language, mul_one]
  simp only [mem_language_tokensRegex, groupText]
  constructor
  · rintro ⟨v, ⟨n, hle, hge, rfl⟩, rfl⟩
    exact ⟨n, hle, hge, rfl⟩
  · rintro ⟨n, hle, hge, rfl⟩
    exact ⟨_, ⟨n, hle, hge, rfl⟩, rfl⟩

/-- **Groups are a code.** -/
theorem isCode_of_forall {L : Language Char} (h : ∀ w ∈ L, ∃ n, w = r.groupText n) : IsCode L := by
  refine ⟨fun w hw => ?_, fun u hu v hv x y heq => ?_⟩
  · obtain ⟨n, rfl⟩ := h w hw
    exact groupText_ne_nil n
  · obtain ⟨m, rfl⟩ := h u hu
    obtain ⟨n, rfl⟩ := h v hv
    rw [groupText_unique heq]

/-! ## The run that is found -/

/-- **A round of a run** reads the group in front of the text, if there is one. -/
theorem ends_of_group? {s : Cursor} {levels : Nat} {rest : List Char}
    (h : r.group? s.rest = some (levels, rest)) :
    ∃ t, ends (r.closedTokens (r.tokensRegex r.leastTokens)) s = [t] ∧ s.offset < t.offset ∧
      t.rest = rest ∧ s.Within t := by
  obtain ⟨n, hn, rfl, htext⟩ := group?_eq_some_iff.mp h
  have hlook : lookFree (r.closedTokens (r.tokensRegex r.leastTokens)) = true := by
    simp [closedTokens, tokensRegex, lookFree, lookFree_literals]
  have hcode : IsCode (language (r.closedTokens (r.tokensRegex r.leastTokens))) :=
    isCode_of_forall (r := r) fun w hw => (mem_language_run.mp hw).imp fun _ h => h.2
  obtain ⟨t, hends, hreads⟩ :=
    ends_of_code hlook hcode (mem_language_run.mpr ⟨n, hn, rfl⟩) htext
  have hpos := mt byteLength_eq_zero_iff.mp (groupText_ne_nil (r := r) n)
  refine ⟨t, hends, by have := hreads.offset; omega, ?_, ⟨_, hreads⟩⟩
  exact List.append_cancel_left (hreads.rest.symm.trans htext)

theorem ends_of_group?_none {s : Cursor} (h : r.group? s.rest = none) :
    ends (r.closedTokens (r.tokensRegex r.leastTokens)) s = [] := by
  refine ends_eq_nil fun w hw ⟨rest, hrest⟩ => ?_
  obtain ⟨n, hn, rfl⟩ := mem_language_run.mp hw
  cases h.symm.trans (group?_eq_some_iff.mpr ⟨n, hn, rfl, hrest.symm⟩)

theorem groups_of_group?_none {text : List Char} (h : r.group? text = none) :
    r.groups text = (0, text) := by
  rw [groups]
  split
  · rfl
  · next heq => cases h.symm.trans heq

theorem groups_of_group?_some {text rest : List Char} {levels : Nat}
    (h : r.group? text = some (levels, rest)) :
    r.groups text = (levels + (r.groups rest).1, (r.groups rest).2) := by
  rw [groups]
  split
  · next heq => cases h.symm.trans heq
  · next heq =>
    cases h.symm.trans heq
    rfl

/-- Further rounds are preferred as long as there are groups. -/
theorem head?_rounds {fuel : Nat} {s : Cursor} {seen : List Nat} (hfuel : s.rest.length < fuel)
    (hseen : ∀ o ∈ seen, o ≤ s.offset) {levels : Nat} {rest : List Char}
    (h : r.group? s.rest = some (levels, rest)) :
    ∃ t, (rounds (ends (r.closedTokens (r.tokensRegex r.leastTokens))) true fuel s seen).1.head? =
      some t ∧ t.rest = (r.groups rest).2 ∧ s.Within t := by
  induction fuel generalizing s seen levels rest with
  | zero => exact absurd hfuel (Nat.not_lt_zero _)
  | succ fuel ih =>
    obtain ⟨t, hends, hlt, rfl, hwithin⟩ := ends_of_group? h
    rw [head?_rounds_of_ends hends hlt fun hmem => absurd (hseen _ hmem) (Nat.not_le_of_lt hlt)]
    cases hnext : r.group? t.rest with
    | none =>
      refine ⟨t, ?_, by rw [groups_of_group?_none hnext], hwithin⟩
      rw [rounds_of_nil (ends_of_group?_none hnext)]
      rfl
    | some found =>
      have hlen := r.length_group? h
      have hpos := r.length_token_pos
      have hseen' : ∀ o ∈ t.offset :: seen, o ≤ t.offset :=
        List.forall_mem_cons.mpr
          ⟨Nat.le_refl _, fun o ho => Nat.le_trans (hseen o ho) (Nat.le_of_lt hlt)⟩
      obtain ⟨u, hhead, hrest, w, hreads⟩ := ih (by omega) hseen' hnext
      refine ⟨u, by rw [hhead]; rfl, ?_, hwithin.trans hreads⟩
      rw [hrest, groups_of_group?_some hnext]

/-- **At a group, a match of a run goes on to the last group in a row.** -/
theorem head?_ends_runRegex (s : Cursor) :
    (r.group? s.rest = none → (ends r.runRegex s).head? = none) ∧
      ∀ levels rest, r.group? s.rest = some (levels, rest) →
        ∃ t, (ends r.runRegex s).head? = some t ∧ t.rest = (r.groups rest).2 ∧ s.Within t := by
  rw [runRegex, head?_ends_cat_empty, head?_ends_oneOrMore]
  refine ⟨fun h => ?_, fun levels rest h => ?_⟩
  · rw [rounds_of_nil (ends_of_group?_none h)]
    rfl
  · exact head?_rounds (Nat.lt_succ_self _) (List.forall_mem_nil _) h

/-- **The search for a run finds the first one**, up to the last of its groups. -/
theorem firstFrom_runRegex (text : List Char) (offset : Nat) (previous : Option Char) :
    (r.firstRun? text = none → firstFrom r.runRegex offset previous text = none) ∧
      ∀ before levels rest, r.firstRun? text = some (before, levels, rest) →
        ∃ m, firstFrom r.runRegex offset previous text = some m ∧ m.stop.rest = rest ∧
          m.start.offset = offset + byteLength before ∧ text = before ++ m.start.rest ∧
            m.start.Within m.stop := by
  induction text generalizing offset previous with
  | nil =>
    have hgroup : r.group? [] = none := by
      rw [Option.eq_none_iff_forall_ne_some]
      rintro ⟨levels, rest⟩ h
      have := r.length_group? h
      have := r.length_token_pos
      simp only [List.length_nil] at *
      omega
    have hnone := (head?_ends_runRegex ⟨offset, previous, [], []⟩).1 hgroup
    refine ⟨fun _ => ?_, nofun⟩
    rw [firstFrom, hnone]
    rfl
  | cons c cs ih =>
    obtain ⟨hnone, hsome⟩ := head?_ends_runRegex (r := r) ⟨offset, previous, c :: cs, []⟩
    obtain ⟨ihnone, ihsome⟩ := ih (offset + c.utf8Size) (some c)
    rw [firstRun?, firstFrom]
    cases hgroup : r.group? (c :: cs) with
    | some found =>
      obtain ⟨t, hhead, hrest, hwithin⟩ := hsome found.1 found.2 hgroup
      simp only [hhead]
      refine ⟨fun heq => absurd heq (Option.some_ne_none _), fun before levels rest heq => ?_⟩
      simp only [Option.some.injEq, Prod.mk.injEq] at heq
      obtain ⟨rfl, -, rfl⟩ := heq
      exact ⟨_, rfl, hrest, rfl, rfl, hwithin⟩
    | none =>
      simp only [hnone hgroup, Option.map_eq_none_iff, Option.map_eq_some_iff]
      refine ⟨ihnone, ?_⟩
      rintro before levels rest ⟨⟨b, l, x⟩, hrun, heq⟩
      simp only [Prod.mk.injEq] at heq
      obtain ⟨rfl, rfl, rfl⟩ := heq
      obtain ⟨m, hm, hrest, hoffset, htext, hwithin⟩ := ihsome b l x hrun
      refine ⟨m, hm, hrest, ?_, by rw [htext]; rfl, hwithin⟩
      rw [hoffset, byteLength]
      omega

/-! ## The groups that are counted -/

theorem ends_groupRegex {s : Cursor} {n : Nat} (hn : 1 ≤ n ∧ n ≤ 2) {rest : List Char}
    (h : s.rest = r.groupText n ++ rest) :
    ∃ t, ends r.groupRegex s = [t] ∧ s.Reads (r.groupText n) t ∧
      t.groups = (tokensGroup, copies n r.token) :: s.groups := by
  have hlook : lookFree r.groupRegex = true := by
    simp [groupRegex, closedTokens, tokensRegex, lookFree, lookFree_literals]
  have hcode : IsCode (language r.groupRegex) :=
    isCode_of_forall (r := r) fun w hw => (mem_language_groupRegex.mp hw).imp fun _ h => h.2.2
  obtain ⟨t, hends, hreads⟩ :=
    ends_of_code hlook hcode (mem_language_groupRegex.mpr ⟨n, hn.1, hn.2, rfl⟩) h
  refine ⟨t, hends, hreads, ?_⟩
  obtain ⟨u, hu, ht⟩ := exists_of_mem_ends_cat (hends ▸ List.mem_singleton_self t)
  obtain ⟨v, hv, rfl⟩ := List.mem_map.mp hu
  obtain ⟨w, hw, hreadsv⟩ := ends_sound _ s v hv
  obtain ⟨x, hx, hreadst⟩ := ends_sound _ _ t ht
  rw [language_literals_last] at hx
  obtain rfl : x = r.separator := hx
  have hrecord : s.Reads w (s.record tokensGroup v) := ⟨hreadsv.rest, hreadsv.offset⟩
  have heq := ((hrecord.trans hreadst).unique hreads rfl).1
  rw [groupText, List.append_cancel_right_eq] at heq
  have hlast : groupFree (literals r.separator .empty) = true := by
    rw [groupFree_literals]
    rfl
  have hfirst : groupFree (.cat (r.tokensRegex 1) .empty) = true := by
    simp [tokensRegex, groupFree, groupFree_literals]
  rw [groups_eq_of_mem_ends hlast _ t ht, Cursor.record, hreadsv.upTo, heq,
    groups_eq_of_mem_ends hfirst _ v hv]

/-- The search for a group finds the one in front of the text. -/
theorem first?_groupRegex {s : Cursor} {n : Nat} (hn : 1 ≤ n ∧ n ≤ 2) {rest : List Char}
    (h : s.rest = r.groupText n ++ rest) :
    ∃ t, first? r.groupRegex s = some ⟨{ s with groups := [] }, t⟩ ∧ t.rest = rest ∧
      t.offset = s.offset + byteLength (r.groupText n) ∧
        t.groups = [(tokensGroup, copies n r.token)] := by
  have hrest : { s with groups := [] }.rest = r.groupText n ++ rest := h
  obtain ⟨t, hends, hreads, hgroups⟩ := ends_groupRegex hn hrest
  refine ⟨t, first?_of_head?_ends (by rw [hends]; rfl), ?_, hreads.offset, hgroups⟩
  exact List.append_cancel_left (hreads.rest.symm.trans hrest)

theorem first?_groupRegex_of_nil {s : Cursor} (h : s.rest = []) :
    first? r.groupRegex s = none := by
  have hends : ends r.groupRegex ⟨s.offset, s.previous, [], []⟩ = [] := by
    refine ends_eq_nil fun w hw hfront => ?_
    obtain ⟨n, -, -, rfl⟩ := mem_language_groupRegex.mp hw
    exact groupText_ne_nil n (List.prefix_nil.mp hfront)
  rw [first?, h, firstFrom, hends]
  rfl

/-- **The groups of a run are found one behind the other**, from its start to its end, each with its
tokens. -/
theorem spansFrom_groupRegex {ns : List Nat} (hns : ∀ n ∈ ns, 1 ≤ n ∧ n ≤ 2) {fuel : Nat}
    (hfuel : ns.length < fuel) {s : Cursor} (hs : s.rest = r.groupsText ns)
    (lastEnd : Option Nat) :
    Tiles s.offset (spansFrom r.groupRegex fuel s lastEnd)
        (s.offset + byteLength (r.groupsText ns)) ∧
      (spansFrom r.groupRegex fuel s lastEnd).map (·.group? tokensGroup) =
        ns.map fun n => some (String.ofList (copies n r.token)) := by
  induction ns generalizing fuel s lastEnd with
  | nil =>
    obtain ⟨fuel, rfl⟩ := Nat.exists_eq_succ_of_ne_zero (Nat.ne_zero_of_lt hfuel)
    rw [spansFrom, nextSpan?, first?_groupRegex_of_nil hs]
    exact ⟨rfl, rfl⟩
  | cons n ns ih =>
    obtain ⟨fuel, rfl⟩ := Nat.exists_eq_succ_of_ne_zero (Nat.ne_zero_of_lt hfuel)
    obtain ⟨hn, hns⟩ := List.forall_mem_cons.mp hns
    have hs : s.rest = r.groupText n ++ r.groupsText ns := hs
    obtain ⟨t, hfirst, hrest, hoffset, hgroups⟩ := first?_groupRegex hn hs
    obtain ⟨htiles, htokens⟩ :=
      ih hns (Nat.lt_of_succ_lt_succ hfuel) (s := { t with groups := [] }) hrest (some t.offset)
    have hpos := mt byteLength_eq_zero_iff.mp (groupText_ne_nil (r := r) n)
    have hne : Span.isEmpty ⟨{ s with groups := [] }, t⟩ = false := by
      rw [Span.isEmpty, beq_eq_false_iff_ne]
      simp only
      omega
    have hbytes : byteLength (r.groupsText (n :: ns)) =
        byteLength (r.groupText n) + byteLength (r.groupsText ns) := by
      rw [groupsText, List.flatMap_cons, byteLength_append, groupsText]
    rw [spansFrom, nextSpan?, hfirst]
    simp only [hne, Bool.false_and, Bool.false_eq_true, if_false]
    refine ⟨⟨rfl, ?_⟩, ?_⟩
    · rw [hbytes, ← Nat.add_assoc, ← hoffset]
      exact htiles
    · rw [List.map_cons, List.map_cons, htokens, Span.group?, hgroups, List.lookup_cons_self]
      rfl

theorem one_le_of_climbing {n : Nat} (h : r.Climbing n) : 1 ≤ n ∧ n ≤ 2 := by
  refine ⟨Nat.le_trans ?_ h.1, h.2⟩
  unfold leastTokens
  cases r.mode <;> decide

theorem length_le_length_groupsText (r : Rules) (ns : List Nat) :
    ns.length ≤ (r.groupsText ns).length := by
  induction ns with
  | nil => exact Nat.le_refl _
  | cons n ns ih =>
    have := List.length_pos_iff.mpr (groupText_ne_nil (r := r) n)
    rw [groupsText] at ih ⊢
    rw [List.flatMap_cons, List.length_append, List.length_cons]
    omega

theorem findAll_groupRegex {ns : List Nat} (hns : ∀ n ∈ ns, r.Climbing n) :
    Tiles 0 (r.groupRegex.findAll (String.ofList (r.groupsText ns)))
        (byteLength (r.groupsText ns)) ∧
      (r.groupRegex.findAll (String.ofList (r.groupsText ns))).map (·.group? tokensGroup) =
        ns.map fun n => some (String.ofList (copies n r.token)) := by
  have hlen := length_le_length_groupsText r ns
  have hfuel : ns.length < (r.groupsText ns).length + 2 := by omega
  have h := spansFrom_groupRegex (r := r) (fun n hn => one_le_of_climbing (hns n hn)) hfuel
    (s := .start (r.groupsText ns)) rfl none
  rw [Cursor.start, Nat.zero_add] at h
  rw [findAll, String.toList_ofList]
  exact h

theorem byteLength_copies (n : Nat) (text : List Char) :
    byteLength (copies n text) = n * byteLength text := by
  induction n with
  | zero => simp [byteLength]
  | succ n ih => rw [copies_succ, byteLength_append, ih, Nat.succ_mul, Nat.add_comm]

theorem byteLength_token_pos (r : Rules) : 0 < byteLength r.token :=
  Nat.pos_of_ne_zero (mt byteLength_eq_zero_iff.mp r.apart.2.1)

/-- **The groups that are counted climb the levels of their run.** -/
theorem climbCount_groupsText {ns : List Nat} (hns : ∀ n ∈ ns, r.Climbing n) :
    r.climbCount (String.ofList (r.groupsText ns)) = (ns.map r.levelsOf).sum := by
  have hcount : ∀ n, (String.ofList (copies n r.token)).utf8ByteSize / byteLength r.token = n := by
    intro n
    rw [← byteLength_toList, String.toList_ofList, byteLength_copies,
      Nat.mul_div_cancel _ r.byteLength_token_pos]
  have hfound : (r.groupRegex.findAll (String.ofList (r.groupsText ns))).filterMap
      (·.group? tokensGroup) = ns.map fun n => String.ofList (copies n r.token) := by
    have hmap := congrArg (List.filterMap id) (findAll_groupRegex hns).2
    rw [List.filterMap_map, List.filterMap_map] at hmap
    simpa using hmap
  rw [climbCount, hfound, List.map_map]
  simp only [Function.comp_def, hcount]

/-! ## Climbs -/

/-- **A climb in the text**: `before` is what stands in front of the first run, `ns` the numbers of
tokens of its groups, and `rest` what follows it. -/
structure ClimbsIn (r : Rules) (text before : List Char) (ns : List Nat) (rest next : List Char) :
    Prop where
  text_eq : text = before ++ r.groupsText ns ++ rest
  ne_nil : ns ≠ []
  climbing : ∀ n ∈ ns, r.Climbing n
  next_eq : next = r.separator.intercalate ((r.segmentsBefore before).take
    ((r.segmentsBefore before).length - (ns.map r.levelsOf).sum)) ++ r.separator ++ rest

theorem exists_climbsIn {text next : List Char} (h : r.climbOnce? text = some next) :
    ∃ before ns rest, r.firstRun? text = some (before, (ns.map r.levelsOf).sum, rest) ∧
      r.ClimbsIn text before ns rest next := by
  obtain ⟨⟨before, levels, rest⟩, hrun, rfl⟩ := Option.map_eq_some_iff.mp h
  obtain ⟨ns, hne, hns, htext, rfl⟩ := exists_firstRun? hrun
  exact ⟨before, ns, rest, hrun, htext, hne, hns, rfl⟩

/-- **Where the search finds a run**: the climb is made there. -/
theorem ClimbsIn.exists_find? {text before rest next : List Char} {ns : List Nat}
    (h : r.ClimbsIn text before ns rest next)
    (hrun : r.firstRun? text = some (before, (ns.map r.levelsOf).sum, rest)) :
    ∃ m, r.runRegex.find? (String.ofList text) = some m ∧
      m.start.offset = byteLength before ∧ m.start.upTo m.stop = r.groupsText ns ∧
        m.stop.offset = byteLength (before ++ r.groupsText ns) := by
  obtain ⟨m, hm, rfl, hoffset, htext, w, hreads⟩ :=
    (firstFrom_runRegex text 0 none).2 before _ rest hrun
  have hw : w = r.groupsText ns := by
    have heq := htext.symm.trans h.text_eq
    rw [hreads.rest, ← List.append_assoc] at heq
    exact List.append_cancel_left (List.append_cancel_right heq)
  rw [Nat.zero_add] at hoffset
  refine ⟨m, ?_, hoffset, by rw [hreads.upTo, hw], ?_⟩
  · rw [find?, String.toList_ofList]
    exact hm
  · rw [hreads.offset, hoffset, hw, byteLength_append]

/-- **The two searches make the climb.** -/
theorem climbSearch?_eq (text : List Char) : r.climbSearch? text = r.climbOnce? text := by
  rw [climbSearch?]
  cases hclimb : r.climbOnce? text with
  | none =>
    have hrun : r.firstRun? text = none := Option.map_eq_none_iff.mp hclimb
    have hfind : r.runRegex.find? (String.ofList text) = none := by
      rw [find?, String.toList_ofList]
      exact (firstFrom_runRegex text 0 none).1 hrun
    rw [hfind, Option.map_none]
  | some next =>
    obtain ⟨before, ns, rest, hrun, h⟩ := exists_climbsIn hclimb
    obtain ⟨m, hfind, hstart, hupTo, hstop⟩ := h.exists_find? hrun
    have hbefore : (cutAt m.start.offset text).1 = before := by
      rw [hstart, h.text_eq, List.append_assoc, cutAt_byteLength]
    have hrest : (cutAt m.stop.offset text).2 = rest := by
      rw [hstop, h.text_eq, cutAt_byteLength]
    rw [hfind, Option.map_some, hbefore, hrest, hupTo, climbCount_groupsText h.climbing, h.next_eq]

/-! ## Bytes -/

theorem byteLength_le_of_prefix {u v : List Char} (h : u <+: v) : byteLength u ≤ byteLength v := by
  obtain ⟨w, rfl⟩ := h
  rw [byteLength_append]
  exact Nat.le_add_right _ _

theorem intercalate_take_prefix_intercalate {α : Type} (separator : List α) :
    ∀ (n : Nat) (ps : List (List α)),
      separator.intercalate (ps.take n) <+: separator.intercalate ps
  | 0, _ => by simp
  | _ + 1, [] => by simp
  | _ + 1, [p] => by simp
  | 0 + 1, p :: q :: ps => by simp
  | n + 1 + 1, p :: q :: ps => by
    have ih := intercalate_take_prefix_intercalate separator (n + 1) (q :: ps)
    simp only [List.take_succ_cons, List.intercalate_cons_cons] at ih ⊢
    exact (List.prefix_append_right_inj _).mpr ih

/-- What is left in front of a run stood there before. -/
theorem segmentsBefore_prefix_stripBack (before : List Char) (n : Nat) :
    r.separator.intercalate ((r.segmentsBefore before).take n) <+: before := by
  refine (intercalate_take_prefix_intercalate r.separator n _).trans ?_
  have hstrip : stripBack r.separator before <+: before := by
    rw [stripBack_eq]
    cases hbefore : before? r.separator before with
    | none => exact List.prefix_refl before
    | some rest => exact before?_eq_some_iff.mp hbefore ▸ List.prefix_append rest _
  unfold segmentsBefore
  simp only
  split
  · simp
  · rwa [intercalate_pieces]

/-- **A climb makes the text shorter by the bytes of a token at least.** -/
theorem byteLength_climbOnce? {text next : List Char} (h : r.climbOnce? text = some next) :
    byteLength next + byteLength r.token ≤ byteLength text := by
  obtain ⟨before, ns, rest, -, htext, hne, hns, rfl⟩ := exists_climbsIn h
  obtain ⟨n, ns, rfl⟩ := List.exists_cons_of_ne_nil hne
  have hkept := byteLength_le_of_prefix (segmentsBefore_prefix_stripBack (r := r) before
    ((r.segmentsBefore before).length - ((n :: ns).map r.levelsOf).sum))
  have htokens := Nat.mul_le_mul_right (byteLength r.token)
    (one_le_of_climbing (hns n List.mem_cons_self)).1
  rw [htext, groupsText, List.flatMap_cons, groupText]
  simp only [byteLength_append, byteLength_copies] at hkept ⊢
  omega

/-- **Climbing ends after so many climbs** as tokens fit into the bytes that are lost. -/
theorem exists_iterate_climbOnce? (text : List Char) :
    ∃ n, n * byteLength r.token + byteLength (r.climb text) ≤ byteLength text ∧
      (·.bind r.climbOnce?)^[n] (some text) = some (r.climb text) ∧
        r.climbOnce? (r.climb text) = none := by
  fun_induction climb r text with
  | case1 text h => exact ⟨0, by simp, rfl, h⟩
  | case2 text next h ih =>
    obtain ⟨n, hle, hiterate, hend⟩ := ih
    have := byteLength_climbOnce? h
    refine ⟨n + 1, ?_, ?_, hend⟩
    · rw [Nat.succ_mul]
      omega
    · rw [Function.iterate_succ_apply, Option.bind_some, h, hiterate]

/-- **Climbing ends on every text.**  The climb that two expressions make is the one that joining
segments makes; the groups that the second one finds in a run tile it from its start to its end;
every climb makes the text shorter by the bytes of a token at least, so there are no more climbs
than tokens fit into the text. -/
theorem climb_bounded (r : Rules) (text : List Char) :
    Regex.parse r.runSource = some r.runRegex ∧
      Regex.parse r.groupSource = some r.groupRegex ∧
      r.climbSearch? text = r.climbOnce? text ∧
      (∀ m, r.runRegex.find? (String.ofList text) = some m →
        Tiles 0 (r.groupRegex.findAll (String.ofList (m.start.upTo m.stop)))
          (byteLength (m.start.upTo m.stop))) ∧
      (∀ next, r.climbOnce? text = some next →
        byteLength next + byteLength r.token ≤ byteLength text) ∧
      (∃ n ≤ byteLength text / byteLength r.token,
        (·.bind r.climbOnce?)^[n] (some text) = some (r.climb text) ∧
          r.climbOnce? (r.climb text) = none) ∧
      ∀ segments, text = (r.path segments).toList →
        r.join segments =
          String.ofList (stripFront r.separator (r.collapse (r.settle (r.climb text)))) := by
  refine ⟨parse_runSource, parse_groupSource, climbSearch?_eq text, fun m hm => ?_,
    fun next => byteLength_climbOnce?, ?_, fun segments htext => ?_⟩
  · cases hclimb : r.climbOnce? text with
    | none =>
      have hsearch := (climbSearch?_eq (r := r) text).trans hclimb
      rw [climbSearch?, hm] at hsearch
      cases hsearch
    | some next =>
      obtain ⟨before, ns, rest, hrun, h⟩ := exists_climbsIn hclimb
      obtain ⟨m', hfind, -, hupTo, -⟩ := h.exists_find? hrun
      obtain rfl := Option.some.inj (hm.symm.trans hfind)
      rw [hupTo]
      exact (findAll_groupRegex h.climbing).1
  · obtain ⟨n, hle, hiterate, hend⟩ := exists_iterate_climbOnce? (r := r) text
    refine ⟨n, (Nat.le_div_iff_mul_le r.byteLength_token_pos).mpr ?_, hiterate, hend⟩
    omega
  · rw [htext, path, String.toList_ofList, join, normalize]

theorem climb_bounded_default :
    ∃ n ≤ 15, (·.bind default.climbOnce?)^[n] (some "a.b.c.--.d.--.e".toList) =
      some "a.b.e".toList := by
  obtain ⟨-, -, -, -, -, ⟨n, hn, hiterate, -⟩, -⟩ :=
    climb_bounded default "a.b.c.--.d.--.e".toList
  have hclimb : default.climb "a.b.c.--.d.--.e".toList = "a.b.e".toList := by decide +kernel
  exact ⟨n, hn, hclimb ▸ hiterate⟩

end Keypath.Rules

end RefTree
