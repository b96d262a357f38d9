import Mathlib.Computability.Language
import RefTree.Regex.Search
import RefTree.Text.Bytes

/-!
# Proofs/Regex/Language — the texts a regular expression stands for

`language r` leaves out what a match is like and keeps which texts it reads: the ends of a match
read texts of the language only (`ends_sound`).  What is known of one round of a repetition carries
over to all its ends, since each is reached in as many rounds as the bounds allow
(`rounds_of_mem_repeated`).  The characters of the texts are those of the sets of the expression
(`Over.forall_mem`).
-/

namespace RefTree.Regex

/-! ## Places -/

namespace Cursor

/-- `t` is the place where one comes to by reading `w` from `s`. -/
structure Reads (s : Cursor) (w : List Char) (t : Cursor) : Prop where
  rest : s.rest = w ++ t.rest
  offset : t.offset = s.offset + Text.byteLength w

/-- `t` is a place at or after `s`. -/
def Within (s t : Cursor) : Prop := ∃ w, s.Reads w t

variable {s t u : Cursor} {v w : List Char}

namespace Reads

theorem refl (s : Cursor) : s.Reads [] s := ⟨rfl, rfl⟩

theorem trans (hst : s.Reads v t) (htu : t.Reads w u) : s.Reads (v ++ w) u := by
  refine ⟨by rw [hst.rest, htu.rest, List.append_assoc], ?_⟩
  rw [htu.offset, hst.offset, Text.byteLength_append, Nat.add_assoc]

/-- A text that is read in a row is read up to some place and from there. -/
theorem split (h : s.Reads (v ++ w) u) : ∃ t, s.Reads v t ∧ t.Reads w u := by
  refine ⟨⟨s.offset + Text.byteLength v, none, w ++ u.rest, []⟩, ⟨?_, rfl⟩, ⟨rfl, ?_⟩⟩
  · rw [h.rest, List.append_assoc]
  · rw [h.offset, Text.byteLength_append, Nat.add_assoc]

/-- **The offset tells the place**: what was read up to there, and what comes after. -/
theorem unique (ht : s.Reads v t) (hu : s.Reads w u) (h : t.offset = u.offset) :
    v = w ∧ t.rest = u.rest := by
  have hlen : Text.byteLength v = Text.byteLength w := by
    have := ht.offset
    have := hu.offset
    omega
  have hcut := Text.cutAt_byteLength v t.rest
  rw [← ht.rest, hu.rest, hlen, Text.cutAt_byteLength] at hcut
  exact ⟨(Prod.mk.inj hcut).1.symm, (Prod.mk.inj hcut).2.symm⟩

/-- Reading depends on the place alone. -/
theorem of_eq_left (h : s.Reads w u) (hoffset : t.offset = s.offset) (hrest : t.rest = s.rest) :
    t.Reads w u := ⟨hrest ▸ h.rest, hoffset ▸ h.offset⟩

theorem length_rest (h : s.Reads w t) : s.rest.length = w.length + t.rest.length := by
  rw [h.rest, List.length_append]

end Reads

theorem reads_next? {c : Char} {cs : List Char} (h : s.rest = c :: cs) (ht : s.next? = some t) :
    s.Reads [c] t := by
  rw [next?, h] at ht
  obtain rfl := Option.some.inj ht
  exact ⟨h, rfl⟩

theorem Within.refl (s : Cursor) : s.Within s := ⟨[], .refl s⟩

theorem Within.trans (hst : s.Within t) (h : t.Reads w u) : s.Within u := by
  obtain ⟨v, hv⟩ := hst
  exact ⟨v ++ w, hv.trans h⟩

theorem Within.rest_eq (ht : s.Within t) (hu : s.Within u) (h : t.offset = u.offset) :
    t.rest = u.rest := by
  obtain ⟨v, hv⟩ := ht
  obtain ⟨w, hw⟩ := hu
  exact (hv.unique hw h).2

end Cursor

/-! ## Languages -/

/-- **The texts that a regular expression stands for**, conditions on places aside.  An upper bound
of a repetition that is below the lower one counts as that. -/
def language : Regex → Language Char
  | empty => 1
  | set a => {w | ∃ c, a.contains c = true ∧ w = [c]}
  | look _ => 1
  | named _ r => language r
  | cat r q => language r * language q
  | alt r q => language r + language q
  | times least most _ r =>
    {w | ∃ n, least ≤ n ∧ (∀ m, most = some m → n ≤ max least m) ∧ w ∈ language r ^ n}

/-- There are no conditions on places in the expression. -/
def lookFree : Regex → Bool
  | empty => true
  | set _ => true
  | look _ => false
  | named _ r => lookFree r
  | cat r q => lookFree r && lookFree q
  | alt r q => lookFree r && lookFree q
  | times _ _ _ r => lookFree r

/-! ## Lists of places -/

theorem mem_of_mem_distinct {s : Cursor} {seen : List Nat} {ss : List Cursor}
    (h : s ∈ distinct seen ss) : s ∈ ss := by
  induction ss generalizing seen with
  | nil => cases h
  | cons t ss ih =>
    rw [distinct] at h
    split at h
    · exact List.mem_cons_of_mem _ (ih h)
    · rcases List.mem_cons.mp h with rfl | h
      · exact List.mem_cons_self
      · exact List.mem_cons_of_mem _ (ih h)

theorem exists_mem_distinct_or_mem {s : Cursor} {seen : List Nat} {ss : List Cursor} (h : s ∈ ss) :
    s.offset ∈ seen ∨ ∃ t ∈ distinct seen ss, t.offset = s.offset := by
  induction ss generalizing seen with
  | nil => cases h
  | cons t ss ih =>
    rw [distinct]
    split
    · next hseen =>
      rcases List.mem_cons.mp h with rfl | h
      · exact .inl hseen
      · exact ih h
    · next hseen =>
      rcases List.mem_cons.mp h with rfl | h
      · exact .inr ⟨s, List.mem_cons_self, rfl⟩
      · have hrest : s.offset ∈ t.offset :: seen ∨ _ := ih h
        rcases hrest with hmem | ⟨u, hu, hoffset⟩
        · rcases List.mem_cons.mp hmem with heq | hmem
          · exact .inr ⟨t, List.mem_cons_self, heq.symm⟩
          · exact .inl hmem
        · exact .inr ⟨u, List.mem_cons_of_mem _ hu, hoffset⟩

/-- No place gets lost. -/
theorem exists_mem_distinct {s : Cursor} {ss : List Cursor} (h : s ∈ ss) :
    ∃ t ∈ distinct [] ss, t.offset = s.offset :=
  (exists_mem_distinct_or_mem h).resolve_left (List.not_mem_nil)

/-- What a repetition lists from a place is the place and what lies farther, in either order. -/
theorem mem_greed_iff {greedy : Bool} {s t : Cursor} {far : List Cursor} :
    t ∈ (if greedy then far ++ [s] else s :: far) ↔ t = s ∨ t ∈ far := by
  split
  · rw [List.mem_append, List.mem_singleton, or_comm]
  · exact List.mem_cons

/-! ## Rounds -/

/-- `n` steps of `P` lead from `s` to `t`. -/
def Rounds (P : Cursor → Cursor → Prop) : Nat → Cursor → Cursor → Prop
  | 0, s, t => s = t
  | n + 1, s, t => ∃ u, P s u ∧ Rounds P n u t

namespace Rounds

variable {P : Cursor → Cursor → Prop} {m n : Nat} {s t u : Cursor}

theorem one (h : P s t) : Rounds P 1 s t := ⟨t, h, rfl⟩

theorem add (hsu : Rounds P m s u) (hut : Rounds P n u t) : Rounds P (m + n) s t := by
  induction m generalizing s with
  | zero =>
    obtain rfl : s = u := hsu
    rwa [Nat.zero_add]
  | succ m ih =>
    obtain ⟨v, hsv, hvu⟩ := hsu
    rw [Nat.succ_add]
    exact ⟨v, hsv, ih hvu⟩

/-- What one step keeps is kept. -/
theorem eq_of_step {α : Type} {f : Cursor → α} (hP : ∀ s t, P s t → f t = f s)
    (h : Rounds P n s t) : f t = f s := by
  induction n generalizing s with
  | zero =>
    obtain rfl : s = t := h
    rfl
  | succ n ih =>
    obtain ⟨u, hsu, hut⟩ := h
    exact (ih hut).trans (hP s u hsu)

/-- **Rounds that each read a text of `L` read a text of a power of `L`.** -/
theorem reads {L : Language Char} (h : Rounds (fun s t => ∃ w ∈ L, s.Reads w t) n s t) :
    ∃ w ∈ L ^ n, s.Reads w t := by
  induction n generalizing s with
  | zero =>
    obtain rfl : s = t := h
    exact ⟨[], rfl, .refl s⟩
  | succ n ih =>
    obtain ⟨u, ⟨v, hv, hsu⟩, hut⟩ := h
    obtain ⟨w, hw, hreads⟩ := ih hut
    rw [pow_succ']
    exact ⟨v ++ w, Language.append_mem_mul hv hw, hsu.trans hreads⟩

theorem within {L : Language Char} (h : Rounds (fun s t => ∃ w ∈ L, s.Reads w t) n s t) :
    s.Within t := by
  obtain ⟨w, -, hreads⟩ := h.reads
  exact ⟨w, hreads⟩

end Rounds

section Rounds

variable {step : Cursor → List Cursor} {P : Cursor → Cursor → Prop} {greedy : Bool}

theorem rounds_of_mem_exactly (h : ∀ s, ∀ t ∈ step s, P s t) {n : Nat} {ss : List Cursor}
    {t : Cursor} (ht : t ∈ exactly step n ss) : ∃ s ∈ ss, Rounds P n s t := by
  induction n generalizing ss with
  | zero => exact ⟨t, ht, rfl⟩
  | succ n ih =>
    obtain ⟨u, hu, hut⟩ := ih ht
    obtain ⟨s, hs, hstep⟩ := List.mem_flatMap.mp (mem_of_mem_distinct hu)
    exact ⟨s, hs, u, h s u hstep, hut⟩

/-- What a visit lists was there to visit, or lies deeper. -/
theorem mem_of_mem_visit {deeper : Cursor → List Nat → List Cursor × List Nat} {origin : Nat}
    {ss : List Cursor} {seen : List Nat} {t : Cursor}
    (ht : t ∈ (visit deeper greedy origin ss seen).1) :
    t ∈ ss ∨ ∃ s ∈ ss, ∃ seen', t ∈ (deeper s seen').1 := by
  induction ss generalizing seen with
  | nil => cases ht
  | cons s ss ih =>
    have hlater : ∀ {seen'}, t ∈ (visit deeper greedy origin ss seen').1 →
        t ∈ s :: ss ∨ ∃ s' ∈ s :: ss, ∃ seen', t ∈ (deeper s' seen').1 := by
      intro seen' h
      rcases ih h with hmem | ⟨s', hs', hdeep⟩
      · exact .inl (List.mem_cons_of_mem _ hmem)
      · exact .inr ⟨s', List.mem_cons_of_mem _ hs', hdeep⟩
    rw [visit] at ht
    split at ht
    · exact hlater ht
    · next hseen =>
      simp only at ht
      rcases List.mem_append.mp ht with hnow | hrest
      · rcases mem_greed_iff.mp hnow with rfl | hfar
        · exact .inl List.mem_cons_self
        · split at hfar
          · cases hfar
          · exact .inr ⟨s, List.mem_cons_self, _, hfar⟩
      · exact hlater hrest

theorem rounds_of_mem_rounds (h : ∀ s, ∀ t ∈ step s, P s t) {fuel : Nat} {s t : Cursor}
    {seen : List Nat} (ht : t ∈ (rounds step greedy fuel s seen).1) :
    ∃ n, Rounds P (n + 1) s t := by
  induction fuel generalizing s seen with
  | zero => cases ht
  | succ fuel ih =>
    rcases mem_of_mem_visit ht with hmem | ⟨u, hu, seen', hdeep⟩
    · exact ⟨0, .one (h s t hmem)⟩
    · obtain ⟨n, hut⟩ := ih hdeep
      exact ⟨n + 1, u, h s u hu, hut⟩

theorem mem_of_mem_gather {σ : Type} {f : Cursor → σ → List Cursor × σ} {ss : List Cursor}
    {seen : σ} {t : Cursor} (ht : t ∈ (gather f ss seen).1) :
    ∃ s ∈ ss, ∃ seen', t ∈ (f s seen').1 := by
  induction ss generalizing seen with
  | nil => cases ht
  | cons s ss ih =>
    rcases List.mem_append.mp ht with hnow | hlater
    · exact ⟨s, List.mem_cons_self, _, hnow⟩
    · obtain ⟨s', hs', hmem⟩ := ih hlater
      exact ⟨s', List.mem_cons_of_mem _ hs', hmem⟩

theorem rounds_of_mem_atMost (h : ∀ s, ∀ t ∈ step s, P s t) {n : Nat} {s t : Cursor}
    {seen : List (Nat × Nat)} (ht : t ∈ (atMost step greedy n s seen).1) :
    ∃ k ≤ n, Rounds P k s t := by
  induction n generalizing s seen with
  | zero =>
    rw [atMost] at ht
    split at ht
    · cases ht
    · obtain rfl := List.mem_singleton.mp ht
      exact ⟨0, Nat.le_refl _, rfl⟩
  | succ n ih =>
    rw [atMost] at ht
    split at ht
    · cases ht
    · rcases mem_greed_iff.mp ht with rfl | hfar
      · exact ⟨0, Nat.zero_le _, rfl⟩
      · obtain ⟨u, hu, seen', hmem⟩ := mem_of_mem_gather hfar
        obtain ⟨k, hk, hut⟩ := ih hmem
        exact ⟨k + 1, Nat.succ_le_succ hk, u, h s u hu, hut⟩

/-- **A repetition ends after as many rounds as its bounds allow.** -/
theorem rounds_of_mem_repeated (h : ∀ s, ∀ t ∈ step s, P s t) {least : Nat} {most : Option Nat}
    {s t : Cursor} (ht : t ∈ repeated step least most greedy s) :
    ∃ n, least ≤ n ∧ (∀ m, most = some m → n ≤ max least m) ∧ Rounds P n s t := by
  match most, least with
  | none, 0 =>
    rcases mem_greed_iff.mp (mem_of_mem_distinct ht) with rfl | hmore
    · exact ⟨0, Nat.le_refl _, by simp, rfl⟩
    · obtain ⟨n, hst⟩ := rounds_of_mem_rounds h hmore
      exact ⟨n + 1, Nat.zero_le _, by simp, hst⟩
  | none, least + 1 =>
    obtain ⟨u, hu, hmore⟩ := List.mem_flatMap.mp (mem_of_mem_distinct ht)
    obtain ⟨s', hs', hsu⟩ := rounds_of_mem_exactly h hu
    obtain rfl := List.mem_singleton.mp hs'
    obtain ⟨n, hut⟩ := rounds_of_mem_rounds h hmore
    exact ⟨least + (n + 1), by omega, by simp, hsu.add hut⟩
  | some m, least =>
    obtain ⟨u, hu, seen, hmem⟩ := mem_of_mem_gather (mem_of_mem_distinct ht)
    obtain ⟨s', hs', hsu⟩ := rounds_of_mem_exactly h hu
    obtain rfl := List.mem_singleton.mp hs'
    obtain ⟨k, hk, hut⟩ := rounds_of_mem_atMost h hmem
    refine ⟨least + k, by omega, fun m' hm' => ?_, hsu.add hut⟩
    obtain rfl := Option.some.inj hm'
    omega

end Rounds

/-! ## Soundness -/

/-- A round of `step` reads a text of `L`. -/
def Sound (step : Cursor → List Cursor) (L : Language Char) : Prop :=
  ∀ s, ∀ t ∈ step s, ∃ w ∈ L, s.Reads w t

/-- **The ends of a match read texts of the language.** -/
theorem ends_sound (r : Regex) : Sound (ends r) (language r) := by
  induction r with
  | empty =>
    intro s t ht
    obtain rfl := List.mem_singleton.mp ht
    exact ⟨[], rfl, .refl t⟩
  | set a =>
    intro s t ht
    rw [ends] at ht
    split at ht
    · next c cs hrest =>
      split at ht
      · next hc => exact ⟨[c], ⟨c, hc, rfl⟩, Cursor.reads_next? hrest (Option.mem_toList.mp ht)⟩
      · cases ht
    · cases ht
  | look l =>
    intro s t ht
    rw [ends] at ht
    split at ht
    · obtain rfl := List.mem_singleton.mp ht
      exact ⟨[], rfl, .refl t⟩
    · cases ht
  | named name r ih =>
    intro s t ht
    obtain ⟨u, hu, rfl⟩ := List.mem_map.mp ht
    obtain ⟨w, hw, hreads⟩ := ih s u hu
    exact ⟨w, hw, hreads.rest, hreads.offset⟩
  | cat r q ihr ihq =>
    intro s t ht
    obtain ⟨u, hu, ht⟩ := List.mem_flatMap.mp (mem_of_mem_distinct ht)
    obtain ⟨v, hv, hvreads⟩ := ihr s u hu
    obtain ⟨w, hw, hreads⟩ := ihq u t ht
    exact ⟨v ++ w, Language.append_mem_mul hv hw, hvreads.trans hreads⟩
  | alt r q ihr ihq =>
    intro s t ht
    rcases List.mem_append.mp (mem_of_mem_distinct ht) with ht | ht
    · obtain ⟨w, hw, hreads⟩ := ihr s t ht
      exact ⟨w, .inl hw, hreads⟩
    · obtain ⟨w, hw, hreads⟩ := ihq s t ht
      exact ⟨w, .inr hw, hreads⟩
  | times least most greedy r ih =>
    intro s t ht
    obtain ⟨n, hle, hmost, hst⟩ := rounds_of_mem_repeated ih ht
    obtain ⟨w, hw, hreads⟩ := hst.reads
    exact ⟨w, ⟨n, hle, hmost, hw⟩, hreads⟩

/-- No group of the expression has a name. -/
def groupFree : Regex → Bool
  | empty => true
  | set _ => true
  | look _ => true
  | named _ _ => false
  | cat r q => groupFree r && groupFree q
  | alt r q => groupFree r && groupFree q
  | times _ _ _ r => groupFree r

/-- An expression without named groups records none. -/
theorem groups_eq_of_mem_ends {r : Regex} (h : groupFree r = true) :
    ∀ s, ∀ t ∈ ends r s, t.groups = s.groups := by
  induction r with
  | empty =>
    intro s t ht
    rw [List.mem_singleton.mp ht]
  | set a =>
    intro s t ht
    rw [ends] at ht
    split at ht
    · next c cs hrest =>
      split at ht
      · rw [Option.mem_toList, Cursor.next?, hrest] at ht
        rw [← Option.some.inj ht]
      · cases ht
    · cases ht
  | look l =>
    intro s t ht
    rw [ends] at ht
    split at ht
    · rw [List.mem_singleton.mp ht]
    · cases ht
  | named name r ih => cases h
  | cat r q ihr ihq =>
    intro s t ht
    obtain ⟨hr, hq⟩ := Bool.and_eq_true_iff.mp h
    obtain ⟨u, hu, ht⟩ := List.mem_flatMap.mp (mem_of_mem_distinct ht)
    exact (ihq hq u t ht).trans (ihr hr s u hu)
  | alt r q ihr ihq =>
    intro s t ht
    obtain ⟨hr, hq⟩ := Bool.and_eq_true_iff.mp h
    rcases List.mem_append.mp (mem_of_mem_distinct ht) with ht | ht
    · exact ihr hr s t ht
    · exact ihq hq s t ht
  | times least most greedy r ih =>
    intro s t ht
    obtain ⟨n, -, -, hst⟩ := rounds_of_mem_repeated (ih h) ht
    exact hst.eq_of_step fun _ _ heq => heq

/-! ## Single matches -/

theorem exists_of_mem_ends_cat {r q : Regex} {s t : Cursor} (h : t ∈ ends (cat r q) s) :
    ∃ u ∈ ends r s, t ∈ ends q u := List.mem_flatMap.mp (mem_of_mem_distinct h)

/-- What a group records is what it has read. -/
theorem Cursor.Reads.upTo {s t : Cursor} {w : List Char} (h : s.Reads w t) : s.upTo t = w := by
  rw [Cursor.upTo, h.rest, List.length_append, Nat.add_sub_cancel, List.take_left]

theorem mem_language_single {c : Char} {w : List Char} :
    w ∈ language (set (.single c)) ↔ w = [c] := by
  constructor
  · rintro ⟨d, hd, rfl⟩
    rw [CharSet.contains_single, decide_eq_true_eq] at hd
    rw [hd]
  · rintro rfl
    exact ⟨c, by simp, rfl⟩

theorem reads_of_mem_ends_single {c : Char} {s t : Cursor} (h : t ∈ ends (set (.single c)) s) :
    s.Reads [c] t ∧ t.groups = s.groups := by
  obtain ⟨w, hw, hreads⟩ := ends_sound _ s t h
  rw [mem_language_single] at hw
  exact ⟨hw ▸ hreads, groups_eq_of_mem_ends rfl s t h⟩

/-! ## Characters -/

/-- All sets of the expression hold characters with `p` only. -/
def Over (p : Char → Prop) : Regex → Prop
  | empty => True
  | set a => ∀ c, a.contains c = true → p c
  | look _ => True
  | named _ r => Over p r
  | cat r q => Over p r ∧ Over p q
  | alt r q => Over p r ∧ Over p q
  | times _ _ _ r => Over p r

theorem forall_mem_of_mem_pow {p : Char → Prop} {L : Language Char}
    (hL : ∀ w ∈ L, ∀ c ∈ w, p c) {n : Nat} {w : List Char} (hw : w ∈ L ^ n) : ∀ c ∈ w, p c := by
  induction n generalizing w with
  | zero =>
    obtain rfl : w = [] := hw
    simp
  | succ n ih =>
    rw [pow_succ'] at hw
    obtain ⟨u, hu, v, hv, rfl⟩ := Language.mem_mul.mp hw
    exact List.forall_mem_append.mpr ⟨hL u hu, ih hv⟩

/-- **The characters of the texts of the language** are among those of the sets. -/
theorem Over.forall_mem {p : Char → Prop} {r : Regex} (h : r.Over p) :
    ∀ w ∈ language r, ∀ c ∈ w, p c := by
  induction r with
  | empty =>
    rintro w rfl
    simp
  | set a =>
    rintro w ⟨c, hc, rfl⟩
    exact List.forall_mem_singleton.mpr (h c hc)
  | look l =>
    rintro w rfl
    simp
  | named name r ih => exact ih h
  | cat r q ihr ihq =>
    intro w hw
    obtain ⟨u, hu, v, hv, rfl⟩ := Language.mem_mul.mp hw
    exact List.forall_mem_append.mpr ⟨ihr h.1 u hu, ihq h.2 v hv⟩
  | alt r q ihr ihq =>
    rintro w (hw | hw)
    · exact ihr h.1 w hw
    · exact ihq h.2 w hw
  | times least most greedy r ih =>
    rintro w ⟨n, -, -, hw⟩
    exact forall_mem_of_mem_pow (ih h) hw

/-- Any number of characters of a set. -/
theorem mem_language_times_set {a : CharSet} {greedy : Bool} {w : List Char} :
    w ∈ language (times 0 none greedy (set a)) ↔ ∀ c ∈ w, a.contains c = true := by
  have hover : (times 0 none greedy (set a)).Over (a.contains · = true) := fun _ hc => hc
  refine ⟨hover.forall_mem w, fun h => ⟨w.length, Nat.zero_le _, by simp, ?_⟩⟩
  induction w with
  | nil => rfl
  | cons c cs ih =>
    obtain ⟨hc, hcs⟩ := List.forall_mem_cons.mp h
    have hone : [c] ∈ language (set a) := ⟨c, hc, rfl⟩
    rw [List.length_cons, pow_succ']
    exact Language.append_mem_mul hone (ih hcs)

/-! ## Texts put together -/

open scoped Computability

variable {r q : Regex} {greedy : Bool}

theorem language_cat : language (cat r q) = language r * language q := rfl

theorem language_alt : language (alt r q) = language r + language q := rfl

/-- Nothing behind an expression adds nothing to its texts. -/
@[simp] theorem language_cat_empty : language (cat r empty) = language r := mul_one _

theorem language_single (c : Char) : language (set (.single c)) = {[c]} :=
  Language.ext fun _ => mem_language_single

theorem language_optional : language (times 0 (some 1) greedy r) = 1 + language r := by
  ext w
  constructor
  · rintro ⟨n, -, hmost, hw⟩
    have hn := hmost 1 rfl
    obtain rfl | rfl : n = 0 ∨ n = 1 := by omega
    · exact .inl hw
    · exact .inr (pow_one (language r) ▸ hw)
  · rintro (hw | hw)
    · exact ⟨0, Nat.le_refl _, by simp, hw⟩
    · exact ⟨1, Nat.zero_le _, by simp, (pow_one (language r)).symm ▸ hw⟩

theorem language_oneOrTwo :
    language (times 1 (some 2) greedy r) = language r + language r * language r := by
  rw [← sq]
  ext w
  constructor
  · rintro ⟨n, hleast, hmost, hw⟩
    have hn := hmost 2 rfl
    obtain rfl | rfl : n = 1 ∨ n = 2 := by omega
    · exact .inl (pow_one (language r) ▸ hw)
    · exact .inr hw
  · rintro (hw | hw)
    · exact ⟨1, Nat.le_refl _, by simp, (pow_one (language r)).symm ▸ hw⟩
    · exact ⟨2, by decide, by simp, hw⟩

theorem language_anyNumber : language (times 0 none greedy r) = (language r)∗ := by
  ext w
  rw [Language.kstar_eq_iSup_pow, Language.mem_iSup]
  exact ⟨fun ⟨n, _, _, hw⟩ => ⟨n, hw⟩, fun ⟨n, hw⟩ => ⟨n, Nat.zero_le n, by simp, hw⟩⟩

theorem language_oneOrMore :
    language (times 1 none greedy r) = language r * (language r)∗ := by
  ext w
  rw [Language.kstar_eq_iSup_pow, Language.mul_iSup, Language.mem_iSup]
  constructor
  · rintro ⟨n, hn, -, hw⟩
    obtain ⟨n, rfl⟩ : ∃ k, n = k + 1 := ⟨n - 1, by omega⟩
    exact ⟨n, pow_succ' (language r) n ▸ hw⟩
  · rintro ⟨n, hw⟩
    exact ⟨n + 1, Nat.le_add_left 1 n, by simp, (pow_succ' (language r) n).symm ▸ hw⟩

end RefTree.Regex
