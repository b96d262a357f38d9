import Mathlib.Data.List.DropRight
import RefTree.Marker
import RefTree.Proofs.Regex.First

/-!
# Proofs/Marker/Wrap — keys between blanks, between the default braces

The default reference pattern wraps the expression of a key, whichever expression that is.  Where no
key holds a blank or a closing brace, the marker ends at the first closing brace, and its key is
what is left there without the blanks around it (`wraps_iff`): it is told from the text alone, in
however many ways the key can be read.  So a search finds the first place where such a text stands
(`find?_eq_some_iff`), and goes on behind it as in a text of its own (`findAll_eq_cons`).
-/

namespace RefTree

/-! ## Blanks around a text -/

namespace Text

/-- The text without the blanks around it. -/
def trim (text : List Char) : List Char :=
  (text.dropWhile Unicode.isBlank).rdropWhile Unicode.isBlank

theorem trim_append {b k b' : List Char} (hb : ∀ c ∈ b, Unicode.isBlank c = true)
    (hk : ∀ c ∈ k, Unicode.isBlank c = false) (hb' : ∀ c ∈ b', Unicode.isBlank c = true) :
    trim (b ++ k ++ b') = k := by
  have hback : ∀ w : List Char,
      (w ++ b').rdropWhile Unicode.isBlank = w.rdropWhile Unicode.isBlank := by
    intro w
    rw [List.rdropWhile, List.reverse_append, List.dropWhile_append_of_pos (by simpa using hb')]
    rfl
  rw [trim, List.append_assoc, List.dropWhile_append_of_pos hb]
  cases k with
  | nil => rw [List.nil_append, List.dropWhile_eq_nil_iff.mpr hb', List.rdropWhile_nil]
  | cons c k =>
    rw [List.cons_append, List.dropWhile_cons_of_neg (by simp [hk c List.mem_cons_self]),
      ← List.cons_append, hback, List.rdropWhile_eq_self_iff]
    intro hne
    simp [hk _ (List.getLast_mem hne)]

theorem exists_eq_trim (text : List Char) :
    ∃ b b', (∀ c ∈ b, Unicode.isBlank c = true) ∧ (∀ c ∈ b', Unicode.isBlank c = true) ∧
      text = b ++ trim text ++ b' := by
  refine ⟨text.takeWhile Unicode.isBlank,
    (text.dropWhile Unicode.isBlank).rtakeWhile Unicode.isBlank,
    fun c hc => List.mem_takeWhile_imp hc, fun c hc => List.mem_rtakeWhile_imp hc, ?_⟩
  rw [trim, List.append_assoc, List.rdropWhile_append_rtakeWhile, List.takeWhile_append_dropWhile]

/-- A text takes the bytes that its characters take. -/
theorem byteLength_toList (text : String) : byteLength text.toList = text.utf8ByteSize := by
  have hofList : ∀ cs : List Char, byteLength cs = (String.ofList cs).utf8ByteSize := by
    intro cs
    induction cs with
    | nil => rfl
    | cons c cs ih =>
      rw [String.ofList_cons, String.utf8ByteSize_append, String.utf8ByteSize_singleton, ← ih,
        byteLength]
  rw [hofList, String.ofList_toList]

end Text

namespace Marker

open Regex

namespace Default

def literal (c : Char) : Regex := .set (.single c)

def blanks : Regex := .times 0 none true (.set .blank)

theorem mem_language_blanks {w : List Char} :
    w ∈ language blanks ↔ ∀ c ∈ w, Unicode.isBlank c = true := mem_language_times_set

/-- The marker with the key `k` that is `v` behind `u`. -/
def markerAt (text : String) (u v k : List Char) : Marker where
  key := String.ofList k
  start := Text.byteLength u
  length := Text.byteLength v
  whole := Text.byteLength u == 0 && Text.byteLength u + Text.byteLength v == text.utf8ByteSize

/-- A marker is the whole text if nothing stands around it. -/
theorem whole_markerAt_iff {text : String} {u v w k : List Char}
    (htext : text.toList = u ++ v ++ w) :
    (markerAt text u v k).whole = true ↔ u = [] ∧ w = [] := by
  have hsize : text.utf8ByteSize =
      Text.byteLength u + Text.byteLength v + Text.byteLength w := by
    rw [← Text.byteLength_toList, htext, Text.byteLength_append, Text.byteLength_append]
  simp only [markerAt, Bool.and_eq_true, beq_iff_eq, hsize, Text.byteLength_eq_zero_iff]
  refine and_congr_right fun _ => ?_
  have hnone : Text.byteLength w = 0 ↔ w = [] := Text.byteLength_eq_zero_iff
  rw [← hnone]
  omega

end Default

open Default (blanks mem_language_blanks markerAt)

/-! ## Wrapped keys -/

/-- The expression of a key between blanks, between the default braces. -/
def wrap (key : Regex) : Regex :=
  .cat (Default.literal '@')
    (.cat (Default.literal '\x7b')
      (.cat blanks
        (.cat (.named keyGroup key) (.cat blanks (.cat (Default.literal '\x7d') .empty)))))

/-- A text between the default braces. -/
def braced (inner : List Char) : List Char := '@' :: '\x7b' :: (inner ++ ['\x7d'])

/-- `v` is the text of a marker, with the key `k` between blanks. -/
def Wraps (key : Regex) (v k : List Char) : Prop :=
  ∃ b b', b ∈ language blanks ∧ k ∈ language key ∧ b' ∈ language blanks ∧
    v = '@' :: '\x7b' :: (b ++ k ++ b' ++ ['\x7d'])

/-- The texts of the expression are told from the blanks and the brace behind them, and to read them
records nothing. -/
structure KeyLike (key : Regex) : Prop where
  lookFree : lookFree key = true
  groupFree : groupFree key = true
  notBlank : ∀ k ∈ language key, ∀ c ∈ k, Unicode.isBlank c = false
  notMem : ∀ k ∈ language key, '\x7d' ∉ k

variable {key : Regex} {v v' k k' : List Char}

theorem Wraps.ne_nil (h : Wraps key v k) : v ≠ [] := by
  obtain ⟨b, b', -, -, -, rfl⟩ := h
  exact List.cons_ne_nil _ _

/-- **The text of a marker** ends at the first closing brace, and its key is what stands there
without the blanks around it. -/
theorem wraps_iff (hkey : KeyLike key) :
    Wraps key v k ↔ ∃ inner, v = braced inner ∧ '\x7d' ∉ inner ∧ Text.trim inner = k ∧
      k ∈ language key := by
  have hbrace : ∀ b ∈ language blanks, '\x7d' ∉ b := by
    intro b hb hmem
    exact absurd (mem_language_blanks.mp hb '\x7d' hmem) (by decide)
  constructor
  · rintro ⟨b, b', hb, hk, hb', rfl⟩
    refine ⟨b ++ k ++ b', rfl, ?_, Text.trim_append (mem_language_blanks.mp hb)
      (hkey.notBlank k hk) (mem_language_blanks.mp hb'), hk⟩
    simp [hbrace b hb, hkey.notMem k hk, hbrace b' hb']
  · rintro ⟨inner, rfl, -, rfl, hk⟩
    obtain ⟨b, b', hb, hb', heq⟩ := Text.exists_eq_trim inner
    refine ⟨b, b', mem_language_blanks.mpr hb, hk, mem_language_blanks.mpr hb', ?_⟩
    rw [← heq, braced]

/-- **The text says where the marker ends**, and which key it has. -/
theorem Wraps.unique (hkey : KeyLike key) {w w' : List Char} (h : Wraps key v k)
    (h' : Wraps key v' k') (heq : v ++ w = v' ++ w') : v = v' ∧ k = k' := by
  obtain ⟨inner, rfl, hinner, rfl, -⟩ := (wraps_iff hkey).mp h
  obtain ⟨inner', rfl, hinner', rfl, -⟩ := (wraps_iff hkey).mp h'
  simp only [braced, List.cons_append, List.append_assoc, List.cons.injEq, true_and,
    List.nil_append, Text.append_cons_inj hinner hinner'] at heq
  obtain ⟨rfl, -⟩ := heq
  exact ⟨rfl, rfl⟩

/-- **The texts of markers.** -/
theorem mem_language_wrap : v ∈ language (wrap key) ↔ ∃ k, Wraps key v k := by
  constructor
  · intro hv
    obtain ⟨x₁, h₁, y₁, hy₁, rfl⟩ := Language.mem_mul.mp hv
    obtain ⟨x₂, h₂, y₂, hy₂, rfl⟩ := Language.mem_mul.mp hy₁
    obtain ⟨b, hb, y₃, hy₃, rfl⟩ := Language.mem_mul.mp hy₂
    obtain ⟨k, hk, y₄, hy₄, rfl⟩ := Language.mem_mul.mp hy₃
    obtain ⟨b', hb', y₅, hy₅, rfl⟩ := Language.mem_mul.mp hy₄
    obtain ⟨x₆, h₆, e, rfl, rfl⟩ := Language.mem_mul.mp hy₅
    obtain rfl := mem_language_single.mp h₁
    obtain rfl := mem_language_single.mp h₂
    obtain rfl := mem_language_single.mp h₆
    exact ⟨k, b, b', hb, hk, hb', by simp⟩
  · rintro ⟨k, b, b', hb, hk, hb', rfl⟩
    have hsingle : ∀ c, [c] ∈ language (Default.literal c) := fun c => mem_language_single.mpr rfl
    have htext : '@' :: '\x7b' :: (b ++ k ++ b' ++ ['\x7d']) =
        ['@'] ++ (['\x7b'] ++ (b ++ (k ++ (b' ++ (['\x7d'] ++ []))))) := by simp
    rw [htext]
    refine Language.append_mem_mul (hsingle '@') (Language.append_mem_mul (hsingle '\x7b') ?_)
    refine Language.append_mem_mul hb (Language.append_mem_mul hk (Language.append_mem_mul hb' ?_))
    exact Language.append_mem_mul (hsingle '\x7d') Language.nil_mem_one

/-- **A match is a key between blanks between the braces**, and records the key. -/
theorem wraps_of_mem_ends (hgroup : groupFree key = true) {s t : Cursor}
    (ht : t ∈ ends (wrap key) s) :
    ∃ v k, Wraps key v k ∧ s.Reads v t ∧ t.groups = (keyGroup, k) :: s.groups := by
  obtain ⟨s₁, hs₁, ht⟩ := exists_of_mem_ends_cat ht
  obtain ⟨s₂, hs₂, ht⟩ := exists_of_mem_ends_cat ht
  obtain ⟨s₃, hs₃, ht⟩ := exists_of_mem_ends_cat ht
  obtain ⟨s₄, hs₄, ht⟩ := exists_of_mem_ends_cat ht
  obtain ⟨s₅, hs₅, ht⟩ := exists_of_mem_ends_cat ht
  obtain ⟨s₆, hs₆, ht⟩ := exists_of_mem_ends_cat ht
  obtain rfl := List.mem_singleton.mp ht
  obtain ⟨h₁, hg₁⟩ := reads_of_mem_ends_single hs₁
  obtain ⟨h₂, hg₂⟩ := reads_of_mem_ends_single hs₂
  obtain ⟨b, hb, h₃⟩ := ends_sound _ _ _ hs₃
  obtain ⟨u, hu, rfl⟩ := List.mem_map.mp hs₄
  obtain ⟨k, hk, h₄⟩ := ends_sound _ _ _ hu
  obtain ⟨b', hb', h₅⟩ := ends_sound _ _ _ hs₅
  obtain ⟨h₆, hg₆⟩ := reads_of_mem_ends_single hs₆
  refine ⟨_, k, ⟨b, b', hb, hk, hb', rfl⟩, ?_, ?_⟩
  · have h₄ : s₃.Reads k (s₃.record keyGroup u) := ⟨h₄.rest, h₄.offset⟩
    have hall := ((((h₁.trans h₂).trans h₃).trans h₄).trans h₅).trans h₆
    simpa using hall
  · rw [hg₆, groups_eq_of_mem_ends rfl _ _ hs₅, Cursor.record, h₄.upTo,
      groups_eq_of_mem_ends hgroup _ _ hu, groups_eq_of_mem_ends rfl _ _ hs₃, hg₂, hg₁]

/-! ## The first marker -/

/-- A match of a search behind `done` makes a marker, since it has recorded a key. -/
theorem marker?_of_readsAfter (hgroup : groupFree key = true) (text : String) {m : Span}
    (done : List Char) {u v : List Char}
    (h : m.ReadsAfter (wrap key) (Text.byteLength done) u v) :
    ∃ k, Wraps key v k ∧ Pattern.marker? text m = some (markerAt text (done ++ u) v k) := by
  obtain ⟨v', k, hwraps, hreads, hgroups⟩ := wraps_of_mem_ends hgroup h.stop
  obtain rfl := (h.reads.unique hreads rfl).1
  have hstart : m.start.offset = Text.byteLength (done ++ u) := by
    rw [h.start, Text.byteLength_append]
  have hstop : m.stop.offset = Text.byteLength (done ++ u) + Text.byteLength v := by
    rw [h.reads.offset, hstart]
  refine ⟨k, hwraps, ?_⟩
  simp only [Pattern.marker?, Span.group?, hgroups, List.lookup_cons_self, Option.map_some, hstart,
    hstop, Nat.add_sub_cancel_left, markerAt]

theorem lookFree_wrap (hlook : lookFree key = true) : lookFree (wrap key) = true := by
  have hsingle : ∀ c, lookFree (Default.literal c) = true := fun _ => rfl
  have hblanks : lookFree blanks = true := rfl
  simp [wrap, lookFree, hlook, hsingle, hblanks]

/-- **What a search finds behind `done`**, as a marker. -/
theorem exists_of_first? (hkey : KeyLike key) (text : String) {s : Cursor} {m : Span}
    {done : List Char} (hdone : s.offset = Text.byteLength done)
    (hm : first? (wrap key) s = some m) :
    ∃ u v k, FirstIn (wrap key) s.rest u v m.stop.rest ∧ Wraps key v k ∧
      Pattern.marker? text m = some (markerAt text (done ++ u) v k) ∧
      m.stop.offset = Text.byteLength (done ++ u ++ v) := by
  obtain ⟨u, v, hfirst, hreads⟩ := firstFrom_eq_some (lookFree_wrap hkey.lookFree) hm
  obtain ⟨k, hwraps, hmarker⟩ :=
    marker?_of_readsAfter hkey.groupFree text done (hdone ▸ hreads)
  refine ⟨u, v, k, hfirst, hwraps, hmarker, ?_⟩
  rw [hreads.reads.offset, hreads.start, hdone, Text.byteLength_append, Text.byteLength_append]

/-- The first text of a marker is found, with its key. -/
theorem first?_of_firstIn (hkey : KeyLike key) (text : String) {s : Cursor} {done u w : List Char}
    (hdone : s.offset = Text.byteLength done) (hfirst : FirstIn (wrap key) s.rest u v w)
    (hwraps : Wraps key v k) :
    ∃ m, first? (wrap key) s = some m ∧ m.stop.rest = w ∧
      m.stop.offset = Text.byteLength (done ++ u ++ v) ∧
      Pattern.marker? text m = some (markerAt text (done ++ u) v k) := by
  cases hm : first? (wrap key) s with
  | none =>
    have hnone := (first?_eq_none_iff (lookFree_wrap hkey.lookFree)).mp hm
    exact absurd hfirst.mem (hnone u v w hfirst.eq)
  | some m =>
    obtain ⟨u', v', k', hfirst', hwraps', hmarker, hoffset⟩ := exists_of_first? hkey text hdone hm
    obtain ⟨rfl, heq⟩ := hfirst.unique hfirst'
    obtain ⟨rfl, rfl⟩ := hwraps.unique hkey hwraps' heq
    exact ⟨m, rfl, (List.append_cancel_left heq).symm, hoffset, hmarker⟩

section Find

variable {p : Pattern} {text : String}

/-- **Where the first marker stands**, and which key it has. -/
theorem find?_eq_some_iff (hkey : KeyLike key) (hp : p.regex = wrap key) {m : Marker} :
    p.find? text = some m ↔ ∃ u v w k, FirstIn (wrap key) text.toList u v w ∧ Wraps key v k ∧
      m = markerAt text u v k := by
  have hstart : (Cursor.start text.toList).offset = Text.byteLength [] := rfl
  rw [Pattern.find?, hp]
  constructor
  · intro hm
    obtain ⟨span, hspan, hmarker⟩ := Option.bind_eq_some_iff.mp hm
    obtain ⟨u, v, k, hfirst, hwraps, hmarker', -⟩ := exists_of_first? hkey text hstart hspan
    exact ⟨u, v, _, k, hfirst, hwraps, Option.some.inj (hmarker.symm.trans hmarker')⟩
  · rintro ⟨u, v, w, k, hfirst, hwraps, rfl⟩
    obtain ⟨span, hspan, -, -, hmarker⟩ := first?_of_firstIn hkey text hstart hfirst hwraps
    exact Option.bind_eq_some_iff.mpr ⟨span, hspan, hmarker⟩

/-- **A text has no marker** just if nowhere in it stands the text of one. -/
theorem find?_eq_none_iff (hkey : KeyLike key) (hp : p.regex = wrap key) :
    p.find? text = none ↔ ∀ u v w, text.toList = u ++ v ++ w → v ∉ language (wrap key) := by
  have hstart : (Cursor.start text.toList).offset = Text.byteLength [] := rfl
  rw [← Regex.find?_eq_none_iff (lookFree_wrap hkey.lookFree), Pattern.find?, hp]
  cases hspan : (wrap key).find? text with
  | none => simp
  | some span =>
    obtain ⟨u, v, k, -, -, hmarker, -⟩ := exists_of_first? hkey text hstart hspan
    simp [hmarker]

end Find

/-! ## The markers of a text -/

/-- No marker is empty, so the next one is the first at or behind the place. -/
theorem nextSpan?_eq (hkey : KeyLike key) (s : Cursor) (lastEnd : Option Nat) :
    nextSpan? (wrap key) s lastEnd = first? (wrap key) s := by
  unfold nextSpan?
  cases hfirst : first? (wrap key) s with
  | none => rfl
  | some m =>
    obtain ⟨u, v, -, hreads⟩ := firstFrom_eq_some (lookFree_wrap hkey.lookFree) hfirst
    obtain ⟨v', k, hwraps, hreads', -⟩ := wraps_of_mem_ends hkey.groupFree hreads.stop
    have hnonempty : m.isEmpty = false := by
      have := mt Text.byteLength_eq_zero_iff.mp hwraps.ne_nil
      have := hreads'.offset
      rw [Span.isEmpty, beq_eq_false_iff_ne]
      omega
    simp [hnonempty]

/-- The marker, with `n` bytes in front of its text. -/
def behind (n : Nat) (m : Marker) : Marker := { m with start := n + m.start, whole := false }

theorem markerAt_append {text text' : String} {front : List Char} (hfront : front ≠ [])
    (u v k : List Char) :
    markerAt text (front ++ u) v k = (markerAt text' u v k).behind (Text.byteLength front) := by
  have hne : Text.byteLength front ≠ 0 := mt Text.byteLength_eq_zero_iff.mp hfront
  simp [markerAt, behind, Text.byteLength_append, hne]

/-- A search goes on in the same way wherever what follows stands. -/
theorem filterMap_spansFrom (hkey : KeyLike key) {text text' : String} {front done : List Char}
    {s s' : Cursor} {fuel fuel' : Nat} {lastEnd lastEnd' : Option Nat} (hfront : front ≠ [])
    (hrest : s'.rest = s.rest) (hs : s.offset = Text.byteLength (front ++ done))
    (hs' : s'.offset = Text.byteLength done) (hfuel : s.rest.length < fuel)
    (hfuel' : s.rest.length < fuel') :
    (spansFrom (wrap key) fuel s lastEnd).filterMap (Pattern.marker? text) =
      ((spansFrom (wrap key) fuel' s' lastEnd').filterMap (Pattern.marker? text')).map
        (behind (Text.byteLength front)) := by
  induction fuel generalizing s s' done fuel' lastEnd lastEnd' with
  | zero => exact absurd hfuel (Nat.not_lt_zero _)
  | succ fuel ih =>
    obtain ⟨fuel', rfl⟩ := Nat.exists_eq_succ_of_ne_zero (Nat.ne_zero_of_lt hfuel')
    rw [spansFrom, spansFrom, nextSpan?_eq hkey, nextSpan?_eq hkey]
    cases hm : first? (wrap key) s with
    | none =>
      have hm' : first? (wrap key) s' = none := by
        rw [first?_eq_none_iff (lookFree_wrap hkey.lookFree)] at hm ⊢
        rwa [hrest]
      rw [hm']
      rfl
    | some m =>
      obtain ⟨u, v, k, hfirst, hwraps, hmarker, hstop⟩ := exists_of_first? hkey text hs hm
      obtain ⟨m', hm', hrest', hstop', hmarker'⟩ :=
        first?_of_firstIn hkey text' hs' (hrest ▸ hfirst) hwraps
      have hlen : m.stop.rest.length < s.rest.length := by
        have := List.length_pos_iff.mpr hwraps.ne_nil
        rw [hfirst.eq, List.length_append, List.length_append]
        omega
      rw [hm']
      simp only [List.filterMap_cons_some hmarker, List.filterMap_cons_some hmarker', List.map_cons]
      rw [List.append_assoc, markerAt_append hfront]
      refine congrArg _ (ih hrest' ?_ hstop' ?_ ?_)
      · simpa using hstop
      · exact Nat.lt_of_lt_of_le hlen (Nat.le_of_lt_succ hfuel)
      · exact Nat.lt_of_lt_of_le hlen (Nat.le_of_lt_succ hfuel')

variable {p : Pattern} {text : String}

theorem findAll_eq_nil (hkey : KeyLike key) (hp : p.regex = wrap key) (h : p.find? text = none) :
    p.findAll text = [] := by
  have hnone := (find?_eq_none_iff hkey hp).mp h
  have hfirst : first? (wrap key) (.start text.toList) = none :=
    (first?_eq_none_iff (lookFree_wrap hkey.lookFree)).mpr hnone
  rw [Pattern.findAll, hp, Regex.findAll, spansFrom, nextSpan?_eq hkey, hfirst]
  rfl

/-- **The markers of a text** are the first one and those of the text behind it. -/
theorem findAll_eq_cons (hkey : KeyLike key) (hp : p.regex = wrap key) {m : Marker}
    (h : p.find? text = some m) :
    p.findAll text = m ::
      (p.findAll (String.ofList (Text.cutAt m.stop text.toList).2)).map (behind m.stop) := by
  obtain ⟨u, v, w, k, hfirst, hwraps, rfl⟩ := (find?_eq_some_iff hkey hp).mp h
  have hstop : (markerAt text u v k).stop = Text.byteLength (u ++ v) :=
    (Text.byteLength_append u v).symm
  have hstart : ∀ cs, (Cursor.start cs).offset = Text.byteLength [] := fun _ => rfl
  obtain ⟨span, hspan, rfl, hoffset, hmarker⟩ :=
    first?_of_firstIn hkey text (hstart text.toList) hfirst hwraps
  have hne : u ++ v ≠ [] := by simp [hwraps.ne_nil]
  have hlen : span.stop.rest.length < text.toList.length + 1 := by
    rw [hfirst.eq, List.length_append]
    omega
  rw [hstop, hfirst.eq, Text.cutAt_byteLength, Pattern.findAll, hp, Regex.findAll, spansFrom,
    nextSpan?_eq hkey, hspan]
  simp only [List.filterMap_cons_some hmarker, List.nil_append]
  rw [Pattern.findAll, hp, Regex.findAll]
  refine congrArg _
    (filterMap_spansFrom hkey hne String.toList_ofList ?_ (hstart _) hlen ?_)
  · simpa using hoffset
  · rw [String.toList_ofList]
    exact Nat.lt_add_of_pos_right (by decide)

end Marker

end RefTree
