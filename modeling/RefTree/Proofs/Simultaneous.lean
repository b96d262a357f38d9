import Mathlib.Data.List.Forall2
import RefTree.Proofs.Agreement
import RefTree.Proofs.Marker.Cut
import RefTree.Proofs.Rescans

/-!
# Proofs/Simultaneous — all markers of a string replaced at once

The loop over a string replaces the first marker and searches again.  In a neat string, where every
`@` begins a marker, it might as well look up the keys of all markers in order (`Inquiry.askAll`)
and replace the markers at once (`Resolver.replaceAll`).  The two ask alike and answer alike
(`substitute_alike`): what has been replaced is sealed, so the first marker of the new text is the
next marker of the old one.
-/

namespace RefTree

/-! ## Lookups in order -/

namespace Inquiry

variable {α β γ : Type}

theorem map_bind (q : Inquiry α) (f : α → β) (g : β → Inquiry γ) :
    (q.map f).bind g = q.bind fun a => g (f a) := by
  induction q with
  | done a => rfl
  | failed e => rfl
  | exhausted => rfl
  | ask key next ih => exact congrArg (ask key) (funext ih)

theorem map_map (q : Inquiry α) (f : α → β) (g : β → γ) :
    (q.map f).map g = q.map fun a => g (f a) := map_bind q f _

/-- Ask for the values of keys in order. -/
def askAll : List String → Inquiry (List Value)
  | [] => done []
  | key :: keys => ask key fun v => (askAll keys).map (v :: ·)

theorem map_askAll_cons (key : String) (keys : List String) (f : List Value → α) :
    (askAll (key :: keys)).map f = ask key fun v => (askAll keys).map fun vs => f (v :: vs) :=
  congrArg (ask key) (funext fun v => map_map (askAll keys) (v :: ·) f)

/-- The inquiries ask the lookup for the same keys and get the same answer. -/
structure Alike (look : String → Outcome Value) (q q' : Inquiry α) : Prop where
  asked : q.asked look = q'.asked look
  answer : q.answer look = q'.answer look

variable {look : String → Outcome Value}

theorem Alike.refl (q : Inquiry α) : Alike look q q := ⟨rfl, rfl⟩

theorem Alike.ask {key : String} {next next' : Value → Inquiry α}
    (h : ∀ v, look key = .done v → Alike look (next v) (next' v)) :
    Alike look (ask key next) (ask key next') := by
  cases hv : look key with
  | done v =>
    exact ⟨by simp only [Inquiry.asked, hv, (h v hv).asked],
      by simp only [Inquiry.answer, hv, Outcome.bind, (h v hv).answer]⟩
  | failed e =>
    exact ⟨by simp only [Inquiry.asked, hv], by simp only [Inquiry.answer, hv, Outcome.bind]⟩
  | exhausted =>
    exact ⟨by simp only [Inquiry.asked, hv], by simp only [Inquiry.answer, hv, Outcome.bind]⟩

/-- Changing the result changes nothing about what is asked. -/
theorem asked_map (q : Inquiry α) (f : α → β) : (q.map f).asked look = q.asked look := by
  induction q with
  | done a => rfl
  | failed e => rfl
  | exhausted => rfl
  | ask key next ih =>
    simp only [map, bind, asked]
    cases look key with
    | done v => exact congrArg (key :: ·) (ih v)
    | failed e => rfl
    | exhausted => rfl

/-- The keys up to the first that has no value. -/
def tried (look : String → Outcome Value) (keys : List String) : List String :=
  keys.takeWhile (fun key => (look key).isDone) ++
    (keys.dropWhile fun key => (look key).isDone).take 1

/-- **Keys are asked for up to the first that has no value.** -/
theorem asked_askAll (keys : List String) : (askAll keys).asked look = tried look keys := by
  induction keys with
  | nil => rfl
  | cons key keys ih =>
    rw [askAll, asked]
    cases hv : look key with
    | done v => simp [asked_map, ih, hv, tried, Outcome.isDone]
    | failed e => simp [hv, tried, Outcome.isDone]
    | exhausted => simp [hv, tried, Outcome.isDone]

theorem answer_askAll_eq_done_iff {keys : List String} {values : List Value} :
    (askAll keys).answer look = .done values ↔
      List.Forall₂ (fun key v => look key = .done v) keys values := by
  induction keys generalizing values with
  | nil => simp [askAll, answer, eq_comm]
  | cons key keys ih =>
    simp only [askAll, answer, Outcome.bind_eq_done_iff, answer_map_eq_done_iff,
      List.forall₂_cons_left_iff, ih]
    constructor
    · rintro ⟨v, hv, vs, hvs, rfl⟩
      exact ⟨v, vs, hv, hvs, rfl⟩
    · rintro ⟨v, vs, hv, hvs, rfl⟩
      exact ⟨v, hv, vs, hvs, rfl⟩

/-- The first failure is the failure of the whole. -/
theorem answer_askAll_of_failed {before after : List String} {key : String} {e : Failure}
    (hbefore : ∀ k ∈ before, (look k).isDone = true) (hkey : look key = .failed e) :
    (askAll (before ++ key :: after)).answer look = .failed e := by
  induction before with
  | nil => simp only [List.nil_append, askAll, answer, hkey, Outcome.bind]
  | cons k before ih =>
    obtain ⟨hk, hbefore⟩ := List.forall_mem_cons.mp hbefore
    cases hv : look k with
    | done v =>
      simp only [List.cons_append, askAll, answer, hv, Outcome.bind, map, answer_bind, ih hbefore]
    | failed e => rw [hv] at hk; cases hk
    | exhausted => rw [hv] at hk; cases hk

theorem askAll_ends (h : ∀ key, look key ≠ .exhausted) (keys : List String) :
    (askAll keys).Ends look := by
  induction keys with
  | nil => simp [Ends, askAll, answer]
  | cons key keys ih =>
    rw [Ends, askAll, answer]
    cases hv : look key with
    | done v => exact ih.map _
    | failed e => simp [Outcome.bind]
    | exhausted => exact absurd hv (h key)

end Inquiry

/-! ## Replacing at once -/

/-- The text behind the byte `offset` with a text in place of each marker, all at once. -/
def spliceAll (offset : Nat) (text : List Char) : List (Marker × String) → List Char
  | [] => text
  | (m, new) :: more =>
    let (gap, rest) := Text.cutAt (m.start - offset) text
    gap ++ new.toList ++ spliceAll m.stop (Text.cutAt m.length rest).2 more

open Marker.Default (Cut Spells markerAt) in
theorem spliceAll_cons (text : String) (done u v k w : List Char) (new : String)
    (more : List (Marker × String)) :
    spliceAll (Text.byteLength done) (u ++ v ++ w) ((markerAt text (done ++ u) v k, new) :: more) =
      u ++ new.toList ++ spliceAll (Text.byteLength (done ++ u ++ v)) w more := by
  have hstart : (markerAt text (done ++ u) v k).start - Text.byteLength done =
      Text.byteLength u := by
    simp [markerAt, Text.byteLength_append]
  have hstop : (markerAt text (done ++ u) v k).stop = Text.byteLength (done ++ u ++ v) := by
    simp [Marker.stop, markerAt, Text.byteLength_append, Nat.add_assoc]
  have hcut : Text.cutAt (Text.byteLength u) (u ++ v ++ w) = (u, v ++ w) := by
    rw [List.append_assoc, Text.cutAt_byteLength]
  have hlength : Text.cutAt (markerAt text (done ++ u) v k).length (v ++ w) = (v, w) :=
    Text.cutAt_byteLength v w
  rw [spliceAll, hstart, hstop, hcut]
  simp only [hlength]

namespace Resolver

/-- **What values make of a string**, if they replace its markers at once.  One marker that is the
whole string stands for the value itself. -/
def replaceAll (r : Resolver) (text : String) (values : List Value) : Value :=
  match r.pattern.findAll text, values with
  | [m], [v] =>
    if m.whole && r.options.keepTypes then v
    else .string (String.ofList (spliceAll 0 text.toList [(m, v.render)]))
  | ms, vs => .string (String.ofList (spliceAll 0 text.toList (ms.zip (vs.map Value.render))))

/-- The keys of the markers of a string under `frame`, in order. -/
def keysOf (r : Resolver) (frame : List String) (text : String) : List String :=
  (r.pattern.findAll text).map fun m => r.keyOf frame m.key

/-- The value of a string by one replacement of all its markers. -/
def substituteOnce (r : Resolver) (frame : List String) (text : String) : Inquiry Value :=
  (Inquiry.askAll (r.keysOf frame text)).map (r.replaceAll text)

variable {r : Resolver}

theorem substituteOnce_of_nil {text : String} (hms : r.pattern.findAll text = [])
    (frame : List String) : r.substituteOnce frame text = .done (r.replaceAll text []) := by
  rw [substituteOnce, keysOf, hms]
  rfl

/-- One replacement asks for the key of the first marker first. -/
theorem substituteOnce_of_cons {text : String} {m : Marker} {ms : List Marker}
    (hms : r.pattern.findAll text = m :: ms) (frame : List String) :
    r.substituteOnce frame text =
      .ask (r.keyOf frame m.key) fun v =>
        (Inquiry.askAll (ms.map fun m => r.keyOf frame m.key)).map fun vs =>
          r.replaceAll text (v :: vs) := by
  rw [substituteOnce, keysOf, hms, List.map_cons, Inquiry.map_askAll_cons]

theorem replaceAll_of_whole {text : String} {m : Marker} (hms : r.pattern.findAll text = [m])
    (h : (m.whole && r.options.keepTypes) = true) (v : Value) : r.replaceAll text [v] = v := by
  unfold replaceAll
  rw [hms]
  exact if_pos h

theorem replaceAll_of_not_whole {text : String} {ms : List Marker}
    (hms : r.pattern.findAll text = ms)
    (h : ∀ m, ms = [m] → (m.whole && r.options.keepTypes) = false) (values : List Value) :
    r.replaceAll text values =
      .string (String.ofList (spliceAll 0 text.toList (ms.zip (values.map Value.render)))) := by
  unfold replaceAll
  rw [hms]
  split
  · next m v => exact if_neg (by rw [h m rfl]; exact Bool.false_ne_true)
  · rfl

/-! ## The loop over a neat string -/

section Loop

open Marker.Default (Cut markerAt)

variable (hp : r.pattern = Marker.Default.pattern) (hpost : r.options.postParser = none)
include hp hpost

/-- A sealed string stands for itself. -/
theorem substitute_of_sealed {text : String} (h : Sealed text.toList) (frame : List String)
    (n : Nat) (untouched : Bool) : r.substitute frame n untouched text = .done (.string text) := by
  have hnone : r.pattern.find? text = none := hp ▸ Marker.Default.find?_eq_none_of_sealed h
  rw [substitute_of_find?_none hnone, finish_of_postParser_none hpost]

/-- **The loop from its second search on**: `front` is what has been replaced, and what follows is
cut into the markers `ms` of the old text. -/
theorem substitute_touched_alike {look : String → Outcome Value}
    (hlook : ∀ key v, look key = .done v → v.Sealed) (frame : List String) {text : String}
    {done w : List Char} {ms : List Marker} (hcut : Cut ('@' ∉ ·) text done w ms) {n : Nat}
    (hn : ms.length ≤ n) {front : List Char} (hfront : Sealed front) {current : String}
    (hcurrent : current.toList = front ++ w) :
    Inquiry.Alike look (r.substitute frame n false current)
      ((Inquiry.askAll (ms.map fun m => r.keyOf frame m.key)).map fun values =>
        .string (String.ofList
          (front ++ spliceAll (Text.byteLength done) w (ms.zip (values.map Value.render))))) := by
  induction hcut generalizing n front current with
  | @last done w hw =>
    have hsealed : Sealed current.toList := hcurrent ▸ hfront.append (.of_notMem hw)
    have htext : String.ofList (front ++ w) = current := by
      rw [← hcurrent, String.ofList_toList]
    rw [substitute_of_sealed hp hpost hsealed, ← htext]
    exact .refl _
  | @marker done u v k w ms hu hv hcut ih =>
    obtain ⟨n, rfl⟩ : ∃ n', n = n' + 1 := ⟨n - 1, by simp at hn; omega⟩
    have hparts : current.toList = front ++ u ++ v ++ w := by
      rw [hcurrent]
      simp
    have hsealed : Sealed (front ++ u) := hfront.append (.of_notMem hu)
    have hfind : r.pattern.find? current = some (markerAt current (front ++ u) v k) :=
      hp ▸ Marker.Default.find?_of_sealed hparts hsealed hv
    rw [substitute_succ hfind, List.map_cons, Inquiry.map_askAll_cons]
    refine .ask fun value hvalue => ?_
    have hreplace : r.replace false current (markerAt current (front ++ u) v k)
        value = .inr (String.ofList (front ++ u ++ value.render.toList ++ w)) := by
      rw [← splice_markerAt hparts]
      rfl
    have hnext := ih (Nat.le_of_succ_le_succ hn) (hsealed.append (hlook _ _ hvalue).render)
      String.toList_ofList
    rw [hreplace]
    simp only [List.map_cons, List.zip_cons_cons, spliceAll_cons]
    simpa only [resume, List.append_assoc] using hnext

/-- A string that is one marker becomes the value of that marker. -/
theorem substitute_alike_of_whole {look : String → Outcome Value}
    (hlook : ∀ key v, look key = .done v → v.Sealed) (frame : List String) {text : String}
    {m : Marker} (hms : r.pattern.findAll text = [m]) (hfind : r.pattern.find? text = some m)
    (hwhole : (m.whole && r.options.keepTypes) = true) (n : Nat) :
    Inquiry.Alike look (r.substitute frame (n + 1) true text) (r.substituteOnce frame text) := by
  rw [substitute_succ hfind, substituteOnce_of_cons hms]
  refine .ask fun value hvalue => ?_
  have hfree : value.MarkerFree r.pattern := fun s hs =>
    hp ▸ Marker.Default.find?_eq_none_of_sealed ((hlook _ _ hvalue).texts s hs)
  rw [resume_replace_of_whole hpost hwhole frame n hfree, List.map_nil, Inquiry.askAll,
    Inquiry.map, Inquiry.bind, replaceAll_of_whole hms hwhole]
  exact .refl _

/-- The first marker of a longer string is replaced, and the loop goes on behind it. -/
theorem substitute_alike_of_not_whole {look : String → Outcome Value}
    (hlook : ∀ key v, look key = .done v → v.Sealed) (frame : List String) {text : String}
    {u v k w : List Char} {ms : List Marker} (htext : text.toList = u ++ v ++ w)
    (hms : r.pattern.findAll text = markerAt text u v k :: ms) (hu : '@' ∉ u)
    (hfind : r.pattern.find? text = some (markerAt text u v k))
    (hcut : Cut ('@' ∉ ·) text (u ++ v) w ms)
    (hwhole : ¬ ((markerAt text u v k).whole && r.options.keepTypes) = true) {n : Nat}
    (hn : ms.length ≤ n) :
    Inquiry.Alike look (r.substitute frame (n + 1) true text) (r.substituteOnce frame text) := by
  rw [substitute_succ hfind, substituteOnce_of_cons hms]
  refine .ask fun value hvalue => ?_
  have hreplace : r.replace true text (markerAt text u v k) value =
      .inr (String.ofList (u ++ value.render.toList ++ w)) := by
    rw [← splice_markerAt htext]
    exact if_neg (by rwa [Bool.true_and])
  have hnot : ∀ m, markerAt text u v k :: ms = [m] → (m.whole && r.options.keepTypes) = false := by
    intro m hm
    rw [← (List.cons.inj hm).1]
    exact Bool.eq_false_iff.mpr hwhole
  have hnext := substitute_touched_alike hp hpost hlook frame hcut hn
    (Sealed.append (.of_notMem hu) (hlook _ _ hvalue).render) String.toList_ofList
  have hsplice := spliceAll_cons text [] u v k w
  rw [List.nil_append, Text.byteLength] at hsplice
  simp only [replaceAll_of_not_whole hms hnot, hreplace, htext, List.map_cons, List.zip_cons_cons,
    hsplice]
  exact hnext

/-- **The loop over a neat string replaces all its markers at once.** -/
theorem substitute_alike {look : String → Outcome Value}
    (hlook : ∀ key v, look key = .done v → v.Sealed) (frame : List String) {text : String}
    (hneat : r.pattern.Neat text) {n : Nat} (hn : (r.pattern.findAll text).length ≤ n) :
    Inquiry.Alike look (r.substitute frame n true text) (r.substituteOnce frame text) := by
  have hcut := Marker.Default.cut_of_neat (hp ▸ hneat)
  rw [← hp] at hcut
  obtain ⟨ms, hms⟩ : ∃ ms, r.pattern.findAll text = ms := ⟨_, rfl⟩
  obtain ⟨cs, hcs⟩ : ∃ cs, text.toList = cs := ⟨_, rfl⟩
  rw [hms] at hcut hn
  rw [hcs] at hcut
  cases hcut with
  | last hw =>
    rw [substitute_of_sealed hp hpost (hcs ▸ .of_notMem hw), substituteOnce_of_nil hms,
      replaceAll_of_not_whole hms (by simp), List.zip_nil_left, spliceAll, String.ofList_toList]
    exact .refl _
  | @marker _ u v k w ms hu hv hcut =>
    obtain ⟨n, rfl⟩ : ∃ n', n = n' + 1 := ⟨n - 1, by simp at hn; omega⟩
    have hfind : r.pattern.find? text = some (markerAt text u v k) :=
      hp ▸ Marker.Default.find?_of_sealed hcs (.of_notMem hu) hv
    rw [List.nil_append] at hms hcut
    by_cases hwhole : ((markerAt text u v k).whole && r.options.keepTypes) = true
    · -- nothing stands around the marker, so it is the only one
      obtain ⟨rfl, rfl⟩ :=
        (Marker.Default.whole_markerAt_iff hcs).mp (Bool.and_eq_true_iff.mp hwhole).1
      obtain rfl := hcut.eq_nil
      exact substitute_alike_of_whole hp hpost hlook frame hms hfind hwhole n
    · exact substitute_alike_of_not_whole hp hpost hlook frame hcs hms hu hfind hcut hwhole
        (Nat.le_of_succ_le_succ hn)

end Loop

end Resolver

end RefTree
