import RefTree.Inquiry

/-!
# Proofs/Inquiry — what an answer owes to the lookup it comes from

An inquiry fixes what is asked and what becomes of the answers, so two lookups that differ only
where they give no value answer it alike up to such an end (`Agrees.answer`).  What can be said of
the ends of an inquiry is said once for all lookups (`EndsIn`), and a failure that is not the
inquiry's own is the failure of a key that it comes to (`Reaches`).
-/

namespace RefTree

namespace Outcome

variable {α β : Type}

/-- There is a result. -/
def isDone : Outcome α → Bool
  | done _ => true
  | _ => false

/-- The result, or `a` if there is none. -/
def getD (a : α) : Outcome α → α
  | done b => b
  | _ => a

/-- There is no value, for a reason in `bad`; the reason `none` is that the computation was cut
short. -/
def Stops (bad : Option Failure → Prop) : Outcome α → Prop
  | done _ => False
  | failed e => bad (some e)
  | exhausted => bad none

theorem Stops.bind {bad : Option Failure → Prop} {o : Outcome α} (h : o.Stops bad)
    (f : α → Outcome β) : (o.bind f).Stops bad := by
  cases o with
  | done a => exact h.elim
  | failed e => exact h
  | exhausted => exact h

theorem bind_eq_done_iff {o : Outcome α} {f : α → Outcome β} {b : β} :
    o.bind f = .done b ↔ ∃ a, o = .done a ∧ f a = .done b := by
  constructor
  · intro h
    cases o with
    | done a => exact ⟨a, rfl, h⟩
    | failed e => cases h
    | exhausted => cases h
  · rintro ⟨a, rfl, h⟩
    exact h

/-- The reason of a computation that was cut short. -/
def CutShort (reason : Option Failure) : Prop := reason = none

theorem cutShort_none : CutShort none := rfl

theorem stops_cutShort_iff {o : Outcome α} : o.Stops CutShort ↔ o = .exhausted := by
  cases o with
  | done a => exact ⟨False.elim, fun h => nomatch h⟩
  | failed e => exact ⟨fun h => (nomatch h), fun h => (nomatch h)⟩
  | exhausted => exact ⟨fun _ => rfl, fun _ => rfl⟩

/-- Outcomes that agree unless the first is cut short are equal if it is not. -/
theorem eq_of_ne_exhausted {o o' : Outcome α} (h : o' = o ∨ o.Stops CutShort)
    (hne : o ≠ .exhausted) : o' = o :=
  h.resolve_right fun hstop => hne (stops_cutShort_iff.mp hstop)

end Outcome

namespace Inquiry

variable {α β : Type}

/-! ## Results -/

theorem answer_bind_eq_done_iff {look : String → Outcome Value} {q : Inquiry α}
    {f : α → Inquiry β} {b : β} :
    (q.bind f).answer look = .done b ↔
      ∃ a, q.answer look = .done a ∧ (f a).answer look = .done b := by
  rw [answer_bind, Outcome.bind_eq_done_iff]

theorem answer_map_eq_done_iff {look : String → Outcome Value} {q : Inquiry α} {f : α → β} {b : β} :
    (q.map f).answer look = .done b ↔ ∃ a, q.answer look = .done a ∧ f a = b := by
  rw [map, answer_bind_eq_done_iff]
  exact exists_congr fun a => and_congr_right fun _ =>
    ⟨fun h => Outcome.done.inj h, fun h => congrArg _ h⟩

/-! ## Inquiries that differ in their stops -/

/-- The second inquiry is the first one, except that it may go on where the first is cut short. -/
inductive Agrees (bad : Option Failure → Prop) : Inquiry α → Inquiry α → Prop
  | cut (h : bad none) (q : Inquiry α) : Agrees bad exhausted q
  | exhausted : Agrees bad exhausted exhausted
  | done (a : α) : Agrees bad (done a) (done a)
  | failed (e : Failure) : Agrees bad (failed e) (failed e)
  | ask (key : String) {next next' : Value → Inquiry α} (h : ∀ v, Agrees bad (next v) (next' v)) :
      Agrees bad (ask key next) (ask key next')

namespace Agrees

variable {bad : Option Failure → Prop}

theorem refl (q : Inquiry α) : Agrees bad q q := by
  induction q with
  | done a => exact .done a
  | failed e => exact .failed e
  | exhausted => exact .exhausted
  | ask key next ih => exact .ask key ih

theorem bind {q q' : Inquiry α} (h : Agrees bad q q') {f f' : α → Inquiry β}
    (hf : ∀ a, Agrees bad (f a) (f' a)) : Agrees bad (q.bind f) (q'.bind f') := by
  induction h with
  | cut h q => exact .cut h _
  | exhausted => exact .exhausted
  | done a => exact hf a
  | failed e => exact .failed e
  | ask key _ ih => exact .ask key ih

theorem map {q q' : Inquiry α} (h : Agrees bad q q') (f : α → β) :
    Agrees bad (q.map f) (q'.map f) := h.bind fun a => .done (f a)

/-- **Lookups that agree up to stops give answers that agree up to stops.** -/
theorem answer {q q' : Inquiry α} (h : Agrees bad q q') {look look' : String → Outcome Value}
    (hlook : ∀ key, look' key = look key ∨ (look key).Stops bad) :
    q'.answer look' = q.answer look ∨ (q.answer look).Stops bad := by
  induction h with
  | cut h q => exact .inr h
  | exhausted => exact .inl rfl
  | done a => exact .inl rfl
  | failed e => exact .inl rfl
  | @ask key next next' _ ih =>
    rcases hlook key with heq | hstop
    · simp only [Inquiry.answer, heq]
      cases look key with
      | done v => exact ih v
      | failed e => exact .inl rfl
      | exhausted => exact .inl rfl
    · exact .inr (hstop.bind _)

end Agrees

/-- The same for one inquiry on two lookups. -/
theorem answer_eq_or_stops (q : Inquiry α) {bad : Option Failure → Prop}
    {look look' : String → Outcome Value}
    (hlook : ∀ key, look' key = look key ∨ (look key).Stops bad) :
    q.answer look' = q.answer look ∨ (q.answer look).Stops bad :=
  (Agrees.refl q).answer hlook

/-! ## The ends of an inquiry -/

/-- The answer is not cut short. -/
def Ends (look : String → Outcome Value) (q : Inquiry α) : Prop := q.answer look ≠ .exhausted

theorem Ends.bind {look : String → Outcome Value} {q : Inquiry α} (h : q.Ends look)
    {f : α → Inquiry β} (hf : ∀ a, (f a).Ends look) : (q.bind f).Ends look := by
  rw [Ends, answer_bind]
  rw [Ends] at h
  cases hq : q.answer look with
  | done a => exact hf a
  | failed e => simp [Outcome.bind]
  | exhausted => exact absurd hq h

theorem Ends.map {look : String → Outcome Value} {q : Inquiry α} (h : q.Ends look) (f : α → β) :
    (q.map f).Ends look :=
  h.bind fun a => by simp [Ends, answer]

/-- Every end that answers in `A` lead to is a result in `P` or a failure in `F`. -/
def EndsIn (A : Value → Prop) (P : α → Prop) (F : Failure → Prop) : Inquiry α → Prop
  | done a => P a
  | failed e => F e
  | exhausted => True
  | ask _ next => ∀ v, A v → EndsIn A P F (next v)

theorem EndsIn.bind {A : Value → Prop} {P : α → Prop} {Q : β → Prop} {F : Failure → Prop}
    {q : Inquiry α} (h : q.EndsIn A P F) {f : α → Inquiry β} (hf : ∀ a, P a → (f a).EndsIn A Q F) :
    (q.bind f).EndsIn A Q F := by
  induction q with
  | done a => exact hf a h
  | failed e => exact h
  | exhausted => trivial
  | ask key next ih => exact fun v hv => ih v (h v hv)

theorem EndsIn.map {A : Value → Prop} {P : α → Prop} {Q : β → Prop} {F : Failure → Prop}
    {q : Inquiry α} (h : q.EndsIn A P F) {f : α → β} (hf : ∀ a, P a → Q (f a)) :
    (q.map f).EndsIn A Q F := h.bind hf

/-- **A result on a lookup whose values are in `A` is in `P`.** -/
theorem EndsIn.of_done {A : Value → Prop} {P : α → Prop} {F : Failure → Prop} {q : Inquiry α}
    (h : q.EndsIn A P F) {look : String → Outcome Value}
    (hlook : ∀ key v, look key = .done v → A v) {a : α} (ha : q.answer look = .done a) : P a := by
  induction q with
  | done b =>
    obtain rfl : b = a := Outcome.done.inj ha
    exact h
  | failed e => cases ha
  | exhausted => cases ha
  | ask key next ih =>
    simp only [answer] at ha
    cases hk : look key with
    | done v =>
      rw [hk] at ha
      exact ih v (h v (hlook key v hk)) ha
    | failed e => rw [hk] at ha; cases ha
    | exhausted => rw [hk] at ha; cases ha

/-! ## The keys an inquiry comes to -/

/-- The inquiry comes to ask for `key`, if what it asks for before has the values in `vals`. -/
inductive Reaches (vals : String → Value → Prop) (key : String) : Inquiry α → Prop
  | here {next : Value → Inquiry α} : Reaches vals key (ask key next)
  | later {other : String} {v : Value} {next : Value → Inquiry α} (hv : vals other v)
      (h : Reaches vals key (next v)) : Reaches vals key (ask other next)

theorem Reaches.mono {vals vals' : String → Value → Prop} {key : String} {q : Inquiry α}
    (h : q.Reaches vals key) (hvals : ∀ k v, vals k v → vals' k v) : q.Reaches vals' key := by
  induction h with
  | here => exact .here
  | later hv _ ih => exact .later (hvals _ _ hv) ih

/-- **A failure is the inquiry's own, or that of a key it comes to** after lookups that gave
values. -/
theorem EndsIn.of_failed {A : Value → Prop} {P : α → Prop} {F : Failure → Prop} {q : Inquiry α}
    (h : q.EndsIn A P F) {look : String → Outcome Value}
    (hlook : ∀ key v, look key = .done v → A v) {e : Failure} (he : q.answer look = .failed e) :
    F e ∨ ∃ key, q.Reaches (fun k v => look k = .done v) key ∧ look key = .failed e := by
  induction q with
  | done b => cases he
  | failed e' =>
    obtain rfl : e' = e := Outcome.failed.inj he
    exact .inl h
  | exhausted => cases he
  | ask key next ih =>
    simp only [answer] at he
    cases hk : look key with
    | done v =>
      rw [hk] at he
      rcases ih v (h v (hlook key v hk)) he with hF | ⟨key', hreach, hkey'⟩
      · exact .inl hF
      · exact .inr ⟨key', .later hk hreach, hkey'⟩
    | failed e' =>
      rw [hk] at he
      obtain rfl : e' = e := Outcome.failed.inj he
      exact .inr ⟨key, .here, hk⟩
    | exhausted => rw [hk] at he; cases he

/-- **A stop at a key the inquiry comes to stops the answer**, whatever else differs from the values
on the way there only by such stops. -/
theorem Reaches.stops {vals : String → Value → Prop} {key : String} {q : Inquiry α}
    (h : q.Reaches vals key) {bad : Option Failure → Prop} {look : String → Outcome Value}
    (hlook : ∀ k v, vals k v → look k = .done v ∨ (look k).Stops bad)
    (hkey : (look key).Stops bad) : (q.answer look).Stops bad := by
  induction h with
  | here => exact hkey.bind _
  | @later other v next hv _ ih =>
    rcases hlook other v hv with heq | hstop
    · simp only [answer, heq]
      exact ih
    · exact hstop.bind _

end Inquiry

end RefTree
