import RefTree.Failure
import RefTree.Value

/-!
# Inquiry — computations that ask for the values of keys

An inquiry is finished, or it asks for the value of a key and goes on with the answer. It says what
is asked and in which order, and leaves open where the answers come from: `answer` runs it on a
lookup, and `asked` lists the keys that it asks that lookup for.
-/

namespace RefTree

/-- How a computation ends. `exhausted` is no end of its own: the computation was cut short. -/
inductive Outcome (α : Type) where
  | done (a : α)
  | failed (failure : Failure)
  | exhausted
  deriving DecidableEq, Repr

namespace Outcome

variable {α β : Type}

/-- Go on with a result. -/
def bind : Outcome α → (α → Outcome β) → Outcome β
  | done a, f => f a
  | failed e, _ => failed e
  | exhausted, _ => exhausted

/-- The outcome of something that can only fail. -/
def ofExcept : Except Failure α → Outcome α
  | .ok a => done a
  | .error e => failed e

end Outcome

/-- A computation that asks for values. -/
inductive Inquiry (α : Type) where
  | done (a : α)
  | failed (failure : Failure)
  | exhausted
  | ask (key : String) (next : Value → Inquiry α)

namespace Inquiry

variable {α β : Type}

/-- Go on with a result. -/
def bind : Inquiry α → (α → Inquiry β) → Inquiry β
  | done a, f => f a
  | failed e, _ => failed e
  | exhausted, _ => exhausted
  | ask key next, f => ask key fun v => (next v).bind f

/-- Change a result. -/
def map (f : α → β) (q : Inquiry α) : Inquiry β := q.bind fun a => done (f a)

/-- **The outcome on a lookup.** -/
def answer (look : String → Outcome Value) : Inquiry α → Outcome α
  | done a => .done a
  | failed e => .failed e
  | exhausted => .exhausted
  | ask key next => (look key).bind fun v => answer look (next v)

/-- The keys asked of a lookup, in order. The first that has no value is the last. -/
def asked (look : String → Outcome Value) : Inquiry α → List String
  | ask key next =>
    key ::
      match look key with
      | .done v => asked look (next v)
      | _ => []
  | _ => []

/-- **What is asked in a row is answered in a row.** -/
theorem answer_bind (look : String → Outcome Value) (q : Inquiry α) (f : α → Inquiry β) :
    (q.bind f).answer look = (q.answer look).bind fun a => (f a).answer look := by
  induction q with
  | done a => rfl
  | failed e => rfl
  | exhausted => rfl
  | ask key next ih =>
    simp only [bind, answer]
    cases look key with
    | done v => exact ih v
    | failed e => rfl
    | exhausted => rfl

end Inquiry

end RefTree
