import Mathlib.Logic.Relation
import RefTree.Proofs.Failure

/-!
# Proofs/Machine — a call one step at a time, on one chain

A lookup of the resolver is handed the chain that it is under.  Here a call has a single chain,
which its lookups enter and leave as they come and go, and a stack of the lookups that have begun
and not returned.  A step changes one or the other: beginning and returning move the stack, entering
and leaving move the chain, and failures take the same way back as values do.

The machine comes to the outcome of the call (`steps_asking`), and at every step its chain is that
of the lookups on the stack that have entered their keys (`Balanced.step`).  So the chain is the
same whenever the same lookups are open, before a lookup and after it in particular.
-/

namespace RefTree

namespace Resolver

/-! ## The machine -/

/-- A lookup that has begun and not returned: its key, and what its caller makes of its value. -/
structure Frame where
  key : String
  next : Value → Inquiry Value

/-- What a machine is about to do. -/
inductive Control where
  /-- Work off an inquiry. -/
  | asking (q : Inquiry Value)
  /-- Enter the key of a lookup that has begun. -/
  | entering (key : String)
  /-- Hand the key to the getter. -/
  | fetching (key : String)
  /-- Leave the key, since the inquiry of the lookup has ended. -/
  | ended (o : Outcome Value)
  /-- Return from the lookup. -/
  | returning (o : Outcome Value)

/-- A call in its course: its chain, and the lookups that have begun and not returned, the latest
first. -/
structure Machine where
  chain : Chain
  frames : List Frame
  control : Control

/-- The keys of lookups that have begun and not returned, the outermost first. -/
def pending (frames : List Frame) : List String := (frames.map Frame.key).reverse

theorem pending_cons (f : Frame) (fs : List Frame) : pending (f :: fs) = pending fs ++ [f.key] := by
  rw [pending, List.map_cons, List.reverse_cons, pending]

/-- How a caller goes on with the outcome of a lookup: a failure is its own failure. -/
def Frame.resume (f : Frame) : Outcome Value → Control
  | .done v => .asking (f.next v)
  | .failed e => .ended (.failed e)
  | .exhausted => .ended .exhausted

section Definitions

variable (r : Resolver) (n : Nat)

/-- **One step.**  There is none when the call itself has ended. -/
def step : Machine → Option Machine
  | ⟨c, fs, .asking (.ask key next)⟩ => some ⟨c, ⟨key, next⟩ :: fs, .entering key⟩
  | ⟨c, fs, .asking (.done v)⟩ => some ⟨c, fs, .ended (.done v)⟩
  | ⟨c, fs, .asking (.failed e)⟩ => some ⟨c, fs, .ended (.failed e)⟩
  | ⟨c, fs, .asking .exhausted⟩ => some ⟨c, fs, .ended .exhausted⟩
  | ⟨c, fs, .entering key⟩ =>
    match c.enter key with
    | .error e => some ⟨c, fs, .returning (.failed e)⟩
    | .ok inner => some ⟨inner, fs, .fetching key⟩
  | ⟨c, fs, .fetching key⟩ =>
    match r.getter r.tree key r.options.toConfig with
    | .error source => some ⟨c, fs, .ended (.failed (.resolution key source))⟩
    | .ok raw => some ⟨c, fs, .asking (r.walk n (r.rules.split key) raw)⟩
  | ⟨c, f :: fs, .ended o⟩ => some ⟨c.exit, f :: fs, .returning o⟩
  | ⟨_, [], .ended _⟩ => none
  | ⟨c, f :: fs, .returning o⟩ => some ⟨c, fs, f.resume o⟩
  | ⟨_, [], .returning _⟩ => none

/-- Any number of steps. -/
def Steps : Machine → Machine → Prop := Relation.ReflTransGen fun m m' => r.step n m = some m'

/-- The machine at the beginning of a call. -/
def start (call : Call) : Machine := ⟨.ofLimit r.options.maxDepth, [], .asking (r.inquiry n call)⟩

end Definitions

variable {r : Resolver} {n : Nat}

/-! ## The outcome -/

theorem Steps.trans {m m' m'' : Machine} (h : r.Steps n m m') (h' : r.Steps n m' m'') :
    r.Steps n m m'' := Relation.ReflTransGen.trans h h'

theorem Steps.head {m m' m'' : Machine} (h : r.step n m = some m') (h' : r.Steps n m' m'') :
    r.Steps n m m'' := Relation.ReflTransGen.head h h'

theorem Steps.single {m m' : Machine} (h : r.step n m = some m') : r.Steps n m m' :=
  Relation.ReflTransGen.single h

section Lookup

variable {c : Chain}

/-- A lookup enters its key and leaves it again, if the inquiries under the chain that it enters
come to their outcomes. -/
theorem steps_entering (hinner : ∀ key inner, c.enter key = .ok inner → ∀ fs q,
      r.Steps n ⟨inner, fs, .asking q⟩ ⟨inner, fs, .ended (q.answer (r.lookup n inner))⟩)
    (f : Frame) (fs : List Frame) (key : String) :
    r.Steps n ⟨c, f :: fs, .entering key⟩ ⟨c, f :: fs, .returning (r.lookup n c key)⟩ := by
  cases henter : c.enter key with
  | error e =>
    rw [lookup_of_enter_error henter]
    exact .single (by rw [step, henter])
  | ok inner =>
    have hentered : r.step n ⟨c, f :: fs, .entering key⟩ =
        some ⟨inner, f :: fs, .fetching key⟩ := by rw [step, henter]
    have hleave : ∀ o, r.step n ⟨inner, f :: fs, .ended o⟩ = some ⟨c, f :: fs, .returning o⟩ := by
      intro o
      rw [step, Chain.exit_of_enter henter]
    refine .head hentered (.trans ?_ (.single (hleave _)))
    cases hget : r.getter r.tree key r.options.toConfig with
    | error source =>
      rw [lookup_of_getter_error henter hget]
      exact .single (by rw [step, hget])
    | ok raw =>
      rw [lookup_of_getter_ok henter hget]
      exact .head (by rw [step, hget]) (hinner key inner henter _ _)

/-- **An inquiry comes to its outcome**, and leaves the chain and the stack as they were. -/
theorem steps_asking (c : Chain) : ∀ fs q,
    r.Steps n ⟨c, fs, .asking q⟩ ⟨c, fs, .ended (q.answer (r.lookup n c))⟩ := by
  induction c using Chain.induct_enter with
  | step c ih =>
    intro fs q
    induction q with
    | done v => exact .single rfl
    | failed e => exact .single rfl
    | exhausted => exact .single rfl
    | ask key next ihq =>
      have hreturn : r.step n ⟨c, ⟨key, next⟩ :: fs, .returning (r.lookup n c key)⟩ =
          some ⟨c, fs, Frame.resume ⟨key, next⟩ (r.lookup n c key)⟩ := rfl
      refine .head rfl ((steps_entering ih ⟨key, next⟩ fs key).trans (.head hreturn ?_))
      rw [Inquiry.answer]
      cases r.lookup n c key with
      | done v => exact ihq v
      | failed e => exact .refl
      | exhausted => exact .refl

end Lookup

/-! ## The chain -/

/-- The chain is that of the lookups on the stack. -/
structure Holds (limit : Nat) (c : Chain) (fs : List Frame) : Prop where
  sound : c.Sound limit
  keys_eq : c.keys = pending fs

namespace Holds

variable {limit : Nat} {c d : Chain} {f : Frame} {fs : List Frame}

theorem enter (h : Holds limit c fs) (henter : c.enter f.key = .ok d) :
    Holds limit d (f :: fs) := by
  refine ⟨h.sound.enter henter, ?_⟩
  rw [(Chain.enter_eq_ok_iff.mp henter).2.1, h.keys_eq, pending_cons]

theorem exit (h : Holds limit c (f :: fs)) : Holds limit c.exit fs := by
  refine ⟨h.sound.exit, ?_⟩
  rw [Chain.keys_exit, h.keys_eq, pending_cons, List.dropLast_concat]

end Holds

/-- **Whatever the machine is about to do, its chain is that of the lookups that have entered their
keys**: all that have begun, but for one that is about to enter or has left. -/
inductive Balanced (limit : Nat) : Machine → Prop
  | asking {c : Chain} {fs : List Frame} (h : Holds limit c fs) (q : Inquiry Value) :
      Balanced limit ⟨c, fs, .asking q⟩
  | entering {c : Chain} {f : Frame} {fs : List Frame} (h : Holds limit c fs) :
      Balanced limit ⟨c, f :: fs, .entering f.key⟩
  | fetching {c : Chain} {f : Frame} {fs : List Frame} (h : Holds limit c (f :: fs)) :
      Balanced limit ⟨c, f :: fs, .fetching f.key⟩
  | ended {c : Chain} {fs : List Frame} (h : Holds limit c fs) (o : Outcome Value) :
      Balanced limit ⟨c, fs, .ended o⟩
  | returning {c : Chain} {f : Frame} {fs : List Frame} (h : Holds limit c fs)
      (o : Outcome Value) : Balanced limit ⟨c, f :: fs, .returning o⟩

theorem balanced_resume {limit : Nat} {c : Chain} {fs : List Frame} (h : Holds limit c fs)
    (f : Frame) (o : Outcome Value) : Balanced limit ⟨c, fs, f.resume o⟩ := by
  cases o with
  | done v => exact .asking h _
  | failed e => exact .ended h _
  | exhausted => exact .ended h _

/-- **A step keeps the chain and the stack in balance.** -/
theorem Balanced.step {limit : Nat} {m m' : Machine} (h : Balanced limit m)
    (hstep : r.step n m = some m') : Balanced limit m' := by
  cases h with
  | asking h q =>
    cases q with
    | ask key next =>
      obtain rfl := Option.some.inj hstep
      exact .entering (f := ⟨key, next⟩) h
    | done v => exact Option.some.inj hstep ▸ .ended h _
    | failed e => exact Option.some.inj hstep ▸ .ended h _
    | exhausted => exact Option.some.inj hstep ▸ .ended h _
  | @entering c f fs h =>
    rw [Resolver.step] at hstep
    cases henter : c.enter f.key with
    | error e =>
      rw [henter] at hstep
      exact Option.some.inj hstep ▸ .returning h _
    | ok inner =>
      rw [henter] at hstep
      exact Option.some.inj hstep ▸ .fetching (h.enter henter)
  | @fetching c f fs h =>
    rw [Resolver.step] at hstep
    cases hget : r.getter r.tree f.key r.options.toConfig with
    | error source =>
      rw [hget] at hstep
      exact Option.some.inj hstep ▸ .ended h _
    | ok raw =>
      rw [hget] at hstep
      exact Option.some.inj hstep ▸ .asking h _
  | @ended c fs h o =>
    cases fs with
    | nil => cases hstep
    | cons f fs => exact Option.some.inj hstep ▸ .returning h.exit _
  | @returning c f fs h o => exact Option.some.inj hstep ▸ balanced_resume h f o

/-- The chain and the stack are in balance in the whole course of a call. -/
theorem balanced_of_steps {call : Call} {m : Machine} (h : r.Steps n (r.start n call) m) :
    Balanced r.options.maxDepth m := by
  induction h with
  | refl => exact .asking ⟨.ofLimit _, rfl⟩ _
  | tail _ hstep ih => exact ih.step hstep

variable {call : Call} {c c' : Chain} {fs fs' : List Frame} {key : String}

/-- **When the getter is called, the chain is that of the lookups that have begun and not
returned**, and the getter is called for the last of them. -/
theorem keys_eq_pending_of_steps (h : r.Steps n (r.start n call) ⟨c, fs, .fetching key⟩) :
    c.keys = pending fs ∧ (pending fs).getLast? = some key := by
  cases balanced_of_steps h with
  | fetching hholds => exact ⟨hholds.keys_eq, by rw [pending_cons, List.getLast?_concat]⟩

/-- **A lookup returns with the chain that it began with**, whatever its outcome. -/
theorem chain_eq_of_steps {o : Outcome Value}
    (h : r.Steps n (r.start n call) ⟨c, fs, .entering key⟩)
    (h' : r.Steps n (r.start n call) ⟨c', fs', .returning o⟩)
    (hpending : pending fs' = pending fs) : c' = c := by
  cases balanced_of_steps h with
  | @entering _ f fs hholds =>
    cases balanced_of_steps h' with
    | @returning _ f' fs' hholds' _ =>
      rw [pending_cons, pending_cons] at hpending
      obtain ⟨hkeys, -⟩ := List.append_inj' hpending rfl
      exact hholds.sound.unique hholds'.sound (by rw [hholds.keys_eq, hholds'.keys_eq, hkeys])

/-- A lookup that begins returns with its outcome. -/
theorem steps_of_entering (h : r.Steps n (r.start n call) ⟨c, fs, .entering key⟩) :
    r.Steps n ⟨c, fs, .entering key⟩ ⟨c, fs, .returning (r.lookup n c key)⟩ := by
  cases balanced_of_steps h with
  | entering => exact steps_entering (fun _ inner _ => steps_asking inner) _ _ _

/-- **The chain is exact.**  However a chain is entered and left, no key is on it twice, and it
keeps to its limit; a key that is refused leaves it as it was.  A call comes to its outcome, with an
empty chain.  In its course, whenever the getter is called, the chain is that of the lookups that
have begun and not returned, and the last of them is the one for which it is called; and a lookup
that begins returns, with its outcome and with the chain that it began with. -/
theorem chain_exact (r : Resolver) (n : Nat) (call : Call) :
    (∀ limit moves, (moves.foldl Chain.move (.ofLimit limit)).keys.Nodup ∧
      (moves.foldl Chain.move (.ofLimit limit)).keys.length ≤ limit ∧
      ∀ key e, (moves.foldl Chain.move (.ofLimit limit)).enter key = .error e →
        (moves ++ [.enter key]).foldl Chain.move (.ofLimit limit) =
          moves.foldl Chain.move (.ofLimit limit)) ∧
    r.Steps n (r.start n call) ⟨.ofLimit r.options.maxDepth, [], .ended (r.run n call)⟩ ∧
    (∀ c fs key, r.Steps n (r.start n call) ⟨c, fs, .fetching key⟩ →
      c.keys = pending fs ∧ (pending fs).getLast? = some key) ∧
    ∀ c fs key, r.Steps n (r.start n call) ⟨c, fs, .entering key⟩ →
      r.Steps n ⟨c, fs, .entering key⟩ ⟨c, fs, .returning (r.lookup n c key)⟩ ∧
      ∀ c' fs' o, r.Steps n (r.start n call) ⟨c', fs', .returning o⟩ →
        pending fs' = pending fs → c' = c := by
  refine ⟨fun limit moves => ?_, ?_, fun c fs key => keys_eq_pending_of_steps,
    fun c fs key h => ⟨steps_of_entering h, fun c' fs' o h' => chain_eq_of_steps h h'⟩⟩
  · have hsound := (Chain.Sound.ofLimit limit).foldl_move moves
    refine ⟨hsound.nodup, Nat.le.intro hsound.length_add_room, fun key e he => ?_⟩
    rw [List.foldl_append, List.foldl_cons, List.foldl_nil, Chain.move_of_enter_error he]
  · rw [run_eq_answer]
    exact steps_asking _ _ _

/-- A call that comes upon a cycle fails with an empty chain, and the chain of its first lookup is
the key of that lookup. -/
theorem chain_exact_entwined :
    (default entwined 64).Steps 1 ((default entwined 64).start 1 .resolve)
        ⟨.ofLimit 64, [], .ended (.failed (.cyclic "b" ["b", "a", "b"]))⟩ ∧
      ∃ c fs, (default entwined 64).Steps 1 ((default entwined 64).start 1 (.get "a"))
        ⟨c, fs, .fetching "a"⟩ ∧ c.keys = ["a"] := by
  obtain ⟨-, hends, -, -⟩ := chain_exact (default entwined 64) 1 .resolve
  obtain ⟨-, -, hfetching, -⟩ := chain_exact (default entwined 64) 1 (.get "a")
  rw [run_entwined] at hends
  have hfirst : (default entwined 64).Steps 1 ((default entwined 64).start 1 (.get "a"))
      ⟨⟨["a"], 63⟩, [⟨"a", .done⟩], .fetching "a"⟩ := .head rfl (.single rfl)
  exact ⟨hends, _, _, hfirst, (hfetching _ _ _ hfirst).1⟩

end Resolver

end RefTree
