import Mathlib.Logic.Relation
import RefTree.Proofs.Call
import RefTree.Proofs.Chain

/-!
# Proofs/Cycle — the cycle check refuses what could not be resolved anyway

An *unguarded* lookup is a lookup that only the depth limit stops.  Wherever the check does not
refuse, the two agree (`lookupUnguarded_eq_or_stops`).  Where it does, the refused key depends on
itself, through lookups whose values no chain and no limit can change (`Settles`), so an unguarded
lookup goes round until it is too deep, whatever the limit (`lookupUnguarded_of_endless`).

`runUnguarded_exact` puts the two together for the calls of a resolver.
-/

namespace RefTree

namespace Outcome

/-- The reason of a lookup that the cycle check refused. -/
def Cyclic (reason : Option Failure) : Prop := ∃ key keys, reason = some (.cyclic key keys)

/-- The reason of a lookup that the depth limit refused. -/
def TooDeep (limit : Nat) (reason : Option Failure) : Prop :=
  ∃ key, reason = some (.tooDeep key limit)

theorem stops_tooDeep_iff {α : Type} {limit : Nat} {o : Outcome α} :
    o.Stops (TooDeep limit) ↔ ∃ key, o = .failed (.tooDeep key limit) := by
  constructor
  · intro h
    cases o with
    | done a => exact h.elim
    | failed e =>
      obtain ⟨key, hkey⟩ := h
      exact ⟨key, congrArg _ (Option.some.inj hkey)⟩
    | exhausted =>
      obtain ⟨key, hkey⟩ := h
      cases hkey
  · rintro ⟨key, rfl⟩
    exact ⟨key, rfl⟩

end Outcome

open Outcome (Cyclic TooDeep)

namespace Chain

/-- **The chain with one more key at its end**, whether or not the key is on it already. -/
def extend (c : Chain) (key : String) : Except Failure Chain :=
  match c.room with
  | 0 => .error (.tooDeep key c.limit)
  | room + 1 => .ok ⟨c.keys ++ [key], room⟩

variable {c d : Chain} {key : String}

theorem enter_of_mem (h : key ∈ c.keys) :
    c.enter key = .error (.cyclic key (c.keys ++ [key])) := by
  rw [enter, if_pos h]

/-- The cycle check is all that entering adds. -/
theorem enter_of_notMem (h : key ∉ c.keys) : c.enter key = c.extend key := by
  rw [enter, if_neg h]
  rfl

theorem extend_of_room_zero (h : c.room = 0) : c.extend key = .error (.tooDeep key c.limit) := by
  rw [extend, h]

theorem extend_eq_ok_iff :
    c.extend key = .ok d ↔ d.keys = c.keys ++ [key] ∧ d.room + 1 = c.room := by
  obtain ⟨keys, room⟩ := c
  obtain ⟨keys', room'⟩ := d
  cases room with
  | zero => simp [extend]
  | succ room =>
    simp only [extend, Except.ok.injEq, Chain.mk.injEq, Nat.add_right_cancel_iff]
    exact ⟨fun ⟨hk, hr⟩ => ⟨hk.symm, hr.symm⟩, fun ⟨hk, hr⟩ => ⟨hk.symm, hr.symm⟩⟩

theorem room_lt_of_extend (h : c.extend key = .ok d) : d.room < c.room := by
  have := (extend_eq_ok_iff.mp h).2
  omega

theorem limit_of_extend (h : c.extend key = .ok d) : d.limit = c.limit := by
  obtain ⟨hkeys, hroom⟩ := extend_eq_ok_iff.mp h
  simp only [limit, depth, hkeys, List.length_append, List.length_singleton]
  omega

/-- A chain can be extended unless it is full. -/
theorem extend_error_or_ok (c : Chain) (key : String) :
    c.extend key = .error (.tooDeep key c.limit) ∨ ∃ d, c.extend key = .ok d := by
  cases hroom : c.room with
  | zero => exact .inl (extend_of_room_zero hroom)
  | succ room => exact .inr ⟨_, by rw [extend, hroom]⟩

end Chain

namespace Resolver

/-! ## Lookups without the cycle check -/

section Definitions

variable (r : Resolver)

/-- **The value of a key, without the cycle check**: only the depth limit stops nested lookups. -/
def lookupUnguarded (n : Nat) (chain : Chain) (key : String) : Outcome Value :=
  match _h : chain.extend key with
  | .error e => .failed e
  | .ok inner =>
    match r.getter r.tree key r.options.toConfig with
    | .error source => .failed (.resolution key source)
    | .ok raw => (r.walk n (r.rules.split key) raw).answer fun k => lookupUnguarded n inner k
termination_by chain.room
decreasing_by exact Chain.room_lt_of_extend _h

/-- The outcome of a call without the cycle check, under a depth limit of its own.  Only the chain
gets this limit: the getter and the post-parser are handed the options of the resolver, as ever. -/
def runUnguarded (n limit : Nat) (call : Call) : Outcome Value :=
  (r.inquiry n call).answer (r.lookupUnguarded n (.ofLimit limit))

/-- `key` has the value `v` without the cycle check, under a chain that leaves it the room. -/
def Settles (n : Nat) (key : String) (v : Value) : Prop :=
  ∃ chain, r.lookupUnguarded n chain key = .done v

/-- Resolving the raw value of `key` comes to look up `next`. -/
def Follows (n : Nat) (key next : String) : Prop :=
  ∃ raw, r.getter r.tree key r.options.toConfig = .ok raw ∧
    (r.walk n (r.rules.split key) raw).Reaches (r.Settles n) next

/-- Following the lookups from `key` leads into a cycle. -/
def Endless (n : Nat) (key : String) : Prop :=
  ∃ k, Relation.ReflTransGen (r.Follows n) key k ∧ Relation.TransGen (r.Follows n) k k

end Definitions

variable {r : Resolver} {n : Nat} {c inner : Chain} {key : String}

theorem lookupUnguarded_of_extend_error {e : Failure} (h : c.extend key = .error e) :
    r.lookupUnguarded n c key = .failed e := by
  rw [lookupUnguarded]
  split
  · next e' h' =>
    obtain rfl : e' = e := Except.error.inj (h'.symm.trans h)
    rfl
  · next inner h' => cases h'.symm.trans h

theorem lookupUnguarded_of_extend_ok (h : c.extend key = .ok inner) :
    r.lookupUnguarded n c key =
      match r.getter r.tree key r.options.toConfig with
      | .error source => .failed (.resolution key source)
      | .ok raw => (r.walk n (r.rules.split key) raw).answer (r.lookupUnguarded n inner) := by
  rw [lookupUnguarded]
  split
  · next e' h' => cases h'.symm.trans h
  · next inner' h' =>
    obtain rfl : inner' = inner := Except.ok.inj (h'.symm.trans h)
    rfl

/-- **Where the cycle check does not refuse, it makes no difference.** -/
theorem lookupUnguarded_eq_or_stops (c : Chain) :
    ∀ key, r.lookupUnguarded n c key = r.lookup n c key ∨ (r.lookup n c key).Stops Cyclic := by
  induction c using Chain.induct_enter with
  | step c ih =>
    intro key
    by_cases hmem : key ∈ c.keys
    · rw [lookup_of_enter_error (Chain.enter_of_mem hmem)]
      exact .inr ⟨key, _, rfl⟩
    · have hext := Chain.enter_of_notMem hmem
      cases henter : c.enter key with
      | error e =>
        rw [lookup_of_enter_error henter, lookupUnguarded_of_extend_error (hext ▸ henter)]
        exact .inl rfl
      | ok inner =>
        rw [lookup_of_enter_ok henter, lookupUnguarded_of_extend_ok (hext ▸ henter)]
        cases r.getter r.tree key r.options.toConfig with
        | error source => exact .inl rfl
        | ok raw => exact (r.walk n _ raw).answer_eq_or_stops (ih key inner henter)

theorem settles_of_lookup {v : Value} (h : r.lookup n c key = .done v) : r.Settles n key v := by
  refine ⟨c, ((lookupUnguarded_eq_or_stops c key).resolve_right ?_).trans h⟩
  rw [h]
  exact id

/-! ## The room of a chain

Without the cycle check the keys of a chain are of no account, and its room matters only where it
gives out. -/

/-- **More room only continues what was too deep.** -/
theorem lookupUnguarded_of_room_le (c : Chain) :
    ∀ c' : Chain, c.room ≤ c'.room → ∀ key,
      r.lookupUnguarded n c' key = r.lookupUnguarded n c key ∨
        (r.lookupUnguarded n c key).Stops (TooDeep c.limit) := by
  induction hroom : c.room generalizing c with
  | zero =>
    intro c' _ key
    rw [lookupUnguarded_of_extend_error (Chain.extend_of_room_zero hroom)]
    exact .inr ⟨key, rfl⟩
  | succ room ih =>
    intro c' hle key
    have hinner : c.extend key = .ok ⟨c.keys ++ [key], room⟩ :=
      Chain.extend_eq_ok_iff.mpr ⟨rfl, hroom.symm⟩
    have hinner' : c'.extend key = .ok ⟨c'.keys ++ [key], c'.room - 1⟩ :=
      Chain.extend_eq_ok_iff.mpr ⟨rfl, by simp only; omega⟩
    rw [lookupUnguarded_of_extend_ok hinner, lookupUnguarded_of_extend_ok hinner']
    cases r.getter r.tree key r.options.toConfig with
    | error source => exact .inl rfl
    | ok raw =>
      rw [← Chain.limit_of_extend hinner]
      exact (r.walk n _ raw).answer_eq_or_stops (ih _ rfl _ (by simp only; omega))

/-- **A settled value is the value under every chain** that is not too short for it. -/
theorem Settles.lookupUnguarded {v : Value} (h : r.Settles n key v) (c : Chain) :
    r.lookupUnguarded n c key = .done v ∨
      (r.lookupUnguarded n c key).Stops (TooDeep c.limit) := by
  obtain ⟨c₀, h₀⟩ := h
  rcases Nat.le_total c.room c₀.room with hle | hle
  · rcases lookupUnguarded_of_room_le c c₀ hle key with heq | hstop
    · exact .inl (heq.symm.trans h₀)
    · exact .inr hstop
  · rcases lookupUnguarded_of_room_le c₀ c hle key with heq | hstop
    · exact .inl (heq.trans h₀)
    · rw [h₀] at hstop
      exact hstop.elim

/-! ## Going round -/

/-- A lookup is refused for its own key, or because of a key that it follows. -/
theorem exists_follows_of_lookup_cyclic {c : Chain} {key k : String} {keys : List String}
    (h : r.lookup n c key = .failed (.cyclic k keys)) :
    (k = key ∧ key ∈ c.keys) ∨ ∃ next inner, c.enter key = .ok inner ∧ r.Follows n key next ∧
      r.lookup n inner next = .failed (.cyclic k keys) := by
  by_cases hmem : key ∈ c.keys
  · rw [lookup_of_enter_error (Chain.enter_of_mem hmem)] at h
    cases h
    exact .inl ⟨rfl, hmem⟩
  rcases c.extend_error_or_ok key with herr | ⟨inner, hok⟩
  · rw [lookup_of_enter_error ((Chain.enter_of_notMem hmem).trans herr)] at h
    cases h
  have henter : c.enter key = .ok inner := (Chain.enter_of_notMem hmem).trans hok
  cases hget : r.getter r.tree key r.options.toConfig with
  | error source =>
    rw [lookup_of_getter_error henter hget] at h
    cases h
  | ok raw =>
    rw [lookup_of_getter_ok henter hget] at h
    rcases (walk_endsIn_postParse n _ raw).of_failed (fun _ _ _ => trivial) h with
      ⟨path, source, hpost⟩ | ⟨next, hreach, hnext⟩
    · cases hpost
    · have hsettles := hreach.mono fun _ _ hv => settles_of_lookup hv
      exact .inr ⟨next, inner, henter, ⟨raw, hget, hsettles⟩, hnext⟩

/-- **A refused key depends on itself**, or was on the chain before. -/
theorem follows_of_lookup_cyclic (c : Chain) :
    ∀ {key k : String} {keys : List String}, r.lookup n c key = .failed (.cyclic k keys) →
      Relation.ReflTransGen (r.Follows n) key k ∧
        (k ∈ c.keys ∨ Relation.TransGen (r.Follows n) k k) := by
  induction c using Chain.induct_enter with
  | step c ih =>
    intro key k keys h
    rcases exists_follows_of_lookup_cyclic h with
      ⟨rfl, hmem⟩ | ⟨next, inner, henter, hfollows, hnext⟩
    · exact ⟨.refl, .inl hmem⟩
    obtain ⟨hpath, hback⟩ := ih key inner henter hnext
    refine ⟨.head hfollows hpath, ?_⟩
    rcases hback with hkeys | hcycle
    · rw [(Chain.enter_eq_ok_iff.mp henter).2.1, List.mem_append, List.mem_singleton] at hkeys
      rcases hkeys with hkeys | rfl
      · exact .inl hkeys
      · exact .inr (Relation.TransGen.head' hfollows hpath)
    · exact .inr hcycle

/-- A key that leads into a cycle is followed by one that does. -/
theorem Endless.exists_follows (h : r.Endless n key) :
    ∃ next, r.Follows n key next ∧ r.Endless n next := by
  obtain ⟨k, hpath, hcycle⟩ := h
  rcases Relation.ReflTransGen.cases_head hpath with rfl | ⟨next, hfollows, hrest⟩
  · obtain ⟨next, hfollows, hrest⟩ := Relation.TransGen.head'_iff.mp hcycle
    exact ⟨next, hfollows, key, hrest, hcycle⟩
  · exact ⟨next, hfollows, k, hrest, hcycle⟩

/-- **A key that leads into a cycle is too deep under every chain**: each time round, the lookups on
the way have the values they had before or are themselves too deep. -/
theorem lookupUnguarded_of_endless (c : Chain) :
    ∀ {key : String}, r.Endless n key →
      (r.lookupUnguarded n c key).Stops (TooDeep c.limit) := by
  induction hroom : c.room generalizing c with
  | zero =>
    intro key _
    rw [lookupUnguarded_of_extend_error (Chain.extend_of_room_zero hroom)]
    exact ⟨key, rfl⟩
  | succ room ih =>
    intro key hkey
    obtain ⟨next, ⟨raw, hget, hreach⟩, hnext⟩ := hkey.exists_follows
    have hinner : c.extend key = .ok ⟨c.keys ++ [key], room⟩ :=
      Chain.extend_eq_ok_iff.mpr ⟨rfl, hroom.symm⟩
    rw [lookupUnguarded_of_extend_ok hinner, hget, ← Chain.limit_of_extend hinner]
    exact hreach.stops (fun _ _ hv => hv.lookupUnguarded _) (ih _ rfl hnext)

/-! ## Calls -/

theorem runUnguarded_eq_or_stops (call : Call) :
    r.runUnguarded n r.options.maxDepth call = r.run n call ∨ (r.run n call).Stops Cyclic := by
  rw [run_eq_answer]
  exact (r.inquiry n call).answer_eq_or_stops (lookupUnguarded_eq_or_stops _)

/-- **A refused call is too deep under every limit.** -/
theorem runUnguarded_of_run_cyclic {call : Call} {k : String} {keys : List String}
    (h : r.run n call = .failed (.cyclic k keys)) (limit : Nat) :
    (r.runUnguarded n limit call).Stops (TooDeep limit) := by
  rw [run_eq_answer] at h
  rcases (inquiry_endsIn_postParse n call).of_failed (fun _ _ _ => trivial) h with
    ⟨path, source, hpost⟩ | ⟨key, hreach, hkey⟩
  · cases hpost
  obtain ⟨hpath, hmem | hcycle⟩ := follows_of_lookup_cyclic _ hkey
  · cases hmem
  have hstop := (hreach.mono fun _ _ hv => settles_of_lookup hv).stops
    (fun _ _ hv => hv.lookupUnguarded (.ofLimit limit))
    (lookupUnguarded_of_endless (.ofLimit limit) ⟨k, hpath, hcycle⟩)
  rwa [Chain.limit_ofLimit] at hstop

/-- **The cycle check is exact.**  A call that ends is answered alike without the check, unless the
check refused it; and then there is no limit under which the call without the check is anything but
too deep. -/
theorem runUnguarded_exact (r : Resolver) (call : Call) (n : Nat) :
    (∀ v, r.run n call = .done v →
      ∀ n' ≥ n, r.runUnguarded n' r.options.maxDepth call = .done v) ∧
    (∀ e, r.run n call = .failed e → (∀ key keys, e ≠ .cyclic key keys) →
      ∀ n' ≥ n, r.runUnguarded n' r.options.maxDepth call = .failed e) ∧
    ∀ key keys, r.run n call = .failed (.cyclic key keys) →
      ∀ n' ≥ n, ∀ limit, ∃ k, r.runUnguarded n' limit call = .failed (.tooDeep k limit) := by
  refine ⟨fun v hv n' hn' => ?_, fun e he hne n' hn' => ?_, fun key keys hc n' hn' limit => ?_⟩
  · have hrun : r.run n' call = .done v := run_done_of_le hn' hv
    refine ((runUnguarded_eq_or_stops call).resolve_right ?_).trans hrun
    rw [hrun]
    exact id
  · have hrun : r.run n' call = .failed e := (run_of_le hn' (by rw [he]; simp)).trans he
    refine ((runUnguarded_eq_or_stops call).resolve_right ?_).trans hrun
    rw [hrun]
    rintro ⟨key, keys, h⟩
    exact hne key keys (Option.some.inj h)
  · have hrun : r.run n' call = .failed (.cyclic key keys) :=
      (run_of_le hn' (by rw [hc]; simp)).trans hc
    exact Outcome.stops_tooDeep_iff.mp (runUnguarded_of_run_cyclic hrun limit)

end Resolver

end RefTree
