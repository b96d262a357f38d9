import RefTree.Failure

/-!
# Chain — the keys that are being resolved

Looking up a key enters it, and leaving undoes that. A key that is entered already is refused, which
finds cycles, and so is one more key than the limit allows, which bounds the nesting of lookups.
-/

namespace RefTree

/-- The keys that are being resolved, the outermost first, and how many more may be entered. -/
structure Chain where
  keys : List String
  room : Nat
  deriving DecidableEq, Repr

namespace Chain

/-- No key, below a limit on their number. -/
def ofLimit (limit : Nat) : Chain := ⟨[], limit⟩

/-- The number of keys that are being resolved. -/
def depth (c : Chain) : Nat := c.keys.length

/-- The greatest number of keys. -/
def limit (c : Chain) : Nat := c.depth + c.room

/-- **The chain with one more key at its end.** A key on the chain is refused before the limit is
looked at. -/
def enter (c : Chain) (key : String) : Except Failure Chain :=
  if key ∈ c.keys then .error (.cyclic key (c.keys ++ [key]))
  else
    match c.room with
    | 0 => .error (.tooDeep key c.limit)
    | room + 1 => .ok ⟨c.keys ++ [key], room⟩

/-- The chain without its last key, if it has one. -/
def exit (c : Chain) : Chain :=
  match c.keys with
  | [] => c
  | key :: keys => ⟨(key :: keys).dropLast, c.room + 1⟩

theorem enter_eq_ok_iff {c d : Chain} {key : String} :
    c.enter key = .ok d ↔ key ∉ c.keys ∧ d.keys = c.keys ++ [key] ∧ d.room + 1 = c.room := by
  obtain ⟨keys, room⟩ := c
  obtain ⟨keys', room'⟩ := d
  unfold enter
  by_cases h : key ∈ keys
  · simp [h]
  · cases room with
    | zero => simp [h]
    | succ room =>
      simp only [h, if_false, Except.ok.injEq, Chain.mk.injEq, not_false_eq_true, true_and,
        Nat.add_right_cancel_iff]
      exact ⟨fun ⟨hk, hr⟩ => ⟨hk.symm, hr.symm⟩, fun ⟨hk, hr⟩ => ⟨hk.symm, hr.symm⟩⟩

theorem room_lt_of_enter {c d : Chain} {key : String} (h : c.enter key = .ok d) :
    d.room < c.room := by
  have := (enter_eq_ok_iff.mp h).2.2
  omega

/-- **Leaving undoes entering.** -/
theorem exit_of_enter {c d : Chain} {key : String} (h : c.enter key = .ok d) : d.exit = c := by
  obtain ⟨-, hkeys, hroom⟩ := enter_eq_ok_iff.mp h
  obtain ⟨keys, room⟩ := d
  subst hkeys
  have hne : c.keys ++ [key] ≠ [] := by simp
  unfold exit
  split
  · next h' => exact absurd h' hne
  · next k ks h' =>
    simp only at h' hroom
    rw [← h', List.dropLast_concat, hroom]

/-- Neither step changes the limit. -/
theorem limit_enter {c d : Chain} {key : String} (h : c.enter key = .ok d) :
    d.limit = c.limit := by
  obtain ⟨-, hkeys, hroom⟩ := enter_eq_ok_iff.mp h
  simp only [limit, depth, hkeys, List.length_append, List.length_singleton]
  omega

theorem limit_exit (c : Chain) : c.exit.limit = c.limit := by
  obtain ⟨keys, room⟩ := c
  cases keys with
  | nil => rfl
  | cons k ks =>
    simp only [exit, limit, depth, List.length_dropLast, List.length_cons]
    omega

end Chain

end RefTree
