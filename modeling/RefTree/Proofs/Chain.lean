import Mathlib.Data.List.Nodup
import RefTree.Chain

/-!
# Proofs/Chain — chains that are entered and left

However a chain is entered and left, no key is on it twice, and its limit stays what it is
(`Sound.foldl_move`).  Both together make a chain known by its keys (`Sound.unique`).
-/

namespace RefTree.Chain

/-- What a caller can do to a chain. -/
inductive Move where
  | enter (key : String)
  | exit

/-- The chain after a move.  A key that is refused is not entered. -/
def move (c : Chain) : Move → Chain
  | .enter key =>
    match c.enter key with
    | .ok d => d
    | .error _ => c
  | .exit => c.exit

variable {limit : Nat} {c d : Chain} {key : String}

theorem move_of_enter_error {e : Failure} (h : c.enter key = .error e) :
    c.move (.enter key) = c := by
  rw [move, h]

theorem keys_exit (c : Chain) : c.exit.keys = c.keys.dropLast := by
  obtain ⟨keys, room⟩ := c
  cases keys <;> rfl

theorem limit_ofLimit (limit : Nat) : (ofLimit limit).limit = limit := by
  simp [ofLimit, Chain.limit, depth]

/-- No key is on the chain twice, and the limit is `limit`. -/
structure Sound (limit : Nat) (c : Chain) : Prop where
  nodup : c.keys.Nodup
  limit_eq : c.limit = limit

namespace Sound

theorem ofLimit (limit : Nat) : Sound limit (.ofLimit limit) :=
  ⟨List.nodup_nil, limit_ofLimit limit⟩

theorem length_add_room (h : Sound limit c) : c.keys.length + c.room = limit := h.limit_eq

theorem enter (h : Sound limit c) (henter : c.enter key = .ok d) : Sound limit d := by
  obtain ⟨hnew, hkeys, -⟩ := enter_eq_ok_iff.mp henter
  refine ⟨?_, (limit_enter henter).trans h.limit_eq⟩
  rw [hkeys, ← List.concat_eq_append]
  exact h.nodup.concat hnew

theorem exit (h : Sound limit c) : Sound limit c.exit := by
  refine ⟨?_, (limit_exit c).trans h.limit_eq⟩
  rw [keys_exit]
  exact h.nodup.sublist (List.dropLast_sublist _)

/-- **A move keeps a chain sound.** -/
theorem move (h : Sound limit c) (m : Move) : Sound limit (c.move m) := by
  cases m with
  | enter key =>
    cases henter : c.enter key with
    | ok d =>
      rw [Chain.move, henter]
      exact h.enter henter
    | error e =>
      rw [move_of_enter_error henter]
      exact h
  | exit => exact h.exit

theorem foldl_move (h : Sound limit c) (moves : List Move) :
    Sound limit (moves.foldl Chain.move c) := by
  induction moves generalizing c with
  | nil => exact h
  | cons m moves ih => exact ih (h.move m)

/-- **A sound chain is known by its keys.** -/
theorem unique (h : Sound limit c) (h' : Sound limit d) (hkeys : d.keys = c.keys) : d = c := by
  have hroom := h.length_add_room
  have hroom' := h'.length_add_room
  obtain ⟨keys, room⟩ := c
  obtain ⟨keys', room'⟩ := d
  obtain rfl : keys' = keys := hkeys
  rw [Chain.mk.injEq]
  exact ⟨rfl, Nat.add_left_cancel (hroom'.trans hroom.symm)⟩

end Sound

end RefTree.Chain
