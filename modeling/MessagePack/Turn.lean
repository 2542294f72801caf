/-!
# Loops in turns

A loop is given by its single turn: from a state it either goes on with a new state or stops with a
result. `Turn.run` takes turns up to a bound, and answers `none` if the bound was too small. So a
loop is a total function, and "it ends within `n` turns" is a statement about that function.
-/

namespace MessagePack

/-- One turn of a loop. -/
inductive Turn (σ α : Type) where
  /-- Goes on with a new state. -/
  | again (state : σ)
  /-- Stops with a result. -/
  | done (result : α)

namespace Turn

variable {σ α : Type}

/-- Takes at most `turns` turns from a state, and gives the result if one of them stops. -/
@[specialize] def run (turn : σ → Turn σ α) : (turns : Nat) → σ → Option α
  | 0, _ => none
  | turns + 1, state =>
    match turn state with
    | again state => run turn turns state
    | done result => some result

end Turn

end MessagePack
