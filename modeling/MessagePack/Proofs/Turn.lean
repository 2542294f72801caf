import MessagePack.Turn

/-!
# How loops in turns are proved

A loop is given by its single turn, so a proof about it has two halves: what one turn preserves, and
what follows for all the turns together.

* **`Turn.Reaches`** is the states that a loop comes to, and `Turn.Reaches.invariant` carries what a
  turn preserves to all of them.
* **`Turn.run_spec`** is total correctness: an invariant, a measure that every turn but the last
  lowers, and a bound above the measure give a result, with what holds of it.
-/

namespace MessagePack

namespace Turn

variable {σ α : Type}

/-- The states that a loop comes to from a start, after any number of turns. -/
inductive Reaches (turn : σ → Turn σ α) (start : σ) : σ → Prop
  | refl : Reaches turn start start
  | again {s t : σ} : Reaches turn start s → turn s = .again t → Reaches turn start t

/-- What holds at the start and is preserved by a turn holds of every state that is reached. -/
theorem Reaches.invariant {turn : σ → Turn σ α} {start s : σ} (Inv : σ → Prop)
    (hstart : Inv start) (hturn : ∀ {s t : σ}, Inv s → turn s = .again t → Inv t)
    (h : Reaches turn start s) : Inv s := by
  induction h with
  | refl => exact hstart
  | again _ hst ih => exact hturn ih hst

/-- **TOTAL CORRECTNESS** of a loop: from a state where the invariant holds, within any number of
    turns above the measure, it stops with a result that the postcondition holds of. -/
theorem run_spec {s : σ} (turn : σ → Turn σ α) (turns : Nat) (Inv : σ → Prop) (Post : α → Prop)
    (measure : σ → Nat)
    (hagain : ∀ {s t : σ}, Inv s → turn s = .again t → Inv t ∧ measure t < measure s)
    (hdone : ∀ {s : σ} {a : α}, Inv s → turn s = .done a → Post a)
    (hs : Inv s) (hlt : measure s < turns) : ∃ a, run turn turns s = some a ∧ Post a := by
  -- by induction on the turns that are left; the measure stays below them
  induction turns generalizing s with
  | zero => exact absurd hlt (Nat.not_lt_zero _)
  | succ turns ih =>
      cases hst : turn s with
      | done a => exact ⟨a, by rw [run, hst], hdone hs hst⟩
      | again t =>
          obtain ⟨ht, hmeasure⟩ := hagain hs hst
          obtain ⟨a, hrun, ha⟩ := ih ht (by omega)
          exact ⟨a, by rw [run, hst]; exact hrun, ha⟩

/-- A loop that goes on comes to what it comes to from its next state. -/
theorem Reaches.head {turn : σ → Turn σ α} {s t u : σ} (hst : turn s = .again t)
    (h : Reaches turn t u) : Reaches turn s u := by
  induction h with
  | refl => exact .again .refl hst
  | again _ huv ih => exact .again ih huv

/-- A result is that of the last turn. -/
theorem exists_done_of_run {turn : σ → Turn σ α} {turns : Nat} {s : σ} {a : α}
    (h : run turn turns s = some a) : ∃ t, Reaches turn s t ∧ turn t = .done a := by
  -- on the turns that are left; the first one decides whether there is another
  induction turns generalizing s with
  | zero => cases h
  | succ turns ih =>
      rw [run] at h
      split at h
      · rename_i t hagain
        obtain ⟨u, hu, hdone⟩ := ih h
        exact ⟨u, hu.head hagain, hdone⟩
      · rename_i b hdone
        cases h
        exact ⟨s, .refl, hdone⟩

end Turn

end MessagePack
