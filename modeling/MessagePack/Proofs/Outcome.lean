import MessagePack.Proofs.StableToken

/-!
# What known bytes come to

`Reads` says what a computation may give on known bytes, and allows it to fail. Here it is settled
what it does: on bytes that are known, with anything behind them and in any pieces, and on every
strict start of them with nothing behind it.

* **`Reader.Gives`** and **`Reader.Refuses`**: the computation consumes the bytes and gives a result
  or an error. Where **`Reader.Rejects`** it, the error alone is known.
  **`Reader.Yields`** is either of these, at a depth.
* **`Reader.Checks`**: it consumes the bytes, and gives a result if enough bytes are behind them.
* **`Reader.FailsWithin`** and **`Reader.WaitsWithin`**: where the input ends within the bytes, it
  fails or says that something is missing. For a stable computation there is nothing to show: what
  it comes to behind all of the bytes it cannot have come to before (`EndsBehind.tooShort`).
-/

namespace MessagePack

namespace Reader

variable {ε α : Type} {x : List UInt8} {a : α}

/-! ## Outcomes -/

/-- Where the bytes `x` are ahead, the computation consumes them and gives `a`. -/
def Gives (m : EStateM ε Reader α) (x : List UInt8) (a : α) : Prop :=
  ∀ ⦃r : Reader⦄ ⦃rest : List UInt8⦄, r.cursor.WellFormed → r.cursor.ahead = x ++ rest →
    m r = .ok a (r.past x.length)

/-- Where the bytes `x` are ahead, the computation consumes them and fails with `e`. -/
def Refuses (m : EStateM ε Reader α) (x : List UInt8) (e : ε) : Prop :=
  ∀ ⦃r : Reader⦄ ⦃rest : List UInt8⦄, r.cursor.WellFormed → r.cursor.ahead = x ++ rest →
    m r = .error e (r.past x.length)

/-- Where the bytes `x` are ahead, the computation fails with `e`. -/
def Rejects (m : EStateM ε Reader α) (x : List UInt8) (e : ε) : Prop :=
  ∀ ⦃r : Reader⦄ ⦃rest : List UInt8⦄, r.cursor.WellFormed → r.cursor.ahead = x ++ rest →
    ∃ s, m r = .error e s

/-- At a depth, where the bytes `x` are ahead, the computation comes to what is said: it consumes
    them and gives the result, or it fails with the error. -/
def Yields (d : Nat) (m : EStateM ε Reader α) (x : List UInt8) (out : Except ε α) : Prop :=
  ∀ ⦃r : Reader⦄ ⦃rest : List UInt8⦄, r.cursor.WellFormed → r.depth = d →
    r.cursor.ahead = x ++ rest →
    match out with
    | .ok a => m r = .ok a (r.past x.length)
    | .error e => ∃ s, m r = .error e s

/-- Where the bytes `x` are ahead, the computation consumes them and gives `a` if at least `needed`
    bytes are behind them; else it fails as the input ends too early. -/
def Checks (m : Read α) (x : List UInt8) (a : α) (needed : Nat) : Prop :=
  ∀ ⦃r : Reader⦄ ⦃rest : List UInt8⦄, r.cursor.WellFormed → r.cursor.ahead = x ++ rest →
    m r = if needed ≤ rest.length then .ok a (r.past x.length)
      else .error .endOfStream (r.past x.length)

/-- Where the input ends within the bytes `x`, the computation fails for want of the others. -/
def FailsWithin (m : Read α) (x : List UInt8) : Prop :=
  ∀ ⦃r : Reader⦄ ⦃y z : List UInt8⦄, r.cursor.WellFormed → r.cursor.ahead = y → x = y ++ z →
    z ≠ [] → ∃ s, m r = .error .endOfStream s

/-- Where the input ends within the bytes `x`, the computation says so and leaves the reader as it
    was. -/
def WaitsWithin (m : Read (Option α)) (x : List UInt8) : Prop :=
  ∀ ⦃r : Reader⦄ ⦃y z : List UInt8⦄, r.cursor.WellFormed → r.cursor.ahead = y → x = y ++ z →
    z ≠ [] → m r = .ok none r

/-! ## From what may be read to what is read -/

/-- What reads in one way only gives that result. -/
theorem Gives.of_reads {m : EStateM ε Reader α}
    (h : ∀ d rest, Reads d m x rest (fun b => b = a) fun _ => False) : Gives m x a := by
  intro r rest hr hahead
  rcases h r.depth rest hr rfl hahead with ⟨b, hm, rfl⟩ | ⟨_, _, _, hfalse⟩
  · exact hm
  · exact hfalse.elim

theorem Rejects.of_reads {m : EStateM ε Reader α} {e : ε}
    (h : ∀ d rest, Reads d m x rest (fun _ => False) fun e' => e' = e) : Rejects m x e := by
  intro r rest hr hahead
  rcases h r.depth rest hr rfl hahead with ⟨_, _, hfalse⟩ | ⟨e', s, hm, rfl⟩
  · exact hfalse.elim
  · exact ⟨s, hm⟩

/-- What comes to one end only, at a depth, comes to that. -/
theorem Yields.of_reads {d : Nat} {m : EStateM ε Reader α} {out : Except ε α}
    (h : ∀ rest, Reads d m x rest (fun a => out = .ok a) fun e => out = .error e) :
    Yields d m x out := by
  intro r rest hr hd hahead
  rcases h rest hr hd hahead with ⟨a, hm, rfl⟩ | ⟨e, s, hm, rfl⟩
  · exact hm
  · exact ⟨s, hm⟩

theorem Yields.reads {d : Nat} {m : EStateM ε Reader α} {rest : List UInt8} {E : ε → Prop}
    (h : Yields d m x (.ok a)) : Reads d m x rest (fun b => b = a) E :=
  fun _ hr hd hahead => Or.inl ⟨a, h hr hd hahead, rfl⟩

/-- What is found is given where it has to be there. -/
theorem Gives.require {m : Read (Option α)} (h : Gives m x (some a)) : Gives (require m) x a := by
  intro r rest hr hahead
  exact bind_of_ok (h hr hahead)

/-- A number that was read is checked against what is behind it, and against nothing else. -/
theorem Gives.checks {m : Read α} {g : α → Nat} (h : Gives m x a) : Checks (do
    let a ← m
    if (← get).remaining < g a then throw ReadError.endOfStream
    else pure a) x a (g a) := by
  intro r rest hr hahead
  have hremaining : (r.past x.length).remaining = rest.length := by
    have hpast := hr.past (hr.length_le_remaining hahead)
    rw [Reader.remaining, cursor_past, ← hpast.length_ahead, ← cursor_past,
      ahead_past_append hahead]
  rw [bind_of_ok (h hr hahead)]
  show (if (r.past x.length).remaining < g a then throw ReadError.endOfStream else pure a : Read α)
    (r.past x.length) = _
  rw [hremaining]
  by_cases hle : g a ≤ rest.length
  · rw [if_neg (Nat.not_lt.mpr hle), if_pos hle]
    rfl
  · rw [if_pos (Nat.lt_of_not_le hle), if_neg hle]
    rfl

/-! ## Inputs that end within the bytes -/

/-- Whatever the computation comes to where the bytes `x` are ahead, it has consumed them all. -/
def EndsBehind (m : EStateM ε Reader α) (x : List UInt8) : Prop :=
  ∀ ⦃r : Reader⦄ ⦃rest : List UInt8⦄, r.cursor.WellFormed → r.cursor.ahead = x ++ rest →
    after (m r) = r.past x.length

theorem Gives.endsBehind {m : EStateM ε Reader α} (h : Gives m x a) : EndsBehind m x :=
  fun _ _ hr hahead => congrArg after (h hr hahead)

theorem Refuses.endsBehind {m : EStateM ε Reader α} {e : ε} (h : Refuses m x e) : EndsBehind m x :=
  fun _ _ hr hahead => congrArg after (h hr hahead)

/-- **BEFORE THE LAST BYTE** of what it consumes, a stable computation can only say that the input
    is too short. -/
theorem EndsBehind.tooShort [EndsEarly ε] {m : EStateM ε Reader α} {K : Comparison α α}
    {r : Reader} {y z : List UInt8} (h : EndsBehind m x)
    (hm : Stable z r.cursor.remaining m m K) (hr : r.cursor.WellFormed)
    (hahead : r.cursor.ahead = y) (hx : x = y ++ z) (hz : z ≠ []) : TooShort K (m r) := by
  -- a reader that has all of the bytes ahead, and nothing else
  obtain ⟨r', hr', hahead', hdepth⟩ : ∃ r' : Reader, r'.cursor.WellFormed
      ∧ r'.cursor.ahead = x ∧ r'.depth = r.depth :=
    ⟨⟨.ofBytes ⟨x.toArray⟩, r.depth⟩, Cursor.wellFormed_ofBytes _, Cursor.ahead_ofBytes _, rfl⟩
  have hextends : Extends z r.cursor.remaining r r' :=
    ⟨hr, hr', by rw [hahead', hahead, hx], hdepth, Nat.le_refl _⟩
  have hlate : r.cursor.remaining < x.length := by
    rw [← hr.length_ahead, hahead, hx, List.length_append]
    exact Nat.lt_add_of_pos_right (List.length_pos_iff.mpr hz)
  have hagree := hm.agree r r' hextends
  have hend := h hr' (hahead'.trans (List.append_nil x).symm)
  generalize m r = out at hagree ⊢
  generalize m r' = out' at hagree hend
  cases hagree with
  | ok hn _ | error hn =>
      rw [past_inj hend] at hn
      omega
  | short _ hshort _ => exact hshort

/-- What consumes the bytes, whatever it finds, needs them all, and fails where some are missing. -/
theorem EndsBehind.failsWithin {m : Read α} (h : EndsBehind m x)
    (hm : ∀ c k, Stable c k m m .eq) : FailsWithin m x := by
  intro r y z hr hahead hx hz
  have hshort := h.tooShort (hm z _) hr hahead hx hz
  cases hmr : m r with
  | ok a s =>
      rw [hmr] at hshort
      exact hshort.elim
  | error e s =>
      rw [hmr] at hshort
      exact ⟨s, congrArg (fun e => EStateM.Result.error e s) hshort⟩

/-- A failed attempt has moved nothing. -/
theorem eq_of_attempt_eq_none {m : Read (Option α)} {r s : Reader}
    (h : attempt m r = .ok none s) : s = r := by
  rw [attempt] at h
  split at h <;> cases h
  rfl

/-- An attempt that consumes the bytes, whatever it finds, waits where some are missing. -/
theorem EndsBehind.waitsWithin {m : Read (Option α)} {R : α → α → Prop}
    (h : EndsBehind (attempt m) x)
    (hm : ∀ c k, Stable c k (attempt m) (attempt m) (.found k R)) (hwaits : Waits (attempt m)) :
    WaitsWithin (attempt m) x := by
  intro r y z hr hahead hx hz
  have hshort := h.tooShort (hm z _) hr hahead hx hz
  -- it can only say that the input is too short, and an attempt says so without moving
  cases hmr : attempt m r with
  | ok o s =>
      rw [hmr] at hshort
      have ho : o = none := hshort
      subst ho
      rw [eq_of_attempt_eq_none hmr]
  | error e s =>
      rw [hmr] at hshort
      have he : e = .endOfStream := hshort
      subst he
      exact absurd hmr (@hwaits r s)

end Reader

end MessagePack
