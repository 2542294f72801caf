import MessagePack.Pool

/-!
# Users of a pool do not see each other

A pool hands out memory that others have used. What it keeps is bounded, in number and in size; and
what was written by one user is gone before the next one has the buffer, from the region behind the
content too, which is handed out as it is.

* **`Buffer.seen`** is what a user can tell of a buffer. `Buffer.seen_step` says that two buffers
  which cannot be told apart stay so, however different the memory is that they hold.
* **`Rentals.Move`** is what can happen: an event, or that memory is obtained in another way from
  then on, so that nothing is assumed of it but that it is enough.
* **`Rentals.own`** is the history of one slot as it would be if each buffer rented were new and
  nobody else used the pool.
* **`Rentals.run_eq`** is all that an event does: to the pool, to one slot, and to what was taken.
* **`Pool.WellKept`** is the invariant of the pool, and `Rentals.seen_move` the step for the
  rentals.
* **`Rentals.bounded_and_isolated`** is the run.
-/

namespace MessagePack

namespace Buffer

/-! ## What can be seen of a buffer -/

/-- The content, and the bytes of the region behind it. -/
def seen (b : Buffer) : ByteArray × ByteArray :=
  (b.content, b.region)

/-- The buffer when memory is obtained for it in another way from now on. -/
def withGrowth (b : Buffer) (growth : Growth) : Buffer :=
  { b with growth := growth }

variable {b c : Buffer}

/-- Content and region make up the block. -/
theorem content_append_region (b : Buffer) : b.content ++ b.region = b.store := by
  rw [content, region, ByteArray.extract_append_extract, Nat.zero_min,
    Nat.max_eq_right b.written_le, ByteArray.extract_zero_size]

theorem size_content (b : Buffer) : b.content.size = b.written := by
  rw [content, ByteArray.size_extract, Nat.min_eq_left b.written_le, Nat.sub_zero]

/-- What can be seen is the block, and where the content ends in it. -/
theorem seen_eq_iff : b.seen = c.seen ↔ b.store = c.store ∧ b.written = c.written := by
  constructor
  · intro h
    obtain ⟨hcontent, hregion⟩ := Prod.mk.inj h
    constructor
    · rw [← content_append_region b, hcontent, hregion, content_append_region]
    · rw [← size_content b, hcontent, size_content]
  · rintro ⟨hstore, hwritten⟩
    rw [seen, seen, content, content, region, region, hstore, hwritten]

/-- Making room resizes the block if there is too little, and else leaves it. -/
theorem store_writable (b : Buffer) (hint : Nat) : (b.writable hint).store
    = if b.room < hint then resized b.store (b.written + max (max hint minGrowth) b.written)
      else b.store := by
  rw [writable, apply_ite store]
  rfl

theorem written_writable (b : Buffer) (hint : Nat) : (b.writable hint).written = b.written := by
  rw [writable, apply_ite written]
  exact ite_self b.written

/-- Where there is room, nothing happens. -/
theorem writable_of_le_room {hint : Nat} (h : hint ≤ b.room) : b.writable hint = b :=
  if_neg (Nat.not_lt_of_le h)

theorem store_truncate (b : Buffer) (size : Nat) : (b.truncate size).store = b.store := by
  rw [truncate]
  split
  · rfl
  · rfl

/-- Cutting off leaves as much as is asked for, or all there is. -/
theorem written_truncate (b : Buffer) (size : Nat) :
    (b.truncate size).written = min size b.written := by
  rw [truncate]
  split
  · rename_i hlt
    exact (Nat.min_eq_left (Nat.le_of_lt hlt)).symm
  · rename_i hle
    exact (Nat.min_eq_right (Nat.le_of_not_lt hle)).symm

/-- Buffers that cannot be told apart cannot be told apart after the same use of them. -/
theorem seen_step (h : b.seen = c.seen) (step : Step) : (step.run b).seen = (step.run c).seen := by
  obtain ⟨hstore, hwritten⟩ := seen_eq_iff.mp h
  have hroom : b.room = c.room := by rw [room, room, hstore, hwritten]
  rw [seen_eq_iff]
  -- every step is a function of the block and of how much is written
  cases step with
  | writable hint =>
      show (b.writable hint).store = (c.writable hint).store
        ∧ (b.writable hint).written = (c.writable hint).written
      rw [store_writable, store_writable, written_writable, written_writable, hstore, hwritten,
        hroom]
      exact ⟨rfl, rfl⟩
  | fill bytes =>
      refine ⟨?_, hwritten⟩
      show overwriteAt b.store b.written (firstBytes bytes b.room)
        = overwriteAt c.store c.written (firstBytes bytes c.room)
      rw [hstore, hwritten, hroom]
  | commit count =>
      refine ⟨hstore, ?_⟩
      show min (b.written + count) b.store.size = min (c.written + count) c.store.size
      rw [hstore, hwritten]
  | truncate size =>
      show (b.truncate size).store = (c.truncate size).store
        ∧ (b.truncate size).written = (c.truncate size).written
      rw [store_truncate, store_truncate, written_truncate, written_truncate, hwritten]
      exact ⟨hstore, rfl⟩
  | reset => exact ⟨rfl, rfl⟩
  | clone => exact ⟨hstore, hwritten⟩

/-- Buffers that cannot be told apart stay so, whatever is done with both. -/
theorem seen_steps (h : b.seen = c.seen) (steps : List Step) :
    (steps.foldl Step.run b).seen = (steps.foldl Step.run c).seen := by
  induction steps generalizing b c with
  | nil => exact h
  | cons step steps ih => exact ih (seen_step h step)

end Buffer

/-! ## Idle buffers -/

/-- Memory with nothing in it, of an amount that is worth keeping. -/
structure Buffer.Idle (b : Buffer) : Prop where
  store_eq : b.store = .empty
  capacity_pos : 1 ≤ b.capacity
  capacity_le : b.capacity ≤ Pool.maxCapacity

/-- What is seen of an idle buffer is what is seen of a new one. -/
theorem Buffer.Idle.seen_eq {b : Buffer} (h : b.Idle) : b.seen = Buffer.empty.seen := by
  have hle := b.written_le
  rw [h.store_eq] at hle
  exact seen_eq_iff.mpr ⟨h.store_eq, Nat.le_zero.mp hle⟩

namespace Pool

/-- No more buffers are idle than the pool may keep, and each of them is empty. -/
structure WellKept (m : Nat) (p : Pool) : Prop where
  maxRetained_eq : p.maxRetained = m
  retained_le : p.retained ≤ m
  idle : ∀ b ∈ p.idle, b.Idle

variable {m : Nat} {p : Pool}

/-- A buffer is kept only if it holds memory, and not too much. -/
theorem idle_reset {b : Buffer} (h : isKept b) : b.reset.Idle := by
  have h' : b.capacity ≠ 0 ∧ b.capacity ≤ maxCapacity := by simpa [isKept] using h
  exact ⟨rfl, Nat.one_le_iff_ne_zero.mpr h'.1, h'.2⟩

/-- A buffer that is given back is emptied, and kept only if it may be. -/
theorem WellKept.giveBack (h : WellKept m p) (b : Buffer) : WellKept m (p.giveBack b) := by
  rw [Pool.giveBack]
  split
  · rename_i hkept
    obtain ⟨hcapacity, hroom⟩ : isKept b ∧ p.retained < p.maxRetained := by simpa using hkept
    refine ⟨h.maxRetained_eq, ?_, ?_⟩
    · rw [h.maxRetained_eq] at hroom
      exact hroom
    · exact List.forall_mem_cons.mpr ⟨idle_reset hcapacity, h.idle⟩
  · exact h

/-- Renting leaves the other buffers as they are. -/
theorem WellKept.rent (h : WellKept m p) : WellKept m p.rent.2 := by
  rw [Pool.rent]
  split
  · rename_i b rest hidle
    have hlength := h.retained_le
    have hall := h.idle
    rw [retained, hidle, List.length_cons] at hlength
    rw [hidle] at hall
    exact ⟨h.maxRetained_eq, Nat.le_of_succ_le hlength, (List.forall_mem_cons.mp hall).2⟩
  · exact h

/-- Whether a rented buffer was idle or is new cannot be seen. -/
theorem WellKept.seen_rent (h : WellKept m p) : p.rent.1.seen = Buffer.empty.seen := by
  rw [Pool.rent]
  split
  · rename_i b rest hidle
    have hb : b.Idle := h.idle b (hidle ▸ List.mem_cons_self)
    exact hb.seen_eq
  · rfl

/-- A buffer that never had any memory is not kept. -/
theorem giveBack_empty (p : Pool) (growth : Growth) : p.giveBack (.empty growth) = p := by
  rw [Pool.giveBack, if_neg]
  simp [isKept, Buffer.empty, Buffer.withCapacity]

end Pool

namespace Rentals

/-! ## Slots -/

variable {r : Rentals} {slot other : Nat}

/-- What is under a slot is not touched when another slot is emptied. -/
theorem lookup_filter_ne {α : Type} (l : List (Nat × α)) (h : slot ≠ other) :
    (l.filter fun entry => entry.1 ≠ other).lookup slot = l.lookup slot := by
  induction l with
  | nil => rfl
  | cons entry l ih =>
      rw [List.filter_cons]
      split
      · rw [List.lookup_cons, List.lookup_cons, ih]
      · rename_i hentry
        have hother : entry.1 = other := by simpa using hentry
        rw [ih, List.lookup_cons, hother, beq_false_of_ne h]

/-- Nothing is under a slot that was emptied. -/
theorem lookup_filter_self {α : Type} (l : List (Nat × α)) (slot : Nat) :
    (l.filter fun entry => entry.1 ≠ slot).lookup slot = none := by
  rw [List.lookup_eq_none_iff]
  intro entry hentry
  have hne : entry.1 ≠ slot := by simpa using (List.mem_filter.mp hentry).2
  exact bne_iff_ne.mpr hne.symm

/-- What was changed everywhere is changed under each slot. -/
theorem lookup_map {α β : Type} (f : α → β) (l : List (Nat × α)) (slot : Nat) :
    (l.map fun entry => (entry.1, f entry.2)).lookup slot = (l.lookup slot).map f := by
  induction l with
  | nil => rfl
  | cons entry l ih =>
      rw [List.map_cons, List.lookup_cons, List.lookup_cons, ih]
      split
      · rfl
      · rfl

/-- What is rented after one slot has come to have a certain buffer, or none. -/
def assign (rented : List (Nat × Buffer)) (slot : Nat) (b? : Option Buffer) :
    List (Nat × Buffer) :=
  (b?.map fun b => (slot, b)).toList ++ rented.filter fun entry => entry.1 ≠ slot

/-- Under a slot is what was put there. -/
theorem lookup_assign_self (rented : List (Nat × Buffer)) (slot : Nat) (b? : Option Buffer) :
    (assign rented slot b?).lookup slot = b? := by
  cases b? with
  | none => exact lookup_filter_self rented slot
  | some b => exact List.lookup_cons_self

/-- Under another slot is what was there before. -/
theorem lookup_assign_of_ne (rented : List (Nat × Buffer)) (b? : Option Buffer)
    (h : slot ≠ other) : (assign rented other b?).lookup slot = rented.lookup slot := by
  cases b? with
  | none => exact lookup_filter_ne rented h
  | some b =>
      show ((other, b) :: rented.filter _).lookup slot = _
      rw [List.lookup_cons, beq_false_of_ne h]
      exact lookup_filter_ne rented h

/-! ## What an event does -/

/-- The slot that an event is about. -/
def Event.target : Event → Nat
  | .rent slot | .use slot _ | .write slot _ | .giveBack slot | .take slot => slot

/-- What becomes of the buffer under that slot, where `fresh` is the one that is rented. -/
def Event.becomes (fresh : Buffer) (b? : Option Buffer) : Event → Option Buffer
  | .rent _ => some fresh
  | .use _ step => b?.map step.run
  | .write _ bytes => b?.map (writeRaw bytes)
  | .giveBack _ | .take _ => none

/-- What becomes of the pool, to which the buffer under the slot is given back or not. -/
def Event.poolAfter (p : Pool) (b? : Option Buffer) : Event → Pool
  | .rent _ => b?.elim p.rent.2 p.rent.2.giveBack
  | .giveBack _ => b?.elim p p.giveBack
  | .use .. | .write .. | .take _ => p

/-- What is taken out for good. -/
def Event.takes (b? : Option Buffer) : Event → List Buffer
  | .take _ => b?.toList
  | .rent _ | .use .. | .write .. | .giveBack _ => []

/-- What is done with the buffer under a slot changes that slot alone. -/
theorem update_eq (r : Rentals) (slot : Nat) (f : Buffer → Buffer) :
    r.update slot f = { r with rented := assign r.rented slot ((r.buffer? slot).map f) } := by
  cases h : r.buffer? slot with
  | none => simp only [update, withdraw, h]; rfl
  | some b => simp only [update, withdraw, h]; rfl

/-- All that an event does. -/
theorem run_eq (r : Rentals) (e : Event) : e.run r
    = ⟨e.poolAfter r.pool (r.buffer? e.target),
      assign r.rented e.target (e.becomes r.pool.rent.1 (r.buffer? e.target)),
      e.takes (r.buffer? e.target) ++ r.taken⟩ := by
  cases e with
  | rent slot =>
      have hsame : { r with pool := r.pool.rent.2 }.buffer? slot = r.buffer? slot := rfl
      cases h : r.buffer? slot with
      | none => simp only [Event.run, Event.target, withdraw, hsame, h]; rfl
      | some old => simp only [Event.run, Event.target, withdraw, hsame, h]; rfl
  | use slot step => exact update_eq r slot step.run
  | write slot bytes => exact update_eq r slot (writeRaw bytes)
  | giveBack slot =>
      cases h : r.buffer? slot with
      | none => simp only [Event.run, Event.target, withdraw, h]; rfl
      | some b => simp only [Event.run, Event.target, withdraw, h]; rfl
  | take slot =>
      cases h : r.buffer? slot with
      | none => simp only [Event.run, Event.target, withdraw, h]; rfl
      | some b =>
          -- the empty buffer that is given back in its place is not kept
          simp only [Event.run, Event.target, withdraw, h, giveBack, Pool.giveBack_empty]
          rfl

/-- The slot that an event is about comes to have what the event makes of its buffer. -/
theorem buffer?_run_target (r : Rentals) (e : Event) :
    (e.run r).buffer? e.target = e.becomes r.pool.rent.1 (r.buffer? e.target) := by
  rw [run_eq]
  exact lookup_assign_self r.rented e.target _

/-- **NO OTHER SLOT** is changed by an event. -/
theorem buffer?_run_of_ne (r : Rentals) (e : Event) (h : slot ≠ e.target) :
    (e.run r).buffer? slot = r.buffer? slot := by
  rw [run_eq]
  exact lookup_assign_of_ne r.rented _ h

/-- A pool stays well kept when a buffer is given back to it, or none is. -/
theorem wellKept_giveBack {m : Nat} {p : Pool} (h : p.WellKept m) (b? : Option Buffer) :
    (b?.elim p p.giveBack).WellKept m := by
  cases b? with
  | none => exact h
  | some b => exact h.giveBack b

/-- Events leave the pool well kept. -/
theorem wellKept_run {m : Nat} (h : r.pool.WellKept m) (e : Event) : (e.run r).pool.WellKept m := by
  rw [run_eq]
  cases e with
  | rent slot => exact wellKept_giveBack h.rent _
  | giveBack slot => exact wellKept_giveBack h _
  | use | write | take => exact h

/-! ## Histories -/

/-- The rentals when memory is obtained in another way from now on. -/
def withGrowth (r : Rentals) (growth : Growth) : Rentals where
  pool := ⟨r.pool.maxRetained, growth, r.pool.idle.map (Buffer.withGrowth · growth)⟩
  rented := r.rented.map fun entry => (entry.1, entry.2.withGrowth growth)
  taken := r.taken

/-- What can happen: an event, or that memory is obtained in another way from now on. -/
inductive Move where
  | event (e : Event)
  | memory (growth : Growth)

def Move.run (r : Rentals) : Move → Rentals
  | .event e => e.run r
  | .memory growth => r.withGrowth growth

/-- The rentals after a history. -/
def after (r : Rentals) (history : List Move) : Rentals :=
  history.foldl Move.run r

/-- What becomes of the buffer under a slot if what is rented is new and nobody else is there. -/
def Move.own (slot : Nat) (b? : Option Buffer) : Move → Option Buffer
  | .event e => if e.target = slot then e.becomes .empty b? else b?
  | .memory _ => b?

/-- The buffer under a slot if whatever was rented was new and nobody else was there. -/
def own (slot : Nat) (history : List Move) : Option Buffer :=
  history.foldl (Move.own slot) none

/-- When memory is obtained in another way, so it is for the buffer under each slot. -/
theorem buffer?_withGrowth (r : Rentals) (growth : Growth) (slot : Nat) :
    (r.withGrowth growth).buffer? slot = (r.buffer? slot).map (Buffer.withGrowth · growth) :=
  lookup_map (Buffer.withGrowth · growth) r.rented slot

/-- How memory is obtained does not matter to what is kept. -/
theorem wellKept_withGrowth {m : Nat} (h : r.pool.WellKept m) (growth : Growth) :
    (r.withGrowth growth).pool.WellKept m := by
  refine ⟨h.maxRetained_eq, ?_, ?_⟩
  · show (r.pool.idle.map _).length ≤ m
    rw [List.length_map]
    exact h.retained_le
  · intro b hb
    obtain ⟨c, hc, rfl⟩ := List.mem_map.mp hb
    obtain ⟨hstore, hpos, hle⟩ := h.idle c hc
    exact ⟨hstore, hpos, hle⟩

/-- Whatever happens leaves the pool well kept. -/
theorem wellKept_move {m : Nat} (h : r.pool.WellKept m) (move : Move) :
    (move.run r).pool.WellKept m := by
  cases move with
  | event e => exact wellKept_run h e
  | memory growth => exact wellKept_withGrowth h growth

/-! ## Isolation -/

/-- What is done to a buffer does not tell apart what could not be told apart. -/
theorem seen_map {b? c? : Option Buffer} {f : Buffer → Buffer}
    (h : b?.map Buffer.seen = c?.map Buffer.seen)
    (hf : ∀ b c : Buffer, b.seen = c.seen → (f b).seen = (f c).seen) :
    (b?.map f).map Buffer.seen = (c?.map f).map Buffer.seen := by
  cases b? with
  | none =>
      cases c? with
      | none => rfl
      | some c => cases h
  | some b =>
      cases c? with
      | none => cases h
      | some c => exact congrArg some (hf b c (Option.some.inj h))

/-- A region of the size of the bytes is asked for, unless there is one already. -/
theorem emit_buffer (bytes : ByteArray) (b : Buffer) :
    Writer.emit bytes.size bytes ⟨b, false⟩
      = .ok () ⟨((b.writable bytes.size).fill bytes).commit bytes.size, false⟩ := by
  have hnone : b.writable 0 = b := Buffer.writable_of_le_room (Nat.zero_le _)
  show (if bytes.size ≤ (b.writable 0).room then _
    else if bytes.size ≤ ((b.writable 0).writable bytes.size).room then _ else _) = _
  rw [hnone, if_pos (b.le_room_writable bytes.size)]
  split
  · rename_i hfits
    rw [Buffer.writable_of_le_room hfits]
    rfl
  · rfl

/-- Bytes are written in three steps, and no bytes in none. -/
theorem exists_steps_writeRaw (bytes : ByteArray) : ∃ steps : List Buffer.Step,
    ∀ b, writeRaw bytes b = steps.foldl Buffer.Step.run b := by
  by_cases hempty : bytes.isEmpty
  · refine ⟨[], fun b => ?_⟩
    rw [writeRaw, Writer.raw, if_pos hempty]
    rfl
  · refine ⟨[.writable bytes.size, .fill bytes, .commit bytes.size], fun b => ?_⟩
    rw [writeRaw, Writer.raw, if_neg hempty, emit_buffer]
    rfl

/-- What an event makes of buffers that cannot be told apart cannot be told apart. -/
theorem seen_becomes {fresh fresh' : Buffer} {b? c? : Option Buffer}
    (hfresh : fresh.seen = fresh'.seen) (h : b?.map Buffer.seen = c?.map Buffer.seen) (e : Event) :
    (e.becomes fresh b?).map Buffer.seen = (e.becomes fresh' c?).map Buffer.seen := by
  cases e with
  | rent => exact congrArg some hfresh
  | use _ step => exact seen_map h fun b c hbc => Buffer.seen_step hbc step
  | write _ bytes =>
      obtain ⟨steps, hsteps⟩ := exists_steps_writeRaw bytes
      refine seen_map h fun b c hbc => ?_
      rw [hsteps, hsteps]
      exact Buffer.seen_steps hbc steps
  | giveBack | take => rfl

/-- The step: as long as the pool is well kept, nobody can tell that there are others. -/
theorem seen_move {m : Nat} {b? : Option Buffer} (hkept : r.pool.WellKept m)
    (h : (r.buffer? slot).map Buffer.seen = b?.map Buffer.seen) (move : Move) :
    ((move.run r).buffer? slot).map Buffer.seen = (move.own slot b?).map Buffer.seen := by
  -- only the slot of the event is touched, and a rented buffer looks like a new one
  cases move with
  | event e =>
      show ((e.run r).buffer? slot).map Buffer.seen
        = (if e.target = slot then e.becomes .empty b? else b?).map Buffer.seen
      split
      · rename_i htarget
        rw [← htarget, buffer?_run_target, htarget]
        exact seen_becomes hkept.seen_rent h e
      · rename_i htarget
        rw [buffer?_run_of_ne r e (Ne.symm htarget)]
        exact h
  | memory growth =>
      show ((r.withGrowth growth).buffer? slot).map Buffer.seen = b?.map Buffer.seen
      rw [buffer?_withGrowth, Option.map_map]
      exact h

/-- The invariant of a run: the pool is well kept, and every slot is as its own history left it. -/
theorem after_spec {m : Nat} (hkept : r.pool.WellKept m) (b? : Nat → Option Buffer)
    (h : ∀ slot, (r.buffer? slot).map Buffer.seen = (b? slot).map Buffer.seen)
    (history : List Move) : (r.after history).pool.WellKept m
      ∧ ∀ slot, ((r.after history).buffer? slot).map Buffer.seen
        = (history.foldl (Move.own slot) (b? slot)).map Buffer.seen := by
  induction history generalizing r b? with
  | nil => exact ⟨hkept, h⟩
  | cons move history ih =>
      exact ih (wellKept_move hkept move) (fun slot => move.own slot (b? slot))
        fun slot => seen_move hkept (h slot) move

/-! ## What was taken -/

/-- What has been taken is left alone, and nothing depends on it. -/
theorem run_taken (r : Rentals) (e : Event) : ∃ new : List Buffer, ∀ taken,
    e.run { r with taken := taken } = { e.run r with taken := new ++ taken } := by
  refine ⟨e.takes (r.buffer? e.target), fun taken => ?_⟩
  rw [run_eq, run_eq]
  rfl

/-- What happens adds to the buffers that were taken, and looks at none of them. -/
theorem move_taken (r : Rentals) (move : Move) : ∃ new : List Buffer, ∀ taken,
    move.run { r with taken := taken } = { move.run r with taken := new ++ taken } := by
  cases move with
  | event e => exact run_taken r e
  | memory growth => exact ⟨[], fun taken => rfl⟩

/-- A history adds to the buffers that were taken, and looks at none of them. -/
theorem after_taken (r : Rentals) (history : List Move) : ∃ new : List Buffer, ∀ taken,
    { r with taken := taken }.after history = { r.after history with taken := new ++ taken } := by
  induction history generalizing r with
  | nil => exact ⟨[], fun taken => rfl⟩
  | cons move history ih =>
      obtain ⟨new, hmove⟩ := move_taken r move
      obtain ⟨newer, hhistory⟩ := ih (move.run r)
      refine ⟨newer ++ new, fun taken => ?_⟩
      show (move.run { r with taken := taken }).after history = _
      rw [hmove, hhistory, List.append_assoc]
      rfl

/-! ## The run -/

/-- **BOUNDED AND ISOLATED**: whatever has happened to a pool, and whatever memory was obtained for
    it, no more buffers are idle than it may keep, all of them empty, and each holding some memory
    but not too much. A buffer that is rented, and the region behind it, are as those of a new one,
    under whatever use is made of them; and at any time a rented buffer looks as if it had been new
    and nobody else had used the pool. A buffer that is taken stays as it is, and from then on
    the pool and its rentals are as if it had not been there. -/
theorem bounded_and_isolated (m : Nat) (history : List Move) :
    let r := (ofPool (.empty m)).after history
    r.pool.retained ≤ m
      ∧ (∀ b ∈ r.pool.idle, b.content = .empty ∧ b.region = .empty
        ∧ 1 ≤ b.capacity ∧ b.capacity ≤ 2 ^ 20)
      ∧ (∀ slot, ∃ b, (Event.run r (.rent slot)).buffer? slot = some b ∧ b.content = .empty
        ∧ ∀ steps : List Buffer.Step, (steps.foldl Buffer.Step.run b).seen
          = (steps.foldl Buffer.Step.run .empty).seen)
      ∧ (∀ slot, (r.buffer? slot).map Buffer.seen = (own slot history).map Buffer.seen)
      ∧ ∀ slot b later, r.buffer? slot = some b → ∃ new,
        (Event.run r (.take slot)).after later
          = { (r.withdraw slot).2.after later with taken := new ++ b :: r.taken } := by
  intro r
  have hempty : (ofPool (.empty m)).pool.WellKept m :=
    ⟨rfl, Nat.zero_le m, fun b hb => absurd hb List.not_mem_nil⟩
  obtain ⟨hkept, hown⟩ := after_spec hempty (fun _ => none) (fun _ => rfl) history
  refine ⟨hkept.retained_le, ?_, ?_, hown, ?_⟩
  · intro b hb
    have hidle := hkept.idle b hb
    obtain ⟨hcontent, hregion⟩ := Prod.mk.inj hidle.seen_eq
    exact ⟨hcontent, hregion, hidle.capacity_pos, hidle.capacity_le⟩
  · intro slot
    have hseen := hkept.seen_rent
    refine ⟨r.pool.rent.1, buffer?_run_target r (.rent slot), (Prod.mk.inj hseen).1, ?_⟩
    exact fun steps => Buffer.seen_steps hseen steps
  -- to take a buffer is to withdraw it and to put it in front of those taken before
  · intro slot b later hb
    obtain ⟨new, hnew⟩ := after_taken (r.withdraw slot).2 later
    refine ⟨new, ?_⟩
    have htake : Event.run r (.take slot) = { (r.withdraw slot).2 with taken := b :: r.taken } := by
      rw [run_eq]
      simp only [Event.target, hb]
      rfl
    rw [htake]
    exact hnew (b :: r.taken)

/-- Two buffers are rented, a byte is put into each, and the first is given back. The pool keeps it,
    and whoever rents it next sees nothing of its byte. The second is taken, and it still has its
    own byte after another buffer has been rented under its slot and used. -/
theorem isolated_reused :
    let history : List Move :=
      [.event (.rent 0), .event (.use 0 (.writable 1)), .event (.use 0 (.fill ⟨#[42]⟩)),
        .event (.use 0 (.commit 1)), .event (.rent 1), .event (.use 1 (.writable 1)),
        .event (.use 1 (.fill ⟨#[7]⟩)), .event (.use 1 (.commit 1)), .event (.giveBack 0)]
    let later : List Move :=
      [.event (.rent 1), .event (.use 1 (.writable 1)), .event (.use 1 (.fill ⟨#[9]⟩)),
        .event (.use 1 (.commit 1))]
    let r := (ofPool (.empty 1)).after history
    ∃ idle, r.pool.idle = [idle] ∧ idle.content = .empty
      ∧ (∃ b, (Event.run r (.rent 0)).buffer? 0 = some b
        ∧ (b.writable 1).seen = (Buffer.empty.writable 1).seen)
      ∧ ∃ b, r.buffer? 1 = some b ∧ b.content = ⟨#[7]⟩
        ∧ ∃ new, ((Event.run r (.take 1)).after later).taken = new ++ [b] := by
  intro history later r
  obtain ⟨-, hidle, hrent, -, htake⟩ := bounded_and_isolated 1 history
  obtain ⟨idle, hone⟩ : ∃ idle, r.pool.idle = [idle] := ⟨_, rfl⟩
  obtain ⟨b, hb, -, hfresh⟩ := hrent 0
  have hwritten : r.buffer? 1
      = some (((Buffer.empty.writable 1).fill ⟨#[7]⟩).commit (⟨#[7]⟩ : ByteArray).size) := rfl
  have hroom : (⟨#[7]⟩ : ByteArray).size ≤ (Buffer.empty.writable 1).room :=
    Buffer.le_room_writable .empty 1
  obtain ⟨new, hnew⟩ := htake 1 _ later hwritten
  refine ⟨idle, hone, ?_, ⟨b, hb, hfresh [.writable 1]⟩, _, hwritten, ?_, new, congrArg taken hnew⟩
  · exact (hidle idle (hone ▸ List.mem_singleton.mpr rfl)).1
  · rw [Buffer.content_commit_fill _ hroom, Buffer.content_writable]
    rfl

end Rentals

end MessagePack
