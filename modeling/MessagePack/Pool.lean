import MessagePack.Buffer
import MessagePack.Writer

/-!
# Pools of buffers

A pool is a stack of idle buffers. A buffer is rented from it and later given back, or taken out for
good. What is given back is emptied, and it is kept only if it holds memory, if it does not hold too
much, and if the pool has room for it.

* **`Pool.rent`** and **`Pool.giveBack`** are the two ends of a rental.
* **`Rentals`** is a pool together with the buffers that are out, each under the number of a slot,
  and **`Rentals.Event`** is what can happen to them.
-/

namespace MessagePack

/-- A stack of idle buffers, the one that was given back last in front. New buffers obtain memory in
the way of `growth`. -/
structure Pool where
  maxRetained : Nat
  growth : Growth
  idle : List Buffer

namespace Pool

/-- The number of idle buffers that a pool keeps where no other number is given. -/
def defaultRetained : Nat :=
  32

/-- The most memory that an idle buffer may hold. -/
def maxCapacity : Nat :=
  2 ^ 20

/-- A pool with no idle buffers. -/
def empty (maxRetained : Nat := defaultRetained) (growth : Growth := .exact) : Pool :=
  ⟨maxRetained, growth, []⟩

/-- The number of idle buffers. -/
def retained (p : Pool) : Nat :=
  p.idle.length

/-- A buffer with no content: the idle one that was given back last, or a new one. -/
def rent (p : Pool) : Buffer × Pool :=
  match p.idle with
  | b :: rest => (b, { p with idle := rest })
  | [] => (.empty p.growth, p)

/-- Whether a buffer is worth keeping. -/
def isKept (b : Buffer) : Bool :=
  b.capacity ≠ 0 && b.capacity ≤ maxCapacity

/-- The pool after a buffer has been given back. -/
def giveBack (p : Pool) (b : Buffer) : Pool :=
  if isKept b && p.retained < p.maxRetained then { p with idle := b.reset :: p.idle } else p

end Pool

/-! ## Rentals -/

/-- A pool, the buffers that are rented under their slots, and those that were taken out for good,
latest first. -/
structure Rentals where
  pool : Pool
  rented : List (Nat × Buffer)
  taken : List Buffer

namespace Rentals

/-- A pool of which nothing is rented. -/
def ofPool (pool : Pool) : Rentals :=
  ⟨pool, [], []⟩

/-- The buffer under a slot. -/
def buffer? (r : Rentals) (slot : Nat) : Option Buffer :=
  r.rented.lookup slot

/-- What can happen to a pool and its rentals. -/
inductive Event where
  /-- A buffer is rented. One that was under the slot before is given back. -/
  | rent (slot : Nat)
  /-- The buffer under a slot is used. -/
  | use (slot : Nat) (step : Buffer.Step)
  /-- Bytes that are well formed already are written to the buffer under a slot. -/
  | write (slot : Nat) (bytes : ByteArray)
  /-- The buffer under a slot is given back. -/
  | giveBack (slot : Nat)
  /-- The buffer under a slot is taken out for good. What is given back in its place is an empty
  buffer. -/
  | take (slot : Nat)

/-- The buffer under a slot, if there is one, and the rentals without it. -/
def withdraw (r : Rentals) (slot : Nat) : Option Buffer × Rentals :=
  (r.buffer? slot, { r with rented := r.rented.filter fun entry => entry.1 ≠ slot })

/-- The rentals with a buffer under a slot that has none. -/
def enter (r : Rentals) (slot : Nat) (b : Buffer) : Rentals :=
  { r with rented := (slot, b) :: r.rented }

/-- The rentals after a buffer has been given back. -/
def giveBack (r : Rentals) (b : Buffer) : Rentals :=
  { r with pool := r.pool.giveBack b }

/-- The rentals after the buffer under a slot has changed. -/
def update (r : Rentals) (slot : Nat) (f : Buffer → Buffer) : Rentals :=
  match r.withdraw slot with
  | (some b, r) => r.enter slot (f b)
  | (none, r) => r

/-- The buffer after bytes have been written to it. -/
def writeRaw (bytes : ByteArray) (b : Buffer) : Buffer :=
  match Writer.raw bytes ⟨b, false⟩ with
  | .ok () w => w.sink
  | .error _ w => w.sink

/-- The rentals after one event. An event on a slot without a buffer changes nothing. -/
def Event.run (r : Rentals) : Event → Rentals
  | .rent slot =>
    let (b, pool) := r.pool.rent
    match { r with pool := pool }.withdraw slot with
    | (some old, r) => (r.enter slot b).giveBack old
    | (none, r) => r.enter slot b
  | .use slot step => r.update slot step.run
  | .write slot bytes => r.update slot (writeRaw bytes)
  | .giveBack slot =>
    match r.withdraw slot with
    | (some b, r) => r.giveBack b
    | (none, r) => r
  | .take slot =>
    match r.withdraw slot with
    | (some b, r) => { r with taken := b :: r.taken }.giveBack (.empty r.pool.growth)
    | (none, r) => r

end Rentals

end MessagePack
