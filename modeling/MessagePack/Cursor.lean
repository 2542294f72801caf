import MessagePack.BigEndian
import MessagePack.View

/-!
# Cursors over sequences

A `Cursor` moves over a sequence of pieces and counts the bytes that it has consumed. It goes
forward, and back over what it has consumed; copying it gives an independent position. An operation
that asks for more than there is fails and leaves the cursor where it was.

`Cursor.Request` has one constructor per operation, and `Cursor.Request.run` gives its reply and
the cursor after it.
-/

namespace MessagePack

/-- An attempt to leave the sequence. -/
structure OutOfRange where
  requested : Nat
  available : Nat
  deriving DecidableEq

/-- The text of the error. -/
def OutOfRange.message (e : OutOfRange) : String :=
  s!"Cannot move the cursor by {e.requested} bytes, only {e.available} are available."

/-- A position in a sequence, with the number of bytes before it and the length of it all. -/
structure Cursor where
  segments : Segments
  place : Place
  consumed : Nat
  length : Nat

namespace Cursor

/-- A cursor at the start of one block. -/
def ofBytes (bytes : ByteArray) : Cursor :=
  ⟨.ofBytes bytes, ⟨0, 0⟩, 0, bytes.size⟩

/-- A cursor at the start of a list of pieces. -/
def ofParts (parts : Array ByteArray) : Cursor :=
  let segments := Segments.ofParts parts
  ⟨segments, segments.settle ⟨0, 0⟩, 0, segments.length⟩

/-- The number of bytes ahead. -/
def remaining (c : Cursor) : Nat :=
  c.length - c.consumed

/-- Whether there is nothing ahead. -/
def atEnd (c : Cursor) : Bool :=
  c.remaining = 0

/-- Whether the sequence was given as a list of pieces. -/
def isChunked (c : Cursor) : Bool :=
  c.segments.chunked

/-- The bytes ahead in the current piece. -/
def unread (c : Cursor) : ByteArray :=
  c.segments.bytesAt c.place (c.segments.available c.place)

/-- The next byte. -/
def peek? (c : Cursor) : Option UInt8 :=
  (c.segments.get c.place.index)[c.place.offset]?

/-- The cursor after the next `n` bytes, which must be there. -/
def past (c : Cursor) (n : Nat) : Cursor :=
  { c with place := c.segments.forward c.place n, consumed := c.consumed + n }

/-- Consumes the next byte. -/
def read? (c : Cursor) : Option (UInt8 × Cursor) :=
  match c.peek? with
  | some b =>
    let place := c.segments.settle ⟨c.place.index, c.place.offset + 1⟩
    some (b, { c with place := place, consumed := c.consumed + 1 })
  | none => none

/-- The next `n` bytes, without consuming them. -/
def copy? (c : Cursor) (n : Nat) : Option ByteArray :=
  if n ≤ c.remaining then some (c.segments.copy c.place n) else none

/-- Replaces the bytes of `target` by as many bytes from ahead, if there are that many, and tells
whether it did. -/
def copyTo (c : Cursor) (target : ByteArray) : Bool × ByteArray :=
  match c.copy? target.size with
  | some bytes => (true, bytes)
  | none => (false, target)

/-- Consumes a field of `n` bytes. A field that runs over the end of a piece is put together. -/
def field? (c : Cursor) (n : Nat) : Option (List UInt8 × Cursor) :=
  if n ≤ c.segments.available c.place then
    some ((c.segments.bytesAt c.place n).data.toList, c.past n)
  else
    match c.copy? n with
    | some bytes => some (bytes.data.toList, c.past n)
    | none => none

/-- Consumes a field and reads it as a number. -/
def nat? (c : Cursor) (w : Width) : Option (Nat × Cursor) :=
  (c.field? w.bytes).map fun (bytes, c) => (BigEndian.decode bytes, c)

/-- Consumes a field and reads it as an integer of a type. -/
def int? (c : Cursor) (t : IntType) : Option (Int × Cursor) :=
  (c.field? t.width.bytes).map fun (bytes, c) => (t.decode bytes, c)

/-- Moves forward. -/
def advance (c : Cursor) (n : Nat) : Except OutOfRange Cursor :=
  if n ≤ c.remaining then .ok (c.past n) else .error ⟨n, c.remaining⟩

/-- Moves back over bytes that have been consumed. -/
def rewind (c : Cursor) (n : Nat) : Except OutOfRange Cursor :=
  if n ≤ c.consumed then
    .ok { c with place := c.segments.backward c.place n, consumed := c.consumed - n }
  else .error ⟨n, c.consumed⟩

/-- A view of the next `n` bytes. -/
def view? (c : Cursor) (n : Nat) : Option View :=
  if n ≤ c.remaining then some ⟨c.segments, c.place, n⟩ else none

/-- Consumes the next `n` bytes as a view. -/
def take? (c : Cursor) (n : Nat) : Option (View × Cursor) :=
  (c.view? n).map fun v => (v, c.past n)

/-! ## Histories -/

/-- One operation of a cursor. -/
inductive Request where
  | peek
  | read
  | nat (width : Width)
  | int (type : IntType)
  | advance (n : Nat)
  | rewind (n : Nat)
  | unread
  | copyTo (target : ByteArray)
  | view (n : Nat)
  | take (n : Nat)

/-- What an operation answers. -/
inductive Reply where
  | byte (b : Option UInt8)
  | nat (n : Option Nat)
  | int (n : Option Int)
  | moved (fault : Option OutOfRange)
  | bytes (b : ByteArray)
  | copied (done : Bool) (target : ByteArray)
  | view (v : Option View)

/-- The answer of an operation that may give a new cursor: without one, the old cursor stays. -/
def reply {α : Type} (c : Cursor) (wrap : Option α → Reply) : Option (α × Cursor) → Reply × Cursor
  | some (a, c) => (wrap (some a), c)
  | none => (wrap none, c)

/-- The answer of a move: when it fails, the old cursor stays. -/
def moved (c : Cursor) : Except OutOfRange Cursor → Reply × Cursor
  | .ok c => (.moved none, c)
  | .error e => (.moved (some e), c)

/-- Carries out one operation. -/
def Request.run (c : Cursor) : Request → Reply × Cursor
  | .peek => (.byte c.peek?, c)
  | .read => c.reply .byte c.read?
  | .nat w => c.reply .nat (c.nat? w)
  | .int t => c.reply .int (c.int? t)
  | .advance n => c.moved (c.advance n)
  | .rewind n => c.moved (c.rewind n)
  | .unread => (.bytes c.unread, c)
  | .copyTo target => let (done, target) := c.copyTo target; (.copied done target, c)
  | .view n => (.view (c.view? n), c)
  | .take n => c.reply .view (c.take? n)

end Cursor

end MessagePack
