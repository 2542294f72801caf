import MessagePack.Turn

/-!
# Sequences of bytes in several pieces

`Segments` is one logical sequence of bytes that is stored in pieces, of which any number may be
empty, and there may be none at all. A `Place` is a position in it: the number of a piece and an
offset into that piece. Looking past the last piece finds an empty one.

The walks below go from piece to piece, and `turns` bounds how long any of them can take.

* **`Segments.settle`** moves off the end of a piece to the start of the next one that has bytes.
* **`Segments.forward`** and **`Segments.backward`** move by a number of bytes, and then settle.
* **`Segments.copy`** collects bytes without moving.
-/

namespace MessagePack

/-- A sequence of bytes in pieces. `chunked` tells whether it was given as a list of pieces or as
one block. -/
structure Segments where
  parts : Array ByteArray
  chunked : Bool

/-- A position in a sequence: an offset into one of its pieces. -/
structure Place where
  index : Nat
  offset : Nat
  deriving DecidableEq

namespace Segments

/-- One block of bytes. -/
def ofBytes (bytes : ByteArray) : Segments :=
  ⟨#[bytes], false⟩

/-- A list of pieces. -/
def ofParts (parts : Array ByteArray) : Segments :=
  ⟨parts, true⟩

/-- The number of pieces. -/
def count (s : Segments) : Nat :=
  s.parts.size

/-- The piece with a number; past the last one, an empty piece. -/
def get (s : Segments) (index : Nat) : ByteArray :=
  s.parts[index]?.getD .empty

/-- The number of bytes of all pieces together. -/
def length (s : Segments) : Nat :=
  s.parts.foldl (fun n part => n + part.size) 0

/-- The bytes of all pieces in order. -/
def toList (s : Segments) : List UInt8 :=
  s.parts.toList.flatMap fun part => part.data.toList

/-- The number of bytes from a place to the end of its piece. -/
def available (s : Segments) (p : Place) : Nat :=
  (s.get p.index).size - p.offset

/-- The first `n` of the bytes from a place to the end of its piece. -/
def bytesAt (s : Segments) (p : Place) (n : Nat) : ByteArray :=
  (s.get p.index).extract p.offset (p.offset + n)

/-- The start of the piece after a place. -/
def next (p : Place) : Place :=
  ⟨p.index + 1, 0⟩

/-- The number of turns within which every walk ends. -/
def turns (s : Segments) : Nat :=
  s.count + 1

/-! ## Moving -/

/-- Leaves a piece that has been passed, unless it is the last. -/
def settleTurn (s : Segments) (p : Place) : Turn Place Place :=
  if p.index < s.count - 1 ∧ (s.get p.index).size ≤ p.offset then .again (next p) else .done p

/-- The place of the next byte, past any pieces that have been passed. -/
def settle (s : Segments) (p : Place) : Place :=
  (Turn.run s.settleTurn s.turns p).getD p

/-- Moves within a piece, or to the end of it and on to the next one. -/
def forwardTurn (s : Segments) : Place × Nat → Turn (Place × Nat) Place
  | (p, n) =>
    if n ≤ s.available p then .done ⟨p.index, p.offset + n⟩
    else .again (next p, n - s.available p)

/-- The place that lies `n` bytes after a place. -/
def forward (s : Segments) (p : Place) (n : Nat) : Place :=
  s.settle ((Turn.run s.forwardTurn s.turns (p, n)).getD p)

/-- Moves back within a piece, or to the start of it and on to the end of the one before. -/
def backwardTurn (s : Segments) : Place × Nat → Turn (Place × Nat) Place
  | (p, n) =>
    if p.offset < n then .again (⟨p.index - 1, (s.get (p.index - 1)).size⟩, n - p.offset)
    else .done ⟨p.index, p.offset - n⟩

/-- The place that lies `n` bytes before a place. -/
def backward (s : Segments) (p : Place) (n : Nat) : Place :=
  s.settle ((Turn.run s.backwardTurn s.turns (p, n)).getD p)

/-! ## Collecting -/

/-- Takes what a piece has of the bytes that are still missing. -/
def copyTurn (s : Segments) (n : Nat) : Place × ByteArray → Turn (Place × ByteArray) ByteArray
  | (p, copied) =>
    if copied.size < n then
      .again (next p, copied ++ s.bytesAt p (min (s.available p) (n - copied.size)))
    else .done copied

/-- The `n` bytes from a place on. -/
def copy (s : Segments) (p : Place) (n : Nat) : ByteArray :=
  (Turn.run (s.copyTurn n) s.turns (p, .empty)).getD .empty

end Segments

end MessagePack
