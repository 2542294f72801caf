import MessagePack.Segments

/-!
# Views of a range of bytes

A `View` is a range within a sequence of pieces; no byte is copied until someone asks for it. There
are several ways to look at the same range:

* **`View.contiguous?`** is the range as one block, if it lies within the piece that it starts in;
* **`View.pieces`** are its parts in each piece, without the empty ones;
* **`View.toBytes`** and **`View.content`** copy it into one block;
* **`View.chunk`** and **`View.advance?`** consume it from the front.
-/

namespace MessagePack

/-- A range of bytes within a sequence. -/
structure View where
  segments : Segments
  place : Place
  length : Nat

namespace View

/-- The view of a whole block. -/
def ofBytes (bytes : ByteArray) : View :=
  ⟨.ofBytes bytes, ⟨0, 0⟩, bytes.size⟩

/-- Whether the range has no bytes. -/
def isEmpty (v : View) : Bool :=
  v.length = 0

/-- The range as one block, if it lies within the piece that it starts in. -/
def contiguous? (v : View) : Option ByteArray :=
  let piece := v.segments.get v.place.index
  let start := min v.place.offset piece.size
  if start + v.length ≤ piece.size then some (piece.extract start (start + v.length)) else none

/-- The part of the range that lies in the piece that it starts in. -/
def current (v : View) : ByteArray :=
  v.segments.bytesAt v.place (min (v.segments.available v.place) v.length)

/-! ## Piece by piece -/

/-- Moves past the piece that the range starts in, and stops with its part if that is not empty. -/
def nextTurn (v : View) : Turn View (Option (ByteArray × View)) :=
  if v.length = 0 then .done none
  else
    let part := v.current
    let place := Segments.next v.place
    if part.size = 0 then .again { v with place := place }
    else .done (some (part, { v with place := place, length := v.length - part.size }))

/-- The first part that is not empty, and the range behind it. -/
def next? (v : View) : Option (ByteArray × View) :=
  (Turn.run nextTurn v.segments.turns v).getD none

/-- At most `n` parts of the range. -/
def piecesUpTo : (n : Nat) → View → List ByteArray
  | 0, _ => []
  | n + 1, v =>
    match v.next? with
    | some (part, rest) => part :: piecesUpTo n rest
    | none => []

/-- The parts of the range in each piece, without the empty ones. -/
def pieces (v : View) : List ByteArray :=
  v.piecesUpTo v.segments.turns

/-- The bytes of the range, put together from its parts. -/
def content (v : View) : ByteArray :=
  v.pieces.foldl (· ++ ·) .empty

/-- The bytes of the range. A range within one piece is taken from there; any other range is put
together from its parts. -/
def toBytes (v : View) : ByteArray :=
  let stop := v.place.offset + v.length
  if v.segments.chunked then
    match v.segments.parts[v.place.index]? with
    | some piece => if stop ≤ piece.size then piece.extract v.place.offset stop else v.content
    | none => v.content
  else (v.segments.get 0).extract v.place.offset stop

/-! ## From the front -/

/-- Leaves a piece that has nothing of the range, unless it is the last. -/
def chunkTurn (v : View) : Turn View ByteArray :=
  let part := v.current
  if part.size = 0 ∧ v.place.index + 1 < v.segments.count then
    .again { v with place := Segments.next v.place }
  else .done part

/-- Bytes at the front of the range; there are some unless the range has none. -/
def chunk (v : View) : ByteArray :=
  if v.length = 0 then .empty else (Turn.run chunkTurn v.segments.turns v).getD .empty

/-- Passes bytes within a piece, or what is left of it and goes on to the next one. -/
def advanceTurn (s : Segments) : Place × Nat → Turn (Place × Nat) Place
  | (p, n) =>
    if n = 0 then .done p
    else if n < s.available p then .again (⟨p.index, p.offset + n⟩, 0)
    else .again (Segments.next p, n - s.available p)

/-- The range behind its first `n` bytes, unless it has fewer. -/
def advance? (v : View) (n : Nat) : Option View :=
  if n ≤ v.length then
    some
      { v with
        place := (Turn.run (advanceTurn v.segments) v.segments.turns (v.place, n)).getD v.place
        length := v.length - n }
  else none

/-- The text of the fault of advancing too far. -/
def advanceFault : String :=
  "Advanced past the end of a sequence slice."

/-! ## Comparing -/

/-- Whether the range has exactly the given bytes. -/
def equalsBytes (v : View) (bytes : ByteArray) : Bool :=
  v.length = bytes.size && v.content == bytes

/-- Whether two ranges have the same bytes. -/
def equals (v w : View) : Bool :=
  v.length = w.length && v.content == w.content

end View

end MessagePack
