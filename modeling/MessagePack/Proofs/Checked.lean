import MessagePack.Cursor
import MessagePack.Overwrite
import MessagePack.Proofs.Turn

/-!
# Walks that check every step

A walk over pieces takes differences of numbers and ranges of blocks, and it goes on for as long as
its turns do. A difference that would be negative is 0, a range that would leave its block is cut
off, and a walk that does not end gives back the place it started from; nobody would notice. Here
are the same walks again, written so that any of these is a refusal, and a refusal is all that comes
of the walk.

* **`minus?`**, **`range?`** and **`fits?`** are the steps that can be refused, and
  **`Turn.tryRun`** is the loop over turns that can. It has a result only if no turn is refused and
  the turns come to an end in time.
* **`Turn.tryRun_eq`** says that a loop none of whose turns is refused goes as it does unchecked.
* The checked turns of each walk follow, each with what they are equal to, and what is made of them,
  up to the requests of a cursor. No turn is ever refused but that of going back, which is refused
  in the first piece (`Segments.checkedBackwardTurn_eq`).
-/

namespace MessagePack

/-- A difference, if it is not negative. -/
def minus? (a b : Nat) : Option Nat :=
  if b ≤ a then some (a - b) else none

/-- The bytes of a block between two offsets, if these are in order and not beyond its end. -/
def range? (block : ByteArray) (start stop : Nat) : Option ByteArray :=
  if start ≤ stop ∧ stop ≤ block.size then some (block.extract start stop) else none

/-- Goes on if some bytes have room in a block of a certain size. -/
def fits? (count size : Nat) : Option Unit :=
  if count ≤ size then some () else none

/-- A difference that is not negative passes the check. -/
theorem minus?_eq {a b : Nat} (h : b ≤ a) : minus? a b = some (a - b) :=
  if_pos h

/-- A count that fits passes the check. -/
theorem fits?_eq {count size : Nat} (h : count ≤ size) : fits? count size = some () :=
  if_pos h

/-- A range within a block passes the check. -/
theorem range?_eq {block : ByteArray} {start stop : Nat} (h : start ≤ stop)
    (h' : stop ≤ block.size) : range? block start stop = some (block.extract start stop) :=
  if_pos ⟨h, h'⟩

namespace Turn

variable {σ α : Type}

/-- Takes at most `turns` turns from a state, and gives the result if one of them stops and none is
refused. -/
def tryRun (turn : σ → Option (Turn σ α)) : (turns : Nat) → σ → Option α
  | 0, _ => none
  | turns + 1, state =>
    match turn state with
    | some (again state) => tryRun turn turns state
    | some (done result) => some result
    | none => none

/-- A loop none of whose turns is refused goes as it does unchecked. -/
theorem tryRun_eq {turn : σ → Turn σ α} {checked : σ → Option (Turn σ α)} (Inv : σ → Prop)
    (hchecked : ∀ {s : σ}, Inv s → checked s = some (turn s))
    (hagain : ∀ {s t : σ}, Inv s → turn s = .again t → Inv t) {s : σ} (hs : Inv s)
    (turns : Nat) : tryRun checked turns s = run turn turns s := by
  induction turns generalizing s with
  | zero => rfl
  | succ turns ih =>
      rw [tryRun, run, hchecked hs]
      cases hturn : turn s with
      | again t => exact ih (hagain hs hturn)
      | done a => rfl

/-- A loop whose turns are never refused. -/
theorem tryRun_eq_of_forall {turn : σ → Turn σ α} {checked : σ → Option (Turn σ α)}
    (hchecked : ∀ s, checked s = some (turn s)) (turns : Nat) (s : σ) :
    tryRun checked turns s = run turn turns s :=
  tryRun_eq (fun _ => True) (fun _ => hchecked _) (fun _ _ => trivial) trivial turns

end Turn

/-! ## Moving and collecting -/

namespace Segments

variable (s : Segments)

/-- The number of bytes from a place to the end of its piece. -/
def checkedAvailable (p : Place) : Option Nat :=
  let size := (s.get p.index).size
  minus? size (min p.offset size)

/-- The bytes from a place to the end of its piece. -/
def checkedUnread (p : Place) : Option ByteArray :=
  let piece := s.get p.index
  range? piece (min p.offset piece.size) piece.size

/-- The place of the next byte, past any pieces that have been passed. -/
def checkedSettle (p : Place) : Option Place :=
  Turn.run s.settleTurn s.turns p

def checkedForwardTurn : Place × Nat → Option (Turn (Place × Nat) Place)
  | (p, n) => do
    let available ← s.checkedAvailable p
    if n ≤ available then return .done ⟨p.index, p.offset + n⟩
    else return .again (next p, ← minus? n available)

/-- The place that lies `n` bytes after a place. -/
def checkedForward (p : Place) (n : Nat) : Option Place := do
  s.checkedSettle (← Turn.tryRun s.checkedForwardTurn s.turns (p, n))

def checkedBackwardTurn : Place × Nat → Option (Turn (Place × Nat) Place)
  | (p, n) => do
    if p.offset < n then
      let rest ← minus? n p.offset
      let index ← minus? p.index 1
      return .again (⟨index, (s.get index).size⟩, rest)
    else return .done ⟨p.index, ← minus? p.offset n⟩

/-- The place that lies `n` bytes before a place. -/
def checkedBackward (p : Place) (n : Nat) : Option Place := do
  s.checkedSettle (← Turn.tryRun s.checkedBackwardTurn s.turns (p, n))

/-- What is copied goes into what is left of a target of `n` bytes. -/
def checkedCopyTurn (n : Nat) : Place × ByteArray → Option (Turn (Place × ByteArray) ByteArray)
  | (p, copied) => do
    if copied.size < n then
      let unread ← s.checkedUnread p
      let count := min unread.size (← minus? n copied.size)
      let part ← range? unread 0 count
      fits? (copied.size + count) n
      return .again (next p, copied ++ part)
    else return .done copied

/-- The `n` bytes from a place on. -/
def checkedCopy (p : Place) (n : Nat) : Option ByteArray :=
  Turn.tryRun (s.checkedCopyTurn n) s.turns (p, .empty)

theorem checkedAvailable_eq (p : Place) : s.checkedAvailable p = some (s.available p) := by
  rw [checkedAvailable, minus?_eq (Nat.min_le_right _ _), available]
  exact congrArg some (by omega)

/-- What is left of the piece at a place is cut out of it without a failure. -/
theorem checkedUnread_eq (p : Place) :
    s.checkedUnread p = some (s.bytesAt p (s.available p)) := by
  have hstop : min (p.offset + s.available p) (s.get p.index).size = (s.get p.index).size := by
    rw [available]
    omega
  rw [checkedUnread, range?_eq (Nat.min_le_right _ _) (Nat.le_refl _), bytesAt,
    ← extract_clamp _ p.offset, hstop]

theorem size_bytesAt_available (p : Place) :
    (s.bytesAt p (s.available p)).size = s.available p := by
  rw [bytesAt, ByteArray.size_extract, available]
  omega

/-- The first of the bytes at a place are fewer bytes at that place. -/
theorem extract_bytesAt {p : Place} {n m : Nat} (h : m ≤ n) :
    (s.bytesAt p n).extract 0 m = s.bytesAt p m := by
  rw [bytesAt, bytesAt, ByteArray.extract_extract, Nat.add_zero, Nat.min_eq_left (by omega)]

/-- A turn forward takes no more from a piece than it has. -/
theorem checkedForwardTurn_eq (x : Place × Nat) :
    s.checkedForwardTurn x = some (s.forwardTurn x) := by
  obtain ⟨p, n⟩ := x
  rw [checkedForwardTurn, checkedAvailable_eq, forwardTurn]
  by_cases hn : n ≤ s.available p
  · simp [hn]
  · simp [hn, minus?_eq (Nat.le_of_not_le hn)]

/-- Going back to the piece before is refused if there is none. -/
theorem checkedBackwardTurn_eq {p : Place} {n : Nat} (h : p.offset < n → 0 < p.index) :
    s.checkedBackwardTurn (p, n) = some (s.backwardTurn (p, n)) := by
  rw [checkedBackwardTurn, backwardTurn]
  by_cases hn : p.offset < n
  · simp [hn, minus?_eq (Nat.le_of_lt hn), minus?_eq (h hn)]
  · simp [hn, minus?_eq (Nat.le_of_not_lt hn)]

/-- A turn of a copy cuts out no more than the piece has. -/
theorem checkedCopyTurn_eq (n : Nat) (x : Place × ByteArray) :
    s.checkedCopyTurn n x = some (s.copyTurn n x) := by
  obtain ⟨p, copied⟩ := x
  rw [checkedCopyTurn, copyTurn]
  by_cases hn : copied.size < n
  · have hcount : min (s.available p) (n - copied.size) ≤ s.available p := Nat.min_le_left _ _
    have hfits : copied.size + min (s.available p) (n - copied.size) ≤ n := by omega
    -- what is copied is at hand in the piece, and there is room for it
    have hrange : min (s.available p) (n - copied.size) ≤ (s.bytesAt p (s.available p)).size := by
      rw [size_bytesAt_available]
      exact hcount
    simp [hn, checkedUnread_eq, minus?_eq (Nat.le_of_lt hn), size_bytesAt_available,
      range?_eq (Nat.zero_le _) hrange, extract_bytesAt s hcount, fits?_eq hfits]
  · simp [hn]

end Segments

/-! ## Looking at a range -/

namespace View

/-- The part of the range that lies in the piece that it starts in. -/
def checkedCurrent (v : View) : Option ByteArray :=
  let piece := v.segments.get v.place.index
  let start := min v.place.offset piece.size
  range? piece start (min (start + v.length) piece.size)

def checkedNextTurn (v : View) : Option (Turn View (Option (ByteArray × View))) := do
  if v.length = 0 then return .done none
  else
    let part ← v.checkedCurrent
    let place := Segments.next v.place
    if part.size = 0 then return .again { v with place := place }
    else
      let length ← minus? v.length part.size
      return .done (some (part, { v with place := place, length := length }))

/-- The first part that is not empty, and the range behind it. -/
def checkedNext (v : View) : Option (Option (ByteArray × View)) :=
  Turn.tryRun checkedNextTurn v.segments.turns v

/-- The parts of a range, if there are fewer than `turns`. -/
def checkedPiecesUpTo : (turns : Nat) → View → Option (List ByteArray)
  | 0, _ => none
  | turns + 1, v => do
    match ← v.checkedNext with
    | some (part, rest) => return part :: (← checkedPiecesUpTo turns rest)
    | none => return []

/-- The parts of the range in each piece, without the empty ones. -/
def checkedPieces (v : View) : Option (List ByteArray) :=
  v.checkedPiecesUpTo v.segments.turns

/-- The bytes of the range, put together from its parts. -/
def checkedContent (v : View) : Option ByteArray := do
  return (← v.checkedPieces).foldl (· ++ ·) .empty

/-- The bytes of the range. -/
def checkedToBytes (v : View) : Option ByteArray :=
  let stop := v.place.offset + v.length
  if v.segments.chunked then
    match v.segments.parts[v.place.index]? with
    | some piece => if stop ≤ piece.size then range? piece v.place.offset stop else v.checkedContent
    | none => v.checkedContent
  else range? (v.segments.get 0) v.place.offset stop

def checkedChunkTurn (v : View) : Option (Turn View ByteArray) := do
  let part ← v.checkedCurrent
  if part.size = 0 ∧ v.place.index + 1 < v.segments.count then
    return .again { v with place := Segments.next v.place }
  else return .done part

/-- Bytes at the front of the range. -/
def checkedChunk (v : View) : Option ByteArray :=
  if v.length = 0 then some .empty else Turn.tryRun checkedChunkTurn v.segments.turns v

def checkedAdvanceTurn (s : Segments) : Place × Nat → Option (Turn (Place × Nat) Place)
  | (p, n) => do
    if n = 0 then return .done p
    else
      let available ← s.checkedAvailable p
      if n < available then return .again (⟨p.index, p.offset + n⟩, 0)
      else return .again (Segments.next p, ← minus? n available)

/-- The range behind its first `n` bytes. -/
def checkedAdvance (v : View) (n : Nat) : Option View := do
  let length ← minus? v.length n
  let place ← Turn.tryRun (checkedAdvanceTurn v.segments) v.segments.turns (v.place, n)
  return { v with place := place, length := length }

/-- What a view has of its piece is cut out of it without a failure. -/
theorem checkedCurrent_eq (v : View) : v.checkedCurrent = some v.current := by
  -- both ends of the range are cut off at the end of the piece before it is taken
  have hstart : min v.place.offset (v.segments.get v.place.index).size
      ≤ min (min v.place.offset (v.segments.get v.place.index).size + v.length)
        (v.segments.get v.place.index).size := by omega
  have hstop : min (min v.place.offset (v.segments.get v.place.index).size + v.length)
        (v.segments.get v.place.index).size
      = min (v.place.offset + min (v.segments.available v.place) v.length)
        (v.segments.get v.place.index).size := by
    rw [Segments.available]
    omega
  rw [checkedCurrent, range?_eq hstart (Nat.min_le_right _ _), hstop, extract_clamp]
  rfl

/-- A view has no more of its piece than it is long. -/
theorem size_current_le (v : View) : v.current.size ≤ v.length := by
  rw [current, Segments.bytesAt, ByteArray.size_extract]
  omega

/-- A turn to the next piece takes no more from the length than it is. -/
theorem checkedNextTurn_eq (v : View) : v.checkedNextTurn = some v.nextTurn := by
  rw [checkedNextTurn, nextTurn, checkedCurrent_eq]
  by_cases hlength : v.length = 0
  · simp [hlength]
  · by_cases hsize : v.current.size = 0
    · simp [hlength, hsize, -ByteArray.size_eq_zero_iff]
    · simp [hlength, hsize, minus?_eq v.size_current_le, -ByteArray.size_eq_zero_iff]

/-- A turn to the first piece with bytes goes from one piece to the next alone. -/
theorem checkedChunkTurn_eq (v : View) : v.checkedChunkTurn = some v.chunkTurn := by
  rw [checkedChunkTurn, chunkTurn, checkedCurrent_eq]
  by_cases hpassed : v.current.size = 0 ∧ v.place.index + 1 < v.segments.count
  · simp [hpassed, -ByteArray.size_eq_zero_iff]
  · simp [hpassed, -ByteArray.size_eq_zero_iff]

/-- A turn of an advance takes no more from the count than it is. -/
theorem checkedAdvanceTurn_eq (s : Segments) (x : Place × Nat) :
    checkedAdvanceTurn s x = some (advanceTurn s x) := by
  obtain ⟨p, n⟩ := x
  rw [checkedAdvanceTurn, advanceTurn, s.checkedAvailable_eq]
  by_cases hzero : n = 0
  · simp [hzero]
  · by_cases hn : n < s.available p
    · simp [hzero, hn]
    · simp [hzero, hn, minus?_eq (Nat.le_of_not_lt hn)]

end View

/-! ## Requests -/

namespace Cursor

/-- The number of bytes ahead. -/
def checkedRemaining (c : Cursor) : Option Nat :=
  minus? c.length c.consumed

/-- The next byte. -/
def checkedPeek (c : Cursor) : Option (Option UInt8) := do
  let unread ← c.segments.checkedUnread c.place
  return unread[0]?

/-- The cursor after the next `n` bytes. -/
def checkedPast (c : Cursor) (n : Nat) : Option Cursor := do
  let place ← c.segments.checkedForward c.place n
  return { c with place := place, consumed := c.consumed + n }

/-- Consumes the next byte. -/
def checkedRead (c : Cursor) : Option (Option (UInt8 × Cursor)) := do
  match ← c.checkedPeek with
  | some b =>
    let place ← c.segments.checkedSettle ⟨c.place.index, c.place.offset + 1⟩
    return some (b, { c with place := place, consumed := c.consumed + 1 })
  | none => return none

/-- The next `n` bytes, without consuming them. -/
def checkedCopy (c : Cursor) (n : Nat) : Option (Option ByteArray) := do
  if n ≤ (← c.checkedRemaining) then return some (← c.segments.checkedCopy c.place n)
  else return none

/-- The most bytes that a field can have. -/
def longestField : Nat :=
  8

/-- Consumes a field of `n` bytes. One that runs over the end of a piece is put together in a block
that has room for the longest. -/
def checkedField (c : Cursor) (n : Nat) : Option (Option (List UInt8 × Cursor)) := do
  let unread ← c.segments.checkedUnread c.place
  if n ≤ unread.size then
    let bytes ← range? unread 0 n
    return some (bytes.data.toList, ← c.checkedPast n)
  else
    fits? n longestField
    match ← c.checkedCopy n with
    | some bytes => return some (bytes.data.toList, ← c.checkedPast n)
    | none => return none

/-- Moves forward. -/
def checkedAdvance (c : Cursor) (n : Nat) : Option (Except OutOfRange Cursor) := do
  let available ← c.checkedRemaining
  if n ≤ available then return .ok (← c.checkedPast n) else return .error ⟨n, available⟩

/-- Moves back over bytes that have been consumed. -/
def checkedRewind (c : Cursor) (n : Nat) : Option (Except OutOfRange Cursor) := do
  if n ≤ c.consumed then
    let consumed ← minus? c.consumed n
    let place ← c.segments.checkedBackward c.place n
    return .ok { c with place := place, consumed := consumed }
  else return .error ⟨n, c.consumed⟩

/-- A view of the next `n` bytes. -/
def checkedView (c : Cursor) (n : Nat) : Option (Option View) := do
  if n ≤ (← c.checkedRemaining) then return some ⟨c.segments, c.place, n⟩ else return none

/-- Consumes the next `n` bytes as a view. -/
def checkedTake (c : Cursor) (n : Nat) : Option (Option (View × Cursor)) := do
  match ← c.checkedView n with
  | some v => return some (v, ← c.checkedPast n)
  | none => return none

/-- Carries out one operation. -/
def Request.checkedRun (c : Cursor) : Request → Option (Reply × Cursor)
  | .peek => return (.byte (← c.checkedPeek), c)
  | .read => return c.reply .byte (← c.checkedRead)
  | .nat w => do
    let field ← c.checkedField w.bytes
    return c.reply .nat (field.map fun (bytes, c) => (BigEndian.decode bytes, c))
  | .int t => do
    let field ← c.checkedField t.width.bytes
    return c.reply .int (field.map fun (bytes, c) => (t.decode bytes, c))
  | .advance n => return c.moved (← c.checkedAdvance n)
  | .rewind n => return c.moved (← c.checkedRewind n)
  | .unread => return (.bytes (← c.segments.checkedUnread c.place), c)
  | .copyTo target => do
    match ← c.checkedCopy target.size with
    | some bytes => return (.copied true bytes, c)
    | none => return (.copied false target, c)
  | .view n => return (.view (← c.checkedView n), c)
  | .take n => return c.reply .view (← c.checkedTake n)

end Cursor

end MessagePack
