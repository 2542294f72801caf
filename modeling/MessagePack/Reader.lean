import MessagePack.Cursor
import MessagePack.ReadError
import MessagePack.Security
import MessagePack.Token

/-!
# Reading tokens

A `Reader` is a cursor with the number of containers that it is inside of. `Read` is a computation
over a reader that may fail; what the reader has become is known after a failure too.

* **`Reader.attempt`** undoes everything unless something was found. All operations that may answer
  "not yet complete" are made with it, so they move the reader only when they succeed.
* **`Reader.header?`** reads the header of any kind of container, string or extension: a lead byte,
  and the length or count that is either part of it or in the field behind it.
* **`Reader.nested`** enters a container for the duration of a computation.
* The counts of headers are checked against the bytes ahead, as every element takes at least one
  byte; so a short input cannot claim a huge container.
-/

namespace MessagePack

/-- A cursor, and the number of containers that have been entered. -/
structure Reader where
  cursor : Cursor
  depth : Nat

/-- A computation that reads tokens. -/
abbrev Read (α : Type) : Type :=
  EStateM ReadError Reader α

/-! ## Lengths and counts -/

/-- Where the length or count of a header is: in the lead byte, or in the field behind it. -/
inductive Extent where
  | inLead (n : Nat)
  | field (width : Width)

namespace Format

/-- Where the count of an array is. -/
def arrayCount? : Format → Option Extent
  | fixArray n => some (.inLead n)
  | array w => some (.field w.toWidth)
  | _ => none

/-- Where the count of a map is. -/
def mapCount? : Format → Option Extent
  | fixMap n => some (.inLead n)
  | map w => some (.field w.toWidth)
  | _ => none

/-- Where the length of a string is. -/
def strLength? : Format → Option Extent
  | fixStr n => some (.inLead n)
  | str w => some (.field w.toWidth)
  | _ => none

/-- Where the length of a binary blob is. Data of the old specification stores blobs as strings, so
their formats count too. -/
def binLength? : Format → Option Extent
  | bin w => some (.field w.toWidth)
  | f => f.strLength?

/-- Where the length of the payload of an extension is. -/
def extLength? : Format → Option Extent
  | fixExt k => some (.inLead (2 ^ k.val))
  | ext w => some (.field w.toWidth)
  | _ => none

end Format

namespace Reader

/-- A reader at the start of one block. -/
def ofBytes (bytes : ByteArray) : Reader :=
  ⟨.ofBytes bytes, 0⟩

/-- A reader at the start of a list of pieces. -/
def ofParts (parts : Array ByteArray) : Reader :=
  ⟨.ofParts parts, 0⟩

/-- The number of bytes consumed. -/
def consumed (r : Reader) : Nat :=
  r.cursor.consumed

/-- The number of bytes ahead. -/
def remaining (r : Reader) : Nat :=
  r.cursor.remaining

/-- Whether there is nothing ahead. -/
def atEnd (r : Reader) : Bool :=
  r.cursor.atEnd

/-! ## Steps of the cursor -/

/-- A step of the cursor that may find nothing. -/
def step? {α : Type} (f : Cursor → Option (α × Cursor)) : Read (Option α) :=
  fun r =>
    match f r.cursor with
    | some (a, c) => .ok (some a) ⟨c, r.depth⟩
    | none => .ok none r

/-- A value that has to be there. -/
def require {α : Type} (m : Read (Option α)) : Read α := do
  match ← m with
  | some a => pure a
  | none => throw .endOfStream

/-- A step of the cursor that has to find something. -/
def step {α : Type} (f : Cursor → Option (α × Cursor)) : Read α :=
  require (step? f)

/-- Keeps what a computation did to the reader only if it found something. -/
def attempt {α : Type} (m : Read (Option α)) : Read (Option α) :=
  fun r =>
    match m r with
    | .ok (some a) r => .ok (some a) r
    | .ok none _ => .ok none r
    | .error e _ => .error e r

/-- Runs a computation and leaves the reader as it was. -/
def ahead {ε α : Type} (m : EStateM ε Reader α) : EStateM ε Reader α :=
  fun r =>
    match m r with
    | .ok a _ => .ok a r
    | .error e _ => .error e r

/-- Consumes a view of `n` bytes. -/
def take (n : Nat) : Read View :=
  step (·.take? n)

/-! ## Lead bytes -/

/-- The format of the next token. -/
def nextFormat : Read Format := do
  match (← get).cursor.peek? with
  | some b => pure (.ofByte b)
  | none => throw .endOfStream

/-- The kind of the next token. -/
def nextKind : Read Kind :=
  return (← nextFormat).kind

/-- Whether the next token is nil. -/
def isNil : Read Bool :=
  return (← nextFormat) = .nil

/-- Consumes a lead byte, if there is one. -/
def format? : Read (Option Format) := do
  return (← step? Cursor.read?).map .ofByte

/-- Consumes a lead byte. -/
def format : Read Format :=
  require format?

/-! ## Scalars -/

/-- Consumes the next token if it is nil, and tells whether it was. -/
def tryNil : Read Bool := do
  if ← isNil then
    let _ ← take 1
    return true
  else return false

/-- Reads nil. -/
def nil : Read Unit := do
  match ← format with
  | .nil => pure ()
  | f => throw (.invalidCode f)

/-- Reads a boolean. -/
def boolean : Read Bool := do
  match ← format with
  | .boolean b => pure b
  | f => throw (.invalidCode f)

/-- Reads an integer in any format, and gives the format with it. -/
def integer : Read (Format × Int) := do
  let f ← format
  match f with
  | .positiveFixInt n => pure (f, n)
  | .negativeFixInt n => pure (f, (n : Int) - 32)
  | .int t => return (f, ← step (·.int? t))
  | _ => throw (.invalidCode f)

/-- Reads an integer in any format that fits into a type. -/
def int (t : IntType) : Read t.Carrier := do
  let (f, n) ← integer
  match t.ofInt? n with
  | some n => pure n
  | none => throw (.numericOverflow f (.int t))

/-- Reads a character that is stored as its scalar value. -/
def char : Read Char := do
  let n ← int (.unsigned .w32)
  let value := UInt32.ofNat n.val.toNat
  if h : value.isValidChar then pure ⟨value, h⟩ else throw (.invalidChar value)

/-- Reads the bits of a single precision float behind its lead byte. -/
def float32Field : Read Binary32 := do
  let _ ← format
  return ⟨UInt32.ofNat (← step (·.nat? .w32))⟩

/-- Reads the bits of a double precision float behind its lead byte. -/
def float64Field : Read Binary64 := do
  let _ ← format
  return ⟨UInt64.ofNat (← step (·.nat? .w64))⟩

/-- Reads any float or integer as the nearest single precision float. -/
def float32 : Read Binary32 := do
  match ← nextFormat with
  | .float32 => float32Field
  | .float64 => return (← float64Field).narrow
  | _ => return .ofInt (← integer).2

/-- Reads any float or integer as the nearest double precision float. -/
def float64 : Read Binary64 := do
  match ← nextFormat with
  | .float32 => return (← float32Field).widen
  | .float64 => float64Field
  | _ => return .ofInt (← integer).2

/-! ## Headers -/

/-- Reads a length or count, if it is complete. -/
def extent? : Extent → Read (Option UInt32)
  | .inLead n => pure (some (UInt32.ofNat n))
  | .field w => return (← step? (·.nat? w)).map UInt32.ofNat

/-- Reads a lead byte and the length or count that goes with it, if they are complete. -/
def header? (select : Format → Option Extent) : Read (Option UInt32) := do
  match ← format? with
  | none => pure none
  | some f =>
    match select f with
    | some e => extent? e
    | none => throw (.invalidCode f)

/-- The header of an array, if it is complete. Its count is not checked. -/
def tryArrayHeader : Read (Option UInt32) :=
  attempt (header? Format.arrayCount?)

/-- Reads the header of an array that the input can hold. -/
def arrayHeader : Read UInt32 := do
  let n ← require tryArrayHeader
  if (← get).remaining < n.toNat then throw .endOfStream else pure n

/-- The header of a map, if it is complete. Its count is not checked. -/
def tryMapHeader : Read (Option UInt32) :=
  attempt (header? Format.mapCount?)

/-- Reads the header of a map that the input can hold: every entry takes at least two bytes. -/
def mapHeader : Read UInt32 := do
  let n ← require tryMapHeader
  if (← get).remaining < 2 * n.toNat then throw .endOfStream else pure n

/-- Reads the header of a string. -/
def strHeader : Read UInt32 :=
  require (header? Format.strLength?)

/-- Reads the header of a binary blob. -/
def binHeader : Read UInt32 :=
  require (header? Format.binLength?)

/-- Reads the parts of an extension header, if they are complete. -/
def extHeaderParts? : Read (Option ExtensionHeader) := do
  match ← header? Format.extLength? with
  | none => pure none
  | some length => return (← step? (·.int? (.signed .w8))).map fun t => ⟨Int8.ofInt t, length⟩

/-- The header of an extension, if it is complete. Its length is not checked. -/
def tryExtHeader : Read (Option ExtensionHeader) :=
  attempt extHeaderParts?

/-- Reads the header of an extension that the input can hold. -/
def extHeader : Read ExtensionHeader := do
  let h ← require tryExtHeader
  if (← get).remaining < h.length.toNat then throw .endOfStream else pure h

/-! ## Strings and binary data -/

/-- Reads a string that lies within one piece, as its bytes. Answers nothing, and consumes nothing,
if the next token is nil or the string lies in several pieces. -/
def tryStringSpan : Read (Option ByteArray) :=
  attempt do
    if ← isNil then pure none
    else
      let n ← strHeader
      return (← take n.toNat).contiguous?

/-- Reads the bytes of a string, or nil. -/
def stringView : Read (Option View) := do
  if ← tryNil then pure none
  else
    let n ← strHeader
    return some (← take n.toNat)

/-- A text, and whether its bytes lay within one piece of the input. -/
structure Text where
  borrowed : Bool
  value : String

/-- Decodes the bytes of a string. -/
def decodeText (bytes : ByteArray) : Read String :=
  match Utf8.decode bytes with
  | .ok text => pure text
  | .error fault => throw (.invalidUtf8 fault)

/-- Reads a string, or nil. -/
def str : Read (Option Text) := do
  match ← stringView with
  | none => pure none
  | some v =>
    match v.contiguous? with
    | some bytes => return some ⟨true, ← decodeText bytes⟩
    | none => return some ⟨false, ← decodeText v.content⟩

/-- Reads the text of a string, or nil. -/
def string : Read (Option String) :=
  return (← str).map Text.value

/-- Reads the bytes of a binary blob, or nil. -/
def bytes : Read (Option View) := do
  if ← tryNil then pure none
  else
    let n ← binHeader
    return some (← take n.toNat)

/-! ## Extensions -/

/-- An extension whose payload has not been interpreted. -/
structure Extension where
  type : Int8
  data : View

/-- The header that an extension has. -/
def Extension.header (e : Extension) : ExtensionHeader :=
  ⟨e.type, UInt32.ofNat e.data.length⟩

/-- Reads an extension. -/
def ext : Read Extension := do
  let h ← extHeader
  return ⟨h.type, ← take h.length.toNat⟩

/-- Reads the payload of a timestamp of `length` bytes as seconds and nanoseconds. -/
def timestampFields (length : Nat) : Read (Int × Nat) := do
  match length with
  | 4 => return (← step (·.nat? .w32), 0)
  | 8 =>
    let packed ← step (·.nat? .w64)
    return (packed % 2 ^ 34, packed / 2 ^ 34)
  | 12 =>
    let nanoseconds ← step (·.nat? .w32)
    let seconds ← step (·.int? (.signed .w64))
    return (seconds, nanoseconds)
  | _ => throw .invalidTimestamp

/-- Reads a timestamp in any of its three layouts. -/
def timestamp : Read Timestamp := do
  let h ← extHeader
  if h.type ≠ timestampType then throw (.unexpectedExtension timestampType h.type)
  let (seconds, nanoseconds) ← timestampFields h.length.toNat
  match Timestamp.ofParts (Int64.ofInt seconds) (UInt32.ofNat nanoseconds) with
  | .ok t => pure t
  | .error _ => throw .invalidTimestamp

/-- Reads a timestamp that the calendar covers. -/
def dateTime : Read DateTime := do
  match (← timestamp).toDateTime? with
  | some d => pure d
  | none => throw .invalidTimestamp

/-! ## Containers -/

/-- Enters a container while a computation runs, and leaves it whatever the outcome. Fails without
running anything if the policy allows no deeper nesting. -/
def nested {ε α : Type} (inject : ReadError → ε) (policy : SecurityPolicy)
    (m : EStateM ε Reader α) : EStateM ε Reader α :=
  fun r =>
    if policy.maxDepth.toNat ≤ r.depth then .error (inject (.depthExceeded policy.maxDepth)) r
    else
      match m ⟨r.cursor, r.depth + 1⟩ with
      | .ok a r => .ok a ⟨r.cursor, r.depth - 1⟩
      | .error e r => .error e ⟨r.cursor, r.depth - 1⟩

/-- Runs a computation `n` times and puts the results, latest first, in front of `acc`. -/
def replicateOnto {ε α : Type} (m : EStateM ε Reader α) :
    (n : Nat) → (acc : List α) → EStateM ε Reader (List α)
  | 0, acc => pure acc
  | n + 1, acc => do replicateOnto m n ((← m) :: acc)

/-- Runs a computation `n` times and gives the results in order. -/
def replicate {ε α : Type} (n : Nat) (m : EStateM ε Reader α) : EStateM ε Reader (List α) :=
  return (← replicateOnto m n []).reverse

end Reader

end MessagePack
