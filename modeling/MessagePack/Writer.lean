import MessagePack.Sink
import MessagePack.Token

/-!
# Writing tokens to a sink

A `Writer` is a sink with the mode that tokens are written in. The old specification has no binary,
`str 8` or timestamp formats; in its mode binary data goes out under string headers, and timestamps
are refused.

* **`Writer.emit`** is the one step that touches the sink. It first takes whatever region is at
  hand, and only if that is too small asks for exactly the bytes that it needs. A header and its
  body go out in one step.
* **`Writer.Command`** has one constructor per operation and `Writer.Command.run` carries it out,
  so that a history of writes is a list of commands.
-/

namespace MessagePack

/-- Why a token could not be written. -/
inductive WriteError where
  /-- A length that does not fit into 32 bits. -/
  | lengthOverflow (length : Nat)
  /-- A timestamp in the mode of the old specification. -/
  | oldSpecTimestamp
  /-- A sink that gave less than the bytes that were requested. -/
  | regionTooSmall (required : Nat)
  deriving DecidableEq

/-- The name of the cause of an error. -/
def WriteError.cause : WriteError → String
  | lengthOverflow _ => "LengthOverflow"
  | oldSpecTimestamp => "OldSpecTimestamp"
  | regionTooSmall _ => "RegionTooSmall"

/-- The text of an error. -/
def WriteError.message : WriteError → String
  | lengthOverflow length =>
    s!"A length of {length} cannot be represented (the maximum is 2^32 - 1)."
  | oldSpecTimestamp => "Timestamps cannot be written in old specification mode."
  | regionTooSmall required =>
    s!"The write buffer provided less than the {required} bytes that were requested."

/-- A sink and the mode in which tokens are written to it. -/
structure Writer (σ : Type) where
  sink : σ
  oldSpec : Bool

/-- A computation that writes to a sink. What it wrote before an error stays written. -/
abbrev Write (σ α : Type) : Type :=
  EStateM WriteError (Writer σ) α

/-- A length as a 32 bit field, if it fits. -/
def checkedLength (length : Nat) : Except WriteError UInt32 :=
  if length < 2 ^ 32 then .ok (UInt32.ofNat length) else .error (.lengthOverflow length)

namespace Writer

variable {σ : Type} [Sink σ]

/-- Commits bytes to the sink, in a region of at least `required` bytes. -/
def emit (required : Nat) (bytes : ByteArray) : Write σ Unit :=
  fun ⟨sink, oldSpec⟩ =>
    let sink := Sink.request sink 0
    if required ≤ Sink.room sink then .ok () ⟨Sink.append sink bytes, oldSpec⟩
    else
      let sink := Sink.request sink required
      if required ≤ Sink.room sink then .ok () ⟨Sink.append sink bytes, oldSpec⟩
      else .error (.regionTooSmall required) ⟨sink, oldSpec⟩

/-- Writes one token. -/
def token (t : Token) : Write σ Unit :=
  let bytes := t.bytes
  emit bytes.size bytes

/-- Writes a header of `headerSize` bytes and its body in one step. -/
def withBody (headerSize : Nat) (header : Token) (body : ByteArray) : Write σ Unit :=
  emit (headerSize + body.size) (header.bytes ++ body)

/-- The mode of the writer. -/
def mode : Write σ Bool :=
  return (← get).oldSpec

/-- A length as a 32 bit field; fails if it does not fit. -/
def length (n : Nat) : Write σ UInt32 :=
  match checkedLength n with
  | .ok n => pure n
  | .error e => throw e

/-! ## Scalars -/

/-- Writes a character as its scalar value. -/
def char (c : Char) : Write σ Unit :=
  token (.compact (.unsigned .w32) ⟨c.toNat, by
    have h : c.val.toNat < 2 ^ 32 := c.val.toNat_lt
    simp only [IntType.least, IntType.greatest, Width.bits, Width.bytes, Char.toNat]
    omega⟩)

/-! ## Strings and binary data -/

/-- Writes the header of a string of `n` bytes. -/
def strHeader (n : Nat) : Write σ Unit := do
  let n ← length n
  token (.strHeader (← mode) n)

/-- Writes a string that is given as its UTF-8 bytes. -/
def strBytes (utf8 : ByteArray) : Write σ Unit := do
  let n ← length utf8.size
  let oldSpec ← mode
  withBody (strHeaderSize n oldSpec) (.strHeader oldSpec n) utf8

/-- Writes a string. -/
def str (text : String) : Write σ Unit :=
  strBytes text.toUTF8

/-- Writes the header of a binary blob of `n` bytes. -/
def binHeader (n : Nat) : Write σ Unit := do
  let n ← length n
  token (if ← mode then .strHeader true n else .binHeader n)

/-- Writes a binary blob. -/
def bin (bytes : ByteArray) : Write σ Unit := do
  let n ← length bytes.size
  if ← mode then withBody (strHeaderSize n true) (.strHeader true n) bytes
  else withBody (binHeaderSize n) (.binHeader n) bytes

/-! ## Extensions -/

/-- Writes an extension. -/
def ext (type : Int8) (payload : ByteArray) : Write σ Unit := do
  let header := Token.extHeader ⟨type, ← length payload.size⟩
  withBody header.bytes.size header payload

/-- Writes a timestamp. -/
def timestamp (t : Timestamp) : Write σ Unit := do
  if ← mode then throw .oldSpecTimestamp
  token (.timestamp t)

/-- Writes a date-time as a timestamp. -/
def dateTime (d : DateTime) : Write σ Unit :=
  timestamp (.ofDateTime d)

/-- Writes bytes that are well formed already. -/
def raw (bytes : ByteArray) : Write σ Unit :=
  if bytes.isEmpty then pure () else emit bytes.size bytes

/-! ## Histories -/

/-- One operation of a writer. -/
inductive Command where
  | nil
  | boolean (value : Bool)
  | compact (type : IntType) (value : type.Carrier)
  | explicit (type : IntType) (value : type.Carrier)
  | char (value : Char)
  | float32 (value : Binary32)
  | float64 (value : Binary64)
  | arrayHeader (count : UInt32)
  | mapHeader (count : UInt32)
  | strHeader (length : Nat)
  | str (text : String)
  | strBytes (utf8 : ByteArray)
  | binHeader (length : Nat)
  | bin (bytes : ByteArray)
  | extHeader (header : ExtensionHeader)
  | ext (type : Int8) (payload : ByteArray)
  | timestamp (value : Timestamp)
  | dateTime (value : DateTime)
  | raw (bytes : ByteArray)

/-- The operation that writes a token in the mode of the writer. -/
def Command.ofToken : Token → Command
  | .nil => .nil
  | .boolean b => .boolean b
  | .compact t n => .compact t n
  | .explicit t n => .explicit t n
  | .float32 x => .float32 x
  | .float64 x => .float64 x
  | .arrayHeader n => .arrayHeader n
  | .mapHeader n => .mapHeader n
  | .strHeader _ n => .strHeader n.toNat
  | .binHeader n => .binHeader n.toNat
  | .extHeader h => .extHeader h
  | .timestamp t => .timestamp t

/-- Carries out one operation. -/
def Command.run : Command → Write σ Unit
  | .nil => token .nil
  | .boolean b => token (.boolean b)
  | .compact t n => token (.compact t n)
  | .explicit t n => token (.explicit t n)
  | .char c => Writer.char c
  | .float32 x => token (.float32 x)
  | .float64 x => token (.float64 x)
  | .arrayHeader n => token (.arrayHeader n)
  | .mapHeader n => token (.mapHeader n)
  | .strHeader n => Writer.strHeader n
  | .str text => Writer.str text
  | .strBytes utf8 => Writer.strBytes utf8
  | .binHeader n => Writer.binHeader n
  | .bin bytes => Writer.bin bytes
  | .extHeader h => token (.extHeader h)
  | .ext type payload => Writer.ext type payload
  | .timestamp t => Writer.timestamp t
  | .dateTime d => Writer.dateTime d
  | .raw bytes => Writer.raw bytes

end Writer

end MessagePack
