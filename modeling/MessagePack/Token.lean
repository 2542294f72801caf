import MessagePack.BigEndian
import MessagePack.BinaryFloat
import MessagePack.Overwrite
import MessagePack.Timestamp

/-!
# Tokens and their bytes

A `Token` is one step of an encoding: a scalar, or the header that opens a container, a string or
an extension. `Token.encode` is the one place that decides which format a token takes, always the
smallest that the specification offers, and `Token.place` puts a token into a region of fixed size:
either the whole token is there afterwards, or nothing has changed.
-/

namespace MessagePack

/-- The header of an extension: its type and the length of its payload in bytes. -/
structure ExtensionHeader where
  type : Int8
  length : UInt32
  deriving DecidableEq

/-- One token. `compact` integers take the smallest format that holds the value, `explicit` ones
the format of their own type. A string header of the old specification has no 8 bit form. -/
inductive Token where
  | nil
  | boolean (value : Bool)
  | compact (type : IntType) (value : type.Carrier)
  | explicit (type : IntType) (value : type.Carrier)
  | float32 (value : Binary32)
  | float64 (value : Binary64)
  | arrayHeader (count : UInt32)
  | mapHeader (count : UInt32)
  | strHeader (oldSpec : Bool) (length : UInt32)
  | binHeader (length : UInt32)
  | extHeader (header : ExtensionHeader)
  | timestamp (value : Timestamp)

namespace Token

/-! ## The smallest format for a value -/

/-- A non-negative integer in the smallest unsigned format. -/
def encodeNat (n : Nat) : List UInt8 :=
  if h : n < 2 ^ 7 then [(Format.positiveFixInt ⟨n, h⟩).byte]
  else if n < 2 ^ 8 then (Format.int (.unsigned .w8)).byte :: BigEndian.encode 1 n
  else if n < 2 ^ 16 then (Format.int (.unsigned .w16)).byte :: BigEndian.encode 2 n
  else if n < 2 ^ 32 then (Format.int (.unsigned .w32)).byte :: BigEndian.encode 4 n
  else (Format.int (.unsigned .w64)).byte :: BigEndian.encode 8 n

/-- An integer in the smallest format. The unsigned formats are never longer than the signed ones,
so a non-negative integer takes an unsigned one. -/
def encodeInt (n : Int) : List UInt8 :=
  if 0 ≤ n then encodeNat n.toNat
  else if h : -2 ^ 5 ≤ n then [(Format.negativeFixInt ⟨(n + 32).toNat % 32, by omega⟩).byte]
  else if -2 ^ 7 ≤ n then (Format.int (.signed .w8)).byte :: (IntType.signed .w8).encode n
  else if -2 ^ 15 ≤ n then (Format.int (.signed .w16)).byte :: (IntType.signed .w16).encode n
  else if -2 ^ 31 ≤ n then (Format.int (.signed .w32)).byte :: (IntType.signed .w32).encode n
  else (Format.int (.signed .w64)).byte :: (IntType.signed .w64).encode n

/-- The header of a container, with its count in the lead byte or in a field. Arrays and maps differ
in the formats alone. -/
def encodeCount (fix : Fin 16 → Format) (field : CountWidth → Format) (n : Nat) : List UInt8 :=
  if h : n < 16 then [(fix ⟨n, h⟩).byte]
  else if n < 2 ^ 16 then (field .w16).byte :: BigEndian.encode 2 n
  else (field .w32).byte :: BigEndian.encode 4 n

/-- The header of an array. -/
def encodeArrayHeader (count : Nat) : List UInt8 :=
  encodeCount .fixArray .array count

/-- The header of a map. -/
def encodeMapHeader (count : Nat) : List UInt8 :=
  encodeCount .fixMap .map count

/-- The header of a string. -/
def encodeStrHeader (oldSpec : Bool) (length : Nat) : List UInt8 :=
  if h : length < 32 then [(Format.fixStr ⟨length, h⟩).byte]
  else if length < 2 ^ 8 ∧ ¬ oldSpec then (Format.str .w8).byte :: BigEndian.encode 1 length
  else if length < 2 ^ 16 then (Format.str .w16).byte :: BigEndian.encode 2 length
  else (Format.str .w32).byte :: BigEndian.encode 4 length

/-- The header of a binary blob. -/
def encodeBinHeader (length : Nat) : List UInt8 :=
  if length < 2 ^ 8 then (Format.bin .w8).byte :: BigEndian.encode 1 length
  else if length < 2 ^ 16 then (Format.bin .w16).byte :: BigEndian.encode 2 length
  else (Format.bin .w32).byte :: BigEndian.encode 4 length

/-- The fixed extension format whose payload has exactly the given length, if there is one. -/
def fixExtOf? : Nat → Option (Fin 5)
  | 1 => some ⟨0, by decide⟩
  | 2 => some ⟨1, by decide⟩
  | 4 => some ⟨2, by decide⟩
  | 8 => some ⟨3, by decide⟩
  | 16 => some ⟨4, by decide⟩
  | _ => none

/-- The header of an extension, with its type as the last byte. -/
def encodeExtHeader (type : Int8) (length : Nat) : List UInt8 :=
  match fixExtOf? length with
  | some k => [(Format.fixExt k).byte, type.toUInt8]
  | none =>
    (if length < 2 ^ 8 then (Format.ext .w8).byte :: BigEndian.encode 1 length
      else if length < 2 ^ 16 then (Format.ext .w16).byte :: BigEndian.encode 2 length
      else (Format.ext .w32).byte :: BigEndian.encode 4 length) ++ [type.toUInt8]

/-- A timestamp in the smallest of its three layouts: 32 bits of seconds; 30 bits of nanoseconds
with 34 bits of seconds; or 32 bits of nanoseconds and 64 bits of seconds. -/
def encodeTimestamp (t : Timestamp) : List UInt8 :=
  let seconds := t.seconds.toInt
  let nanoseconds := t.nanoseconds.toNat
  if 0 ≤ seconds ∧ seconds < 2 ^ 34 then
    let packed := nanoseconds * 2 ^ 34 + seconds.toNat
    if packed < 2 ^ 32 then encodeExtHeader timestampType 4 ++ BigEndian.encode 4 packed
    else encodeExtHeader timestampType 8 ++ BigEndian.encode 8 packed
  else
    encodeExtHeader timestampType 12 ++ BigEndian.encode 4 nanoseconds
      ++ (IntType.signed .w64).encode seconds

/-- The bytes of a token. -/
def encode : Token → List UInt8
  | nil => [Format.nil.byte]
  | boolean b => [(Format.boolean b).byte]
  | compact _ n => encodeInt n.val
  | explicit t n => (Format.int t).byte :: t.encode n.val
  | float32 x => Format.float32.byte :: BigEndian.encode 4 x.bits.toNat
  | float64 x => Format.float64.byte :: BigEndian.encode 8 x.bits.toNat
  | arrayHeader n => encodeArrayHeader n.toNat
  | mapHeader n => encodeMapHeader n.toNat
  | strHeader oldSpec n => encodeStrHeader oldSpec n.toNat
  | binHeader n => encodeBinHeader n.toNat
  | extHeader h => encodeExtHeader h.type h.length.toNat
  | timestamp t => encodeTimestamp t

/-- The bytes of a token as an array. -/
def bytes (t : Token) : ByteArray :=
  ⟨t.encode.toArray⟩

end Token

/-! ## Sizes of headers -/

/-- The size of the header of a string of `length` bytes. -/
def strHeaderSize (length : UInt32) (oldSpec : Bool) : Nat :=
  if length.toNat ≤ maxFixStrLength then 1
  else if length.toNat ≤ 255 ∧ ¬ oldSpec then 2
  else if length.toNat ≤ 65535 then 3
  else 5

/-- The size of the header of a binary blob of `length` bytes. -/
def binHeaderSize (length : UInt32) : Nat :=
  if length.toNat ≤ 255 then 2
  else if length.toNat ≤ 65535 then 3
  else 5

/-! ## Regions of fixed size -/

/-- A region was too small for a token of `required` bytes. -/
structure InsufficientSpace where
  required : Nat
  deriving DecidableEq

/-- The required size as a negative word: all its bits, inverted. -/
def InsufficientSpace.sentinel (e : InsufficientSpace) : Int64 :=
  ~~~Int64.ofNat e.required

/-- Puts a token at the start of a region. Gives its size, or why it was not put there, and the
region afterwards; a region that is too small stays as it is.

The kinds of tokens do not differ in this. A token that is put as one list of bytes, and one that is
put as a lead byte with a field behind it, is checked for room as a whole before any byte of it is
stored, so both are this one definition, on the bytes of the token. -/
def Token.place (t : Token) (region : ByteArray) : Except InsufficientSpace Nat × ByteArray :=
  let bytes := t.bytes
  if bytes.size ≤ region.size then (.ok bytes.size, overwriteAt region 0 bytes)
  else (.error ⟨bytes.size⟩, region)

end MessagePack
