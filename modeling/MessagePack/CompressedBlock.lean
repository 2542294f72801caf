import MessagePack.Deflate.Compress
import MessagePack.Deflate.Inflate
import MessagePack.DocumentError

/-!
# Compressed blocks

A complete document can be stored compressed, in an extension of its own type. The payload of that
extension is the length of the document as an `int 32`, always in that format, and behind it the
compressed bytes.

* **`BlockCompressor`** is any algorithm; **`BlockCompressor.deflate`** is the one that documents
  are stored with.
* **`CompressedBlock.write`** and **`CompressedBlock.read`** are inverse to each other if the
  algorithm gives back what it was given. Both are safe against what an algorithm does wrong: a
  block is written in full or not at all, and a document that does not have the length that it was
  announced with is refused.
-/

namespace MessagePack

/-- An algorithm that compresses blocks of bytes. `decompress` is told how many bytes to expect, and
need give no more than one byte above that. -/
structure BlockCompressor where
  compress : ByteArray → Option ByteArray
  decompress : ByteArray → (expected : Nat) → Option ByteArray

namespace BlockCompressor

/-- The level of compression that documents are stored with. -/
def defaultLevel : Nat :=
  6

/-- Compression with DEFLATE at a level. It stands for what a library outside the codec does, so
results about all inputs are about every `BlockCompressor`, and do not look into this one. -/
def deflate (level : Nat) : BlockCompressor where
  compress data := some (Deflate.compress level data)
  decompress data expected := Deflate.inflate data (expected + 1)

/-- The algorithm that documents are stored with. -/
def standard : BlockCompressor :=
  deflate defaultLevel

end BlockCompressor

namespace CompressedBlock

open Encode Decode

/-- The type of the field in front of the compressed bytes. -/
def lengthType : IntType :=
  .signed .w32

/-- The size of the field in front of the compressed bytes, with its lead byte. -/
def lengthFieldSize : Nat :=
  1 + lengthType.width.bytes

/-! ## Writing -/

/-- Gives a length as a value of the field in front of the compressed bytes; fails if it does not
fit. -/
def lengthField {σ : Type} (length : Nat) : Encode σ lengthType.Carrier :=
  match lengthType.ofInt? length with
  | some n => pure n
  | none => throw (.write (.lengthOverflow length))

/-- Compresses a document; fails if the algorithm does. -/
def compressed {σ : Type} (c : BlockCompressor) (document : ByteArray) : Encode σ ByteArray :=
  match c.compress document with
  | some bytes => pure bytes
  | none => throw .compression

/-- Writes a complete document as a compressed block. -/
def write {σ : Type} [Sink σ] (c : BlockCompressor) (document : ByteArray) :
    Encode σ Unit := do
  let length ← lengthField document.size
  let bytes ← compressed c document
  let payloadSize ← ofWrite (Writer.length (lengthFieldSize + bytes.size))
  ofWrite do
    Writer.token (.extHeader ⟨compressedBlockType, payloadSize⟩)
    Writer.token (.explicit lengthType length)
    Writer.raw bytes

/-! ## Reading -/

/-- Whether a compressed block comes next. -/
def isNext (r : Reader) : Bool :=
  match Reader.tryExtHeader r with
  | .ok (some header) _ => header.type = compressedBlockType
  | _ => false

/-- Reads the length of the document at the start of a payload. -/
def readLengthField : Read Nat := do
  let f ← Reader.nextFormat
  if f ≠ .int lengthType then throw (.invalidCode f)
  let n ← Reader.int lengthType
  if n.val < 0 then throw (.numericOverflow f .size) else pure n.val.toNat

/-- The document in a payload. -/
def openPayload (c : BlockCompressor) (payload : ByteArray) : Except DocumentError ByteArray :=
  match readLengthField (.ofBytes payload) with
  | .error e _ => .error (.read e)
  | .ok expected r =>
    match c.decompress (payload.extract r.consumed payload.size) expected with
    | none => .error .compression
    | some document =>
      if document.size = expected then .ok document
      else .error (.decompressedLengthMismatch expected document.size)

/-- Reads a compressed block, and gives the document in it. -/
def read (c : BlockCompressor) : Decode ByteArray := do
  let e ← ofRead Reader.ext
  if e.type ≠ compressedBlockType then
    throw (.read (.unexpectedExtension compressedBlockType e.type))
  match openPayload c (e.data.contiguous?.getD e.data.content) with
  | .ok document => pure document
  | .error e => throw e

end CompressedBlock

end MessagePack
