import MessagePack.Buffer
import MessagePack.CompressedBlock
import MessagePack.Schema.Codec

/-!
# Complete documents

A document is one value at the top level. It is written plainly, or, if the options ask for
compression and it is long enough, as one compressed block.

* **`Document.writeTo`** appends a document to a sink. With compression the document is encoded into
  a buffer of its own first, so that a document that cannot be encoded leaves nothing in the sink.
* **`Document.encode`** gives the bytes of a document.
* **`Document.readFrom`**, **`Document.decode`** and **`Document.decodeParts`** read a document. A
  compressed block is recognised by its header, and only if the options ask for compression.
-/

namespace MessagePack

namespace Document

/-! ## Writing -/

/-- Runs a computation that writes, on a sink and in a mode. -/
def onSink {σ : Type} (oldSpec : Bool) (m : Encode σ Unit) : EStateM DocumentError σ Unit :=
  fun sink =>
    match m ⟨sink, oldSpec⟩ with
    | .ok () w => .ok () w.sink
    | .error e w => .error e w.sink

/-- The bytes of a value in the plain form. -/
def plain (options : Options) (s : Schema) (x : s.Carrier) : Except DocumentError ByteArray :=
  match onSink options.oldSpec (s.write x) Buffer.empty with
  | .ok () buffer => .ok buffer.content
  | .error e _ => .error e

/-- Writes an encoded document, as a compressed block unless it is too short for that. -/
def pack {σ : Type} [Sink σ] (c : BlockCompressor) (options : Options) (document : ByteArray) :
    Encode σ Unit :=
  if document.size < options.minLength.toNat then .ofWrite (Writer.raw document)
  else CompressedBlock.write c document

/-- Appends a document to a sink, using an algorithm for compression. -/
def writeWith {σ : Type} [Sink σ] (c : BlockCompressor) (options : Options) (s : Schema)
    (x : s.Carrier) : EStateM DocumentError σ Unit :=
  match options.compression with
  | .none => onSink options.oldSpec (s.write x)
  | .deflate => do
    match plain options s x with
    | .ok document => onSink options.oldSpec (pack c options document)
    | .error e => throw e

/-- Appends a document to a sink. -/
def writeTo {σ : Type} [Sink σ] (options : Options) (s : Schema) (x : s.Carrier) :
    EStateM DocumentError σ Unit :=
  writeWith .standard options s x

/-- The bytes of a document. -/
def encode (options : Options) (s : Schema) (x : s.Carrier) : Except DocumentError ByteArray :=
  match writeTo options s x Buffer.empty with
  | .ok () buffer => .ok buffer.content
  | .error e _ => .error e

/-! ## Reading -/

/-- The value in a plain document. -/
def decodePlain (options : Options) (s : Schema) (r : Reader) : Except DocumentError s.Carrier :=
  match s.read options r with
  | .ok x _ => .ok x
  | .error e _ => .error e

/-- The value in a document, using an algorithm for compression. -/
def readWith (c : BlockCompressor) (options : Options) (s : Schema) (r : Reader) :
    Except DocumentError s.Carrier :=
  if options.compression = .deflate ∧ CompressedBlock.isNext r then
    match CompressedBlock.read c r with
    | .ok document _ => decodePlain options s (.ofBytes document)
    | .error e _ => .error e
  else decodePlain options s r

/-- The value in a document. What follows the document is not looked at. -/
def readFrom (options : Options) (s : Schema) (r : Reader) : Except DocumentError s.Carrier :=
  readWith .standard options s r

/-- The value in a document that is one block of bytes. -/
def decode (options : Options) (s : Schema) (bytes : ByteArray) :
    Except DocumentError s.Carrier :=
  readFrom options s (.ofBytes bytes)

/-- The value in a document that is a list of pieces. -/
def decodeParts (options : Options) (s : Schema) (parts : Array ByteArray) :
    Except DocumentError s.Carrier :=
  readFrom options s (.ofParts parts)

end Document

end MessagePack
