import MessagePack.Options
import MessagePack.Reader
import MessagePack.Writer

/-!
# Errors of documents

Reading and writing typed values can fail in the ways that tokens can, and in some more. `Encode`
and `Decode` are the computations that write and read values; `Encode.ofWrite` and `Decode.ofRead`
make a computation on tokens into one of them.
-/

namespace MessagePack

/-- Why a document could not be written or read. -/
inductive DocumentError where
  | read (error : ReadError)
  | write (error : WriteError)
  | typeAccess (error : TypeAccessError)
  /-- A block could not be compressed or decompressed. -/
  | compression
  /-- A block did not hold as many bytes as it said. -/
  | decompressedLengthMismatch (expected actual : Nat)
  /-- A key that occurs twice in a map. -/
  | duplicateKey
  /-- A text that is not a UUID. -/
  | invalidUuid
  /-- Nil in place of a string or of binary data. -/
  | unexpectedNil
  deriving DecidableEq

/-- The name of the cause of an error. A cause among the tokens comes after its side. -/
def DocumentError.cause : DocumentError → String
  | read e => "Read/" ++ e.cause
  | write e => "Write/" ++ e.cause
  | typeAccess _ => "TypeAccess"
  | compression => "Compression"
  | decompressedLengthMismatch _ _ => "DecompressedLengthMismatch"
  | duplicateKey => "DuplicateKey"
  | invalidUuid => "InvalidUuid"
  | unexpectedNil => "UnexpectedNil"

/-- The text of an error, if this library words it; the causes that other formats give do not have
one here. -/
def DocumentError.message? : DocumentError → Option String
  | read e => some e.message
  | write e => some e.message
  | typeAccess e => some e.message
  | compression => none
  | decompressedLengthMismatch expected actual =>
    some s!"A compressed block should contain {expected} bytes but contained {actual}."
  | duplicateKey => some "A map contained more than one entry with the same key."
  | invalidUuid => none
  | unexpectedNil => some "Nil was found where a value was required."

/-- A computation that writes a value to a sink. -/
abbrev Encode (σ α : Type) : Type :=
  EStateM DocumentError (Writer σ) α

/-- A computation that reads a value. -/
abbrev Decode (α : Type) : Type :=
  EStateM DocumentError Reader α

/-- A computation that writes tokens, as one that writes a value. -/
def Encode.ofWrite {σ α : Type} (m : Write σ α) : Encode σ α :=
  m.adaptExcept .write

/-- A computation that reads tokens, as one that reads a value. -/
def Decode.ofRead {α : Type} (m : Read α) : Decode α :=
  m.adaptExcept .read

/-- Reads something that must not be nil. -/
def Decode.ofNonNil {α : Type} (m : Read (Option α)) : Decode α := do
  match ← Decode.ofRead m with
  | some a => pure a
  | none => throw .unexpectedNil

end MessagePack
