import MessagePack.Security

/-!
# Options of documents

`Options` says how a complete document is written or read. The values are changed by record update,
one field at a time.
-/

namespace MessagePack

/-- How a complete document is compressed. -/
inductive Compression where
  | none
  /-- The document is stored in an extension block that is compressed with DEFLATE. -/
  | deflate
  deriving DecidableEq

/-- Options for a complete document. A document whose encoding has fewer than `minLength` bytes is
never compressed. -/
structure Options where
  security : SecurityPolicy
  compression : Compression
  minLength : UInt64
  oldSpec : Bool
  deriving DecidableEq

namespace Options

/-- The options that hold where none are given. -/
def standard : Options :=
  ⟨.standard, .none, 64, false⟩

/-- Options for data from an untrusted source. -/
def untrusted : Options :=
  { standard with security := .untrusted }

end Options

end MessagePack
