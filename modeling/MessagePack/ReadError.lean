import MessagePack.Format
import MessagePack.Text.Hexadecimal
import MessagePack.Text.Utf8

/-!
# Errors of reading

`ReadError` has one constructor per cause, and `ReadError.message` is the one place that words them.
-/

namespace MessagePack

/-- What an integer was too large or too small for: an integer type, or the size of a block of
memory. -/
inductive NumericTarget where
  | int (type : IntType)
  | size
  deriving DecidableEq

/-- The name of a numeric target. -/
def NumericTarget.name : NumericTarget → String
  | int type => type.name
  | size => "usize"

/-- Why a token could not be read. -/
inductive ReadError where
  /-- A lead byte of a format that is not valid here. -/
  | invalidCode (format : Format)
  /-- The input ended too early. -/
  | endOfStream
  /-- Containers were nested too deep. -/
  | depthExceeded (maxDepth : UInt64)
  /-- An integer that does not fit. -/
  | numericOverflow (format : Format) (target : NumericTarget)
  /-- A string that is not UTF-8. -/
  | invalidUtf8 (fault : Utf8.Fault)
  /-- A number that is not a character. -/
  | invalidChar (value : UInt32)
  /-- An extension of another type. -/
  | unexpectedExtension (expected actual : Int8)
  /-- A timestamp extension with an unknown layout or an instant that cannot be held. -/
  | invalidTimestamp
  deriving DecidableEq

namespace ReadError

/-- The name of the cause of an error. -/
def cause : ReadError → String
  | invalidCode _ => "InvalidCode"
  | endOfStream => "EndOfStream"
  | depthExceeded _ => "DepthExceeded"
  | numericOverflow _ _ => "NumericOverflow"
  | invalidUtf8 _ => "InvalidUtf8"
  | invalidChar _ => "InvalidChar"
  | unexpectedExtension _ _ => "UnexpectedExtension"
  | invalidTimestamp => "InvalidTimestamp"

/-- A number in hexadecimal with at least `width` digits, after the customary mark. -/
def hexadecimal (width n : Nat) : String :=
  "0x" ++ Hexadecimal.padded width n

/-- The lead byte of a format in hexadecimal. -/
def code (f : Format) : String :=
  hexadecimal 2 f.byte.toNat

/-- The text of an error. -/
def message : ReadError → String
  | invalidCode f => "Unexpected code " ++ code f ++ " (" ++ f.name ++ ")."
  | endOfStream => "The input ended before the value was complete."
  | depthExceeded maxDepth =>
    "The maximum object graph depth of " ++ toString maxDepth.toNat ++ " was exceeded."
  | numericOverflow f target =>
    "The value with code " ++ code f ++ " does not fit in a " ++ target.name ++ "."
  | invalidUtf8 fault => "A string contained invalid UTF-8: " ++ fault.message
  | invalidChar value => hexadecimal 1 value.toNat ++ " is not a valid character."
  | unexpectedExtension expected actual =>
    "Expected an extension of type " ++ toString expected.toInt ++ " but found type "
      ++ toString actual.toInt ++ "."
  | invalidTimestamp => "Invalid timestamp extension."

end ReadError

end MessagePack
