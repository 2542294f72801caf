/-!
# Hexadecimal digits

Numbers and bytes in base 16. Digits are written in lower case and read in either.
-/

namespace MessagePack

namespace Hexadecimal

/-- The value of a digit. -/
def digit? (c : Char) : Option Nat :=
  if '0' ≤ c ∧ c ≤ '9' then some (c.toNat - '0'.toNat)
  else if 'a' ≤ c ∧ c ≤ 'f' then some (c.toNat - 'a'.toNat + 10)
  else if 'A' ≤ c ∧ c ≤ 'F' then some (c.toNat - 'A'.toNat + 10)
  else none

/-- The number with the given digits after those of `before`. -/
def number? (before : Nat) : List Char → Option Nat
  | [] => some before
  | c :: rest =>
    match digit? c with
    | some d => number? (16 * before + d) rest
    | none => none

/-- A number with at least `width` digits. -/
def digits (width n : Nat) : List Char :=
  let shortest := Nat.toDigits 16 n
  List.replicate (width - shortest.length) '0' ++ shortest

/-- The text of a number with at least `width` digits. -/
def padded (width n : Nat) : String :=
  String.ofList (digits width n)

/-- The text of bytes, two digits for each. -/
def ofBytes (bytes : ByteArray) : String :=
  bytes.foldl (fun text b =>
    (text.push (Nat.digitChar (b.toNat / 16))).push (Nat.digitChar (b.toNat % 16))) ""

/-- The bytes of a list of digits after those that are there, two digits for each. -/
def bytesAfter? (bytes : ByteArray) : List Char → Option ByteArray
  | [] => some bytes
  | [_] => none
  | high :: low :: rest =>
    match digit? high, digit? low with
    | some h, some l => bytesAfter? (bytes.push (UInt8.ofNat (16 * h + l))) rest
    | _, _ => none

/-- The bytes that a text denotes. -/
def toBytes? (text : String) : Option ByteArray :=
  bytesAfter? .empty text.toList

end Hexadecimal

end MessagePack
