import MessagePack.Text.Hexadecimal

/-!
# UUIDs as text

A UUID is 128 bits, written as 32 hexadecimal digits in five groups with hyphens between them. It is
read in either case, with the hyphens or without, and with the hyphens also in braces or after the
mark of a URN.

The codec leaves this notation to a library, and this module stands for that. No result depends on
which texts are accepted or on what they denote: results about reads hold for any function from a
text to a UUID or nothing.
-/

namespace MessagePack

/-- A universally unique identifier. -/
structure Uuid where
  bits : BitVec 128
  deriving DecidableEq

namespace Uuid

/-- The lengths of the groups of digits. -/
def groups : List Nat :=
  [8, 4, 4, 4, 12]

/-- Digits in groups with a hyphen between them. -/
def hyphenate : List Nat → List Char → List Char
  | [], digits => digits
  | [_], digits => digits
  | n :: rest, digits => digits.take n ++ '-' :: hyphenate rest (digits.drop n)

/-- The digits of a text in groups with a hyphen between them, if it is one. -/
def dehyphenate? : List Nat → List Char → Option (List Char)
  | [], text => if text = [] then some [] else none
  | [n], text => if text.length = n then some text else none
  | n :: rest, text =>
    if text[n]? = some '-' then (dehyphenate? rest (text.drop (n + 1))).map (text.take n ++ ·)
    else none

/-- A UUID in the usual notation, in lower case. -/
def render (u : Uuid) : String :=
  String.ofList (hyphenate groups (Hexadecimal.digits 32 u.bits.toNat))

/-- The text inside braces. -/
def unbrace? : List Char → Option (List Char)
  | '\x7b' :: rest => if rest.getLast? = some '\x7d' then some rest.dropLast else none
  | _ => none

/-- The text behind the mark of a URN. -/
def urnBody? (text : List Char) : Option (List Char) :=
  let mark := "urn:uuid:".toList
  if text.take mark.length = mark then some (text.drop mark.length) else none

/-- The 32 digits of a text in one of the accepted notations. -/
def digits? (text : List Char) : Option (List Char) :=
  if text.length = 32 then some text
  else
    let hyphenated := ((unbrace? text).orElse fun _ => urnBody? text).getD text
    dehyphenate? groups hyphenated

/-- The UUID that a text denotes, as a library outside the codec would tell. -/
def parse? (text : String) : Option Uuid := do
  return ⟨.ofNat 128 (← Hexadecimal.number? 0 (← digits? text.toList))⟩

/-- The order of the bits as a number. -/
def compare (u v : Uuid) : Ordering :=
  Ord.compare u.bits.toNat v.bits.toNat

end Uuid

end MessagePack
