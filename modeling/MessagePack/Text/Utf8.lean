/-!
# UTF-8

`Utf8.decode` turns bytes into text, or says where they stop being text. A character is a lead byte
and the continuation bytes that it calls for; after some lead bytes the first continuation byte has
a narrower range, and that is what rules out overlong forms, surrogates and numbers beyond the last
character. So bytes are refused at the first byte that no text could continue with.
-/

namespace MessagePack

namespace Utf8

/-- What has to follow inside a character: the number of bytes still owed, and the range of the
next one. -/
structure Owed where
  count : Nat
  low : UInt8
  high : UInt8

/-- A number of continuation bytes of the full range. -/
def tails (count : Nat) : Owed :=
  ⟨count, 0x80, 0xbf⟩

/-- What has to follow a lead byte, if the byte can be one. -/
def owedAfter? (lead : UInt8) : Option Owed :=
  if lead < 0x80 then some (tails 0)
  else if lead < 0xc2 then none
  else if lead < 0xe0 then some (tails 1)
  else if lead = 0xe0 then some ⟨2, 0xa0, 0xbf⟩
  else if lead = 0xed then some ⟨2, 0x80, 0x9f⟩
  else if lead < 0xf0 then some (tails 2)
  else if lead = 0xf0 then some ⟨3, 0x90, 0xbf⟩
  else if lead < 0xf4 then some (tails 3)
  else if lead = 0xf4 then some ⟨3, 0x80, 0x8f⟩
  else none

/-- Where bytes stop being text: the length of the text before that place, and the length of the
sequence that is wrong, or nothing if the bytes end inside a character. -/
structure Fault where
  validUpTo : Nat
  badLength : Option Nat
  deriving DecidableEq

/-- The text of a fault. -/
def Fault.message (f : Fault) : String :=
  match f.badLength with
  | some n => s!"invalid utf-8 sequence of {n} bytes from index {f.validUpTo}"
  | none => s!"incomplete utf-8 byte sequence from index {f.validUpTo}"

/-- Looks for a fault in the bytes that follow the first `taken` bytes of the character at `start`.
-/
def faultFrom? (start taken : Nat) (owed : Owed) : List UInt8 → Option Fault
  | [] => if owed.count = 0 then none else some ⟨start, none⟩
  | b :: rest =>
    if owed.count = 0 then
      match owedAfter? b with
      | some owed => faultFrom? (start + taken) 1 owed rest
      | none => some ⟨start + taken, some 1⟩
    else if owed.low ≤ b ∧ b ≤ owed.high then
      faultFrom? start (taken + 1) (tails (owed.count - 1)) rest
    else some ⟨start, some taken⟩

/-- The first fault of a sequence of bytes. -/
def fault? (bytes : ByteArray) : Option Fault :=
  faultFrom? 0 0 (tails 0) bytes.data.toList

/-- The text with the given bytes, or the first fault. -/
def decode (bytes : ByteArray) : Except Fault String :=
  match String.fromUTF8? bytes with
  | some text => .ok text
  | none => .error ((fault? bytes).getD ⟨bytes.size, none⟩)

end Utf8

end MessagePack
