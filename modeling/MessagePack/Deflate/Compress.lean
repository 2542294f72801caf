import MessagePack.Deflate.Code
import MessagePack.Deflate.Repetition

/-!
# Encoding DEFLATE

Data is written either as it is, in stored blocks, or as one block of bytes and references under
the fixed codes, whichever is shorter. Level 0 always stores; a higher level spends more effort on
finding repetitions.

Like all of `Deflate`, this stands for a library outside the codec, and no result about all inputs
depends on how it is done.
-/

namespace MessagePack

namespace Deflate

/-! ## Bits -/

/-- Bytes that are written bit by bit: the complete ones, and the bits of the next one. -/
structure BitWriter where
  bytes : ByteArray
  pending : Nat
  count : Nat

namespace BitWriter

/-- Nothing written. -/
def empty : BitWriter :=
  ⟨.empty, 0, 0⟩

/-- Moves complete bytes out of the pending bits, at most `more` of them. -/
def flushBytes : (more : Nat) → BitWriter → BitWriter
  | 0, w => w
  | more + 1, w =>
    if 8 ≤ w.count then
      flushBytes more ⟨w.bytes.push (UInt8.ofNat w.pending), w.pending / 256, w.count - 8⟩
    else w

/-- Writes the low `n` bits of a number, the least significant one first. -/
def write (w : BitWriter) (value n : Nat) : BitWriter :=
  flushBytes (n / 8 + 1) ⟨w.bytes, w.pending + value % 2 ^ n * 2 ^ w.count, w.count + n⟩

/-- The bytes written, the last one filled up with zeros. -/
def finish (w : BitWriter) : ByteArray :=
  if w.count = 0 then w.bytes else w.bytes.push (UInt8.ofNat w.pending)

end BitWriter

/-! ## Codewords -/

/-- The lowest `n` bits of a number in the opposite order. -/
def reverseBits (value : Nat) : (n : Nat) → Nat
  | 0 => 0
  | n + 1 => value % 2 * 2 ^ n + reverseBits (value / 2) n

/-- The codeword of every symbol of the canonical code with the given lengths, with its first bit as
the lowest, and its length. -/
def codewords (lengths : Array Nat) : Array (Nat × Nat) :=
  let step := fun (word, table) length =>
    let symbols := Code.symbolsOfLength lengths length
    let table := (symbols.zipIdx).foldl (fun (table : Array (Nat × Nat)) (symbol, k) =>
      table.setIfInBounds symbol (reverseBits (word + k) length, length)) table
    (2 * (word + symbols.size), table)
  ((List.range' 1 maxCodeLength).foldl step (0, Array.replicate lengths.size (0, 0))).2

/-- Writes the codeword of a symbol. -/
def writeSymbol (words : Array (Nat × Nat)) (w : BitWriter) (symbol : Nat) : BitWriter :=
  let (word, length) := words[symbol]?.getD (0, 0)
  w.write word length

/-- Writes a value as a symbol and its extra bits. -/
def writeValue (words : Array (Nat × Nat)) (bases : Bases) (firstSymbol : Nat) (w : BitWriter)
    (value : Nat) : BitWriter :=
  let index := symbolOf bases value
  let (least, extra) := bases[index]?.getD (0, 0)
  (writeSymbol words w (firstSymbol + index)).write (value - least) extra

/-! ## Blocks -/

/-- One last block under the fixed codes. -/
def fixedBlock (parts : Array Piece) : ByteArray :=
  let literals := codewords fixedLiteralLengths
  let distances := codewords fixedDistanceLengths
  let body := parts.foldl (fun w part =>
    match part with
    | .literal b => writeSymbol literals w b.toNat
    | .reference length distance =>
      writeValue distances distanceBases 0
        (writeValue literals lengthBases firstLength w length) distance)
    ((BitWriter.empty.write 1 1).write 1 2)
  (writeSymbol literals body endOfBlock).finish

/-- The greatest length of a stored block. -/
def maxStored : Nat :=
  65535

/-- The header of a stored block. -/
def storedHeader (isLast : Bool) (length : Nat) : ByteArray :=
  let complement := 65535 - length
  ⟨#[if isLast then 1 else 0, UInt8.ofNat length, UInt8.ofNat (length / 256),
    UInt8.ofNat complement, UInt8.ofNat (complement / 256)]⟩

/-- Stored blocks for the data from a position on, after other output. Every block but the last is
full, so `more` is enough if it is above the number of full blocks. -/
def storedFrom (data : ByteArray) : (more i : Nat) → (output : ByteArray) → ByteArray
  | 0, _, output => output
  | more + 1, i, output =>
    let length := min maxStored (data.size - i)
    let isLast := data.size ≤ i + length
    let output := output ++ storedHeader isLast length ++ data.extract i (i + length)
    if isLast then output else storedFrom data more (i + length) output

/-- Data in stored blocks. -/
def stored (data : ByteArray) : ByteArray :=
  storedFrom data (data.size / maxStored + 1) 0 .empty

/-- The highest level of compression. -/
def maxLevel : Nat :=
  9

/-- A stream that decodes to the data. -/
def compress (level : Nat) (data : ByteArray) : ByteArray :=
  let plain := stored data
  if level = 0 then plain
  else
    let coded := fixedBlock (pieces data (8 * min level maxLevel))
    if coded.size < plain.size then coded else plain

end Deflate

end MessagePack
