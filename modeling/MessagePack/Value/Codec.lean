import MessagePack.DocumentError
import MessagePack.Value

/-!
# Writing and reading values

* **`Value.write`** writes every part of a value in the smallest format for it.
* **`Value.read`** reads any value in any format. A signed format that holds a non-negative number
  gives an `unsigned` value, so what was read does not depend on the format that it was read from.

Reading descends into containers. Every container that is entered has consumed a byte, so the number
of bytes ahead bounds the descent.
-/

namespace MessagePack

namespace Value

open Encode Decode

/-! ## Writing -/

/-- The number of elements of a container as a 32 bit field. -/
def countField {σ : Type} (n : Nat) : Encode σ UInt32 :=
  match checkedLength n with
  | .ok n => pure n
  | .error e => throw (.write e)

/-- Signed integers of 64 bits are in the range of their type. -/
theorem int64_mem (n : Int64) :
    (IntType.signed .w64).least ≤ n.toInt ∧ n.toInt ≤ (IntType.signed .w64).greatest :=
  ⟨n.le_toInt, Int.le_sub_one_of_lt n.toInt_lt⟩

/-- Unsigned integers of 64 bits are in the range of their type. -/
theorem uint64_mem (n : UInt64) :
    (IntType.unsigned .w64).least ≤ n.toNat ∧ n.toNat ≤ (IntType.unsigned .w64).greatest :=
  ⟨Int.natCast_nonneg _, Int.le_sub_one_of_lt (Int.ofNat_lt.mpr n.toNat_lt)⟩

mutual

/-- Writes a value. -/
def write {σ : Type} [Sink σ] : Value → Encode σ Unit
  | nil => ofWrite (Writer.token .nil)
  | boolean b => ofWrite (Writer.token (.boolean b))
  | integer n => ofWrite (Writer.token (.compact (.signed .w64) ⟨n.toInt, int64_mem n⟩))
  | unsigned n => ofWrite (Writer.token (.compact (.unsigned .w64) ⟨n.toNat, uint64_mem n⟩))
  | float32 x => ofWrite (Writer.token (.float32 x))
  | float64 x => ofWrite (Writer.token (.float64 x))
  | string text => ofWrite (Writer.str text)
  | binary bytes => ofWrite (Writer.bin bytes)
  | array items => do
    ofWrite (Writer.token (.arrayHeader (← countField items.length)))
    writeItems items
  | map entries => do
    ofWrite (Writer.token (.mapHeader (← countField entries.length)))
    writeEntries entries
  | timestamp t => ofWrite (Writer.timestamp t)
  | extension type payload => ofWrite (Writer.ext type payload)

/-- Writes a list of values, one after the other. -/
def writeItems {σ : Type} [Sink σ] : List Value → Encode σ Unit
  | [] => pure ()
  | v :: rest => do
    v.write
    writeItems rest

/-- Writes a list of entries, each key before its value. -/
def writeEntries {σ : Type} [Sink σ] : List (Value × Value) → Encode σ Unit
  | [] => pure ()
  | (k, v) :: rest => do
    k.write
    v.write
    writeEntries rest

end

/-! ## Reading -/

/-- Reads an integer: a signed format as signed, and any other as unsigned. -/
def readInteger (f : Format) : Decode Value := do
  if f.isSigned then return .ofInt (Int64.ofInt (← ofRead (Reader.int (.signed .w64))).val)
  else return .unsigned (UInt64.ofNat (← ofRead (Reader.int (.unsigned .w64))).val.toNat)

/-- Reads an extension: one of the timestamp type as a timestamp, and any other uninterpreted. -/
def readExtension : Decode Value := do
  let header ← ofRead (Reader.ahead Reader.extHeader)
  if header.type = timestampType then return .timestamp (← ofRead Reader.timestamp)
  else
    let e ← ofRead Reader.ext
    return .extension e.type e.data.toBytes

/-- Reads a value that is nested at most `bound` deep. -/
def readWithin (options : Options) : (bound : Nat) → Decode Value
  | 0 => throw (.read .endOfStream)
  | bound + 1 => do
    let f ← ofRead Reader.nextFormat
    match f.kind with
    | .nil =>
      ofRead Reader.nil
      return .nil
    | .boolean => return .boolean (← ofRead Reader.boolean)
    | .integer => readInteger f
    | .float =>
      if f = .float32 then return .float32 (← ofRead Reader.float32)
      else return .float64 (← ofRead Reader.float64)
    | .string => return .string (← ofNonNil Reader.string)
    | .binary => return .binary (← ofNonNil Reader.bytes).toBytes
    | .array =>
      Reader.nested .read options.security do
        let n ← ofRead Reader.arrayHeader
        return .array (← Reader.replicate n.toNat (readWithin options bound))
    | .map =>
      Reader.nested .read options.security do
        let n ← ofRead Reader.mapHeader
        return .map (← Reader.replicate n.toNat do
          let k ← readWithin options bound
          return (k, ← readWithin options bound))
    | .extension => readExtension
    | .unknown => throw (.read (.invalidCode f))

/-- Reads a value. -/
def read (options : Options) : Decode Value := do
  readWithin options (← get).remaining

end Value

end MessagePack
