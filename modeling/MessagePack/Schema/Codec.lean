import MessagePack.Schema
import MessagePack.Value.Codec

/-!
# Writing and reading typed values

`Schema.write` and `Schema.read` follow the structure of a type. Nothing is nil and something is
itself; lists and maps are entered with a depth step while they are read; a map refuses a key that
it has already, and a hash map refuses key types that its policy does not permit, before anything
of it is read.
-/

namespace MessagePack

namespace Schema

open Encode Decode

/-! ## Writing -/

/-- Writes the header of a map and then its entries, each key before its value. -/
def writeMap {σ κ ν : Type} [Sink σ] (key : κ → Encode σ Unit) (value : ν → Encode σ Unit)
    (entries : List (κ × ν)) : Encode σ Unit := do
  ofWrite (Writer.token (.mapHeader (← Value.countField entries.length)))
  entries.forM fun (k, v) => do
    key k
    value v

/-- Writes a value of a type. -/
def write {σ : Type} [Sink σ] : (s : Schema) → s.Carrier → Encode σ Unit
  | boolean, b => ofWrite (Writer.token (.boolean b))
  | int t, n => ofWrite (Writer.token (.compact t n))
  | float32, x => ofWrite (Writer.token (.float32 x))
  | float64, x => ofWrite (Writer.token (.float64 x))
  | char, c => ofWrite (Writer.char c)
  | string, text => ofWrite (Writer.str text)
  | bytes, b => ofWrite (Writer.bin b)
  | timestamp, t => ofWrite (Writer.timestamp t)
  | dateTime, d => ofWrite (Writer.dateTime d)
  | uuid, u => ofWrite (Writer.str u.render)
  | value, v => v.write
  | option _, none => ofWrite (Writer.token .nil)
  | option item, some x => item.write x
  | list item, xs => do
    ofWrite (Writer.token (.arrayHeader (← Value.countField xs.length)))
    xs.forM item.write
  | sortedMap k v, m => writeMap k.write v.write m.entries
  | hashMap k v, m => writeMap k.write v.write m.entries

/-! ## Reading -/

/-- Reads a number of entries and adds each of them to those that are there. -/
def readEntries {κ ν : Type} (insert? : κ → ν → List (κ × ν) → Option (List (κ × ν)))
    (key : Decode κ) (value : Decode ν) : (n : Nat) → List (κ × ν) → Decode (List (κ × ν))
  | 0, entries => pure entries
  | n + 1, entries => do
    let k ← key
    let v ← value
    match insert? k v entries with
    | some entries => readEntries insert? key value n entries
    | none => throw .duplicateKey

/-- Enters a map and reads its entries. -/
def readMap {κ ν : Type} (options : Options)
    (insert? : κ → ν → List (κ × ν) → Option (List (κ × ν))) (key : Decode κ) (value : Decode ν) :
    Decode (List (κ × ν)) :=
  Reader.nested .read options.security do
    let n ← ofRead Reader.mapHeader
    readEntries insert? key value n.toNat []

/-- Reads a UUID that is written as text. -/
def readUuid : Decode Uuid := do
  match Uuid.parse? (← ofNonNil Reader.str).value with
  | some u => pure u
  | none => throw .invalidUuid

/-- Reads a value of a type. -/
def read (options : Options) : (s : Schema) → Decode s.Carrier
  | boolean => ofRead Reader.boolean
  | int t => ofRead (Reader.int t)
  | float32 => ofRead Reader.float32
  | float64 => ofRead Reader.float64
  | char => ofRead Reader.char
  | string => ofNonNil Reader.string
  | bytes => return (← ofNonNil Reader.bytes).toBytes
  | timestamp => ofRead Reader.timestamp
  | dateTime => ofRead Reader.dateTime
  | uuid => readUuid
  | value => Value.read options
  | option item => do
    if ← ofRead Reader.tryNil then return none else return some (← item.read options)
  | list item =>
    Reader.nested .read options.security do
      let n ← ofRead Reader.arrayHeader
      Reader.replicate n.toNat (item.read options)
  | sortedMap k v =>
    return ⟨← readMap options (insertSorted? k.compare) (k.read options) (v.read options)⟩
  | hashMap k v => do
    match options.security.keyHasher k.keyType with
    | .error e => throw (.typeAccess e)
    | .ok hasher =>
      let entries ← readMap options (insertFront? k.compare) (k.read options) (v.read options)
      return ⟨hasher, entries.reverse⟩

end Schema

end MessagePack
