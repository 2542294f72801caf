/-!
# The FNV-1a hash

The 64 bit hash in which every byte is first combined by exclusive or and then mixed by one
multiplication. Hashing a sequence in parts gives the same state as hashing it at once.
-/

namespace MessagePack

namespace Fnv

/-- The state before any byte. -/
def offsetBasis : UInt64 :=
  0xcbf29ce484222325

/-- The multiplier of each step. -/
def prime : UInt64 :=
  0x100000001b3

/-- The state after one more byte. -/
def step (state : UInt64) (b : UInt8) : UInt64 :=
  (state ^^^ b.toUInt64) * prime

/-- The state after more bytes. -/
def update (state : UInt64) (bytes : ByteArray) : UInt64 :=
  bytes.data.foldl step state

/-- The states before and after each of a list of parts. -/
def states (parts : List ByteArray) : List UInt64 :=
  offsetBasis :: go offsetBasis parts
where
  /-- The states after each part, from a given one on. -/
  go (state : UInt64) : List ByteArray → List UInt64
    | [] => []
    | part :: rest =>
      let state := update state part
      state :: go state rest

end Fnv

end MessagePack
