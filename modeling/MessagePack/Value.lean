import MessagePack.BinaryFloat
import MessagePack.Format
import MessagePack.Timestamp

/-!
# Dynamic values

`Value` is any MessagePack value. Integers are split by sign, so that every value of 64 bits has its
place, signed or not: `Value.ofInt` is the one constructor of integers that keeps non-negative ones
in `unsigned`. The entries of a map keep their order, and a key may occur more than once.

`Value.same` is equality: structural, with floats compared as numbers. So a NaN differs from itself,
and the two zeros are equal.
-/

namespace MessagePack

/-- A MessagePack value. -/
inductive Value where
  | nil
  | boolean (value : Bool)
  | integer (value : Int64)
  | unsigned (value : UInt64)
  | float32 (value : Binary32)
  | float64 (value : Binary64)
  | string (text : String)
  | binary (bytes : ByteArray)
  | array (items : List Value)
  | map (entries : List (Value × Value))
  | timestamp (value : Timestamp)
  | extension (type : Int8) (payload : ByteArray)

namespace Value

instance : Inhabited Value :=
  ⟨nil⟩

/-- The value of an integer. -/
def ofInt (n : Int64) : Value :=
  if n < 0 then integer n else unsigned n.toUInt64

/-- The value of an optional value: nothing is nil. -/
def ofOption : Option Value → Value
  | some v => v
  | none => nil

/-- The category of a value. -/
def kind : Value → Kind
  | nil => .nil
  | boolean _ => .boolean
  | integer _ | unsigned _ => .integer
  | float32 _ | float64 _ => .float
  | string _ => .string
  | binary _ => .binary
  | array _ => .array
  | map _ => .map
  | timestamp _ | extension _ _ => .extension

/-- Whether a value is nil. -/
def isNil : Value → Bool
  | nil => true
  | _ => false

/-! ## Nesting -/

mutual

/-- How deep arrays and maps are nested. A scalar has depth 0, and an empty container has depth 1.
-/
def depth : Value → Nat
  | array items => deepestItem 0 items + 1
  | map entries => deepestEntry 0 entries + 1
  | _ => 0

/-- The greatest of a depth and the depths of a list of values. -/
def deepestItem (least : Nat) : List Value → Nat
  | [] => least
  | v :: rest => deepestItem (max least v.depth) rest

/-- The greatest of a depth and the depths of the keys and values of a list of entries. -/
def deepestEntry (least : Nat) : List (Value × Value) → Nat
  | [] => least
  | (k, v) :: rest => deepestEntry (max least (max k.depth v.depth)) rest

end

/-! ## Equality -/

mutual

/-- Equality of values, with floats compared as numbers. -/
def same : Value → Value → Bool
  | nil, nil => true
  | boolean x, boolean y => x = y
  | integer x, integer y => x = y
  | unsigned x, unsigned y => x = y
  | float32 x, float32 y => x.sameNumber y
  | float64 x, float64 y => x.sameNumber y
  | string x, string y => x = y
  | binary x, binary y => x = y
  | array x, array y => sameItems x y
  | map x, map y => sameEntries x y
  | timestamp x, timestamp y => x = y
  | extension s x, extension t y => s = t && x = y
  | _, _ => false

/-- Equality of lists of values. -/
def sameItems : List Value → List Value → Bool
  | [], [] => true
  | x :: xs, y :: ys => x.same y && sameItems xs ys
  | _, _ => false

/-- Equality of lists of entries. -/
def sameEntries : List (Value × Value) → List (Value × Value) → Bool
  | [], [] => true
  | (j, x) :: xs, (k, y) :: ys => j.same k && x.same y && sameEntries xs ys
  | _, _ => false

end

/-- The first value under a key, if the value is a map. -/
def get? (v key : Value) : Option Value :=
  match v with
  | map entries => (entries.find? fun entry => entry.1.same key).map Prod.snd
  | _ => none

end Value

end MessagePack
