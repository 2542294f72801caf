import MessagePack.Power

/-!
# Lead bytes and the formats they name

Every MessagePack token opens with one lead byte. `Format` has one constructor per format of the
specification, and the small values that some formats carry inside the lead byte are bounded by
their type, so a lead byte and a format are the same thing seen from two sides:

* `Format.ofByte` and `Format.byte` are inverse to each other;
* `Format.kind` is the category of value that a format introduces;
* `Format.name` is the specification's name of the format.
-/

namespace MessagePack

/-! ## Field widths -/

/-- The width of an integer field. -/
inductive Width where
  | w8
  | w16
  | w32
  | w64
  deriving DecidableEq

/-- The number of bytes of an integer field. -/
def Width.bytes : Width → Nat
  | .w8 => 1
  | .w16 => 2
  | .w32 => 4
  | .w64 => 8

/-- The number of bits of an integer field. -/
def Width.bits (w : Width) : Nat :=
  8 * w.bytes

/-- The width of a field that holds a length in bytes. -/
inductive LengthWidth where
  | w8
  | w16
  | w32
  deriving DecidableEq

/-- A length field as an integer field. -/
def LengthWidth.toWidth : LengthWidth → Width
  | .w8 => .w8
  | .w16 => .w16
  | .w32 => .w32

/-- The width of a field that holds a count of elements. -/
inductive CountWidth where
  | w16
  | w32
  deriving DecidableEq

/-- A count field as an integer field. -/
def CountWidth.toWidth : CountWidth → Width
  | .w16 => .w16
  | .w32 => .w32

/-! ## Integer types -/

/-- The integer types: unsigned or two's complement, of each width. -/
inductive IntType where
  | unsigned (width : Width)
  | signed (width : Width)
  deriving DecidableEq

namespace IntType

/-- The width of a value of the type. -/
def width : IntType → Width
  | unsigned w => w
  | signed w => w

/-- The least value of the type. -/
def least : IntType → Int
  | unsigned _ => 0
  | signed w => -2 ^ (w.bits - 1)

/-- The greatest value of the type. -/
def greatest : IntType → Int
  | unsigned w => 2 ^ w.bits - 1
  | signed w => 2 ^ (w.bits - 1) - 1

/-- The short name of the type, a letter and its number of bits. -/
def name : IntType → String
  | unsigned w => s!"u{w.bits}"
  | signed w => s!"i{w.bits}"

/-- The values of an integer type. -/
abbrev Carrier (t : IntType) : Type :=
  { n : Int // t.least ≤ n ∧ n ≤ t.greatest }

/-- The value of the type that equals an integer, if there is one. -/
def ofInt? (t : IntType) (n : Int) : Option t.Carrier :=
  if h : t.least ≤ n ∧ n ≤ t.greatest then some ⟨n, h⟩ else none

end IntType

/-! ## Kinds of value -/

/-- The category of value that a lead byte introduces. -/
inductive Kind where
  | unknown
  | integer
  | nil
  | boolean
  | float
  | string
  | binary
  | array
  | map
  | extension
  deriving DecidableEq

/-- The name of a category. -/
def Kind.name : Kind → String
  | .unknown => "Unknown"
  | .integer => "Integer"
  | .nil => "Nil"
  | .boolean => "Boolean"
  | .float => "Float"
  | .string => "String"
  | .binary => "Binary"
  | .array => "Array"
  | .map => "Map"
  | .extension => "Extension"

/-! ## Formats -/

/-- The formats of the specification, with what the lead byte itself carries: the value of a small
integer, or the length or count of a small string, array or map. A `fixExt k` has a payload of
`2 ^ k` bytes. -/
inductive Format where
  | positiveFixInt (value : Fin 128)
  | fixMap (count : Fin 16)
  | fixArray (count : Fin 16)
  | fixStr (length : Fin 32)
  | nil
  | neverUsed
  | boolean (value : Bool)
  | bin (width : LengthWidth)
  | ext (width : LengthWidth)
  | float32
  | float64
  | int (type : IntType)
  | fixExt (k : Fin 5)
  | str (width : LengthWidth)
  | array (width : CountWidth)
  | map (width : CountWidth)
  | negativeFixInt (offset : Fin 32)
  deriving DecidableEq

namespace Format

/-- The formats of the lead bytes from `0xc0` to `0xdf`, in order. -/
def ofMiddle : Nat → Format
  | 0x00 => nil
  | 0x02 => boolean false
  | 0x03 => boolean true
  | 0x04 => bin .w8
  | 0x05 => bin .w16
  | 0x06 => bin .w32
  | 0x07 => ext .w8
  | 0x08 => ext .w16
  | 0x09 => ext .w32
  | 0x0a => float32
  | 0x0b => float64
  | 0x0c => int (.unsigned .w8)
  | 0x0d => int (.unsigned .w16)
  | 0x0e => int (.unsigned .w32)
  | 0x0f => int (.unsigned .w64)
  | 0x10 => int (.signed .w8)
  | 0x11 => int (.signed .w16)
  | 0x12 => int (.signed .w32)
  | 0x13 => int (.signed .w64)
  | 0x14 => fixExt 0
  | 0x15 => fixExt 1
  | 0x16 => fixExt 2
  | 0x17 => fixExt 3
  | 0x18 => fixExt 4
  | 0x19 => str .w8
  | 0x1a => str .w16
  | 0x1b => str .w32
  | 0x1c => array .w16
  | 0x1d => array .w32
  | 0x1e => map .w16
  | 0x1f => map .w32
  | _ => neverUsed

/-- The format that a lead byte names. -/
def ofByte (b : UInt8) : Format :=
  if h : b.toNat < 0x80 then positiveFixInt ⟨b.toNat, h⟩
  else if _ : b.toNat < 0x90 then fixMap ⟨b.toNat - 0x80, by omega⟩
  else if _ : b.toNat < 0xa0 then fixArray ⟨b.toNat - 0x90, by omega⟩
  else if _ : b.toNat < 0xc0 then fixStr ⟨b.toNat - 0xa0, by omega⟩
  else if b.toNat < 0xe0 then ofMiddle (b.toNat - 0xc0)
  else negativeFixInt ⟨b.toNat - 0xe0, by have := b.toNat_lt; omega⟩

/-- The lead byte of a format. -/
def byte : Format → UInt8
  | positiveFixInt v => UInt8.ofNat v
  | fixMap n => UInt8.ofNat (0x80 + n)
  | fixArray n => UInt8.ofNat (0x90 + n)
  | fixStr n => UInt8.ofNat (0xa0 + n)
  | nil => 0xc0
  | neverUsed => 0xc1
  | boolean false => 0xc2
  | boolean true => 0xc3
  | bin .w8 => 0xc4
  | bin .w16 => 0xc5
  | bin .w32 => 0xc6
  | ext .w8 => 0xc7
  | ext .w16 => 0xc8
  | ext .w32 => 0xc9
  | float32 => 0xca
  | float64 => 0xcb
  | int (.unsigned .w8) => 0xcc
  | int (.unsigned .w16) => 0xcd
  | int (.unsigned .w32) => 0xce
  | int (.unsigned .w64) => 0xcf
  | int (.signed .w8) => 0xd0
  | int (.signed .w16) => 0xd1
  | int (.signed .w32) => 0xd2
  | int (.signed .w64) => 0xd3
  | fixExt k => UInt8.ofNat (0xd4 + k)
  | str .w8 => 0xd9
  | str .w16 => 0xda
  | str .w32 => 0xdb
  | array .w16 => 0xdc
  | array .w32 => 0xdd
  | map .w16 => 0xde
  | map .w32 => 0xdf
  | negativeFixInt n => UInt8.ofNat (0xe0 + n)

/-- Every lead byte is the lead byte of the format that it names. -/
theorem byte_ofByte (b : UInt8) : (ofByte b).byte = b := by
  have h : ∀ n : Fin 256, (ofByte (UInt8.ofFin n)).byte = UInt8.ofFin n := by decide +kernel
  exact h b.toFin

/-- Every format is the format that its lead byte names. -/
theorem ofByte_byte (f : Format) : ofByte f.byte = f := by
  cases f with
  | positiveFixInt v => revert v; decide +kernel
  | fixMap n => revert n; decide +kernel
  | fixArray n => revert n; decide +kernel
  | fixStr n => revert n; decide +kernel
  | fixExt k => revert k; decide +kernel
  | negativeFixInt n => revert n; decide +kernel
  | nil | neverUsed | float32 | float64 => decide +kernel
  | boolean v => cases v <;> decide +kernel
  | bin w | ext w | str w | array w | map w => cases w <;> decide +kernel
  | int t => cases t with
    | unsigned w | signed w => cases w <;> decide +kernel

/-- Different formats have different lead bytes. -/
theorem byte_inj {f g : Format} (h : f.byte = g.byte) : f = g := by
  rw [← ofByte_byte f, h, ofByte_byte]

/-- The category of value that a format introduces. -/
def kind : Format → Kind
  | positiveFixInt _ | negativeFixInt _ | int _ => .integer
  | fixMap _ | map _ => .map
  | fixArray _ | array _ => .array
  | fixStr _ | str _ => .string
  | nil => .nil
  | neverUsed => .unknown
  | boolean _ => .boolean
  | bin _ => .binary
  | ext _ | fixExt _ => .extension
  | float32 | float64 => .float

/-- The specification's name of a format. -/
def name : Format → String
  | positiveFixInt _ => "positive fixint"
  | fixMap _ => "fixmap"
  | fixArray _ => "fixarray"
  | fixStr _ => "fixstr"
  | nil => "nil"
  | neverUsed => "(never used)"
  | boolean false => "false"
  | boolean true => "true"
  | bin w => s!"bin {w.toWidth.bits}"
  | ext w => s!"ext {w.toWidth.bits}"
  | float32 => "float 32"
  | float64 => "float 64"
  | int (.unsigned w) => s!"uint {w.bits}"
  | int (.signed w) => s!"int {w.bits}"
  | fixExt k => s!"fixext {2 ^ k.val}"
  | str w => s!"str {w.toWidth.bits}"
  | array w => s!"array {w.toWidth.bits}"
  | map w => s!"map {w.toWidth.bits}"
  | negativeFixInt _ => "negative fixint"

/-- Whether a format holds a signed integer: the two's complement formats and the negative values
that fit into the lead byte. -/
def isSigned : Format → Bool
  | int (.signed _) | negativeFixInt _ => true
  | _ => false

end Format

/-! ## Limits of the lead byte -/

/-- The greatest integer that fits into a lead byte. -/
def maxPositiveFixInt : Nat :=
  127

/-- The least integer that fits into a lead byte. -/
def minNegativeFixInt : Int :=
  -32

/-- The greatest of the negative integers that fit into a lead byte. -/
def maxNegativeFixInt : Int :=
  -1

/-- The greatest length of a string whose header is a lead byte alone. -/
def maxFixStrLength : Nat :=
  31

/-- The greatest count of a map whose header is a lead byte alone. -/
def maxFixMapCount : Nat :=
  15

/-- The greatest count of an array whose header is a lead byte alone. -/
def maxFixArrayCount : Nat :=
  15

/-! ## Extension types with a fixed meaning -/

/-- The extension type that the specification reserves for timestamps. -/
def timestampType : Int8 :=
  -1

/-- The extension type of a compressed block that holds a complete document. -/
def compressedBlockType : Int8 :=
  99

end MessagePack
