import MessagePack.Format

/-!
# Limits for data from hostile sources

A `SecurityPolicy` bounds how deep containers may be nested, and may ask for map keys to be hashed
in a way that an attacker cannot predict. Such hashing is offered only for key types that have been
vetted for it; `SecurityPolicy.keyHasher` is where that is decided.
-/

namespace MessagePack

/-! ## Policies -/

/-- Limits that are applied when values are read. -/
structure SecurityPolicy where
  maxDepth : UInt64
  collisionResistant : Bool
  deriving DecidableEq

namespace SecurityPolicy

/-- For data from a trusted source: containers may be nested without a limit, and keys are hashed
fast. -/
def trusted : SecurityPolicy :=
  ⟨18446744073709551615, false⟩

/-- For data from an untrusted source: containers may be nested 500 deep, and keys are hashed with
a random key. -/
def untrusted : SecurityPolicy :=
  ⟨500, true⟩

/-- The policy that holds where none is given. -/
def standard : SecurityPolicy :=
  trusted

end SecurityPolicy

/-! ## Types of map keys -/

/-- The types that may be asked for as map keys, by the names that error messages give them. -/
inductive KeyType where
  | int (type : IntType)
  | wideInt (isSigned : Bool)
  | sizeInt (isSigned : Bool)
  | float32
  | float64
  | boolean
  | char
  | string
  | boxedText
  | text
  | textReference
  | bytes
  | uuid
  | dateTimeUtc
  | dateTimeOffset
  | timestamp
  | value
  | unit
  | option (item : KeyType)
  | list (item : KeyType)
  | array (item : KeyType) (length : Nat)
  | pair (first second : KeyType)
  | sortedMap (key value : KeyType)
  | hashMap (key value : KeyType)

namespace KeyType

/-- The full name of a key type. -/
def name : KeyType → String
  | int t => t.name
  | wideInt isSigned => if isSigned then "i128" else "u128"
  | sizeInt isSigned => if isSigned then "isize" else "usize"
  | float32 => "f32"
  | float64 => "f64"
  | boolean => "bool"
  | char => "char"
  | string => "alloc::string::String"
  | boxedText => "alloc::boxed::Box<str>"
  | text => "str"
  | textReference => "&str"
  | bytes => "bytes::bytes::Bytes"
  | uuid => "uuid::Uuid"
  | dateTimeUtc => "chrono::datetime::DateTime<chrono::offset::utc::Utc>"
  | dateTimeOffset => "chrono::datetime::DateTime<chrono::offset::fixed::FixedOffset>"
  | timestamp => "msgpack_codec::timestamp::Timestamp"
  | value => "msgpack_serializer::value::Value"
  | unit => "()"
  | option item => "core::option::Option<" ++ item.name ++ ">"
  | list item => "alloc::vec::Vec<" ++ item.name ++ ">"
  | array item length => "[" ++ item.name ++ "; " ++ toString length ++ "]"
  | pair first second => "(" ++ first.name ++ ", " ++ second.name ++ ")"
  | sortedMap k v =>
    "alloc::collections::btree::map::BTreeMap<" ++ k.name ++ ", " ++ v.name ++ ">"
  | hashMap k v =>
    "std::collections::hash::map::HashMap<" ++ k.name ++ ", " ++ v.name
      ++ ", msgpack_codec::security::KeyHasher>"

/-- Whether a key type has been vetted for hashing that resists collisions. -/
def isVetted : KeyType → Bool
  | int _ | wideInt _ | sizeInt _ | boolean | char | string | boxedText | textReference | uuid
  | dateTimeUtc | dateTimeOffset | timestamp => true
  | _ => false

end KeyType

/-! ## Hashing of map keys -/

/-- How map keys are hashed. -/
inductive KeyHasher where
  | fast
  | hardened
  deriving DecidableEq

/-- A key type that has not been vetted. -/
structure TypeAccessError where
  typeName : String
  deriving DecidableEq

/-- The text of the error. -/
def TypeAccessError.message (e : TypeAccessError) : String :=
  "The type " ++ e.typeName ++ " is not permitted as a map key for untrusted data."

/-- How keys of a type are hashed under a policy. -/
def SecurityPolicy.keyHasher (p : SecurityPolicy) (key : KeyType) :
    Except TypeAccessError KeyHasher :=
  if !p.collisionResistant then .ok .fast
  else if key.isVetted then .ok .hardened
  else .error ⟨key.name⟩

end MessagePack
