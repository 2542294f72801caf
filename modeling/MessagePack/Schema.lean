import MessagePack.Security
import MessagePack.Uuid
import MessagePack.Value

/-!
# Typed values

`Schema` is the language of the types that can be written and read, and `Schema.Carrier` gives each
of them the values that it has.

* A sorted map is the list of its entries in strictly increasing order of key.
* A hash map is the list of its entries in some order, no key twice, with the way its keys are
  hashed.
* **`Schema.compare`** is the order of keys: text by its UTF-8 bytes, lists by their first
  difference, nothing before something, and instants by time.
-/

namespace MessagePack

/-- The types of values. -/
inductive Schema where
  | boolean
  | int (type : IntType)
  | float32
  | float64
  | char
  | string
  | bytes
  | timestamp
  | dateTime
  | uuid
  | value
  | option (item : Schema)
  | list (item : Schema)
  | sortedMap (key value : Schema)
  | hashMap (key value : Schema)
  deriving DecidableEq

/-- A finite map whose entries are in increasing order of key. -/
structure SortedMap (κ ν : Type) where
  entries : List (κ × ν)

/-- A finite map whose entries are in some order, and how its keys are hashed. -/
structure HashedMap (κ ν : Type) where
  hasher : KeyHasher
  entries : List (κ × ν)

namespace Schema

/-- The values of a type. -/
@[reducible] def Carrier : Schema → Type
  | boolean => Bool
  | int t => t.Carrier
  | float32 => Binary32
  | float64 => Binary64
  | char => Char
  | string => String
  | bytes => ByteArray
  | timestamp => Timestamp
  | dateTime => DateTime
  | uuid => Uuid
  | value => Value
  | option item => Option item.Carrier
  | list item => List item.Carrier
  | sortedMap k v => SortedMap k.Carrier v.Carrier
  | hashMap k v => HashedMap k.Carrier v.Carrier

/-- The type as the type of a map key. -/
def keyType : Schema → KeyType
  | boolean => .boolean
  | int t => .int t
  | float32 => .float32
  | float64 => .float64
  | char => .char
  | string => .string
  | bytes => .bytes
  | timestamp => .timestamp
  | dateTime => .dateTimeUtc
  | uuid => .uuid
  | value => .value
  | option item => .option item.keyType
  | list item => .list item.keyType
  | sortedMap k v => .sortedMap k.keyType v.keyType
  | hashMap k v => .hashMap k.keyType v.keyType

/-! ## The order of keys -/

/-- The order of lists by their first difference; a list comes before its extensions. -/
def lexicographic {α : Type} (cmp : α → α → Ordering) : List α → List α → Ordering
  | [], [] => .eq
  | [], _ :: _ => .lt
  | _ :: _, [] => .gt
  | x :: xs, y :: ys => (cmp x y).then (lexicographic cmp xs ys)

/-- The order of keys of a type. Floats, dynamic values and hash maps are not keys of any map; all
of them count as equal. -/
def compare : (s : Schema) → s.Carrier → s.Carrier → Ordering
  | boolean, x, y => Ord.compare x y
  | int _, x, y => Ord.compare x.val y.val
  | char, x, y => Ord.compare x.toNat y.toNat
  | string, x, y => lexicographic Ord.compare x.toUTF8.data.toList y.toUTF8.data.toList
  | bytes, x, y => lexicographic Ord.compare x.data.toList y.data.toList
  | timestamp, x, y => x.compare y
  | dateTime, x, y => x.compare y
  | uuid, x, y => x.compare y
  | option _, none, none => .eq
  | option _, none, some _ => .lt
  | option _, some _, none => .gt
  | option item, some x, some y => item.compare x y
  | list item, x, y => lexicographic item.compare x y
  | sortedMap k v, x, y =>
    lexicographic (fun e f => (k.compare e.1 f.1).then (v.compare e.2 f.2)) x.entries y.entries
  | float32, _, _ | float64, _, _ | value, _, _ | hashMap _ _, _, _ => .eq

end Schema

/-! ## Adding entries -/

/-- The entries with one more in its place by the order of keys, or nothing if the key is there. -/
def insertSorted? {κ ν : Type} (cmp : κ → κ → Ordering) (key : κ) (value : ν) :
    List (κ × ν) → Option (List (κ × ν))
  | [] => some [(key, value)]
  | entry :: rest =>
    match cmp key entry.1 with
    | .lt => some ((key, value) :: entry :: rest)
    | .eq => none
    | .gt => (insertSorted? cmp key value rest).map (entry :: ·)

/-- The entries with one more in front, or nothing if the key is there. -/
def insertFront? {κ ν : Type} (cmp : κ → κ → Ordering) (key : κ) (value : ν)
    (entries : List (κ × ν)) : Option (List (κ × ν)) :=
  if entries.any fun entry => cmp key entry.1 = .eq then none else some ((key, value) :: entries)

/-- The entries in increasing order of key. -/
def sortEntries {κ ν : Type} (cmp : κ → κ → Ordering) (entries : List (κ × ν)) : List (κ × ν) :=
  entries.mergeSort fun e f => cmp e.1 f.1 ≠ .gt

/-- The sorted map of a list of entries; a later entry replaces an earlier one with the same key. -/
def SortedMap.ofEntries {κ ν : Type} (cmp : κ → κ → Ordering) (entries : List (κ × ν)) :
    SortedMap κ ν :=
  ⟨entries.foldl (fun sorted (key, value) =>
    let others := sorted.filter fun entry => cmp key entry.1 ≠ .eq
    (insertSorted? cmp key value others).getD sorted) []⟩

end MessagePack
