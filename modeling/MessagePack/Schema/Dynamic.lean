import MessagePack.Schema

/-!
# Typed values as dynamic values

Many typed values are dynamic values already, up to the loss of their type. An integer forgets its
width but not its sign, and nothing is nil.
-/

namespace MessagePack

namespace Schema

/-- A typed value as a dynamic value. Characters, maps, identifiers, date-times and lists of
anything but dynamic values have no dynamic value of their own. -/
def toValue? : (s : Schema) → s.Carrier → Option Value
  | boolean, b => some (.boolean b)
  | int (.signed _), n => some (.ofInt (Int64.ofInt n.val))
  | int (.unsigned _), n => some (.unsigned (UInt64.ofNat n.val.toNat))
  | float32, x => some (.float32 x)
  | float64, x => some (.float64 x)
  | string, text => some (.string text)
  | bytes, b => some (.binary b)
  | timestamp, t => some (.timestamp t)
  | value, v => some v
  | list value, items => some (.array items)
  | option _, none => some (.ofOption none)
  | option item, some x => (item.toValue? x).map fun v => .ofOption (some v)
  | _, _ => none

end Schema

end MessagePack
