import MessagePack.Decimal.Shortest
import MessagePack.Text.Quoted
import MessagePack.Value

/-!
# The text of values

A value is shown for people to read: scalars as themselves, text between quotes, arrays in brackets
and maps in braces, and of binary data only its size.
-/

namespace MessagePack

namespace Value

mutual

/-- The text of a value. -/
def render : Value → String
  | nil => "nil"
  | boolean b => if b then "true" else "false"
  | integer n => toString n.toInt
  | unsigned n => toString n.toNat
  | float32 x => x.render
  | float64 x => x.render
  | string text => Quoted.render text
  | binary bytes => "<" ++ toString bytes.size ++ " bytes>"
  | array [] => "[]"
  | array (v :: rest) => renderItems ("[" ++ v.render) rest ++ "]"
  | map [] => "\x7b\x7d"
  | map ((k, v) :: rest) =>
    renderEntries ("\x7b" ++ k.render ++ ": " ++ v.render) rest ++ "\x7d"
  | timestamp t => t.render
  | extension type payload =>
    "ext(" ++ toString type.toInt ++ ", <" ++ toString payload.size ++ " bytes>)"

/-- A text followed by a list of values, each after a comma. -/
def renderItems (before : String) : List Value → String
  | [] => before
  | v :: rest => renderItems (before ++ ", " ++ v.render) rest

/-- A text followed by a list of entries, each after a comma. -/
def renderEntries (before : String) : List (Value × Value) → String
  | [] => before
  | (k, v) :: rest => renderEntries (before ++ ", " ++ k.render ++ ": " ++ v.render) rest

end

end Value

end MessagePack
