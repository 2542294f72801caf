import MessagePack.Reader

/-!
# Skipping whole values

A value is passed over without being built. Nesting is not followed by recursion: a counter holds
how many values are still to come, and a container adds its elements to it. Every value takes at
least one byte, so a counter beyond the bytes ahead means that the input is too short.

* **`Format.body`** is the one table behind it: what follows each lead byte.
* **`Reader.trySkip`** moves the reader only if the value is complete.
-/

namespace MessagePack

/-- What follows a lead byte: a payload of fixed size, a payload whose length is in the header with
some bytes more, or as many values as the header counts, `each` for every count. -/
inductive Body where
  | fixed (bytes : Nat)
  | sized (length : Extent) (more : Nat)
  | values (count : Extent) (each : Nat)

/-- What follows the lead byte of a format. The payload of an extension comes after the byte of its
type. The format that is never used has no body. -/
def Format.body? : Format → Option Body
  | positiveFixInt _ | negativeFixInt _ | nil | boolean _ => some (.fixed 0)
  | int t => some (.fixed t.width.bytes)
  | float32 => some (.fixed 4)
  | float64 => some (.fixed 8)
  | fixStr n => some (.sized (.inLead n) 0)
  | str w | bin w => some (.sized (.field w.toWidth) 0)
  | fixExt k => some (.sized (.inLead (2 ^ k.val)) 1)
  | ext w => some (.sized (.field w.toWidth) 1)
  | fixArray n => some (.values (.inLead n) 1)
  | array w => some (.values (.field w.toWidth) 1)
  | fixMap n => some (.values (.inLead n) 2)
  | map w => some (.values (.field w.toWidth) 2)
  | neverUsed => none

namespace Reader

/-- Where a skip stands: the cursor, and the number of values that are still to come. -/
structure Skip where
  cursor : Cursor
  pending : UInt64

/-- How a skip ends. -/
inductive SkipEnd where
  | complete (cursor : Cursor)
  | incomplete
  | invalid (format : Format)

/-- The cursor behind a body, and the number of values that it adds. -/
def passBody? (c : Cursor) : Body → Option (Cursor × UInt64)
  | .fixed n => (c.advance n).toOption.map fun c => (c, 0)
  | .sized (.inLead n) more => (c.advance (n + more)).toOption.map fun c => (c, 0)
  | .sized (.field w) more => do
    let (n, c) ← c.nat? w
    (c.advance (n + more)).toOption.map fun c => (c, 0)
  | .values (.inLead n) each => some (c, UInt64.ofNat (each * n))
  | .values (.field w) each => do
    let (n, c) ← c.nat? w
    return (c, UInt64.ofNat (each * n))

/-- Passes one lead byte and its body. -/
def Skip.turn (s : Skip) : Turn Skip SkipEnd :=
  if s.pending = 0 then .done (.complete s.cursor)
  else if s.cursor.remaining < s.pending.toNat then .done .incomplete
  else
    match s.cursor.read? with
    | none => .done .incomplete
    | some (b, c) =>
      match (Format.ofByte b).body? with
      | none => .done (.invalid (.ofByte b))
      | some body =>
        match passBody? c body with
        | none => .done .incomplete
        | some (c, children) => .again ⟨c, s.pending - 1 + children⟩

/-- Passes over the next value from a cursor. Every turn but the last consumes a byte. -/
def skipFrom (c : Cursor) : SkipEnd :=
  (Turn.run Skip.turn (c.remaining + 1) ⟨c, 1⟩).getD .incomplete

/-- Passes over the next value with everything in it if it is complete, and tells whether it was.
-/
def trySkip : Read Bool :=
  fun r =>
    match skipFrom r.cursor with
    | .complete c => .ok true ⟨c, r.depth⟩
    | .incomplete => .ok false r
    | .invalid f => .error (.invalidCode f) r

/-- Passes over the next value with everything in it. -/
def skip : Read Unit := do
  if ← trySkip then pure () else throw .endOfStream

/-- Consumes bytes without interpreting them. -/
def raw (n : Nat) : Read View :=
  take n

/-- Consumes the bytes of the next value. -/
def rawValue : Read View := do
  let start := (← get).cursor
  skip
  require (return start.view? ((← get).consumed - start.consumed))

end Reader

end MessagePack
