import MessagePack.Reader.Skip
import MessagePack.Schema.Codec

/-!
# Histories of reads

A session is a reader and a list of requests, each of which reads one thing or looks at the reader.
A request that fails puts the reader back where it was before, so that the session can go on from
there.

* **`Session.Request`** has one constructor per operation. Two of them hold sessions of their own:
  one that is undone at its end, and one that is inside a container.
* **`Session.Reply`** is what an operation gives, and **`Session.Answer`** is that with the position
  after it.
* **`Session.Request.run`** and **`Session.runAll`** carry requests out.
-/

namespace MessagePack

namespace Session

/-- One operation of a reader. -/
inductive Request where
  | nextFormat
  | nextKind
  | isNil
  | nil
  | tryNil
  | boolean
  | int (type : IntType)
  | char
  | float32
  | float64
  | arrayHeader
  | tryArrayHeader
  | mapHeader
  | tryMapHeader
  | extHeader
  | tryExtHeader
  | strHeader
  | binHeader
  | tryStringSpan
  | stringView
  | str
  | string
  | bytes
  | ext
  | timestamp
  | dateTime
  | trySkip
  | skip
  | raw (n : Nat)
  | rawValue
  | typed (options : Options) (schema : Schema)
  /-- Looks at the reader itself. -/
  | state
  /-- A session that is undone at its end. -/
  | ahead (requests : List Request)
  /-- A session inside a container. -/
  | enter (policy : SecurityPolicy) (requests : List Request)
  /-- Enters arrays for as long as the next token is one. -/
  | descend (policy : SecurityPolicy)

/-- What an operation gives. A float comes with the format that it was read from. -/
inductive Reply where
  | done
  | boolean (value : Bool)
  | format (format : Format)
  | kind (kind : Kind)
  | int (value : Int)
  | char (value : Char)
  | float32 (format : Format) (value : Binary32)
  | float64 (format : Format) (value : Binary64)
  | count (value : Option UInt32)
  | header (value : Option ExtensionHeader)
  | span (value : Option ByteArray)
  | view (value : Option View)
  | text (value : Option Reader.Text)
  | string (value : Option String)
  | ext (value : Reader.Extension)
  | timestamp (value : Timestamp)
  | dateTime (value : DateTime)
  | typed (schema : Schema) (value : schema.Carrier)
  | state (remaining : Nat) (atEnd : Bool) (depth : Nat)
  | depth (depth : Nat)
  | ahead (answers : List (Reply × Nat))
  | inside (depth : Nat) (answers : List (Reply × Nat))
  /-- Tokens could not be read; `depth` is that of the reader right after that. -/
  | failed (error : ReadError) (depth : Nat)
  /-- A value could not be read; `depth` is that of the reader right after that. -/
  | refused (error : DocumentError) (depth : Nat)

/-- What an operation gives, and the number of bytes consumed after it. -/
abbrev Answer : Type :=
  Reply × Nat

/-! ## Single operations -/

/-- The reply of a read, and the reader after it. -/
def reply {α : Type} (m : Read α) (wrap : α → Reply) (r : Reader) : Reply × Reader :=
  match m r with
  | .ok a next => (wrap a, next)
  | .error e next => (.failed e next.depth, r)

/-- The reply of reading a value of a type, and the reader after it. -/
def replyTyped (options : Options) (s : Schema) (r : Reader) : Reply × Reader :=
  match s.read options r with
  | .ok x next => (.typed s x, next)
  | .error e next => (.refused e next.depth, r)

/-- Reads a float together with the format of the next token. -/
def withFormat {α : Type} (m : Read α) : Read (Format × α) := do
  let f ← Reader.nextFormat
  return (f, ← m)

/-- Enters one array, unless there is none. -/
def descendTurn (policy : SecurityPolicy) (r : Reader) :
    Turn Reader (EStateM.Result ReadError Reader Nat) :=
  if r.cursor.peek?.map (fun b => (Format.ofByte b).kind) = some .array then
    if policy.maxDepth.toNat ≤ r.depth then .done (.error (.depthExceeded policy.maxDepth) r)
    else
      match Reader.arrayHeader ⟨r.cursor, r.depth + 1⟩ with
      | .ok _ r => .again r
      | .error e r => .done (.error e r)
  else .done (.ok r.depth r)

/-- Enters arrays for as long as the next token is one, gives the depth that was reached, and leaves
them all. -/
def descend (policy : SecurityPolicy) : Read Nat :=
  fun r =>
    match Turn.run (descendTurn policy) (r.remaining + 1) r with
    | some (.ok n next) => .ok n ⟨next.cursor, r.depth⟩
    | some (.error e next) => .error e ⟨next.cursor, r.depth⟩
    | none => .ok r.depth r

/-! ## Sessions -/

mutual

/-- Carries out one operation. -/
def Request.run (r : Reader) : Request → Reply × Reader
  | .nextFormat => reply Reader.nextFormat .format r
  | .nextKind => reply Reader.nextKind .kind r
  | .isNil => reply Reader.isNil .boolean r
  | .nil => reply Reader.nil (fun _ => .done) r
  | .tryNil => reply Reader.tryNil .boolean r
  | .boolean => reply Reader.boolean .boolean r
  | .int t => reply (Reader.int t) (fun n => .int n.val) r
  | .char => reply Reader.char .char r
  | .float32 => reply (withFormat Reader.float32) (fun (f, x) => .float32 f x) r
  | .float64 => reply (withFormat Reader.float64) (fun (f, x) => .float64 f x) r
  | .arrayHeader => reply Reader.arrayHeader (fun n => .count (some n)) r
  | .tryArrayHeader => reply Reader.tryArrayHeader .count r
  | .mapHeader => reply Reader.mapHeader (fun n => .count (some n)) r
  | .tryMapHeader => reply Reader.tryMapHeader .count r
  | .extHeader => reply Reader.extHeader (fun h => .header (some h)) r
  | .tryExtHeader => reply Reader.tryExtHeader .header r
  | .strHeader => reply Reader.strHeader (fun n => .count (some n)) r
  | .binHeader => reply Reader.binHeader (fun n => .count (some n)) r
  | .tryStringSpan => reply Reader.tryStringSpan .span r
  | .stringView => reply Reader.stringView .view r
  | .str => reply Reader.str .text r
  | .string => reply Reader.string .string r
  | .bytes => reply Reader.bytes .view r
  | .ext => reply Reader.ext .ext r
  | .timestamp => reply Reader.timestamp .timestamp r
  | .dateTime => reply Reader.dateTime .dateTime r
  | .trySkip => reply Reader.trySkip .boolean r
  | .skip => reply Reader.skip (fun _ => .done) r
  | .raw n => reply (Reader.raw n) (fun v => .view (some v)) r
  | .rawValue => reply Reader.rawValue (fun v => .view (some v)) r
  | .typed options s => replyTyped options s r
  | .state => (.state r.remaining r.atEnd r.depth, r)
  | .ahead requests => (.ahead (runAll r requests).1, r)
  | .enter policy requests =>
    let inside : Read (Nat × List Answer) := fun r =>
      let (answers, next) := runAll r requests
      .ok (r.depth, answers) next
    reply (Reader.nested id policy inside) (fun (depth, answers) => .inside depth answers) r
  | .descend policy => reply (descend policy) .depth r

/-- Carries out operations one after the other. -/
def runAll (r : Reader) : List Request → List Answer × Reader
  | [] => ([], r)
  | request :: rest =>
    let (reply, r) := request.run r
    let (answers, last) := runAll r rest
    ((reply, r.consumed) :: answers, last)

end

end Session

end MessagePack
