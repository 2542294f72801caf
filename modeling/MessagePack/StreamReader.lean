import MessagePack.Frame
import MessagePack.Turn

/-!
# Reading values from a stream

A `StreamReader` takes bytes from a source as they arrive, and gives out complete values, or the
headers of arrays and maps whose elements are then read one at a time. What has arrived and was not
given out stays in its buffer, whatever the outcome of a read.

* **`Event`** is what a source does when it is polled, and a **`Source`** is a list of them: the
  future of the source, which no read can see ahead.
* **`StreamReader.await`** is the one loop: it looks into the buffer, and while that has not
  enough it polls the source. `StreamReader.read` and its companions differ in what they look for.
* A read that can be cancelled looks at its token before every poll.
-/

namespace MessagePack

/-! ## Sources -/

/-- What a source does. -/
inductive Event where
  /-- Some bytes are there. If there are none, the source seems to have ended. -/
  | data (bytes : ByteArray)
  /-- The source fails once. -/
  | fail (reason : String)
  /-- The source is not ready once. -/
  | pending
  /-- The first token is cancelled, and the source is not ready once. -/
  | cancel

/-- The number of polls that an event can take part in. -/
def Event.polls : Event → Nat
  | data bytes => bytes.size + 1
  | _ => 1

/-- What a poll finds. -/
inductive Poll where
  | notReady
  | failed (reason : String)
  | bytes (bytes : ByteArray)

/-- The tokens by which reads are cancelled: the first one, and the one that has replaced it, each
with whether it is cancelled. -/
structure Tokens where
  first : Bool
  replacement : Option Bool

/-- Whether the token in use is cancelled. -/
def Tokens.isCancelled (t : Tokens) : Bool :=
  t.replacement.getD t.first

/-- Cancels the token in use. -/
def Tokens.cancel (t : Tokens) : Tokens :=
  match t.replacement with
  | some _ => { t with replacement := some true }
  | none => { t with first := true }

/-- Puts a fresh token in use. -/
def Tokens.renew (t : Tokens) : Tokens :=
  { t with replacement := some false }

/-- A source of bytes, as what it will do, and the tokens that it may cancel. -/
structure Source where
  events : List Event
  tokens : Tokens

namespace Source

/-- A source whose tokens are not cancelled. -/
def ofEvents (events : List Event) : Source :=
  ⟨events, ⟨false, none⟩⟩

/-- The number of polls within which all events are used up. -/
def polls (s : Source) : Nat :=
  s.events.foldr (fun e n => e.polls + n) 0

/-- One poll, which gives no more than `limit` bytes. A source with no more events has ended. -/
def poll (s : Source) (limit : Nat) : Poll × Source :=
  match s.events with
  | [] => (.bytes .empty, s)
  | .data bytes :: rest =>
    let (given, kept) := Frame.splitAt bytes (min limit bytes.size)
    (.bytes given, { s with events := if kept.isEmpty then rest else .data kept :: rest })
  | .fail reason :: rest => (.failed reason, { s with events := rest })
  | .pending :: rest => (.notReady, { s with events := rest })
  | .cancel :: rest => (.notReady, ⟨rest, { s.tokens with first := true }⟩)

end Source

/-! ## Readers -/

/-- A reader of values from a stream. `readSize` is the most bytes that it takes from one poll, and
`ended` tells whether the source has been found to have ended. -/
structure StreamReader where
  source : Source
  buffer : ByteArray
  readSize : Nat
  ended : Bool

namespace StreamReader

/-- The number of bytes that a reader asks for where no other number is given. -/
def defaultReadSize : Nat :=
  4096

/-- A reader that starts with some bytes in its buffer. It asks for at least one byte at a time. -/
def ofSource (source : Source) (buffer : ByteArray := .empty) (readSize : Nat := defaultReadSize) :
    StreamReader :=
  ⟨source, buffer, max readSize 1, false⟩

/-- A read from a stream, which may find nothing because the stream has ended. -/
abbrev Receive (α : Type) : Type :=
  EStateM StreamError StreamReader (Option α)

/-- How a buffer is looked at: what is found at its start, and the bytes behind that. -/
abbrev Look (α : Type) : Type :=
  ByteArray → Except ReadError (Option (α × ByteArray))

/-- The outcome of a read. -/
abbrev Outcome (α : Type) : Type :=
  EStateM.Result StreamError StreamReader (Option α)

/-- Polls the source once, unless the read can be cancelled and is. -/
def pollTurn {α : Type} (cancellable : Bool) (r : StreamReader) : Turn StreamReader (Outcome α) :=
  if cancellable && r.source.tokens.isCancelled then .done (.error .cancelled r)
  else
    match r.source.poll r.readSize with
    | (.notReady, source) => .again { r with source := source }
    | (.failed reason, source) => .done (.error (.io reason) { r with source := source })
    | (.bytes bytes, source) =>
      if bytes.isEmpty then .done (.ok none { r with source := source, ended := true })
      else .again { r with source := source, buffer := r.buffer ++ bytes }

/-- Looks into the buffer, and polls the source if that has not enough. -/
def turn {α : Type} (cancellable : Bool) (look : Look α) (r : StreamReader) :
    Turn StreamReader (Outcome α) :=
  match look r.buffer with
  | .error e => .done (.error (.format e) r)
  | .ok (some (a, rest)) => .done (.ok (some a) { r with buffer := rest })
  | .ok none => if r.ended then .done (.ok none r) else pollTurn cancellable r

/-- Polls the source until the buffer has enough. One turn more than the source has polls is always
enough, so the call ends with one of its turns. -/
def await {α : Type} (cancellable : Bool) (look : Look α) : Receive α :=
  fun r => (Turn.run (turn cancellable look) (r.source.polls + 1) r).getD (.ok none r)

/-- Reads the next value. -/
def read : Receive ByteArray :=
  await false Frame.next?

/-- Reads the next value unless the token in use is cancelled, before the read or during it. -/
def readWithCancellation : Receive ByteArray :=
  fun r => if r.source.tokens.isCancelled then .error .cancelled r else await true Frame.next? r

/-- Looks for a header. -/
def lookFor {α : Type} (header : Read (Option α)) : Look α :=
  fun bytes =>
    match header (.ofBytes bytes) with
    | .ok (some a) r => .ok (some (a, bytes.extract r.consumed bytes.size))
    | .ok none _ => .ok none
    | .error e _ => .error e

/-- Reads the header of an array. -/
def arrayHeader : Receive UInt32 :=
  await false (lookFor Reader.tryArrayHeader)

/-- Reads the header of a map. -/
def mapHeader : Receive UInt32 :=
  await false (lookFor Reader.tryMapHeader)

/-- Changes the tokens. -/
def withTokens (r : StreamReader) (f : Tokens → Tokens) : StreamReader :=
  { r with source := { r.source with tokens := f r.source.tokens } }

/-! ## Histories -/

/-- One step with a stream reader. -/
inductive Request where
  | read
  | readWithCancellation
  | arrayHeader
  | mapHeader
  /-- Cancels the token in use. -/
  | cancel
  /-- Puts a fresh token in use. -/
  | renewToken

/-- What a step answers. -/
inductive Reply where
  | value (bytes : Option ByteArray)
  | count (n : Option UInt32)
  | failed (error : StreamError)
  | done

/-- The answer of a read, and the reader after it. -/
def reply {α : Type} (wrap : Option α → Reply) : Outcome α → Reply × StreamReader
  | .ok a r => (wrap a, r)
  | .error e r => (.failed e, r)

/-- Carries out one step. -/
def Request.run (r : StreamReader) : Request → Reply × StreamReader
  | .read => reply .value (StreamReader.read r)
  | .readWithCancellation => reply .value (StreamReader.readWithCancellation r)
  | .arrayHeader => reply .count (StreamReader.arrayHeader r)
  | .mapHeader => reply .count (StreamReader.mapHeader r)
  | .cancel => (.done, r.withTokens Tokens.cancel)
  | .renewToken => (.done, r.withTokens Tokens.renew)

end StreamReader

end MessagePack
