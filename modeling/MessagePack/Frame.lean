import MessagePack.Reader.Skip

/-!
# Frames: values in a row

A stream of bytes is a row of complete values, one after the other with nothing between them. Each
of them is a frame. Where a frame ends is found by skipping it, so nothing is built, and a frame
that has not arrived in full is told from one that never can.

* **`Frame.size?`** is the size of the frame at the start of some bytes;
* **`Frame.next?`** cuts it off, and **`Frame.drain`** cuts off all that are there;
* **`Frame.last?`** is `Frame.next?` at the end of the stream, where bytes that are left over are an
  error.
-/

namespace MessagePack

/-- Why values could not be read from a stream. -/
inductive StreamError where
  /-- The source of the bytes failed. -/
  | io (reason : String)
  /-- The bytes are not MessagePack. -/
  | format (error : ReadError)
  /-- The read was cancelled. -/
  | cancelled
  deriving DecidableEq

/-- The name of the cause of an error. A cause among the tokens comes after its side. -/
def StreamError.cause : StreamError → String
  | io _ => "Io"
  | format error => "Format/" ++ error.cause
  | cancelled => "Cancelled"

/-- The text of an error. -/
def StreamError.message : StreamError → String
  | io reason => "Reading from the stream failed: " ++ reason
  | format error => "The stream contained invalid MessagePack data: " ++ error.message
  | cancelled => "The read was cancelled."

namespace Frame

/-- The size of the frame at the start of some bytes, if it is complete. -/
def size? (bytes : ByteArray) : Except ReadError (Option Nat) :=
  match Reader.trySkip (.ofBytes bytes) with
  | .ok true r => .ok (some r.consumed)
  | .ok false _ => .ok none
  | .error e _ => .error e

/-- The bytes before a position, and the bytes behind it. -/
def splitAt (bytes : ByteArray) (n : Nat) : ByteArray × ByteArray :=
  (bytes.extract 0 n, bytes.extract n bytes.size)

/-- The frame at the start of some bytes and what is behind it, if the frame is complete. -/
def next? (bytes : ByteArray) : Except ReadError (Option (ByteArray × ByteArray)) :=
  match size? bytes with
  | .ok size => .ok (size.map (splitAt bytes))
  | .error e => .error e

/-- What cutting off frames leads to: the frames, the bytes that are left, and what ended it if that
was not a lack of bytes. -/
structure Drained where
  frames : List ByteArray
  left : ByteArray
  fault : Option ReadError

/-- Cuts off at most `n` frames. -/
def drainUpTo : (n : Nat) → ByteArray → Drained
  | 0, bytes => ⟨[], bytes, none⟩
  | n + 1, bytes =>
    match next? bytes with
    | .ok (some (frame, rest)) =>
      let more := drainUpTo n rest
      { more with frames := frame :: more.frames }
    | .ok none => ⟨[], bytes, none⟩
    | .error e => ⟨[], bytes, some e⟩

/-- Cuts off all frames that are complete. Each has at least one byte. -/
def drain (bytes : ByteArray) : Drained :=
  drainUpTo (bytes.size + 1) bytes

/-- The reason that is given for bytes that are left over at the end. -/
def leftOver : String :=
  "bytes remaining on stream"

/-- The next frame and what is behind it when no more bytes will come. -/
def last? (bytes : ByteArray) : Except StreamError (Option (ByteArray × ByteArray)) :=
  match next? bytes with
  | .error e => .error (.format e)
  | .ok none => if bytes.isEmpty then .ok none else .error (.io leftOver)
  | .ok found => .ok found

/-- Appends each of a list of parts to the bytes at hand and cuts off the frames that are complete
then, up to the first fault. -/
def feed (bytes : ByteArray) : List ByteArray → List Drained
  | [] => []
  | part :: rest =>
    let d := drain (bytes ++ part)
    match d.fault with
    | some _ => [d]
    | none => d :: feed d.left rest

end Frame

end MessagePack
