/-!
# Sinks: where encoded bytes go

A sink hands out regions of memory on request and keeps the bytes that are committed to it. A
request names the least size that is needed; a request for 0 bytes asks for whatever is at hand,
which may be nothing. Bytes are always committed from the start of the region handed out last.

* **`Sink`** is the interface, and `LawfulSink` says what a well-behaved sink keeps to.
* **`Tight`** gives exactly what is asked for; **`Fixed`** gives what is left of a region of fixed
  size, and so breaks the law once that is too little.
* **`Recorded`** is any sink together with the sizes that were requested of it.
-/

namespace MessagePack

/-- A destination for encoded bytes. -/
class Sink (σ : Type) where
  /-- Asks for a region of at least the given size. -/
  request : σ → Nat → σ
  /-- The size of the region that was handed out last. -/
  room : σ → Nat
  /-- Puts bytes at the start of the region that was handed out last, and commits them. -/
  append : σ → ByteArray → σ

/-- A sink that gives at least what is asked for, and whose content grows by what is committed and
by nothing else. -/
class LawfulSink (σ : Type) extends Sink σ where
  content : σ → List UInt8
  content_request : ∀ (s : σ) (n : Nat), content (request s n) = content s
  le_room_request : ∀ (s : σ) (n : Nat), n ≤ room (request s n)
  content_append : ∀ (s : σ) (bytes : ByteArray), bytes.size ≤ room s →
    content (append s bytes) = content s ++ bytes.data.toList

/-! ## Sinks with little room -/

/-- A sink that gives exactly what is asked for. -/
structure Tight where
  content : ByteArray
  granted : Nat

/-- A tight sink with no content. -/
def Tight.empty : Tight :=
  ⟨.empty, 0⟩

instance : Sink Tight where
  request s n := ⟨s.content, n⟩
  room s := s.granted
  append s bytes := ⟨s.content ++ bytes, s.granted - bytes.size⟩

instance : LawfulSink Tight where
  content s := s.content.data.toList
  content_request _ _ := rfl
  le_room_request _ n := Nat.le_refl n
  content_append s bytes _ := by simp [Sink.append]

/-- A sink that gives what is left of a region of fixed size. -/
structure Fixed where
  content : ByteArray
  size : Nat

/-- A sink over an unused region. -/
def Fixed.ofSize (size : Nat) : Fixed :=
  ⟨.empty, size⟩

instance : Sink Fixed where
  request s _ := s
  room s := s.size - s.content.size
  append s bytes := ⟨s.content ++ bytes, s.size⟩

/-! ## Keeping a record -/

/-- A sink together with the sizes that were requested of it, in order. -/
structure Recorded (σ : Type) where
  sink : σ
  requests : Array Nat

/-- A sink of which nothing has been requested. -/
def Recorded.ofSink {σ : Type} (sink : σ) : Recorded σ :=
  ⟨sink, #[]⟩

instance {σ : Type} [Sink σ] : Sink (Recorded σ) where
  request s n := ⟨Sink.request s.sink n, s.requests.push n⟩
  room s := Sink.room s.sink
  append s bytes := ⟨Sink.append s.sink bytes, s.requests⟩

instance {σ : Type} [LawfulSink σ] : LawfulSink (Recorded σ) where
  content s := LawfulSink.content s.sink
  content_request s n := LawfulSink.content_request s.sink n
  le_room_request s n := LawfulSink.le_room_request s.sink n
  content_append s bytes h := LawfulSink.content_append s.sink bytes h

end MessagePack
