import MessagePack.Sink

/-!
# What a writer relies on

A writer relies on two things. What it commits comes behind what was there, and nothing else changes
the content; and a region that it asks for is as large as it asked. A region of fixed size keeps to
the first always and to the second for a while, so the two are stated apart.

* **`Sink.Content`** is the first. It holds of a sink that may fail a writer, too.
* **`Sink.Promise`** is both, the second up to a number of bytes. A lawful sink promises without
  end (`Promise.ofLawful`), a region of fixed size as much as it has room for (`Promise.fixed`).
-/

namespace MessagePack

namespace Sink

/-- What is in a sink: a request leaves it as it is, and bytes that the region handed out last has
    room for come behind it when they are committed. -/
structure Content (σ : Type) [Sink σ] where
  bytes : σ → List UInt8
  bytes_request : ∀ (s : σ) (n : Nat), bytes (request s n) = bytes s
  bytes_append : ∀ (s : σ) (block : ByteArray), block.size ≤ room s →
    bytes (append s block) = bytes s ++ block.data.toList

/-- A sink that promises to take some more bytes: as long as no more are asked for, every region is
    as large as it was asked to be. -/
structure Promise (σ : Type) [Sink σ] extends Content σ where
  Takes : σ → Nat → Prop
  le_room_request : ∀ (s : σ) (k n : Nat), Takes s k → n ≤ k → n ≤ room (request s n)
  takes_request : ∀ (s : σ) (k n : Nat), Takes s k → Takes (request s n) k
  takes_append : ∀ (s : σ) (k : Nat) (block : ByteArray), Takes s (block.size + k) →
    block.size ≤ room s → Takes (append s block) k

/-- The content of a lawful sink. -/
def Content.ofLawful (σ : Type) [LawfulSink σ] : Content σ where
  bytes := LawfulSink.content
  bytes_request := LawfulSink.content_request
  bytes_append := LawfulSink.content_append

/-- A lawful sink takes any number of bytes. -/
def Promise.ofLawful (σ : Type) [LawfulSink σ] : Promise σ where
  toContent := .ofLawful σ
  Takes _ _ := True
  le_room_request s _ n _ _ := LawfulSink.le_room_request s n
  takes_request _ _ _ _ := trivial
  takes_append _ _ _ _ _ := trivial

/-- A region of fixed size takes as many bytes as it has room for. -/
def Promise.fixed : Promise Fixed where
  bytes s := s.content.data.toList
  bytes_request _ _ := rfl
  bytes_append s block _ := by
    show (s.content ++ block).data.toList = _
    rw [ByteArray.data_append, Array.toList_append]
  Takes s k := s.content.size + k ≤ s.size
  le_room_request s k n hk hn := by
    show n ≤ s.size - s.content.size
    omega
  takes_request _ _ _ hk := hk
  takes_append s k block hk _ := by
    show (s.content ++ block).size + k ≤ s.size
    rw [ByteArray.size_append]
    omega

end Sink

end MessagePack
