import MessagePack.Proofs.Appends
import MessagePack.Proofs.Delivery

/-!
# Documents are frames

A document that was written is one complete value, so documents that were written to one sink are a
row of frames with nothing between them. Frames come back out of such a row, one by one and in their
order, however the row is cut into pieces: where a frame ends is told from its own bytes, so a piece
that ends within a frame is waited out, and one that ends behind it is not.

* **`Frame.Whole`** is a row of frames, and **`Frame.Whole.look`** what a look at the start of it
  finds, with more of it to come.
* **`StreamReader.GivesOut`** and **`Frame.Decodes`** say of a stream reader and of a decoder that
  they give out the frames and no more, and that nothing is left.
* **`Document.Appended`** is a run of calls that append documents, and
  **`Document.frames_of_documents`** the result.
-/

namespace MessagePack

namespace Frame

/-! ## Rows of frames -/

/-- Blocks one behind the other. -/
def join : List ByteArray → ByteArray
  | [] => .empty
  | block :: blocks => block ++ join blocks

/-- Blocks that are a complete value each, with fewer bytes than can be counted. -/
structure Whole (frames : List ByteArray) : Prop where
  isValue : ∀ frame ∈ frames, IsValue frame.data.toList
  size_lt : (join frames).size < 2 ^ 64

variable {frame : ByteArray} {frames : List ByteArray}

/-- Without the first block the others are whole. -/
theorem Whole.tail (h : Whole (frame :: frames)) : Whole frames where
  isValue := (List.forall_mem_cons.mp h.isValue).2
  size_lt := by
    have hsize : (join (frame :: frames)).size = frame.size + (join frames).size :=
      ByteArray.size_append
    have hlt := h.size_lt
    omega

/-- The size of a frame is found, whatever follows it. -/
theorem size?_append {more : ByteArray} (h : IsValue frame.data.toList)
    (hlt : (frame ++ more).size < 2 ^ 64) : size? (frame ++ more) = .ok (some frame.size) := by
  have hahead : (Reader.ofBytes (frame ++ more)).cursor.ahead
      = frame.data.toList ++ more.data.toList := by
    rw [← Array.toList_append, ← ByteArray.data_append]
    exact Cursor.ahead_ofBytes _
  have hwf : (Reader.ofBytes (frame ++ more)).cursor.WellFormed := Cursor.wellFormed_ofBytes _
  have hremaining : (Reader.ofBytes (frame ++ more)).cursor.remaining < 2 ^ 64 := hlt
  rw [size?, Reader.trySkip_of_isValue hwf hremaining h hahead]
  show Except.ok (some (0 + frame.data.toList.length)) = _
  rw [Nat.zero_add, Segments.length_toList_data]

/-- A complete value in front of anything is the next frame. -/
theorem next?_append_of_isValue {more : ByteArray} (h : IsValue frame.data.toList)
    (hlt : (frame ++ more).size < 2 ^ 64) : next? (frame ++ more) = .ok (some (frame, more)) := by
  rw [next?, size?_append h hlt]
  show Except.ok (some (splitAt (frame ++ more) frame.size)) = _
  rw [splitAt, ByteArray.extract_append_eq_left rfl,
    ByteArray.extract_append_eq_right rfl (by rw [ByteArray.size_append])]

theorem size_le_join (h : frame ∈ frames) : frame.size ≤ (join frames).size := by
  induction frames with
  | nil => cases h
  | cons first frames ih =>
      rw [join, ByteArray.size_append]
      rcases List.mem_cons.mp h with rfl | hmem
      · exact Nat.le_add_right _ _
      · exact Nat.le_trans (ih hmem) (Nat.le_add_left _ _)

/-- Each frame of a row is as large as its size says. -/
theorem Whole.size?_eq (h : Whole frames) (hmem : frame ∈ frames) :
    size? frame = .ok (some frame.size) := by
  have hlt := Nat.lt_of_le_of_lt (size_le_join hmem) h.size_lt
  rw [← ByteArray.append_empty (b := frame)] at hlt
  have hsize := size?_append (h.isValue frame hmem) hlt
  rwa [ByteArray.append_empty] at hsize

/-- Where nothing is there, there is no frame. -/
theorem next?_empty : next? .empty = .ok none := by rfl

/-- The first frame of a row and the others. -/
theorem Whole.next?_cons (h : Whole (frame :: frames)) :
    next? (join (frame :: frames)) = .ok (some (frame, join frames)) :=
  next?_append_of_isValue (h.isValue frame List.mem_cons_self) h.size_lt

/-- **WHAT A LOOK FINDS** in the first bytes of a row: nothing yet, or the first frame. -/
theorem Whole.look (h : Whole frames) {bytes more : ByteArray}
    (hbytes : bytes ++ more = join frames) :
    next? bytes = .ok none ∨ ∃ frame rest others, frames = frame :: others
      ∧ next? bytes = .ok (some (frame, rest)) ∧ rest ++ more = join others := by
  -- what is found in the first bytes is found in all of them, and there it is the first frame
  have hall : ∀ {found}, next? (bytes ++ more) = found →
      (frames = [] ∧ found = .ok none) ∨ ∃ frame others, frames = frame :: others
        ∧ found = .ok (some (frame, join others)) := by
    rintro found rfl
    rw [hbytes]
    cases frames with
    | nil => exact Or.inl ⟨rfl, next?_empty⟩
    | cons frame others => exact Or.inr ⟨frame, others, rfl, h.next?_cons⟩
  cases hnext : next? bytes with
  | error e =>
      rcases hall (StreamReader.steady_next?.fault hnext more) with ⟨-, hfound⟩ | ⟨_, _, -, hfound⟩
      · cases hfound
      · cases hfound
  | ok found =>
      cases found with
      | none => exact Or.inl rfl
      | some found =>
          obtain ⟨frame, rest⟩ := found
          obtain ⟨-, -, hmore⟩ := StreamReader.steady_next?.found hnext
          rcases hall (hmore more) with ⟨-, hfound⟩ | ⟨_, others, hframes, hfound⟩
          · cases hfound
          · obtain ⟨rfl, hrest⟩ := Prod.mk.inj (Option.some.inj (Except.ok.inj hfound))
            exact Or.inr ⟨frame, rest, others, hframes, rfl, hrest⟩

/-! ## Decoding -/

/-- What is left behind by parts that were appended to some bytes. -/
def leftBehind (bytes : ByteArray) : List Drained → ByteArray
  | [] => bytes
  | d :: drained => leftBehind d.left drained

/-- A decoder that is fed some parts gives out frames and no more. It finds no fault in any of the
    parts, and when they have ended nothing is left. -/
structure Decodes (parts frames : List ByteArray) : Prop where
  frames_eq : (feed .empty parts).flatMap Drained.frames = frames
  fault_eq : ∀ d ∈ feed .empty parts, d.fault = none
  left_eq : leftBehind .empty (feed .empty parts) = .empty
  last?_eq : last? (leftBehind .empty (feed .empty parts)) = .ok none

/-- A frame has a byte at least. -/
theorem size_pos_of_isValue (h : IsValue frame.data.toList) : 0 < frame.size := by
  rw [← Segments.length_toList_data]
  exact (isRow_one_iff.mpr h).le_length

/-- What is cut off from the first bytes of a row are its first frames; what is left of the bytes
    starts with no frame that is complete, and is the start of the others. -/
theorem Whole.drainUpTo (h : Whole frames) {n : Nat} {bytes more : ByteArray}
    (hbytes : bytes ++ more = join frames) (hn : bytes.size < n) :
    ∃ given others left, frames = given ++ others ∧ drainUpTo n bytes = ⟨given, left, none⟩
      ∧ Whole others ∧ left ++ more = join others ∧ next? left = .ok none := by
  -- by induction on the number of frames that may be cut off, which the bytes cannot reach
  induction n generalizing bytes frames with
  | zero => exact absurd hn (Nat.not_lt_zero _)
  | succ n ih =>
      rw [Frame.drainUpTo]
      rcases h.look hbytes with hnone | ⟨frame, rest, others, rfl, hsome, hrest⟩
      · rw [hnone]
        exact ⟨[], frames, bytes, rfl, rfl, h, hbytes, hnone⟩
      · -- a frame was cut off, so what is behind it is shorter
        have hsize := congrArg ByteArray.size (StreamReader.next?_append hsome)
        have hpos := size_pos_of_isValue (h.isValue frame List.mem_cons_self)
        rw [ByteArray.size_append] at hsize
        obtain ⟨given, others, left, rfl, hdrain, hwhole, hleft, hnone⟩ :=
          ih h.tail hrest (by omega)
        rw [hsome]
        dsimp only
        rw [hdrain]
        exact ⟨frame :: given, others, left, rfl, rfl, hwhole, hleft, hnone⟩

/-- Parts that complete a row give out its frames. -/
theorem Whole.feed (h : Whole frames) {parts : List ByteArray} {bytes : ByteArray}
    (hparts : bytes ++ join parts = join frames) (hbytes : next? bytes = .ok none) :
    (feed bytes parts).flatMap Drained.frames = frames
      ∧ (∀ d ∈ feed bytes parts, d.fault = none)
      ∧ leftBehind bytes (feed bytes parts) = .empty := by
  -- by induction on the parts; the bytes at hand never start with a frame that is complete
  induction parts generalizing bytes frames with
  | nil =>
      -- everything is there, and no frame is
      rw [join, ByteArray.append_empty] at hparts
      rw [hparts] at hbytes
      cases frames with
      | nil => exact ⟨rfl, List.forall_mem_nil _, hparts⟩
      | cons frame others =>
          rw [h.next?_cons] at hbytes
          cases hbytes
  | cons part parts ih =>
      rw [join, ← ByteArray.append_assoc] at hparts
      obtain ⟨given, others, left, rfl, hdrain, hwhole, hleft, hnone⟩ :=
        h.drainUpTo hparts (Nat.lt_succ_self _)
      obtain ⟨hframes, hfaults, hbehind⟩ := ih hwhole hleft hnone
      have hfeed : Frame.feed bytes (part :: parts)
          = ⟨given, left, none⟩ :: Frame.feed left parts := by
        rw [Frame.feed, drain, hdrain]
      rw [hfeed, List.flatMap_cons, hframes]
      exact ⟨rfl, List.forall_mem_cons.mpr ⟨rfl, hfaults⟩, hbehind⟩

/-- **DECODING**: a row comes out frame by frame, whatever parts it is fed in. -/
theorem Whole.decodes (h : Whole frames) {parts : List ByteArray}
    (hparts : join parts = join frames) : Decodes parts frames := by
  obtain ⟨hframes, hfaults, hleft⟩ := h.feed (ByteArray.empty_append.trans hparts) next?_empty
  refine ⟨hframes, hfaults, hleft, ?_⟩
  rw [hleft]
  rfl

end Frame

namespace StreamReader

open MessagePack.Frame (Whole join)

/-! ## Reading from a stream -/

/-- The calls that read a value. -/
def Request.isRead : Request → Bool
  | read | readWithCancellation => true
  | _ => false

/-- The replies to a number of reads that give out frames, and then find that the stream has
    ended. -/
def inOrder (frames : List ByteArray) : Nat → List Reply
  | 0 => []
  | n + 1 => .value frames.head? :: inOrder frames.tail n

/-- Reads give out frames in their order and then nothing, also where calls are interrupted. What
    has not been given out is there still, and so nothing is once all frames have been. -/
structure GivesOut (start : StreamReader) (frames : List ByteArray) : Prop where
  retried : ∀ requests : List Request, (∀ q ∈ requests, q.isRead = true) →
    retryAll requests start = inOrder frames requests.length
  completed : ∀ (log : List (Request × Reply)) (r : StreamReader), History start log r →
    (∀ q ∈ (completed log).map Prod.fst, q.isRead = true) →
    (completed log).map Prod.snd = inOrder frames (completed log).length
      ∧ r.buffer ++ r.source.undelivered = join (frames.drop (completed log).length)

variable {frames : List ByteArray}

/-- A read finds the first frame of a row and leaves the others. -/
theorem answer_whole (h : Whole frames) {q : Request} (hq : q.isRead = true) :
    (q.answer (join frames)).reply = .value frames.head?
      ∧ (q.answer (join frames)).rest = join frames.tail := by
  have hof : (Answer.of .value Frame.next? (join frames)).reply = .value frames.head?
      ∧ (Answer.of .value Frame.next? (join frames)).rest = join frames.tail := by
    rw [Answer.of]
    cases frames with
    | nil => exact ⟨rfl, rfl⟩
    | cons frame frames =>
        rw [h.next?_cons]
        exact ⟨rfl, rfl⟩
  cases q with
  | read | readWithCancellation => exact hof
  | arrayHeader | mapHeader | cancel | renewToken => cases hq

/-- Reads that are answered by whole blocks give these out in order, and leave the others. -/
theorem answers_whole (h : Whole frames) {requests : List Request}
    (hreads : ∀ q ∈ requests, q.isRead = true) :
    answers requests (join frames) = inOrder frames requests.length
      ∧ left requests (join frames) = join (frames.drop requests.length) := by
  -- by induction on the reads: each one takes the first block, if there is one
  induction requests generalizing frames with
  | nil => exact ⟨rfl, rfl⟩
  | cons q requests ih =>
      obtain ⟨hq, hreads⟩ := List.forall_mem_cons.mp hreads
      obtain ⟨hreply, hrest⟩ := answer_whole h hq
      have htail : Whole frames.tail := by
        cases frames with
        | nil => exact h
        | cons frame frames => exact h.tail
      obtain ⟨hanswers, hleft⟩ := ih htail hreads
      rw [answers, left, hreply, hrest, hanswers, hleft, List.drop_tail]
      exact ⟨rfl, rfl⟩

/-- **READING**: a row comes out frame by frame, however it is delivered. -/
theorem givesOut_whole (h : Whole frames) {source : Source} {buffer : ByteArray} (readSize : Nat)
    (hsource : Source.EndsLast source.events)
    (hbytes : buffer ++ source.undelivered = join frames) :
    GivesOut (ofSource source buffer readSize) frames := by
  have hsound := sound_ofSource hsource buffer readSize
  have hstart : (ofSource source buffer readSize).unconsumed = join frames := hbytes
  refine ⟨?_, ?_⟩
  · intro requests hreads
    rw [retryAll_eq requests hsound, hstart]
    exact (answers_whole h hreads).1
  · intro log r hhistory hreads
    have hkeeps := hhistory.keeps hsound
    rw [hstart] at hkeeps
    obtain ⟨hanswers, hleft⟩ := answers_whole h hreads
    rw [List.length_map] at hanswers hleft
    exact ⟨hkeeps.replies_eq.trans hanswers, hkeeps.unconsumed_eq.trans hleft⟩

end StreamReader

namespace Document

open MessagePack.Frame (Whole join)

/-! ## Documents that were appended to a sink -/

variable {σ : Type} [Sink σ]

/-- A run of calls that append documents to a sink, all of them successful, with the bytes that each
    of them has put behind the content. -/
inductive Appended (content : Sink.Content σ) (c : BlockCompressor) :
    List (Options × Value) → List ByteArray → σ → σ → Prop
  | nil (s : σ) : Appended content c [] [] s s
  | cons {options : Options} {v : Value} {documents : List (Options × Value)} {frame : ByteArray}
      {frames : List ByteArray} {s t u : σ}
      (hcall : writeWith c options .value v s = .ok () t)
      (hbytes : content.bytes t = content.bytes s ++ frame.data.toList)
      (hrest : Appended content c documents frames t u) :
      Appended content c ((options, v) :: documents) (frame :: frames) s u

/-- Appends documents to a sink, one by one, as long as that succeeds. -/
def writeAll (c : BlockCompressor) : List (Options × Value) → EStateM DocumentError σ Unit
  | [] => pure ()
  | (options, v) :: documents => do
    writeWith c options .value v
    writeAll c documents

variable {content : Sink.Content σ} {c : BlockCompressor} {documents : List (Options × Value)}
  {frames : List ByteArray} {s t : σ}

/-- Each document has its bytes. -/
theorem Appended.length_eq (h : Appended content c documents frames s t) :
    frames.length = documents.length := by
  induction h with
  | nil => rfl
  | cons _ _ _ ih => exact congrArg Nat.succ ih

/-- The content after the calls is the content before, and then the bytes of the calls in order. -/
theorem Appended.bytes_eq (h : Appended content c documents frames s t) :
    content.bytes t = content.bytes s ++ (join frames).data.toList := by
  induction h with
  | nil s => exact (List.append_nil _).symm
  | cons _ hbytes _ ih =>
      rw [ih, hbytes, join, ByteArray.data_append, Array.toList_append, List.append_assoc]

/-- Every call has appended one complete value. -/
theorem appended_of_writeAll (content : Sink.Content σ)
    (h : writeAll c documents s = .ok () t) :
    ∃ frames, Appended content c documents frames s t
      ∧ ∀ frame ∈ frames, IsValue frame.data.toList := by
  induction documents generalizing s with
  | nil =>
      cases h
      exact ⟨[], .nil _, List.forall_mem_nil _⟩
  | cons d documents ih =>
      obtain ⟨options, v⟩ := d
      obtain ⟨_, u, hcall, hrest⟩ := Reader.of_bind_eq_ok h
      obtain ⟨x, hx, hvalue⟩ := isValue_writeWith content hcall
      obtain ⟨frames, happended, hvalues⟩ := ih hrest
      exact ⟨⟨x.toArray⟩ :: frames, .cons hcall hx happended,
        List.forall_mem_cons.mpr ⟨hvalue, hvalues⟩⟩

/-- **EVERY DOCUMENT IS ONE FRAME.** Values are appended to a sink one by one, each with options of
    its own for the mode and the compression, whatever the algorithm, and every call succeeds; the
    sink holds no more bytes than can be counted. What a call has appended is one complete value,
    and that is the size that is found for it. What all of them have appended comes out of a stream
    reader, however it is delivered, and out of a decoder, whatever parts it is fed in, as these
    documents in their order, as many as values, and nothing is left. -/
theorem frames_of_documents (content : Sink.Content σ) (c : BlockCompressor)
    {documents : List (Options × Value)} {s t : σ} (h : writeAll c documents s = .ok () t)
    (hlt : (content.bytes t).length < 2 ^ 64) :
    ∃ frames : List ByteArray, Appended content c documents frames s t
      ∧ frames.length = documents.length
      ∧ content.bytes t = content.bytes s ++ (join frames).data.toList
      ∧ (∀ frame ∈ frames,
        IsValue frame.data.toList ∧ Frame.size? frame = .ok (some frame.size))
      ∧ (∀ (source : Source) (buffer : ByteArray) (readSize : Nat),
        Source.EndsLast source.events → buffer ++ source.undelivered = join frames →
        (StreamReader.ofSource source buffer readSize).GivesOut frames)
      ∧ ∀ parts : List ByteArray, join parts = join frames → Frame.Decodes parts frames := by
  obtain ⟨frames, happended, hvalues⟩ := appended_of_writeAll content h
  have hbytes := happended.bytes_eq
  have hsize : (join frames).size < 2 ^ 64 := by
    rw [hbytes, List.length_append, Segments.length_toList_data] at hlt
    omega
  -- everything about taking the bytes apart again is about whole blocks
  have hwhole : Whole frames := ⟨hvalues, hsize⟩
  refine ⟨frames, happended, happended.length_eq, hbytes, ?_, ?_, fun _ => hwhole.decodes⟩
  · exact fun frame hframe => ⟨hvalues frame hframe, hwhole.size?_eq hframe⟩
  · intro source buffer readSize hsource hdelivered
    exact StreamReader.givesOut_whole hwhole readSize hsource hdelivered

/-- An array of the old specification and a compressed block that fill a region to its end. They
    arrive in two pieces, the first of which ends within the array, with a failure between them. -/
theorem frames_of_documents_fixed : ∃ (t : Fixed) (frames : List ByteArray),
    t.content = ⟨#[0x92, 0x01, 0xa1, 0x07, 0xc7, 0x0b, 0x63, 0xd2, 0x00, 0x00, 0x00, 0x01, 0x01,
        0x01, 0x00, 0xfe, 0xff, 0xc0]⟩
      ∧ Appended Sink.Promise.fixed.toContent (.deflate 0)
        [({ Options.standard with oldSpec := true }, .array [.unsigned 1, .binary ⟨#[0x07]⟩]),
          ({ Options.standard with compression := .deflate, minLength := 0 }, .nil)]
        frames (.ofSize 18) t
      ∧ frames.length = 2
      ∧ (StreamReader.ofSource (.ofEvents [.data ⟨#[0x92, 0x01, 0xa1]⟩, .fail "reset",
          .data ⟨#[0x07, 0xc7, 0x0b, 0x63, 0xd2, 0x00, 0x00, 0x00, 0x01, 0x01, 0x01, 0x00, 0xfe,
            0xff, 0xc0]⟩])).GivesOut frames := by
  have hcheck : (match writeAll (.deflate 0)
      [({ Options.standard with oldSpec := true }, .array [.unsigned 1, .binary ⟨#[0x07]⟩]),
        ({ Options.standard with compression := .deflate, minLength := 0 }, .nil)]
      (Fixed.ofSize 18) with
      | .ok _ t => t.content
      | .error _ _ => .empty) = ⟨#[0x92, 0x01, 0xa1, 0x07, 0xc7, 0x0b, 0x63, 0xd2, 0x00, 0x00, 0x00,
        0x01, 0x01, 0x01, 0x00, 0xfe, 0xff, 0xc0]⟩ := by decide +kernel
  cases hwrite : writeAll (.deflate 0)
      [({ Options.standard with oldSpec := true }, .array [.unsigned 1, .binary ⟨#[0x07]⟩]),
        ({ Options.standard with compression := .deflate, minLength := 0 }, .nil)]
      (Fixed.ofSize 18) with
  | error e t =>
      rw [hwrite] at hcheck
      cases hcheck
  | ok a t =>
      rw [hwrite] at hcheck
      dsimp only at hcheck
      have hlt : t.content.data.toList.length < 2 ^ 64 := by
        rw [hcheck]
        decide
      obtain ⟨frames, happended, hlength, hbytes, -, hstream, -⟩ :=
        frames_of_documents Sink.Promise.fixed.toContent (.deflate 0) hwrite hlt
      have hjoin : t.content = join frames := ByteArray.ext (Array.ext' hbytes)
      refine ⟨t, frames, hcheck, happended, hlength, hstream _ _ _ ?_ ?_⟩
      · refine Source.endsLast_of_nonempty ?_
        intro bytes hdata
        simp [Source.ofEvents] at hdata
        rcases hdata with rfl | rfl <;> decide
      · rw [← hjoin, hcheck]
        rfl

end Document

end MessagePack
