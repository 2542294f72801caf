import Mathlib.Tactic.SplitIfs
import MessagePack.DocumentError

/-!
# What computations over a writer put out

Over a lawful sink, what a computation writes is a list of bytes behind what was there before,
whatever regions the sink hands out. `Writer.Emits` says which bytes, and it follows the text of a
computation as reading does: one part after the other.

The size that a write asks for is the size of what it puts out; for strings and binary data that is
an equation about the size of the header, shown here.
-/

namespace MessagePack

/-! ## Sizes of headers -/

namespace Token

/-- The length of the header of a string, by the ranges of its formats; the old specification has no
    field of one byte. -/
theorem length_encodeStrHeader (oldSpec : Bool) (n : Nat) :
    (encodeStrHeader oldSpec n).length =
      if n < 32 then 1 else if n < 2 ^ 8 ∧ ¬ oldSpec then 2 else if n < 2 ^ 16 then 3 else 5 := by
  rw [encodeStrHeader]
  split_ifs <;> simp only [List.length_cons, List.length_nil, BigEndian.length_encode]

/-- The length of the header of binary data, by the ranges of its formats. -/
theorem length_encodeBinHeader (n : Nat) : (encodeBinHeader n).length =
    if n < 2 ^ 8 then 2 else if n < 2 ^ 16 then 3 else 5 := by
  rw [encodeBinHeader]
  split_ifs <;> simp only [List.length_cons, BigEndian.length_encode]

end Token

/-- The size that is computed for the header of a string is its length. -/
theorem strHeaderSize_eq (oldSpec : Bool) (n : UInt32) :
    strHeaderSize n oldSpec = (Token.encodeStrHeader oldSpec n.toNat).length := by
  rw [strHeaderSize, Token.length_encodeStrHeader, maxFixStrLength]
  cases oldSpec with
  | false =>
      simp only [Bool.false_eq_true, not_false_eq_true, and_true]
      split_ifs <;> omega
  | true =>
      simp only [not_true_eq_false, and_false, if_false]
      split_ifs <;> omega

theorem binHeaderSize_eq (n : UInt32) :
    binHeaderSize n = (Token.encodeBinHeader n.toNat).length := by
  rw [binHeaderSize, Token.length_encodeBinHeader]
  split_ifs <;> omega

namespace Token

theorem toList_bytes (t : Token) : t.bytes.data.toList = t.encode :=
  rfl

theorem size_bytes (t : Token) : t.bytes.size = t.encode.length := by
  rw [← toList_bytes, Array.length_toList]
  rfl

end Token

namespace Writer

variable {σ ε α β : Type} [LawfulSink σ] {oldSpec : Bool}

/-- In a mode, a computation gives a result and puts bytes behind what was there before. -/
def Emits (oldSpec : Bool) (m : EStateM ε (Writer σ) α) (x : List UInt8) (a : α) : Prop :=
  ∀ w : Writer σ, w.oldSpec = oldSpec → ∃ sink, m w = .ok a ⟨sink, oldSpec⟩
    ∧ LawfulSink.content sink = LawfulSink.content w.sink ++ x

/-- A result that is there already puts out nothing. -/
theorem Emits.of_pure (a : α) :
    Emits (σ := σ) oldSpec (pure a : EStateM ε (Writer σ) α) [] a := by
  rintro ⟨sink, mode⟩ rfl
  exact ⟨sink, rfl, (List.append_nil _).symm⟩

/-- Both parts of a sequence put out their bytes, one behind the other. -/
theorem Emits.bind {m : EStateM ε (Writer σ) α} {f : α → EStateM ε (Writer σ) β} {x y : List UInt8}
    {a : α} {b : β} (hm : Emits oldSpec m x a) (hf : Emits oldSpec (f a) y b) :
    Emits oldSpec (m >>= f) (x ++ y) b := by
  intro w hw
  -- the writer is in the same mode after the first part
  obtain ⟨sink, hok, hsink⟩ := hm w hw
  obtain ⟨sink', hok', hsink'⟩ := hf ⟨sink, oldSpec⟩ rfl
  refine ⟨sink', ?_, by rw [hsink', hsink, List.append_assoc]⟩
  show EStateM.bind m f w = _
  rw [EStateM.bind, hok]
  exact hok'

/-- A part that is computed without writing. -/
theorem Emits.bind_silent {m : EStateM ε (Writer σ) α} {f : α → EStateM ε (Writer σ) β}
    {x : List UInt8} {a : α} {b : β} (hm : Emits oldSpec m [] a) (hf : Emits oldSpec (f a) x b) :
    Emits oldSpec (m >>= f) x b :=
  Emits.bind (x := []) hm hf

theorem Emits.ofWrite {m : Write σ α} {x : List UInt8} {a : α} (h : Emits oldSpec m x a) :
    Emits oldSpec (Encode.ofWrite m) x a := by
  intro w hw
  obtain ⟨sink, hok, hsink⟩ := h w hw
  exact ⟨sink, by rw [Encode.ofWrite, EStateM.adaptExcept, hok], hsink⟩

/-! ## Tokens and bodies -/

/-- What is emitted with its own size comes behind the content, whichever region is at hand. -/
theorem emits_emit (bytes : ByteArray) :
    Emits (σ := σ) oldSpec (emit bytes.size bytes) bytes.data.toList () := by
  rintro ⟨sink, mode⟩ rfl
  rw [emit]
  simp only
  split
  · -- the region that the sink hands out has room
    rename_i hroom
    exact ⟨_, rfl, by rw [LawfulSink.content_append _ _ hroom, LawfulSink.content_request]⟩
  · -- otherwise a region of the size that is needed is asked for
    have hroom := LawfulSink.le_room_request (Sink.request sink 0) bytes.size
    rw [if_pos hroom]
    refine ⟨_, rfl, ?_⟩
    rw [LawfulSink.content_append _ _ hroom, LawfulSink.content_request, LawfulSink.content_request]

theorem emits_token (t : Token) : Emits (σ := σ) oldSpec (token t) t.encode () := by
  rw [← t.toList_bytes]
  exact emits_emit t.bytes

/-- A header and its body put out both, with one request. -/
theorem emits_withBody {headerSize : Nat} {header : Token} (body : ByteArray)
    (hsize : headerSize = header.encode.length) :
    Emits (σ := σ) oldSpec (withBody headerSize header body)
      (header.encode ++ body.data.toList) () := by
  have hbytes : (header.bytes ++ body).data.toList = header.encode ++ body.data.toList := by
    rw [ByteArray.data_append, Array.toList_append, Token.toList_bytes]
  have htotal : headerSize + body.size = (header.bytes ++ body).size := by
    rw [ByteArray.size_append, Token.size_bytes, hsize]
  rw [withBody, htotal, ← hbytes]
  exact emits_emit _

theorem emits_mode : Emits (σ := σ) oldSpec mode [] oldSpec := by
  rintro ⟨sink, _⟩ rfl
  exact ⟨sink, rfl, (List.append_nil _).symm⟩

theorem checkedLength_of_lt {n : Nat} (h : n < 2 ^ 32) : checkedLength n = .ok (UInt32.ofNat n) :=
  if_pos h

theorem emits_length {n : Nat} (h : n < 2 ^ 32) :
    Emits (σ := σ) oldSpec (length n) [] (UInt32.ofNat n) := by
  rw [length, checkedLength_of_lt h]
  exact Emits.of_pure _

theorem emits_strBytes {utf8 : ByteArray} (h : utf8.size < 2 ^ 32) :
    Emits (σ := σ) oldSpec (strBytes utf8)
      (Token.encodeStrHeader oldSpec utf8.size ++ utf8.data.toList) () := by
  have hcast : (UInt32.ofNat utf8.size).toNat = utf8.size := UInt32.toNat_ofNat_of_lt' h
  have hencode : (Token.strHeader oldSpec (UInt32.ofNat utf8.size)).encode
      = Token.encodeStrHeader oldSpec utf8.size := by rw [Token.encode, hcast]
  rw [← hencode]
  refine (emits_length h).bind_silent (emits_mode.bind_silent (emits_withBody utf8 ?_))
  rw [strHeaderSize_eq, hcast, hencode]

theorem emits_bin {bytes : ByteArray} (h : bytes.size < 2 ^ 32) :
    Emits (σ := σ) false (bin bytes)
      (Token.encodeBinHeader bytes.size ++ bytes.data.toList) () := by
  have hcast : (UInt32.ofNat bytes.size).toNat = bytes.size := UInt32.toNat_ofNat_of_lt' h
  have hencode : (Token.binHeader (UInt32.ofNat bytes.size)).encode
      = Token.encodeBinHeader bytes.size := by rw [Token.encode, hcast]
  rw [← hencode]
  refine (emits_length h).bind_silent (emits_mode.bind_silent (emits_withBody bytes ?_))
  rw [binHeaderSize_eq, hcast, hencode]

theorem emits_ext (type : Int8) {payload : ByteArray} (h : payload.size < 2 ^ 32) :
    Emits (σ := σ) oldSpec (ext type payload)
      (Token.encodeExtHeader type payload.size ++ payload.data.toList) () := by
  have hcast : (UInt32.ofNat payload.size).toNat = payload.size := UInt32.toNat_ofNat_of_lt' h
  have hencode : (Token.extHeader ⟨type, UInt32.ofNat payload.size⟩).encode
      = Token.encodeExtHeader type payload.size := by rw [Token.encode, hcast]
  rw [← hencode]
  exact (emits_length h).bind_silent (emits_withBody payload (Token.size_bytes _))

theorem emits_timestamp (t : Timestamp) :
    Emits (σ := σ) false (timestamp t) (Token.encodeTimestamp t) () := by
  refine emits_mode.bind_silent ?_
  exact emits_token (.timestamp t)

end Writer

end MessagePack
