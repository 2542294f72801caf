import MessagePack.Proofs.Appends
import MessagePack.Proofs.Segmentation

/-!
# What a compressed block holds

A block is an extension, and its payload a field with the length of the document and the compressed
bytes behind it. Reading a block is told by what its payload holds, over any reader: that is the one
place where the writer and the reader of blocks meet.

* **`Holds`** is the payload of a document, and **`openPayload_eq_ok_iff`** says that opening a
  payload gives exactly the document that it holds.
* **`read_eq`**: a block is read by opening its payload, and consumed in full whatever that gives.
* **`recognizes_read`**: whatever is read was a block that holds it.
* **`isNext_iff`**: in front of a complete value, a block is recognized exactly where the value is
  an extension of its type.
-/

namespace MessagePack

/-- An algorithm that gives back what it was given: if a document is compressed, then decompressing
    it, with its length to expect, gives the document. -/
def BlockCompressor.Lossless (c : BlockCompressor) : Prop :=
  ∀ document bytes : ByteArray, c.compress document = some bytes →
    c.decompress bytes document.size = some document

/-- An algorithm that compresses a document only if it will give it back. -/
def BlockCompressor.checked (c : BlockCompressor) : BlockCompressor where
  compress document := (c.compress document).filter fun bytes =>
    (c.decompress bytes document.size).map ByteArray.data = some document.data
  decompress := c.decompress

/-- An algorithm that checks what it has compressed is lossless, whatever it did before. -/
theorem BlockCompressor.lossless_checked (c : BlockCompressor) : c.checked.Lossless := by
  intro document bytes h
  have hsame := of_decide_eq_true (Option.filter_eq_some_iff.mp h).2
  obtain ⟨back, hback, hdata⟩ := Option.map_eq_some_iff.mp hsame
  obtain rfl : back = document := ByteArray.ext hdata
  exact hback

namespace CompressedBlock

open Reader Writer

variable {c : BlockCompressor} {d : Nat} {x rest payload : List UInt8} {document : ByteArray}

/-! ## Payloads -/

/-- The payload of a block: the length of the document in a field of its own format, and behind it
    compressed bytes that give the document when that length is expected of them. -/
def Holds (c : BlockCompressor) (payload : List UInt8) (document : ByteArray) : Prop :=
  ∃ (field : List UInt8) (bytes : ByteArray),
    payload = (Format.int lengthType).byte :: (field ++ bytes.data.toList)
      ∧ field.length = lengthType.width.bytes ∧ lengthType.decode field = document.size
      ∧ c.decompress bytes document.size = some document

/-- A length in its field is read as that length. -/
theorem reads_lengthField {field : List UInt8} {n : Nat} {E : ReadError → Prop}
    (hfield : field.length = lengthType.width.bytes) (hn : lengthType.decode field = n) :
    Reads d readLengthField ((Format.int lengthType).byte :: field) rest (· = n) E := by
  have hmem := IntType.decode_mem hfield
  refine Reads.bind_peek Reads.nextFormat ?_
  rintro f rfl
  rw [Format.ofByte_byte, if_neg (not_not_intro rfl)]
  refine (Reads.int_of_mem (.field hfield) hmem).bind_last ?_
  intro v hv
  rw [hn] at hv
  rw [if_neg (by omega)]
  exact Reads.of_pure (by omega)

/-- What is read as the length of a document is a signed field of 32 bits that is not negative. -/
theorem recognizes_lengthField : Recognizes d readLengthField fun x n =>
    ∃ field, x = (Format.int lengthType).byte :: field ∧ field.length = lengthType.width.bytes
      ∧ lengthType.decode field = n := by
  refine Recognizes.bind_peek peeks_nextFormat fun b => ?_
  split
  · exact Recognizes.of_throw _
  · rename_i hb
    rw [not_ne_iff] at hb
    refine (Recognizes.int lengthType).bind_last ?_
    rintro x v ⟨f, field, rfl, hholds⟩
    split
    · exact Recognizes.of_throw _
    · rename_i hv
      refine Recognizes.of_pure ⟨rfl, fun hhead => ?_⟩
      -- the format that was looked at is the one in which the length was found
      have hf : f = .int lengthType := by rw [← hb, ← hhead f.byte rfl, Format.ofByte_byte]
      subst hf
      generalize hm : v.val = m at hholds hv
      cases hholds with
      | field hlength => exact ⟨field, rfl, hlength, by omega⟩

/-- **OPENING A PAYLOAD** gives exactly the document that it holds. -/
theorem openPayload_eq_ok_iff {payload : ByteArray} :
    openPayload c payload = .ok document ↔ Holds c payload.data.toList document := by
  have hahead : (Reader.ofBytes payload).cursor.ahead = payload.data.toList :=
    Cursor.ahead_ofBytes _
  rw [openPayload]
  constructor
  -- what was opened begins with a field, and what is behind the field was decompressed
  · intro h
    cases hread : readLengthField (Reader.ofBytes payload) with
    | error e s =>
        rw [hread] at h
        cases h
    | ok expected s =>
        rw [hread] at h
        obtain ⟨n, hn, rfl, field, htake, hfield, hdecode⟩ :=
          recognizes_lengthField (Cursor.wellFormed_ofBytes payload) rfl hread
        have hconsumed : ((Reader.ofBytes payload).past n).consumed = n := Nat.zero_add n
        dsimp only at h
        rw [hconsumed] at h
        cases hdocument : c.decompress (payload.extract n payload.size) expected with
        | none =>
            rw [hdocument] at h
            cases h
        | some document' =>
            rw [hdocument] at h
            dsimp only at h
            split at h
            · rename_i hsize
              cases h
              refine ⟨field, _, ?_, hfield, hdecode.trans (by rw [hsize]), by rwa [hsize]⟩
              rw [← List.cons_append, ← htake, toList_extract_size, hahead, List.take_append_drop]
            · cases h
  -- the other way round, the field is read from the front and the rest is decompressed
  · rintro ⟨field, bytes, hpayload, hfield, hdecode, hdocument⟩
    rw [hpayload, ← List.cons_append] at hahead
    rcases reads_lengthField (E := fun _ => False) hfield hdecode
      (Cursor.wellFormed_ofBytes payload) rfl hahead with ⟨n, hread, rfl⟩ | ⟨e, s, -, he⟩
    · have hconsumed : ((Reader.ofBytes payload).past
          ((Format.int lengthType).byte :: field).length).consumed
          = ((Format.int lengthType).byte :: field).length := Nat.zero_add _
      have hbytes : payload.extract ((Format.int lengthType).byte :: field).length payload.size
          = bytes := by
        apply ByteArray.ext
        apply Array.ext'
        rw [toList_extract_size, hpayload, ← List.cons_append, List.drop_left]
      rw [hread]
      dsimp only
      rw [hconsumed, hbytes, hdocument]
      exact if_pos rfl
    · exact he.elim

/-! ## Blocks -/

/-- **READING A BLOCK** opens its payload. The block is consumed, whatever that gives. -/
theorem read_eq {r : Reader} (hr : r.cursor.WellFormed) (hahead : r.cursor.ahead = x ++ rest)
    (h : Extended x compressedBlockType payload) :
    read c r = match openPayload c ⟨payload.toArray⟩ with
      | .ok document => .ok document (r.past x.length)
      | .error e => .error e (r.past x.length) := by
  have hext : Reads r.depth ext x rest
      (fun e => e.type = compressedBlockType ∧ e.data.Shows payload) fun _ => False := Reads.ext h
  rcases hext.ofRead_of_sure (E := fun _ => False) hr rfl hahead with
    ⟨e, hread, htype, hshows⟩ | ⟨e, s, -, he⟩
  · have hpayload : e.data.contiguous?.getD e.data.content = ⟨payload.toArray⟩ := by
      rw [payload_eq hshows]
      exact eq_of_toList hshows.toList_content
    rw [read, bind_of_ok hread, if_neg (not_not_intro htype), hpayload]
    cases openPayload c ⟨payload.toArray⟩ <;> rfl
  · exact he.elim

/-- A block that holds a document is read as the document. -/
theorem read_eq_ok {r : Reader} (hr : r.cursor.WellFormed) (hahead : r.cursor.ahead = x ++ rest)
    (h : Extended x compressedBlockType payload) (hholds : Holds c payload document) :
    read c r = .ok document (r.past x.length) := by
  have hopen : openPayload c ⟨payload.toArray⟩ = .ok document := openPayload_eq_ok_iff.mpr hholds
  rw [read_eq hr hahead h, hopen]

/-- **WHAT IS READ WAS A BLOCK**: an extension of its type, with a payload that holds the document.
    -/
theorem recognizes_read : Recognizes d (read c) fun x document =>
    ∃ payload, Extended x compressedBlockType payload ∧ Holds c payload document := by
  refine Recognizes.ext.ofRead.bind_last ?_
  rintro x e ⟨payload, hextended, hshows⟩
  have hthrow : ∀ (m : Unit → Decode ByteArray) (error : DocumentError)
      (G : List UInt8 → ByteArray → Prop), Recognizes d (throw error >>= m) G := by
    intro m error G
    refine (Recognizes.of_throw (G := fun _ _ => False) error).bind ?_
    exact fun _ _ h => h.elim
  rw [payload_eq hshows]
  -- the type is looked at first, so a block of another type fails however its payload opens
  cases hopen : openPayload c e.data.content with
  | error error =>
      dsimp only
      split
      · exact hthrow _ _ _
      · exact Recognizes.of_throw _
  | ok document =>
      dsimp only
      split
      · exact hthrow _ _ _
      · rename_i htype
        rw [not_ne_iff] at htype
        rw [htype] at hextended
        rw [openPayload_eq_ok_iff, hshows.toList_content] at hopen
        exact Recognizes.of_pure ⟨rfl, payload, hextended, hopen⟩

/-! ## Writing a block -/

/-- A document that an algorithm can store in a block: its length fits into the field for it, and
    what it is compressed to fits into an extension. -/
def Fits (c : BlockCompressor) (document : ByteArray) : Prop :=
  document.size < 2 ^ 31 ∧ ∃ bytes, c.compress document = some bytes
    ∧ lengthFieldSize + bytes.size < 2 ^ 32

/-- The payload that a document is written with, from the bytes that it was compressed to. -/
def payloadOf (document bytes : ByteArray) : List UInt8 :=
  (Format.int lengthType).byte :: (lengthType.encode document.size ++ bytes.data.toList)

/-- The payload is as long as the field and the compressed bytes together. -/
theorem length_payloadOf (document bytes : ByteArray) :
    (payloadOf document bytes).length = lengthFieldSize + bytes.size := by
  rw [payloadOf, List.length_cons, List.length_append, IntType.length_encode,
    Segments.length_toList_data, lengthFieldSize]
  omega

/-- The size of a document that is not too long fits into the field. -/
theorem mem_lengthType (h : document.size < 2 ^ 31) :
    lengthType.least ≤ document.size ∧ (document.size : Int) ≤ lengthType.greatest := by
  simp only [lengthType, IntType.least, IntType.greatest, Width.bits, Width.bytes]
  omega

/-- A payload holds the document that it was made of, if the algorithm gives it back. -/
theorem holds_payloadOf {bytes : ByteArray} (hsize : document.size < 2 ^ 31)
    (h : c.decompress bytes document.size = some document) :
    Holds c (payloadOf document bytes) document := by
  obtain ⟨hle, hlt⟩ := mem_lengthType hsize
  exact ⟨_, bytes, rfl, IntType.length_encode _ _,
    IntType.decode_encode_signed hle (Int.lt_of_le_sub_one hlt), h⟩

/-- A document that fits is written as the header of an extension and the payload made of it. -/
theorem emits_write {σ : Type} [LawfulSink σ] {oldSpec : Bool} {bytes : ByteArray}
    (hsize : document.size < 2 ^ 31) (hbytes : c.compress document = some bytes)
    (hlt : lengthFieldSize + bytes.size < 2 ^ 32) :
    Emits (σ := σ) oldSpec (write c document)
      (Token.encodeExtHeader compressedBlockType (payloadOf document bytes).length
        ++ payloadOf document bytes) () := by
  have hfield : lengthType.ofInt? document.size = some ⟨document.size, mem_lengthType hsize⟩ :=
    dif_pos (mem_lengthType hsize)
  have hheader : (Command.extHeader ⟨compressedBlockType,
        UInt32.ofNat (lengthFieldSize + bytes.size)⟩).output oldSpec
      = .ok (Token.encodeExtHeader compressedBlockType (payloadOf document bytes).length) := by
    rw [Command.output, UInt32.toNat_ofNat_of_lt' hlt, length_payloadOf]
  rw [write, lengthField, compressed, hfield, hbytes]
  refine (Emits.of_pure _).bind_silent ((Emits.of_pure _).bind_silent ?_)
  refine (emits_length hlt).ofWrite.bind_silent (Emits.ofWrite ?_)
  refine (emits_command hheader).bind ?_
  exact (emits_command (c := .explicit lengthType _) rfl).bind (emits_command (c := .raw bytes) rfl)

/-- **A BLOCK IS WRITTEN** for every document that fits, over every lawful sink and in both modes,
    and its payload holds the document if the algorithm loses nothing. -/
theorem exists_block (hc : c.Lossless) (h : Fits c document) :
    ∃ x payload, Extended x compressedBlockType payload ∧ Holds c payload document
      ∧ ∀ (σ : Type) [LawfulSink σ] (oldSpec : Bool),
        Emits (σ := σ) oldSpec (write c document) x () := by
  obtain ⟨hsize, bytes, hbytes, hlt⟩ := h
  exact ⟨_, payloadOf document bytes,
    Token.extended_encodeExtHeader compressedBlockType (by rwa [length_payloadOf]),
    holds_payloadOf hsize (hc _ _ hbytes), fun _ _ _ => emits_write hsize hbytes hlt⟩

/-! ## Recognizing a block -/

/-- A complete value with the header of an extension at its start is that extension. -/
theorem exists_payload {header tail : List UInt8} {b : UInt8} {n : Nat} (hx : IsValue x)
    (hheader : Headed Format.extLength? n header) (heq : x ++ rest = header ++ b :: tail) :
    ∃ payload : List UInt8, payload.length = n ∧ x = header ++ b :: payload := by
  obtain ⟨lead, head, k, row, ⟨body, hbody, hfills⟩, hrow, rfl⟩ := hx.opens
  obtain ⟨f, e, field, hf, he, rfl⟩ := hheader
  rw [List.cons_append, List.cons_append] at heq
  -- both begin with the same lead byte, so both have the body that its format says
  obtain ⟨rfl, htail⟩ := List.cons.inj heq
  rw [Format.ofByte_byte, body?_of_extLength hf] at hbody
  cases hbody
  cases hfills with
  | @sized _ m _ field' payload hfield hlength =>
      rw [hrow.eq_nil, List.append_nil] at htail ⊢
      rw [List.append_assoc] at htail
      obtain ⟨rfl, rfl⟩ := hfield.unique he htail
      obtain ⟨type, payload, rfl⟩ := List.exists_cons_of_length_eq_add_one hlength
      obtain ⟨rfl, -⟩ := List.cons.inj (List.append_cancel_left htail)
      exact ⟨payload, Nat.succ.inj hlength, rfl⟩

/-- **A BLOCK IS RECOGNIZED** in front of a complete value exactly where the value is an extension
    of its type, whatever the payload. -/
theorem isNext_iff {r : Reader} (hr : r.cursor.WellFormed) (hahead : r.cursor.ahead = x ++ rest)
    (hx : IsValue x) :
    isNext r = true ↔ ∃ payload, Extended x compressedBlockType payload := by
  constructor
  -- the header that was found is at the start of a value, so its payload is there too
  · intro h
    rw [isNext] at h
    split at h
    · rename_i header s hread
      obtain ⟨n, hn, -, hheader⟩ := Recognizes.tryExtHeader hr rfl hread
      obtain ⟨y, b, htake, hheaded, htype⟩ := hheader header rfl
      have heq : x ++ rest = y ++ b :: r.cursor.ahead.drop n := by
        rw [← List.singleton_append, ← List.append_assoc, ← htake, List.take_append_drop, hahead]
      obtain ⟨payload, hlength, rfl⟩ := exists_payload hx hheaded heq
      exact ⟨payload, y, b, hlength ▸ hheaded, (of_decide_eq_true h).symm.trans htype, rfl⟩
    · cases h
  · rintro ⟨payload, header, b, hheader, htype, rfl⟩
    rw [List.append_assoc, List.cons_append, ← List.singleton_append, ← List.append_assoc] at hahead
    rcases Reads.tryExtHeader (E := fun _ => False) hheader hr rfl hahead with
      ⟨o, hread, m, rfl, hm, -⟩ | ⟨e, s, -, he⟩
    · rw [isNext, hread]
      exact decide_eq_true (hm.trans htype.symm)
    · exact he.elim

end CompressedBlock

end MessagePack
