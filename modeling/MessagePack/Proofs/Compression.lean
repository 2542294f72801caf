import MessagePack.Proofs.CompressedBlock
import MessagePack.Proofs.Lead
import MessagePack.Proofs.Part

/-!
# Compressed documents

The writer decides by the length of a document whether it is compressed, and the reader by its first
token. The two agree but for one kind of document: a value that is an extension of the type of
compressed blocks itself. That type is not for values, and nothing keeps them from having it.

* **`Value.appends_extended`**: what was written is an extension of a type only if it was written
  for a timestamp, or for an extension of that type.
* **`Document.compression_invisible`**: with an algorithm that loses nothing, every other document
  is read back as the value that it was written for, whether it was compressed or not.
* **`Document.short_document_as_is`**: a document that was too short to be compressed is read as if
  nothing ever was, and one of the type of compressed blocks is opened as a block.
-/

namespace MessagePack

/-! ## Extensions that were written -/

/-- The bytes of an extension decide its type and its payload. -/
theorem Reader.Extended.unique {x payload payload' : List UInt8} {type type' : Int8}
    (h : Reader.Extended x type payload) (h' : Reader.Extended x type' payload') :
    type = type' ∧ payload = payload' := by
  obtain ⟨header, b, hheader, rfl, rfl⟩ := h
  obtain ⟨header', b', hheader', rfl, heq⟩ := h'
  obtain ⟨rfl, -⟩ := hheader.unique hheader' heq
  obtain ⟨rfl, rfl⟩ := List.cons.inj (List.append_cancel_left heq)
  exact ⟨rfl, rfl⟩

namespace Value

open Writer

variable {σ : Type} [Sink σ] {content : Sink.Content σ}

/-- An extension is written as such, with its type and payload. -/
theorem appends_extension (type : Int8) (payload : ByteArray) :
    Appends content ((extension type payload).write (σ := σ)) fun x _ =>
      Reader.Extended x type payload.data.toList := by
  refine (appends_command (.ext type payload)).ofWrite.mono ?_
  rintro x _ ⟨oldSpec, hx⟩
  obtain ⟨hlt, rfl⟩ := of_ofLength hx
  exact Token.extended_encodeExtHeader type hlt

/-- **AN EXTENSION THAT WAS WRITTEN** was written for a timestamp, or for an extension of that type
    and that payload. -/
theorem appends_extended (v : Value) : Appends content (v.write (σ := σ)) fun x _ =>
    ∀ type payload, Reader.Extended x type payload →
      type = timestampType ∨ v = .extension type ⟨payload.toArray⟩ := by
  cases v with
  | timestamp t =>
      refine (appends_command (.timestamp t)).ofWrite.mono ?_
      rintro x _ ⟨oldSpec, hx⟩ type payload hextended
      obtain ⟨⟨_, htimestamp, -⟩, -⟩ := Command.encodes_of_output hx
      exact Or.inl (hextended.unique htimestamp).1
  | extension type payload =>
      refine (appends_extension type payload).mono ?_
      rintro x _ hx type' payload' hextended
      obtain ⟨rfl, rfl⟩ := hextended.unique hx
      exact Or.inr rfl
  | _ =>
      -- no other kind of value begins as an extension does
      refine (appends_lead _).mono ?_
      rintro x _ hlead type payload hextended
      obtain ⟨k, rfl, hk⟩ := hextended.begins.and hlead
      rcases hk with hk | ⟨-, hk⟩ <;> cases hk

end Value

namespace Document

open Reader Writer

variable {c : BlockCompressor} {options : Options} {v : Value} {document : ByteArray}

/-! ## The plain form -/

/-- In the default mode, the plain form of a regular value is its encoding. -/
theorem plain_eq_encoding (h : plain options .value v = .ok document)
    (hmode : options.oldSpec = false) (hv : v.Regular) :
    v.Canonical ∧ document.data.toList = v.encoding := by
  have hcanonical : v.Canonical := of_plain_appends (Value.canonical_of_write v hv) h
  obtain ⟨w, hok, rfl⟩ := of_plain h
  obtain ⟨sink, hsink, hcontent⟩ :=
    Value.emits_write hcanonical.storable ⟨Buffer.empty, options.oldSpec⟩ hmode
  rw [hok] at hsink
  cases hsink
  exact ⟨hcanonical, hcontent⟩

/-- In the default mode, a canonical value has a plain form. -/
theorem plain_of_canonical (h : v.Canonical) (hmode : options.oldSpec = false) :
    plain options .value v = .ok ⟨v.encoding.toArray⟩ := by
  obtain ⟨sink, hsink, hcontent⟩ :=
    Value.emits_write h.storable ⟨Buffer.empty, options.oldSpec⟩ hmode
  have hbytes : sink.content = ⟨v.encoding.toArray⟩ := eq_of_toList hcontent
  have hrun : onSink options.oldSpec (Schema.value.write v) Buffer.empty = .ok () sink := by
    show onSink options.oldSpec v.write Buffer.empty = .ok () sink
    rw [onSink, hsink]
  rw [plain, hrun]
  exact congrArg Except.ok hbytes

/-- The plain form of a value that is not of the type of compressed blocks is no block. -/
theorem not_extended (h : plain options .value v = .ok document)
    (hv : ∀ payload, v ≠ .extension compressedBlockType payload) :
    ¬ ∃ payload, Extended document.data.toList compressedBlockType payload := by
  rintro ⟨payload, hextended⟩
  rcases of_plain_appends v.appends_extended h _ _ hextended with htype | hvalue
  · exact absurd htype (by decide)
  · exact hv _ hvalue

/-! ## Writing -/

/-- What a write emits is behind what was in the sink. -/
theorem onSink_of_emits {σ : Type} [LawfulSink σ] {oldSpec : Bool} {m : Encode σ Unit}
    {x : List UInt8} (h : Emits oldSpec m x ()) (s : σ) : ∃ t, onSink oldSpec m s = .ok () t
      ∧ LawfulSink.content t = LawfulSink.content s ++ x := by
  obtain ⟨t, hok, ht⟩ := h ⟨s, oldSpec⟩ rfl
  exact ⟨t, by rw [onSink, hok], ht⟩

/-- A document is encoded first, and what is written for it then is its packed form. -/
theorem writeWith_eq {σ : Type} [Sink σ] (hcompression : options.compression = .deflate)
    (hplain : plain options .value v = .ok document) (s : σ) :
    writeWith c options .value v s = onSink options.oldSpec (pack c options document) s := by
  rw [writeWith, hcompression]
  dsimp only
  rw [hplain]

/-- What is packed as certain bytes is written as these over every lawful sink. -/
theorem writeWith_of_emits {σ : Type} [LawfulSink σ] {x : List UInt8}
    (hcompression : options.compression = .deflate)
    (hplain : plain options .value v = .ok document)
    (h : Emits (σ := σ) options.oldSpec (pack c options document) x ()) (s : σ) :
    ∃ t, writeWith c options .value v s = .ok () t
      ∧ LawfulSink.content t = LawfulSink.content s ++ x := by
  rw [writeWith_eq hcompression hplain]
  exact onSink_of_emits h s

/-- A document below the threshold is written as it is. -/
theorem emits_pack_of_short {σ : Type} [LawfulSink σ] {oldSpec : Bool}
    (h : document.size < options.minLength.toNat) :
    Emits (σ := σ) oldSpec (pack c options document) document.data.toList () := by
  rw [pack, if_pos h]
  exact (emits_command (c := .raw document) rfl).ofWrite

/-- A document that is too short to be compressed is its plain form. -/
theorem encode_of_short (hcompression : options.compression = .deflate)
    (hplain : plain options .value v = .ok document)
    (hshort : document.size < options.minLength.toNat) :
    encode options .value v = .ok document := by
  obtain ⟨t, hwrite, ht⟩ := writeWith_of_emits (σ := Buffer) (c := .standard) hcompression hplain
    (emits_pack_of_short hshort) Buffer.empty
  have hbytes : t.content = document := ByteArray.ext (Array.ext' ht)
  rw [encode, writeTo, hwrite]
  exact congrArg Except.ok hbytes

/-! ## Reading -/

/-- Out of an extension of the type of compressed blocks, whatever it was written for, what is read
    is what its payload holds. -/
theorem readWith_of_extended {s : Schema} {r : Reader} {x rest payload : List UInt8}
    (hcompression : options.compression = .deflate) (hr : r.cursor.WellFormed)
    (hahead : r.cursor.ahead = x ++ rest) (h : Extended x compressedBlockType payload) :
    readWith c options s r = match CompressedBlock.openPayload c ⟨payload.toArray⟩ with
      | .ok inner => decodePlain options s (.ofBytes inner)
      | .error e => .error e := by
  have hnext := (CompressedBlock.isNext_iff hr hahead h.isValue).mpr ⟨payload, h⟩
  rw [readWith, if_pos ⟨hcompression, hnext⟩, CompressedBlock.read_eq hr hahead h]
  cases CompressedBlock.openPayload c ⟨payload.toArray⟩ <;> rfl

/-- What is not a compressed block is read as a plain document. -/
theorem readWith_of_not_isNext {s : Schema} {r : Reader} (h : ¬ CompressedBlock.isNext r = true) :
    readWith c options s r = decodePlain options s r := by
  rw [readWith, if_neg fun hboth => h hboth.2]

/-- Without compression every document is read as a plain one, blocks among them. -/
theorem readWith_of_compression_none {s : Schema} {r : Reader} (h : options.compression = .none) :
    readWith c options s r = decodePlain options s r := by
  rw [readWith, if_neg fun hboth => by rw [h] at hboth; cases hboth.1]

/-- A plain value is read by the security policy alone. -/
theorem decodePlain_congr {options' : Options} {r : Reader}
    (h : options'.security = options.security) :
    decodePlain options' .value r = decodePlain options .value r := by
  -- by induction on the bound: of the options, reading looks at the policy alone
  have hwithin : ∀ bound, Value.readWithin options' bound = Value.readWithin options bound := by
    intro bound
    induction bound with
    | zero => rfl
    | succ bound ih =>
        have has : Value.readAs options' bound = Value.readAs options bound := by
          funext f
          simp only [Value.readAs, h, ih]
        rw [Value.readWithin_succ, Value.readWithin_succ, has]
  have hread : Schema.value.read options' = Schema.value.read options := by
    show Value.read options' = Value.read options
    simp only [Value.read, hwithin]
  rw [decodePlain, decodePlain, hread]

/-- The value in its encoding. -/
theorem decodePlain_eq_ok (h : v.Canonical) {r : Reader} {rest : List UInt8}
    (hr : r.cursor.WellFormed) (hahead : r.cursor.ahead = v.encoding ++ rest)
    (hdepth : r.depth + v.depth ≤ options.security.maxDepth.toNat) :
    decodePlain options .value r = .ok v := by
  have hread : Schema.value.read options r = .ok v (r.past v.encoding.length) :=
    (Value.encoded_encoding h).read_eq hr hahead (by omega)
  rw [decodePlain, hread]

/-- A value that is not of the type of compressed blocks, in its plain form. -/
theorem readWith_of_plain (hcanonical : v.Canonical)
    (hplain : plain options .value v = .ok document)
    (hencoding : document.data.toList = v.encoding)
    (htype : ∀ payload, v ≠ .extension compressedBlockType payload) {r : Reader}
    {rest : List UInt8} (hr : r.cursor.WellFormed)
    (hahead : r.cursor.ahead = document.data.toList ++ rest)
    (hdepth : r.depth + v.depth ≤ options.security.maxDepth.toNat) :
    readWith c options .value r = .ok v := by
  have hnext : ¬ CompressedBlock.isNext r = true := by
    rw [CompressedBlock.isNext_iff hr hahead (isValue_plain hplain)]
    exact not_extended hplain htype
  rw [readWith_of_not_isNext hnext]
  exact decodePlain_eq_ok hcanonical hr (hencoding ▸ hahead) hdepth

/-- A value in a block that holds its encoding. -/
theorem readWith_of_block (hcompression : options.compression = .deflate)
    (hcanonical : v.Canonical) (hencoding : document.data.toList = v.encoding) {r : Reader}
    {x rest payload : List UInt8} (hextended : Extended x compressedBlockType payload)
    (hholds : CompressedBlock.Holds c payload document) (hr : r.cursor.WellFormed)
    (hahead : r.cursor.ahead = x ++ rest)
    (hdepth : v.depth ≤ options.security.maxDepth.toNat) :
    readWith c options .value r = .ok v := by
  have hopen : CompressedBlock.openPayload c ⟨payload.toArray⟩ = .ok document :=
    CompressedBlock.openPayload_eq_ok_iff.mpr hholds
  have hinner : (Reader.ofBytes document).cursor.ahead = v.encoding ++ [] := by
    rw [List.append_nil, ← hencoding]
    exact Cursor.ahead_ofBytes _
  -- the document in the block is read by a reader of its own, which starts at depth zero
  have hdepth' : (Reader.ofBytes document).depth + v.depth ≤ options.security.maxDepth.toNat := by
    show 0 + v.depth ≤ _
    rwa [Nat.zero_add]
  rw [readWith_of_extended hcompression hr hahead hextended, hopen]
  exact decodePlain_eq_ok hcanonical (Cursor.wellFormed_ofBytes _) hinner hdepth'

/-! ## Round trips -/

/-- **COMPRESSION IS INVISIBLE**, with an algorithm that loses nothing. A document that fits is
    written as a block over every lawful sink, and out of that block, whatever is behind it and
    however it is cut into pieces, the document is read and exactly the block is consumed. Whatever
    is read as a block was an extension of its type, with the length of what was read as an `int 32`
    in front. So every regular value that is not of the type of compressed blocks itself is read
    back as it was written: from its plain form if that is shorter than the least length, and from
    a block with it if not. -/
theorem compression_invisible (hc : c.Lossless) :
    (∀ document, CompressedBlock.Fits c document → ∃ x : List UInt8,
      (∀ (σ : Type) [LawfulSink σ] (oldSpec : Bool),
        Emits (σ := σ) oldSpec (CompressedBlock.write c document) x ())
      ∧ ∀ (rest : List UInt8) (r : Reader), r.cursor.WellFormed → r.cursor.ahead = x ++ rest →
        CompressedBlock.read c r = .ok document (r.past x.length))
    ∧ (∀ (r s : Reader) (document : ByteArray), r.cursor.WellFormed →
      CompressedBlock.read c r = .ok document s → ∃ x rest field compressed : List UInt8,
        r.cursor.ahead = x ++ rest ∧ s = r.past x.length
          ∧ Extended x compressedBlockType (0xd2 :: (field ++ compressed)) ∧ field.length = 4
          ∧ (IntType.signed .w32).decode field = document.size)
    ∧ ∀ (options : Options) (v : Value) (document : ByteArray),
      options.compression = .deflate → options.oldSpec = false → v.Regular →
      (∀ payload, v ≠ .extension compressedBlockType payload) →
      plain options .value v = .ok document → CompressedBlock.Fits c document →
      ∃ x : List UInt8,
        (∀ (σ : Type) [LawfulSink σ] (s : σ), ∃ t, writeWith c options .value v s = .ok () t
          ∧ LawfulSink.content t = LawfulSink.content s ++ x)
        ∧ (document.size < options.minLength.toNat → x = document.data.toList)
        ∧ (options.minLength.toNat ≤ document.size → ∃ payload,
          Extended x compressedBlockType payload ∧ CompressedBlock.Holds c payload document)
        ∧ ∀ (rest : List UInt8) (r : Reader), r.cursor.WellFormed → r.cursor.ahead = x ++ rest →
          r.depth + v.depth ≤ options.security.maxDepth.toNat →
          readWith c options .value r = .ok v := by
  refine ⟨?_, ?_, ?_⟩
  · intro document hfits
    obtain ⟨x, payload, hextended, hholds, hemits⟩ := CompressedBlock.exists_block hc hfits
    exact ⟨x, hemits, fun rest r hr hahead => CompressedBlock.read_eq_ok hr hahead hextended hholds⟩
  · intro r s document hr hread
    obtain ⟨n, hn, rfl, payload, hextended, field, bytes, rfl, hfield, hdecode, -⟩ :=
      CompressedBlock.recognizes_read hr rfl hread
    refine ⟨_, r.cursor.ahead.drop n, field, bytes.data.toList,
      (List.take_append_drop n _).symm, ?_, hextended, hfield, hdecode⟩
    rw [hr.length_take_ahead hn]
  · intro options v document hcompression hmode hregular htype hplain hfits
    obtain ⟨hcanonical, hencoding⟩ := plain_eq_encoding hplain hmode hregular
    -- either the document is written as it is, or as a block that holds it
    by_cases hshort : document.size < options.minLength.toNat
    · refine ⟨document.data.toList, fun σ _ => writeWith_of_emits hcompression hplain
        (emits_pack_of_short hshort), fun _ => rfl, fun hle => absurd hshort (by omega), ?_⟩
      exact fun _ _ hr hahead hdepth =>
        readWith_of_plain hcanonical hplain hencoding htype hr hahead hdepth
    · obtain ⟨x, payload, hextended, hholds, hemits⟩ := CompressedBlock.exists_block hc hfits
      refine ⟨x, fun σ _ => writeWith_of_emits hcompression hplain ?_,
        fun hlt => absurd hlt hshort, fun _ => ⟨payload, hextended, hholds⟩, ?_⟩
      · rw [pack, if_neg hshort]
        exact hemits σ options.oldSpec
      · exact fun _ r hr hahead hdepth => readWith_of_block hcompression hcanonical hencoding
          hextended hholds hr hahead (Nat.le_trans (Nat.le_add_left _ r.depth) hdepth)

/-- An array in a block that is cut within the length of its document, with a byte behind it. -/
theorem compression_invisible_array : ∃ x : List UInt8,
    (∃ t : Tight, writeWith (BlockCompressor.checked (.deflate 0))
        { Options.standard with compression := .deflate, minLength := 3 } .value
        (.array [.unsigned 1, .nil]) Tight.empty = .ok () t ∧ t.content.data.toList = x)
      ∧ readWith (BlockCompressor.checked (.deflate 0))
          { Options.standard with compression := .deflate, minLength := 3 } .value
          (.ofParts #[⟨(x.take 5).toArray⟩, ⟨(x.drop 5 ++ [0x07]).toArray⟩])
        = .ok (.array [.unsigned 1, .nil]) := by
  have hcanonical : (Value.array [.unsigned 1, .nil]).Canonical :=
    .array (by decide) (List.forall_mem_cons.mpr ⟨.unsigned 1, List.forall_mem_singleton.mpr .nil⟩)
  have hplain : plain { Options.standard with compression := .deflate, minLength := 3 } .value
      (.array [.unsigned 1, .nil]) = .ok ⟨#[0x92, 0x01, 0xc0]⟩ := plain_of_canonical hcanonical rfl
  have hfits : CompressedBlock.Fits (BlockCompressor.checked (.deflate 0))
      ⟨#[0x92, 0x01, 0xc0]⟩ :=
    ⟨by decide, ⟨#[0x01, 0x03, 0x00, 0xfc, 0xff, 0x92, 0x01, 0xc0]⟩, by decide +kernel, by decide⟩
  have hdepth : 0 + (Value.array [.unsigned 1, .nil]).depth
      ≤ Options.standard.security.maxDepth.toNat := by decide
  obtain ⟨-, -, hdocuments⟩ :=
    compression_invisible (BlockCompressor.lossless_checked (.deflate 0))
  obtain ⟨x, hwrites, -, -, hreads⟩ :=
    hdocuments _ _ _ rfl rfl hcanonical.regular nofun hplain hfits
  obtain ⟨t, hwrite, ht⟩ := hwrites Tight Tight.empty
  refine ⟨x, ⟨t, hwrite, ht⟩, hreads [0x07] _ (Cursor.wellFormed_ofParts _) ?_ hdepth⟩
  show (Cursor.ofParts _).ahead = _
  rw [Cursor.ahead_ofParts]
  show x.take 5 ++ (x.drop 5 ++ [0x07] ++ []) = x ++ [0x07]
  rw [List.append_nil, ← List.append_assoc, List.take_append_drop]

/-- **A SHORT DOCUMENT IS WRITTEN AS IT IS**, and, with anything behind it and however it is cut
    into pieces, it is read as if nothing ever was compressed, unless its value is an extension of
    the type of compressed blocks itself. The payload of such a value is opened as that of a
    block. -/
theorem short_document_as_is (c : BlockCompressor) (hcompression : options.compression = .deflate)
    (hplain : plain options .value v = .ok document)
    (hshort : document.size < options.minLength.toNat) :
    (∀ (σ : Type) [LawfulSink σ] (s : σ), ∃ t, writeWith c options .value v s = .ok () t
      ∧ LawfulSink.content t = LawfulSink.content s ++ document.data.toList)
    ∧ ∀ (rest : List UInt8) (r : Reader), r.cursor.WellFormed →
      r.cursor.ahead = document.data.toList ++ rest →
      ((∀ payload, v ≠ .extension compressedBlockType payload) →
        readWith c options .value r
          = readWith c { options with compression := .none } .value r)
      ∧ ∀ payload, v = .extension compressedBlockType payload →
        readWith c options .value r = match CompressedBlock.openPayload c payload with
          | .ok inner => decodePlain options .value (.ofBytes inner)
          | .error e => .error e := by
  refine ⟨fun σ _ => writeWith_of_emits hcompression hplain (emits_pack_of_short hshort), ?_⟩
  intro rest r hr hahead
  -- the document is one value, so whether a block is next is told from its own bytes
  have hnext := CompressedBlock.isNext_iff hr hahead (isValue_plain hplain)
  refine ⟨fun htype => ?_, ?_⟩
  · have hsecurity : ({ options with compression := .none } : Options).security
        = options.security := rfl
    rw [readWith_of_not_isNext (mt hnext.mp (not_extended hplain htype)),
      readWith_of_compression_none rfl, decodePlain_congr hsecurity]
  · rintro payload rfl
    have hextended : Extended document.data.toList compressedBlockType payload.data.toList :=
      of_plain_appends (Value.appends_extension _ payload) hplain
    exact readWith_of_extended hcompression hr hahead hextended

/-- An extension of the type of compressed blocks within an array is not opened. -/
theorem short_document_as_is_array :
    ∃ t : Tight, writeWith .standard { Options.standard with compression := .deflate } .value
        (.array [.extension compressedBlockType ⟨#[0xc3]⟩]) Tight.empty = .ok () t
      ∧ t.content = ⟨#[0x91, 0xd4, 0x63, 0xc3]⟩
      ∧ decode { Options.standard with compression := .deflate } .value
          ⟨#[0x91, 0xd4, 0x63, 0xc3]⟩
        = decode Options.standard .value ⟨#[0x91, 0xd4, 0x63, 0xc3]⟩ := by
  have hcanonical : (Value.array [.extension compressedBlockType ⟨#[0xc3]⟩]).Canonical :=
    .array (by decide) (List.forall_mem_singleton.mpr (.extension (by decide) (by decide)))
  have hplain : plain { Options.standard with compression := .deflate } .value
      (.array [.extension compressedBlockType ⟨#[0xc3]⟩]) = .ok ⟨#[0x91, 0xd4, 0x63, 0xc3]⟩ :=
    plain_of_canonical hcanonical rfl
  obtain ⟨hwrites, hreads⟩ := short_document_as_is .standard rfl hplain (by decide)
  obtain ⟨t, hwrite, ht⟩ := hwrites Tight Tight.empty
  have hahead : (Reader.ofBytes ⟨#[0x91, 0xd4, 0x63, 0xc3]⟩).cursor.ahead
      = [0x91, 0xd4, 0x63, 0xc3] ++ [] := rfl
  exact ⟨t, hwrite, ByteArray.ext (Array.ext' ht),
    (hreads [] _ (Cursor.wellFormed_ofBytes _) hahead).1 nofun⟩

/-- **A SHORT DOCUMENT MAY BE OPENED**: an extension of the type of compressed blocks whose payload
    holds the document `true` is too short to be compressed. It is written as it is, and read as
    itself without compression, but as `true` with it. -/
theorem short_document_opened : ∃ (v : Value) (document : ByteArray),
    v = .extension compressedBlockType
        ⟨#[0xd2, 0x00, 0x00, 0x00, 0x01, 0x01, 0x01, 0x00, 0xfe, 0xff, 0xc3]⟩
      ∧ document = ⟨#[0xc7, 0x0b, 0x63, 0xd2, 0x00, 0x00, 0x00, 0x01, 0x01, 0x01, 0x00, 0xfe, 0xff,
        0xc3]⟩
      ∧ v.Regular
      ∧ plain { Options.standard with compression := .deflate } .value v = .ok document
      ∧ encode { Options.standard with compression := .deflate } .value v = .ok document
      ∧ document.size < Options.standard.minLength.toNat
      ∧ decode { Options.standard with compression := .deflate } .value document
        = .ok (.boolean true)
      ∧ decode Options.standard .value document = .ok v
      ∧ v ≠ .boolean true := by
  have hcanonical : (Value.extension compressedBlockType
      ⟨#[0xd2, 0x00, 0x00, 0x00, 0x01, 0x01, 0x01, 0x00, 0xfe, 0xff, 0xc3]⟩).Canonical :=
    .extension (by decide) (by decide)
  have hextended : Extended
      [0xc7, 0x0b, 0x63, 0xd2, 0x00, 0x00, 0x00, 0x01, 0x01, 0x01, 0x00, 0xfe, 0xff, 0xc3]
      compressedBlockType
      [0xd2, 0x00, 0x00, 0x00, 0x01, 0x01, 0x01, 0x00, 0xfe, 0xff, 0xc3] :=
    Token.extended_encodeExtHeader compressedBlockType (by decide)
  have hopen : CompressedBlock.openPayload .standard
      ⟨#[0xd2, 0x00, 0x00, 0x00, 0x01, 0x01, 0x01, 0x00, 0xfe, 0xff, 0xc3]⟩ = .ok ⟨#[0xc3]⟩ := by
    decide +kernel
  have hahead : (Reader.ofBytes ⟨#[0xc7, 0x0b, 0x63, 0xd2, 0x00, 0x00, 0x00, 0x01, 0x01, 0x01, 0x00,
      0xfe, 0xff, 0xc3]⟩).cursor.ahead = [0xc7, 0x0b, 0x63, 0xd2, 0x00, 0x00, 0x00, 0x01, 0x01,
        0x01, 0x00, 0xfe, 0xff, 0xc3] ++ [] := rfl
  have hplain : plain { Options.standard with compression := .deflate } .value
      (.extension compressedBlockType
        ⟨#[0xd2, 0x00, 0x00, 0x00, 0x01, 0x01, 0x01, 0x00, 0xfe, 0xff, 0xc3]⟩)
      = .ok ⟨#[0xc7, 0x0b, 0x63, 0xd2, 0x00, 0x00, 0x00, 0x01, 0x01, 0x01, 0x00, 0xfe, 0xff,
        0xc3]⟩ := plain_of_canonical hcanonical rfl
  refine ⟨_, _, rfl, rfl, hcanonical.regular, hplain, encode_of_short rfl hplain (by decide),
    by decide, ?_, ?_, nofun⟩
  · rw [decode, readFrom, readWith_of_extended rfl (Cursor.wellFormed_ofBytes _) hahead hextended,
      hopen]
    rfl
  · rw [decode, readFrom, readWith_of_compression_none rfl]
    exact decodePlain_eq_ok hcanonical (Cursor.wellFormed_ofBytes _) hahead (by decide)

end Document

end MessagePack
