import MessagePack.Document
import MessagePack.Proofs.Command
import MessagePack.Proofs.Sink

/-!
# What a successful write has appended

A write may fail half way, and over a sink that hands out too little it does. Whatever succeeds has
put complete bytes behind the content, over any sink. So the form of what was written is told from
the success alone, in either mode and for every value, also for one that is never read back as it
was written.

* **`Appends`** says of a computation what it has appended if it succeeds. It follows the text of
  the computation, one part after the other.
* **`Value.appends_write`**: a value that was written is one complete value in the grammar.
* **`Document.isValue_writeWith`**: so is a document, whether it is plain, too short to be
  compressed, or a compressed block.
-/

namespace MessagePack

namespace Writer

variable {σ ε α β : Type} [Sink σ] {content : Sink.Content σ}

/-- Wherever a computation succeeds, it has put bytes behind the content, and these and its result
    are in a relation. -/
def Appends (content : Sink.Content σ) (m : EStateM ε (Writer σ) α)
    (G : List UInt8 → α → Prop) : Prop :=
  ∀ ⦃w w' : Writer σ⦄ ⦃a : α⦄, m w = .ok a w' →
    ∃ x, content.bytes w'.sink = content.bytes w.sink ++ x ∧ G x a

/-- A result that is given without writing appends nothing. -/
theorem Appends.of_pure {a : α} {G : List UInt8 → α → Prop} (h : G [] a) :
    Appends content (pure a : EStateM ε (Writer σ) α) G := by
  intro w w' b hok
  cases hok
  exact ⟨[], (List.append_nil _).symm, h⟩

/-- A write that always fails has nothing to show. -/
theorem Appends.of_throw {e : ε} {G : List UInt8 → α → Prop} :
    Appends content (throw e : EStateM ε (Writer σ) α) G := by
  intro w w' b hok
  cases hok

/-- What writes one after the other append stands one behind the other. -/
theorem Appends.bind {m : EStateM ε (Writer σ) α} {f : α → EStateM ε (Writer σ) β}
    {G : List UInt8 → α → Prop} {H : List UInt8 → β → Prop} (hm : Appends content m G)
    (hf : ∀ x a, G x a → Appends content (f a) fun y b => H (x ++ y) b) :
    Appends content (m >>= f) H := by
  intro w w' b hok
  obtain ⟨a, v, hma, hfa⟩ := Reader.of_bind_eq_ok hok
  obtain ⟨x, hx, ha⟩ := hm hma
  obtain ⟨y, hy, hb⟩ := hf x a ha hfa
  exact ⟨x ++ y, by rw [hy, hx, List.append_assoc], hb⟩

/-- What is computed first without writing. -/
theorem Appends.bind_silent {m : EStateM ε (Writer σ) α} {f : α → EStateM ε (Writer σ) β}
    {P : α → Prop} {H : List UInt8 → β → Prop} (hm : Appends content m fun x a => x = [] ∧ P a)
    (hf : ∀ a, P a → Appends content (f a) H) : Appends content (m >>= f) H := by
  refine hm.bind ?_
  rintro x a ⟨rfl, ha⟩
  exact hf a ha

/-- What is appended may be said less exactly. -/
theorem Appends.mono {m : EStateM ε (Writer σ) α} {G H : List UInt8 → α → Prop}
    (h : Appends content m G) (hGH : ∀ x a, G x a → H x a) : Appends content m H := by
  intro w w' a hok
  obtain ⟨x, hx, ha⟩ := h hok
  exact ⟨x, hx, hGH x a ha⟩

/-- An error of another kind does not change what is appended. -/
theorem Appends.ofWrite {m : Write σ α} {G : List UInt8 → α → Prop} (h : Appends content m G) :
    Appends content (Encode.ofWrite m) G := by
  intro w w' a hok
  rw [Encode.ofWrite, EStateM.adaptExcept] at hok
  cases hm : m w with
  | error e v =>
      rw [hm] at hok
      cases hok
  | ok b v =>
      rw [hm] at hok
      cases hok
      exact h hm

/-! ## Operations -/

/-- What is emitted with its own size comes behind the content, if a region has room for it. -/
theorem appends_emit (block : ByteArray) :
    Appends content (emit block.size block) fun x _ => x = block.data.toList := by
  rintro ⟨sink, oldSpec⟩ w' a hok
  rw [emit] at hok
  simp only at hok
  -- there was room at the first request, or at the second, or not at all
  split at hok
  · rename_i hroom
    cases hok
    exact ⟨_, by rw [content.bytes_append _ _ hroom, content.bytes_request], rfl⟩
  · split at hok
    · rename_i hroom
      cases hok
      exact ⟨_, by rw [content.bytes_append _ _ hroom, content.bytes_request,
        content.bytes_request], rfl⟩
    · cases hok

/-- Bytes that are written as they are come out as they are, also if there are none. -/
theorem appends_raw (block : ByteArray) :
    Appends content (raw block) fun x _ => x = block.data.toList := by
  rw [raw]
  split
  · rename_i hempty
    rw [ByteArray.isEmpty, beq_iff_eq, ByteArray.size_eq_zero_iff] at hempty
    rw [hempty]
    exact Appends.of_pure rfl
  · exact appends_emit block

/-- An operation that succeeds has appended the bytes that it has in some mode. -/
theorem appends_command (c : Command) :
    Appends content c.run fun x _ => ∃ oldSpec, c.output oldSpec = .ok x := by
  intro w w' a hok
  rw [c.run_eq] at hok
  cases hc : c.output w.oldSpec with
  | error e =>
      rw [hc] at hok
      cases hok
  | ok bytes =>
      rw [hc] at hok
      obtain ⟨x, hx, rfl⟩ := appends_raw _ hok
      exact ⟨_, hx, w.oldSpec, hc⟩

end Writer

/-! ## Operations that write a complete value -/

/-- Every form of an integer is a value. -/
theorem IsInteger.isValue {n : Int} {x : List UInt8} (h : IsInteger n x) : IsValue x := by
  obtain ⟨f, field, hf, rfl⟩ := h
  exact hf.isValue

/-- Every form of a timestamp is a value. -/
theorem IsTimestamp.isValue {t : Timestamp} {x : List UInt8} (h : IsTimestamp t x) :
    IsValue x := by
  obtain ⟨payload, hextended, -⟩ := h
  exact hextended.isValue

/-- A string of a mode is a string. -/
theorem strLength_of_strLengthIn {oldSpec : Bool} {f : Format} {e : Extent}
    (h : f.strLengthIn? oldSpec = some e) : f.strLength? = some e := by
  cases f with
  | str w =>
      cases w with
      | w8 =>
          cases oldSpec with
          | true => cases h
          | false => exact h
      | w16 | w32 => exact h
  | _ => exact h

/-- A format that strings have in one of the modes is that of a value with a payload. -/
theorem body?_of_strLengthIn {oldSpec : Bool} {f : Format} {e : Extent}
    (h : f.strLengthIn? oldSpec = some e) : f.body? = some (.sized e 0) :=
  body?_of_strLength (strLength_of_strLengthIn h)

/-- A format that binary data have in one of the modes is that of a value with a payload. -/
theorem body?_of_blobLengthIn {oldSpec : Bool} {f : Format} {e : Extent}
    (h : f.blobLengthIn? oldSpec = some e) : f.body? = some (.sized e 0) := by
  cases oldSpec with
  | true => exact body?_of_strLengthIn h
  | false =>
      cases f <;> cases h
      rfl

namespace Writer

/-- Whether an operation writes a complete value. The others write a header, or bytes that are given
    to them. -/
def Command.isWhole : Command → Bool
  | arrayHeader _ | mapHeader _ | strHeader _ | binHeader _ | extHeader _ | raw _ => false
  | _ => true

/-- An operation that writes a whole value puts out a value. -/
theorem Command.isValue_of_output {oldSpec : Bool} {c : Command} {x : List UInt8}
    (hc : c.isWhole = true) (h : c.output oldSpec = .ok x) : IsValue x := by
  -- what is put out is one of the forms, and every form of a token is a value
  have hencodes := Command.encodes_of_output h
  cases c with
  | nil => exact hencodes ▸ Reader.isValue_nil
  | boolean b => exact hencodes ▸ Reader.isValue_boolean b
  | compact | char => exact hencodes.1.isValue
  | explicit t n =>
      obtain ⟨field, hfield, rfl⟩ := hencodes
      exact hfield.isValue
  | float32 v =>
      obtain ⟨field, hfield, -, rfl⟩ := hencodes
      exact Reader.isValue_float32 hfield
  | float64 v =>
      obtain ⟨field, hfield, -, rfl⟩ := hencodes
      exact Reader.isValue_float64 hfield
  | str text | strBytes utf8 =>
      obtain ⟨header, hheader, rfl⟩ := hencodes
      exact hheader.1.isValue (fun _ _ => body?_of_strLengthIn) rfl
  | bin block =>
      obtain ⟨header, hheader, rfl⟩ := hencodes
      exact hheader.1.isValue (fun _ _ => body?_of_blobLengthIn) rfl
  | ext type payload =>
      obtain ⟨header, hheader, rfl⟩ := hencodes
      exact hheader.1.isValue (fun _ _ => body?_of_extLength) rfl
  | timestamp | dateTime => exact hencodes.1.isValue
  | arrayHeader | mapHeader | strHeader | binHeader | extHeader | raw => cases hc

variable {σ : Type} [Sink σ] {content : Sink.Content σ}

/-- An operation that writes a whole value appends a value, to any sink that keeps its promise. -/
theorem appends_whole {c : Command} (hc : c.isWhole = true) :
    Appends content (Encode.ofWrite c.run) fun x _ => IsValue x :=
  (appends_command c).ofWrite.mono fun _ _ ⟨_, h⟩ => Command.isValue_of_output hc h

theorem appends_arrayHeader (n : UInt32) : Appends content
    (Encode.ofWrite (token (.arrayHeader n)))
    fun x _ => Headed Format.arrayCount? n.toNat x :=
  (appends_command (.arrayHeader n)).ofWrite.mono fun _ _ ⟨_, h⟩ =>
    (Command.encodes_of_output h).1

theorem appends_mapHeader (n : UInt32) : Appends content
    (Encode.ofWrite (token (.mapHeader n)))
    fun x _ => Headed Format.mapCount? n.toNat x :=
  (appends_command (.mapHeader n)).ofWrite.mono fun _ _ ⟨_, h⟩ =>
    (Command.encodes_of_output h).1

/-- A length that fits into 32 bits is given as it is, and nothing is written for it. -/
theorem appends_length (n : Nat) :
    Appends (ε := WriteError) content (length n) fun x m => x = [] ∧ m.toNat = n ∧ n < 2 ^ 32 := by
  rw [length, checkedLength]
  by_cases h : n < 2 ^ 32
  · rw [if_pos h]
    exact Appends.of_pure ⟨rfl, UInt32.toNat_ofNat_of_lt' h, h⟩
  · rw [if_neg h]
    exact Appends.of_throw

end Writer

/-! ## Values -/

namespace Value

open Writer

variable {σ : Type} [Sink σ] {content : Sink.Content σ}

/-- The count of a container is given as it is, and nothing is written for it. -/
theorem appends_countField (n : Nat) :
    Appends content (countField (σ := σ) n) fun x m => x = [] ∧ m.toNat = n := by
  rw [countField, checkedLength]
  by_cases h : n < 2 ^ 32
  · rw [if_pos h]
    exact Appends.of_pure ⟨rfl, UInt32.toNat_ofNat_of_lt' h⟩
  · rw [if_neg h]
    exact Appends.of_throw

mutual

/-- **A VALUE THAT WAS WRITTEN** is one complete value, in either mode. -/
theorem appends_write : (v : Value) →
    Appends content (v.write (σ := σ)) fun x _ => IsValue x
  | nil => appends_whole (c := .nil) rfl
  | boolean b => appends_whole (c := .boolean b) rfl
  | integer n => appends_whole (c := .compact (.signed .w64) ⟨n.toInt, int64_mem n⟩) rfl
  | unsigned n => appends_whole (c := .compact (.unsigned .w64) ⟨n.toNat, uint64_mem n⟩) rfl
  | float32 f => appends_whole (c := .float32 f) rfl
  | float64 f => appends_whole (c := .float64 f) rfl
  | string text => appends_whole (c := .str text) rfl
  | binary bytes => appends_whole (c := .bin bytes) rfl
  | timestamp t => appends_whole (c := .timestamp t) rfl
  | extension type payload => appends_whole (c := .ext type payload) rfl
  -- the header announces as many values as the row has
  | array items => by
      rw [write]
      refine (appends_countField items.length).bind_silent fun n hn => ?_
      refine (appends_arrayHeader n).bind fun header _ hheader => ?_
      refine (appends_writeItems items).mono fun row _ hrow => ?_
      rw [hn] at hheader
      exact hheader.isValue_of_row (fun _ _ => body?_of_arrayCount) (by rwa [Nat.one_mul])
  | map entries => by
      rw [write]
      refine (appends_countField entries.length).bind_silent fun n hn => ?_
      refine (appends_mapHeader n).bind fun header _ hheader => ?_
      refine (appends_writeEntries entries).mono fun row _ hrow => ?_
      rw [hn] at hheader
      exact hheader.isValue_of_row (fun _ _ => body?_of_mapCount) hrow

/-- A list of values is written as a row of as many. -/
theorem appends_writeItems : (items : List Value) →
    Appends content (writeItems (σ := σ) items) fun x _ => IsRow items.length x
  | [] => Appends.of_pure isRow_zero
  | v :: items => by
      rw [writeItems]
      refine (appends_write v).bind fun x _ hx => ?_
      exact (appends_writeItems items).mono fun row _ hrow => hrow.cons hx

/-- A list of entries is written as a row of twice as many values. -/
theorem appends_writeEntries : (entries : List (Value × Value)) →
    Appends content (writeEntries (σ := σ) entries) fun x _ => IsRow (2 * entries.length) x
  | [] => Appends.of_pure isRow_zero
  | (k, v) :: entries => by
      rw [writeEntries]
      refine (appends_write k).bind fun x _ hx => ?_
      refine (appends_write v).bind fun y _ hy => ?_
      refine (appends_writeEntries entries).mono fun row _ hrow => ?_
      exact (hrow.cons hy).cons hx

end

end Value

/-! ## Documents -/

namespace CompressedBlock

open Writer

variable {σ : Type} [Sink σ] {content : Sink.Content σ}

theorem appends_lengthField (n : Nat) :
    Appends content (lengthField (σ := σ) n) fun x _ => x = [] ∧ True := by
  rw [lengthField]
  split
  · exact Appends.of_pure ⟨rfl, trivial⟩
  · exact Appends.of_throw

/-- To compress a document writes nothing. -/
theorem appends_compressed (c : BlockCompressor) (document : ByteArray) :
    Appends content (compressed (σ := σ) c document)
      fun x bytes => x = [] ∧ c.compress document = some bytes := by
  rw [compressed]
  split
  · rename_i bytes hbytes
    exact Appends.of_pure ⟨rfl, hbytes⟩
  · exact Appends.of_throw

/-- **A COMPRESSED BLOCK** is an extension whose header counts the field of the length and the
    compressed bytes behind it, although these are written one by one. -/
theorem appends_write (c : BlockCompressor) (document : ByteArray) :
    Appends content (write (σ := σ) c document) fun x _ =>
      ∃ field bytes, field.length = lengthFieldSize ∧ c.compress document = some bytes
        ∧ Reader.Extended x compressedBlockType (field ++ bytes.data.toList) := by
  rw [write]
  refine (appends_lengthField document.size).bind_silent fun length _ => ?_
  refine (appends_compressed c document).bind_silent fun bytes hbytes => ?_
  refine (appends_length _).ofWrite.bind_silent fun size hsize => ?_
  -- the parts of the block are written one after the other, and nothing comes between
  refine ((appends_command (.extHeader ⟨compressedBlockType, size⟩)).bind fun header _ hheader =>
    (appends_command (.explicit lengthType length)).bind fun field _ hfield =>
      (appends_raw bytes).mono fun x _ hx => ?_).ofWrite
  obtain ⟨_, hheader⟩ := hheader
  obtain ⟨_, hfield⟩ := hfield
  cases hheader
  cases hfield
  obtain ⟨hsize, hlt⟩ := hsize
  have hlength : ((Format.int lengthType).byte :: lengthType.encode length.val).length
      = lengthFieldSize := by
    rw [List.length_cons, IntType.length_encode, Nat.add_comm, lengthFieldSize]
  have hpayload : ((Format.int lengthType).byte :: lengthType.encode length.val
      ++ bytes.data.toList).length = size.toNat := by
    rw [List.length_append, hlength, Segments.length_toList_data, hsize]
  refine ⟨_, bytes, hlength, hbytes, ?_⟩
  rw [hx, ← hpayload]
  exact Token.extended_encodeExtHeader compressedBlockType (by rw [hpayload, hsize]; exact hlt)

end CompressedBlock

namespace Document

open Writer

variable {σ : Type} {options : Options} {v : Value}

/-- A run on a sink that succeeds is one of a writer, whose sink is left. -/
theorem of_onSink {m : Encode σ Unit} {oldSpec : Bool} {s t : σ}
    (h : onSink oldSpec m s = .ok () t) : ∃ w, m ⟨s, oldSpec⟩ = .ok () w ∧ w.sink = t := by
  rw [onSink] at h
  cases hm : m ⟨s, oldSpec⟩ with
  | error e w =>
      rw [hm] at h
      cases h
  | ok a w =>
      rw [hm] at h
      cases h
      exact ⟨w, rfl, rfl⟩

variable [Sink σ] {content : Sink.Content σ}

/-- What a computation that writes values has appended to a sink. -/
theorem isValue_onSink {m : Encode σ Unit} {oldSpec : Bool} {s t : σ}
    (hm : Appends content m fun x _ => IsValue x) (h : onSink oldSpec m s = .ok () t) :
    ∃ x, content.bytes t = content.bytes s ++ x ∧ IsValue x := by
  obtain ⟨w, hok, rfl⟩ := of_onSink h
  exact hm hok

/-- A plain document is what the value was written as to an empty buffer. -/
theorem of_plain {document : ByteArray} (h : plain options .value v = .ok document) :
    ∃ w : Writer Buffer, v.write ⟨Buffer.empty, options.oldSpec⟩ = .ok () w
      ∧ w.sink.content = document := by
  rw [plain] at h
  cases hbuffer : onSink options.oldSpec (Schema.value.write v) Buffer.empty with
  | error e buffer =>
      rw [hbuffer] at h
      cases h
  | ok a buffer =>
      rw [hbuffer] at h
      cases h
      obtain ⟨w, hok, rfl⟩ := of_onSink hbuffer
      exact ⟨w, hok, rfl⟩

/-- What is known of the bytes that a value was written as holds of its plain form. -/
theorem of_plain_appends {document : ByteArray} {G : List UInt8 → Unit → Prop}
    (hv : Appends (.ofLawful Buffer) v.write G) (h : plain options .value v = .ok document) :
    G document.data.toList () := by
  obtain ⟨w, hok, rfl⟩ := of_plain h
  obtain ⟨x, hx, hG⟩ := hv hok
  have hbytes : w.sink.content.data.toList = x := hx
  rwa [hbytes]

/-- The plain form of a document is one complete value. -/
theorem isValue_plain {document : ByteArray} (h : plain options .value v = .ok document) :
    IsValue document.data.toList :=
  of_plain_appends v.appends_write h

/-- A document is packed as a value: as itself, or as a compressed block. -/
theorem appends_pack (c : BlockCompressor) {document : ByteArray}
    (h : IsValue document.data.toList) :
    Appends content (pack (σ := σ) c options document) fun x _ => IsValue x := by
  rw [pack]
  split
  · refine (appends_raw document).ofWrite.mono ?_
    rintro x _ rfl
    exact h
  · refine (CompressedBlock.appends_write c document).mono ?_
    rintro x _ ⟨field, bytes, -, -, hextended⟩
    exact hextended.isValue

/-- **A DOCUMENT THAT WAS WRITTEN** is one complete value, in every form that it can have. -/
theorem isValue_writeWith (content : Sink.Content σ) {c : BlockCompressor} {s t : σ}
    (h : writeWith c options .value v s = .ok () t) :
    ∃ x, content.bytes t = content.bytes s ++ x ∧ IsValue x := by
  rw [writeWith] at h
  -- with compression the value goes to a buffer of its own first
  cases hcompression : options.compression with
  | none =>
      rw [hcompression] at h
      exact isValue_onSink v.appends_write h
  | deflate =>
      rw [hcompression] at h
      cases hplain : plain options .value v with
      | error e =>
          rw [hplain] at h
          cases h
      | ok document =>
          rw [hplain] at h
          exact isValue_onSink (appends_pack c (isValue_plain hplain)) h

end Document

end MessagePack
