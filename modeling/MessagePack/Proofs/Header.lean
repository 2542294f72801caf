import MessagePack.Proofs.Command
import MessagePack.Proofs.Outcome

/-!
# Headers in every form

A number has several headers of each kind: in the lead byte, and in each field that has room for it.
The forms are written out here with their lead bytes (`HeaderForm`), so nothing in them comes from
the tables that readers go by, and they are shown to be what these tables find (`headerForm_iff`).

* **`HeaderKind.IsRead`** says what reading a header comes to: on the header with anything behind
  it, on every strict start of it, and, for the headers that are checked against the input, with too
  little behind it.
* **`Reader.mapHeaderInWords`** checks the number of entries of a map with words of 64 bits, as a
  machine does, and is the same as `Reader.mapHeader`.
* **`header_any_form`**: every form is read so, and what is written is one of the forms.
-/

namespace MessagePack

/-- The kinds of headers. -/
inductive HeaderKind where
  | array
  | map
  | str
  | bin
  | ext
  deriving DecidableEq

/-! ## The forms -/

namespace HeaderKind

/-- Lead bytes in a row that stand for the numbers from zero on. -/
def inLeads (first count : Nat) : List (UInt8 × Extent) :=
  (List.range count).map fun n => (UInt8.ofNat (first + n), .inLead n)

/-- Lead bytes that a field follows. -/
def inFields (fields : List (UInt8 × Width)) : List (UInt8 × Extent) :=
  fields.map fun p => (p.1, .field p.2)

/-- The lead bytes of a kind, and where the number is. Binary data may have the header of a
    string. -/
def leads : HeaderKind → List (UInt8 × Extent)
  | array => inLeads 0x90 16 ++ inFields arrayFields
  | map => inLeads 0x80 16 ++ inFields mapFields
  | str => inLeads 0xa0 32 ++ inFields [(0xd9, .w8), (0xda, .w16), (0xdb, .w32)]
  | bin => inLeads 0xa0 32 ++ inFields payloadFields
  | ext => extensionPayloads.map (fun p => (p.1, .inLead p.2)) ++ inFields extensionFields

/-- Where the number is by the table of a kind. -/
def select : HeaderKind → Format → Option Extent
  | array => Format.arrayCount?
  | map => Format.mapCount?
  | str => Format.strLength?
  | bin => Format.binLength?
  | ext => Format.extLength?

/-- In the tables of all kinds a number takes four bytes at most. -/
theorem narrow_select (kind : HeaderKind) : Narrow kind.select := by
  cases kind with
  | array => exact narrow_arrayCount
  | map => exact narrow_mapCount
  | str => exact narrow_strLength
  | bin => exact narrow_binLength
  | ext => exact narrow_extLength

/-- The lead bytes that are listed are those of the table. -/
theorem select_iff {kind : HeaderKind} {b : UInt8} {e : Extent} :
    kind.select (.ofByte b) = some e ↔ (b, e) ∈ kind.leads := by
  constructor
  · have hall : ∀ n : Fin 256, ∀ e ∈ kind.select (.ofByte (UInt8.ofFin n)),
        (UInt8.ofFin n, e) ∈ kind.leads := by
      cases kind <;> decide +kernel
    exact hall b.toFin e
  · have hall : ∀ p ∈ kind.leads, kind.select (.ofByte p.1) = some p.2 := by
      cases kind <;> decide
    exact hall (b, e)

end HeaderKind

/-- The forms of a header that have room for a number. The byte of the type of an extension comes
    behind them. -/
inductive HeaderForm (kind : HeaderKind) (n : Nat) : List UInt8 → Prop
  /-- The number is part of the lead byte. -/
  | inLead {b : UInt8} (h : (b, .inLead n) ∈ kind.leads) : HeaderForm kind n [b]
  /-- The number is in the field behind the lead byte, big-endian. -/
  | field {b : UInt8} {w : Width} (h : (b, .field w) ∈ kind.leads) (hn : n < 256 ^ w.bytes) :
      HeaderForm kind n (b :: BigEndian.encode w.bytes n)

/-- **THE FORMS ARE ALL THERE ARE**: the tables find a number in these bytes and in no others. -/
theorem headerForm_iff {kind : HeaderKind} {n : Nat} {x : List UInt8} :
    HeaderForm kind n x ↔ Headed kind.select n x := by
  constructor
  · rintro (@⟨b, h⟩ | @⟨b, w, h, hn⟩)
    · exact ⟨.ofByte b, .inLead n, [], HeaderKind.select_iff.mpr h, .inLead n,
        by rw [Format.byte_ofByte]⟩
    · exact ⟨.ofByte b, .field w, _, HeaderKind.select_iff.mpr h, Extent.holds_encode hn,
        by rw [Format.byte_ofByte]⟩
  · rintro ⟨f, e, field, hf, he, rfl⟩
    rw [← Format.ofByte_byte f] at hf
    have hlead := HeaderKind.select_iff.mp hf
    -- a field has one content for each number, the big-endian one
    cases e with
    | inLead m =>
        obtain ⟨rfl, rfl⟩ := he.of_inLead
        exact .inLead hlead
    | field w =>
        obtain ⟨hlength, hlt⟩ := Token.lt_of_holds he
        obtain ⟨-, rfl⟩ := he.of_field
        have hfield := BigEndian.encode_decode field
        rw [hlength] at hfield
        have hform := HeaderForm.field hlead hlt
        rwa [hfield] at hform

/-- Data of the old specification stores binary data as strings. -/
theorem HeaderForm.bin_of_str {n : Nat} {x : List UInt8} (h : HeaderForm .str n x) :
    HeaderForm .bin n x := by
  have hleads : ∀ p ∈ HeaderKind.str.leads, p ∈ HeaderKind.bin.leads := by decide
  cases h with
  | inLead h => exact .inLead (hleads _ h)
  | field h hn => exact .field (hleads _ h) hn

/-! ## Reading -/

namespace Reader

variable {kind : HeaderKind} {n : UInt32} {x : List UInt8}

/-- A form of a header is read as its number. -/
theorem gives_header? (h : HeaderForm kind n.toNat x) : Gives (header? kind.select) x (some n) := by
  refine Gives.of_reads fun d rest => ?_
  refine (Reads.header? kind.narrow_select (headerForm_iff.mp h)).imp ?_
  rintro o ⟨m, rfl, hm⟩
  rw [UInt32.toNat.inj hm]

/-- An attempt finds what is given. -/
theorem Gives.attempt {α : Type} {m : Read (Option α)} {a : α} (h : Gives m x (some a)) :
    Gives (attempt m) x (some a) := by
  intro r rest hr hahead
  rw [Reader.attempt, h hr hahead]

/-- A form of the header of an extension, with its type behind it, is read as both. -/
theorem gives_tryExtHeader {type : Int8} (h : HeaderForm .ext n.toNat x) :
    Gives tryExtHeader (x ++ [type.toUInt8]) (some ⟨type, n⟩) := by
  refine Gives.of_reads fun d rest => (Reads.tryExtHeader (headerForm_iff.mp h)).imp ?_
  rintro o ⟨⟨t, m⟩, rfl, ht, hm⟩
  dsimp only at ht hm
  rw [ht, Int8.toInt8_toUInt8, UInt32.toNat.inj hm]

/-! ## The check of a map in words -/

/-- `Reader.mapHeader` with the number of bytes that the entries need computed in a word of 64
    bits. -/
def mapHeaderInWords : Read UInt32 := do
  let n ← require tryMapHeader
  if (← get).remaining < (2 * n.toUInt64).toNat then throw .endOfStream else pure n

/-- Twice a number of 32 bits is computed in a word of 64 bits without overflow. -/
theorem toNat_two_mul_toUInt64 (n : UInt32) : (2 * n.toUInt64).toNat = 2 * n.toNat := by
  have hlt := n.toNat_lt
  rw [UInt64.toNat_mul, UInt32.toNat_toUInt64]
  exact Nat.mod_eq_of_lt (show 2 * n.toNat < 2 ^ 64 by omega)

/-- The check of a map comes out in words as it does in numbers. -/
theorem mapHeaderInWords_eq : mapHeaderInWords = mapHeader := by
  simp only [mapHeaderInWords, mapHeader, toNat_two_mul_toUInt64]

end Reader

namespace HeaderKind

open Reader

/-- What comes between the number of a header and what the header is of. -/
def tail (kind : HeaderKind) (type : Int8) : List UInt8 :=
  match kind with
  | ext => [type.toUInt8]
  | array | map | str | bin => []

/-- What reading a header comes to. The number is given in each case; arrays, maps and extensions
    may be waited for, and are also read with a check that the input can hold what is announced. -/
def IsRead (kind : HeaderKind) (n : UInt32) (type : Int8) (x : List UInt8) : Prop :=
  match kind with
  | array => Gives tryArrayHeader x (some n) ∧ WaitsWithin tryArrayHeader x
      ∧ Checks arrayHeader x n n.toNat
  | map => Gives tryMapHeader x (some n) ∧ WaitsWithin tryMapHeader x
      ∧ Checks mapHeader x n (2 * n.toNat)
  | str => Gives strHeader x n ∧ FailsWithin strHeader x
  | bin => Gives binHeader x n ∧ FailsWithin binHeader x
  | ext => Gives tryExtHeader x (some ⟨type, n⟩) ∧ WaitsWithin tryExtHeader x
      ∧ Checks extHeader x ⟨type, n⟩ n.toNat

variable {kind : HeaderKind} {n : UInt32} {x : List UInt8}

/-- Every form of a header is read as it is to be. -/
theorem isRead_of_form (type : Int8) (h : HeaderForm kind n.toNat x) :
    kind.IsRead n type (x ++ kind.tail type) := by
  -- three kinds can be attempted and wait, the other two fail where bytes are missing
  cases kind with
  | array =>
      rw [tail, List.append_nil]
      have hgives : Gives tryArrayHeader x (some n) := (gives_header? h).attempt
      exact ⟨hgives, hgives.endsBehind.waitsWithin (fun _ _ => Stable.tryArrayHeader)
        Waits.tryArrayHeader, hgives.require.checks⟩
  | map =>
      rw [tail, List.append_nil]
      have hgives : Gives tryMapHeader x (some n) := (gives_header? h).attempt
      exact ⟨hgives, hgives.endsBehind.waitsWithin (fun _ _ => Stable.tryMapHeader)
        Waits.tryMapHeader, hgives.require.checks⟩
  | str =>
      rw [tail, List.append_nil]
      have hgives : Gives strHeader x n := (gives_header? h).require
      exact ⟨hgives, hgives.endsBehind.failsWithin fun _ _ => Stable.strHeader⟩
  | bin =>
      rw [tail, List.append_nil]
      have hgives : Gives binHeader x n := (gives_header? h).require
      exact ⟨hgives, hgives.endsBehind.failsWithin fun _ _ => Stable.binHeader⟩
  | ext =>
      have hgives : Gives tryExtHeader (x ++ [type.toUInt8]) (some ⟨type, n⟩) :=
        gives_tryExtHeader h
      exact ⟨hgives, hgives.endsBehind.waitsWithin (fun _ _ => Stable.tryExtHeader)
        Waits.tryExtHeader, hgives.require.checks⟩

/-! ## Writing -/

/-- The operation that writes a header. -/
def command (kind : HeaderKind) (n : UInt32) (type : Int8) : Writer.Command :=
  match kind with
  | array => .arrayHeader n
  | map => .mapHeader n
  | str => .strHeader n.toNat
  | bin => .binHeader n.toNat
  | ext => .extHeader ⟨type, n⟩

/-- What is written for a header, in either mode, is one of its forms. -/
theorem exists_output_command (kind : HeaderKind) (n : UInt32) (type : Int8) (oldSpec : Bool) :
    ∃ x, HeaderForm kind n.toNat x
      ∧ (kind.command n type).output oldSpec = .ok (x ++ kind.tail type) := by
  have hlt := n.toNat_lt
  simp only [headerForm_iff]
  cases kind with
  | array => exact ⟨_, (Token.shortest_encodeArrayHeader n).1, by rw [tail, List.append_nil]; rfl⟩
  | map => exact ⟨_, (Token.shortest_encodeMapHeader n).1, by rw [tail, List.append_nil]; rfl⟩
  | str =>
      refine ⟨_, Token.headed_encodeStrHeader oldSpec hlt, ?_⟩
      rw [tail, List.append_nil]
      exact if_pos hlt
  | bin =>
      refine ⟨_, Token.headed_encodeBlobHeader oldSpec hlt, ?_⟩
      rw [tail, List.append_nil]
      exact if_pos hlt
  | ext =>
      exact ⟨_, Token.headed_encodeExtLength hlt,
        congrArg Except.ok (Token.encodeExtHeader_eq type n.toNat)⟩

end HeaderKind

/-! ## The result -/

/-- **HEADERS ARE READ AS WRITTEN, IN EVERY FORM.** Take any kind of header, any number of 32 bits
    and any extension type.
    * Every form with room for the number is read as the number, and as the type with it, whatever
      is behind it, and no byte of that is consumed. Within the header, reads that may wait do so,
      and the others fail for want of bytes. Reads that check the number succeed exactly if a byte
      for each element, two for each entry or the payload of the extension are behind the header.
    * A header of a string is a header of binary data, too.
    * Writing a header puts out one of its forms, in either mode and over any lawful sink.
    * The check of a map multiplies in words and is the same there: twice the number is computed in
      a word without overflow. -/
theorem header_any_form (kind : HeaderKind) (n : UInt32) (type : Int8) :
    (∀ x, HeaderForm kind n.toNat x → kind.IsRead n type (x ++ kind.tail type))
      ∧ (∀ x, HeaderForm .str n.toNat x → HeaderForm .bin n.toNat x)
      ∧ (∀ (σ : Type) [LawfulSink σ] (oldSpec : Bool), ∃ x, HeaderForm kind n.toNat x
        ∧ Writer.Emits (σ := σ) oldSpec (kind.command n type).run (x ++ kind.tail type) ())
      ∧ Reader.mapHeaderInWords = Reader.mapHeader
      ∧ (2 * n.toUInt64).toNat = 2 * n.toNat := by
  refine ⟨fun x h => HeaderKind.isRead_of_form type h, fun x h => h.bin_of_str, ?_,
    Reader.mapHeaderInWords_eq, Reader.toNat_two_mul_toUInt64 n⟩
  intro σ _ oldSpec
  obtain ⟨x, hform, houtput⟩ := kind.exists_output_command n type oldSpec
  exact ⟨x, hform, Writer.emits_command houtput⟩

/-- A header of three entries that is wider than it needs to be: six bytes behind it are enough, and
    five are not. Without its last byte it is waited for. -/
theorem header_any_form_map :
    HeaderForm .map 3 [0xde, 0x00, 0x03]
      ∧ Reader.mapHeader (.ofBytes ⟨#[0xde, 0x00, 0x03, 0x01, 0xc0, 0x02, 0xc0, 0x03, 0xc0]⟩)
        = .ok 3 ((Reader.ofBytes ⟨#[0xde, 0x00, 0x03, 0x01, 0xc0, 0x02, 0xc0, 0x03, 0xc0]⟩).past 3)
      ∧ Reader.mapHeader (.ofBytes ⟨#[0xde, 0x00, 0x03, 0x01, 0xc0, 0x02, 0xc0, 0x03]⟩)
        = .error .endOfStream
          ((Reader.ofBytes ⟨#[0xde, 0x00, 0x03, 0x01, 0xc0, 0x02, 0xc0, 0x03]⟩).past 3)
      ∧ Reader.tryMapHeader (.ofBytes ⟨#[0xde, 0x00]⟩) = .ok none (.ofBytes ⟨#[0xde, 0x00]⟩) := by
  have hform : HeaderForm .map 3 [0xde, 0x00, 0x03] :=
    .field (w := .w16) (by decide) (by decide)
  have hread : HeaderKind.map.IsRead 3 0 [0xde, 0x00, 0x03] := (header_any_form .map 3 0).1 _ hform
  obtain ⟨-, hwaits, hchecks⟩ := hread
  have hsix : (Cursor.ofBytes ⟨#[0xde, 0x00, 0x03, 0x01, 0xc0, 0x02, 0xc0, 0x03, 0xc0]⟩).ahead
      = [0xde, 0x00, 0x03] ++ [0x01, 0xc0, 0x02, 0xc0, 0x03, 0xc0] := Cursor.ahead_ofBytes _
  have hfive : (Cursor.ofBytes ⟨#[0xde, 0x00, 0x03, 0x01, 0xc0, 0x02, 0xc0, 0x03]⟩).ahead
      = [0xde, 0x00, 0x03] ++ [0x01, 0xc0, 0x02, 0xc0, 0x03] := Cursor.ahead_ofBytes _
  refine ⟨hform, ?_, ?_, ?_⟩
  · exact hchecks (r := .ofBytes _) (Cursor.wellFormed_ofBytes _) hsix
  · exact hchecks (r := .ofBytes _) (Cursor.wellFormed_ofBytes _) hfive
  · exact hwaits (y := [0xde, 0x00]) (z := [0x03]) (Cursor.wellFormed_ofBytes _)
      (Cursor.ahead_ofBytes _) rfl (List.cons_ne_nil _ _)

end MessagePack
