import MessagePack.Proofs.Encoding
import MessagePack.Proofs.Value

/-!
# Writing and reading undo each other

A value that is read is in canonical form, a value in canonical form is written, and what was
written is read again. The three meet in one list of bytes, `Value.encoding v`, which is what is
written over any lawful sink and is the shortest of all the encodings that the value is read from.

* **`Value.Canonical`** is what distinguishes values that come from bytes from those that do not:
  non-negative integers are `unsigned`, timestamps are no extensions, and lengths fit into 32 bits.
* **`Value.emits_write`**, **`Value.encoded_encoding`** and **`Value.length_encoding_le`** say what
  the encoding is to the writer, to the reader, and among all others.
-/

namespace MessagePack

namespace Value

open Reader Writer

/-! ## Canonical values -/

/-- The values that have an encoding that they are read back from. -/
inductive Canonical : Value → Prop
  | nil : Canonical .nil
  | boolean (b : Bool) : Canonical (.boolean b)
  | integer {n : Int64} (h : n < 0) : Canonical (.integer n)
  | unsigned (n : UInt64) : Canonical (.unsigned n)
  | float32 (x : Binary32) : Canonical (.float32 x)
  | float64 (x : Binary64) : Canonical (.float64 x)
  | string {t : String} (h : t.toUTF8.size < 2 ^ 32) : Canonical (.string t)
  | binary {bytes : ByteArray} (h : bytes.size < 2 ^ 32) : Canonical (.binary bytes)
  | array {items : List Value} (h : items.length < 2 ^ 32) (hitems : ∀ v ∈ items, Canonical v) :
      Canonical (.array items)
  | map {entries : List (Value × Value)} (h : entries.length < 2 ^ 32)
      (hkeys : ∀ e ∈ entries, Canonical e.1) (hvalues : ∀ e ∈ entries, Canonical e.2) :
      Canonical (.map entries)
  | timestamp {t : Timestamp} (h : t.nanoseconds.toNat < nanosPerSecond) : Canonical (.timestamp t)
  | extension {type : Int8} {payload : ByteArray} (htype : type ≠ timestampType)
      (h : payload.size < 2 ^ 32) : Canonical (.extension type payload)

/-- The values that are written: no limit of the format is exceeded. An integer may be held either
    way. -/
inductive Storable : Value → Prop
  | nil : Storable .nil
  | boolean (b : Bool) : Storable (.boolean b)
  | integer (n : Int64) : Storable (.integer n)
  | unsigned (n : UInt64) : Storable (.unsigned n)
  | float32 (x : Binary32) : Storable (.float32 x)
  | float64 (x : Binary64) : Storable (.float64 x)
  | string {t : String} (h : t.toUTF8.size < 2 ^ 32) : Storable (.string t)
  | binary {bytes : ByteArray} (h : bytes.size < 2 ^ 32) : Storable (.binary bytes)
  | array {items : List Value} (h : items.length < 2 ^ 32) (hitems : ∀ v ∈ items, Storable v) :
      Storable (.array items)
  | map {entries : List (Value × Value)} (h : entries.length < 2 ^ 32)
      (hkeys : ∀ e ∈ entries, Storable e.1) (hvalues : ∀ e ∈ entries, Storable e.2) :
      Storable (.map entries)
  | timestamp (t : Timestamp) : Storable (.timestamp t)
  | extension {type : Int8} {payload : ByteArray} (htype : type ≠ timestampType)
      (h : payload.size < 2 ^ 32) : Storable (.extension type payload)

/-- Canonical values exceed no limit. -/
theorem Canonical.storable {v : Value} (h : v.Canonical) : v.Storable := by
  induction h with
  | nil => exact .nil
  | boolean b => exact .boolean b
  | integer h => exact .integer _
  | unsigned n => exact .unsigned n
  | float32 x => exact .float32 x
  | float64 x => exact .float64 x
  | string h => exact .string h
  | binary h => exact .binary h
  | array h _ ih => exact .array h ih
  | map h _ _ ihkeys ihvalues => exact .map h ihkeys ihvalues
  | timestamp h => exact .timestamp _
  | extension htype h => exact .extension htype h

/-! ## The encoding that is written -/

mutual

/-- The bytes of a value in the smallest formats. -/
def encoding : Value → List UInt8
  | nil => Token.encode .nil
  | boolean b => Token.encode (.boolean b)
  | integer n => Token.encodeInt n.toInt
  | unsigned n => Token.encodeInt n.toNat
  | float32 x => Token.encode (.float32 x)
  | float64 x => Token.encode (.float64 x)
  | string text => Token.encodeStrHeader false text.toUTF8.size ++ text.toUTF8.data.toList
  | binary bytes => Token.encodeBinHeader bytes.size ++ bytes.data.toList
  | array items => Token.encodeArrayHeader items.length ++ encodingItems items
  | map entries => Token.encodeMapHeader entries.length ++ encodingEntries entries
  | timestamp t => Token.encodeTimestamp t
  | extension type payload => Token.encodeExtHeader type payload.size ++ payload.data.toList

/-- The bytes of a list of values. -/
def encodingItems : List Value → List UInt8
  | [] => []
  | v :: rest => v.encoding ++ encodingItems rest

/-- The bytes of a list of entries, each key before its value. -/
def encodingEntries : List (Value × Value) → List UInt8
  | [] => []
  | (k, v) :: rest => k.encoding ++ v.encoding ++ encodingEntries rest

end

/-- The items of an array are written one after the other. -/
theorem encodingItems_eq (items : List Value) :
    encodingItems items = (items.map encoding).flatten := by
  induction items with
  | nil => rfl
  | cons v items ih => rw [encodingItems, ih, List.map_cons, List.flatten_cons]

theorem encodingEntries_eq (entries : List (Value × Value)) :
    encodingEntries entries = (entries.map fun e => e.1.encoding ++ e.2.encoding).flatten := by
  induction entries with
  | nil => rfl
  | cons e entries ih =>
      obtain ⟨k, v⟩ := e
      rw [encodingEntries, ih, List.map_cons, List.flatten_cons]

/-! ## The encoding is what is written -/

variable {σ : Type} [LawfulSink σ]

/-- A count that fits into 32 bits is accepted, and puts out nothing by itself. -/
theorem emits_countField {oldSpec : Bool} {n : Nat} (h : n < 2 ^ 32) :
    Emits (σ := σ) oldSpec (countField n) [] (UInt32.ofNat n) := by
  rw [countField, checkedLength_of_lt h]
  exact Emits.of_pure _

/-- The header of an array is put out as the token is. -/
theorem emits_arrayHeader {oldSpec : Bool} {n : Nat} (h : n < 2 ^ 32) :
    Emits (σ := σ) oldSpec (Encode.ofWrite (Writer.token (.arrayHeader (UInt32.ofNat n))))
      (Token.encodeArrayHeader n) () := by
  have htoken : (Token.arrayHeader (UInt32.ofNat n)).encode = Token.encodeArrayHeader n := by
    rw [Token.encode, UInt32.toNat_ofNat_of_lt' h]
  rw [← htoken]
  exact (emits_token _).ofWrite

theorem emits_mapHeader {oldSpec : Bool} {n : Nat} (h : n < 2 ^ 32) :
    Emits (σ := σ) oldSpec (Encode.ofWrite (Writer.token (.mapHeader (UInt32.ofNat n))))
      (Token.encodeMapHeader n) () := by
  have htoken : (Token.mapHeader (UInt32.ofNat n)).encode = Token.encodeMapHeader n := by
    rw [Token.encode, UInt32.toNat_ofNat_of_lt' h]
  rw [← htoken]
  exact (emits_token _).ofWrite

/-- A list of values is written, if each of them is. -/
theorem emits_writeItems {items : List Value}
    (h : ∀ v ∈ items, Emits (σ := σ) false v.write v.encoding ()) :
    Emits (σ := σ) false (writeItems items) (encodingItems items) () := by
  induction items with
  | nil =>
      rw [writeItems, encodingItems]
      exact Emits.of_pure ()
  | cons v items ih =>
      obtain ⟨hv, hitems⟩ := List.forall_mem_cons.mp h
      rw [writeItems, encodingItems]
      exact hv.bind (ih hitems)

theorem emits_writeEntries {entries : List (Value × Value)}
    (hkeys : ∀ e ∈ entries, Emits (σ := σ) false e.1.write e.1.encoding ())
    (hvalues : ∀ e ∈ entries, Emits (σ := σ) false e.2.write e.2.encoding ()) :
    Emits (σ := σ) false (writeEntries entries) (encodingEntries entries) () := by
  induction entries with
  | nil =>
      rw [writeEntries, encodingEntries]
      exact Emits.of_pure ()
  | cons e entries ih =>
      obtain ⟨k, v⟩ := e
      obtain ⟨hk, hkeys⟩ := List.forall_mem_cons.mp hkeys
      obtain ⟨hv, hvalues⟩ := List.forall_mem_cons.mp hvalues
      rw [writeEntries, encodingEntries, List.append_assoc]
      exact hk.bind (hv.bind (ih hkeys hvalues))

/-- **WHAT IS WRITTEN**: over any lawful sink, a value is written as its encoding. -/
theorem emits_write {v : Value} (h : v.Storable) :
    Emits (σ := σ) false v.write v.encoding () := by
  induction h with
  | nil | boolean b | integer n | unsigned n | float32 x | float64 x =>
      rw [write, encoding]
      exact (emits_token _).ofWrite
  | string h =>
      rw [write, encoding]
      exact (emits_strBytes h).ofWrite
  | binary h =>
      rw [write, encoding]
      exact (emits_bin h).ofWrite
  | array h _ ih =>
      rw [write, encoding]
      exact (emits_countField h).bind_silent ((emits_arrayHeader h).bind (emits_writeItems ih))
  | map h _ _ ihkeys ihvalues =>
      rw [write, encoding]
      exact (emits_countField h).bind_silent
        ((emits_mapHeader h).bind (emits_writeEntries ihkeys ihvalues))
  | timestamp t =>
      rw [write, encoding]
      exact (emits_timestamp _).ofWrite
  | extension htype h =>
      rw [write, encoding]
      exact (emits_ext _ h).ofWrite

/-! ## The encoding is one that is read -/

/-- A negative number is held with a sign. -/
theorem ofInt_of_neg {n : Int64} (h : n < 0) : ofInt n = .integer n :=
  if_pos h

/-- **THE WRITER'S ENCODING IS AN ENCODING** of the value that it was made from. -/
theorem encoded_encoding {v : Value} (h : v.Canonical) : Encoded v v.encoding := by
  -- on how the value is canonical; each smallest format is one that is accepted
  induction h with
  | nil =>
      rw [encoding]
      exact .nil
  | boolean b =>
      rw [encoding]
      exact .boolean b
  | @integer n h =>
      obtain ⟨f, field, hencode, hholds, hsigned⟩ :=
        Token.exists_encodeInt (Int64.lt_iff_toInt_lt.mp h) n.le_toInt
      have hencoded := Encoded.signed hholds hsigned
      rw [Int64.ofInt_toInt, ofInt_of_neg h] at hencoded
      rwa [encoding, hencode]
  | unsigned n =>
      obtain ⟨f, field, hencode, hholds, hsigned⟩ := Token.exists_encodeNat n.toNat_lt
      have hencoded := Encoded.unsigned hholds hsigned
      rw [Int.toNat_natCast, UInt64.ofNat_toNat] at hencoded
      rwa [encoding, Token.encodeInt, if_pos (Int.natCast_nonneg _), Int.toNat_natCast, hencode]
  | float32 x =>
      have hencoded := Encoded.float32 (BigEndian.length_encode 4 x.bits.toNat)
      rw [BigEndian.decode_encode_of_lt x.bits.toNat_lt, UInt32.ofNat_toNat] at hencoded
      rwa [encoding]
  | float64 x =>
      have hencoded := Encoded.float64 (BigEndian.length_encode 8 x.bits.toNat)
      rw [BigEndian.decode_encode_of_lt x.bits.toNat_lt, UInt64.ofNat_toNat] at hencoded
      rwa [encoding]
  | string h =>
      rw [encoding]
      exact .string ⟨_, Token.headed_encodeStrHeader false h, rfl⟩
  | binary h =>
      obtain ⟨w, field, hencode, hholds⟩ := Token.exists_encodeBinHeader h
      obtain ⟨hfield, hlength⟩ := hholds.of_field
      rw [encoding, hencode]
      exact .binary hfield hlength
  | array h _ ih =>
      rw [encoding, encodingItems_eq, Token.encodeArrayHeader]
      exact .array_of_items (Token.counts_array.headed_encodeCount h) ih
  | map h _ _ ihkeys ihvalues =>
      rw [encoding, encodingEntries_eq, Token.encodeMapHeader]
      exact .map_of_entries (Token.counts_map.headed_encodeCount h) ihkeys ihvalues
  | timestamp h =>
      obtain ⟨payload, hextended, ht⟩ := Token.exists_encodeTimestamp _
      rw [encoding]
      exact .timestamp hextended ht
  | @extension type payload htype h =>
      rw [encoding]
      exact .extension (Token.extended_encodeExtHeader type h) htype

/-! ## No encoding is shorter -/

/-- What is read is canonical. -/
theorem Encoded.canonical {v : Value} {x : List UInt8} (h : Encoded v x) : v.Canonical := by
  -- an integer is held as signed only if it is negative
  have hofInt : ∀ n, (ofInt n).Canonical := by
    intro n
    rw [ofInt]
    split
    · exact .integer ‹_›
    · exact .unsigned _
  induction h with
  | nil => exact .nil
  | boolean b => exact .boolean b
  | signed h _ => exact hofInt _
  | unsigned h _ => exact .unsigned _
  | float32 h => exact .float32 _
  | float64 h => exact .float64 _
  | string h =>
      obtain ⟨header, hheader, rfl⟩ := h
      exact .string (hheader.lt narrow_strLength)
  | @binary w field payload h hlength =>
      exact .binary (narrow_binLength.lt (f := .bin w) rfl (Extent.holds_field h hlength))
  | @array header parts h _ ih =>
      refine .array ?_ ?_
      · rw [List.length_map]
        exact h.lt narrow_arrayCount
      · intro v hv
        obtain ⟨p, hp, rfl⟩ := List.mem_map.mp hv
        exact ih p hp
  | @map header parts h _ _ ihkeys ihvalues =>
      refine .map ?_ ?_ ?_
      · rw [List.length_map]
        exact h.lt narrow_mapCount
      · intro e he
        obtain ⟨p, hp, rfl⟩ := List.mem_map.mp he
        exact ihkeys p hp
      · intro e he
        obtain ⟨p, hp, rfl⟩ := List.mem_map.mp he
        exact ihvalues p hp
  | @timestamp x payload t h _ => exact .timestamp t.nanoseconds_lt
  | extension h htype => exact .extension htype h.length

/-- An integer is encoded by its value, whichever way it is held. -/
theorem encoding_ofInt {n : Int} (hle : -2 ^ 63 ≤ n) (hlt : n < 2 ^ 63) :
    (ofInt (Int64.ofInt n)).encoding = Token.encodeInt n := by
  have hn : (Int64.ofInt n).toInt = n := Int64.toInt_ofInt_of_le hle hlt
  rw [ofInt]
  split
  · rw [encoding, hn]
  · rename_i hneg
    have hpos : 0 ≤ Int64.ofInt n := Int64.not_lt.mp hneg
    rw [encoding, Int64.toNat_toUInt64_of_le hpos, Int64.cast_toNatClampNeg _ hpos, hn]

/-- A number without a sign is written as the integer that it is. -/
theorem encoding_unsigned {n : Int} (hle : 0 ≤ n) (hlt : n < 2 ^ 64) :
    (unsigned (UInt64.ofNat n.toNat)).encoding = Token.encodeInt n := by
  rw [encoding, UInt64.toNat_ofNat_of_lt' (show n.toNat < 2 ^ 64 by omega), Int.toNat_of_nonneg hle]

/-- Parts that are no longer, one by one, are no longer together. -/
theorem length_flatten_map_le {ι : Type} {f g : ι → List UInt8} {items : List ι}
    (h : ∀ i ∈ items, (f i).length ≤ (g i).length) :
    (items.map f).flatten.length ≤ (items.map g).flatten.length := by
  induction items with
  | nil => exact Nat.le_refl 0
  | cons i items ih =>
      obtain ⟨hi, hitems⟩ := List.forall_mem_cons.mp h
      rw [List.map_cons, List.map_cons, List.flatten_cons, List.flatten_cons, List.length_append,
        List.length_append]
      exact Nat.add_le_add hi (ih hitems)

/-- **NO ENCODING IS SHORTER** than the one that is written. -/
theorem Encoded.length_encoding_le {v : Value} {x : List UInt8} (h : Encoded v x) :
    v.encoding.length ≤ x.length := by
  -- each token is no longer than in any of its forms, and so containers are not either
  induction h with
  | nil | boolean b =>
      rw [encoding]
      exact Nat.le_refl 1
  | signed h hf =>
      obtain ⟨hle, hlt⟩ := h.signed_mem hf
      rw [encoding_ofInt hle hlt]
      exact Token.length_encodeInt_le h
  | unsigned h hf =>
      obtain ⟨hle, hlt⟩ := h.unsigned_mem hf
      rw [encoding_unsigned hle hlt]
      exact Token.length_encodeInt_le h
  | float32 h | float64 h =>
      rw [encoding, Token.encode, List.length_cons, List.length_cons, BigEndian.length_encode]
      omega
  | string h =>
      obtain ⟨header, hheader, rfl⟩ := h
      rw [encoding, List.length_append, List.length_append]
      exact Nat.add_le_add_right (Token.length_encodeStrHeader_le hheader) _
  | @binary w field payload h hlength =>
      have hle : (Token.encodeBinHeader payload.size).length ≤ field.length + 1 :=
        Token.length_encodeBinHeader_le (Extent.holds_field h hlength)
      rw [encoding, List.length_append, List.length_cons, List.length_append]
      omega
  | @array header parts h _ ih =>
      rw [encoding, encodingItems_eq, Token.encodeArrayHeader, List.length_map, List.map_map,
        List.length_append, List.length_append]
      exact Nat.add_le_add (Token.counts_array.length_encodeCount_le h) (length_flatten_map_le ih)
  | @map header parts h _ _ ihkeys ihvalues =>
      rw [encoding, encodingEntries_eq, Token.encodeMapHeader, List.length_map, List.map_map,
        List.length_append, List.length_append]
      refine Nat.add_le_add (Token.counts_map.length_encodeCount_le h)
        (length_flatten_map_le ?_)
      intro p hp
      have hkey := ihkeys p hp
      have hvalue := ihvalues p hp
      show (p.1.1.encoding ++ p.2.1.encoding).length ≤ _
      rw [List.length_append, List.length_append]
      exact Nat.add_le_add hkey hvalue
  | timestamp h ht =>
      rw [encoding]
      exact Token.length_encodeTimestamp_le h ht
  | extension h _ =>
      rw [encoding]
      exact Token.length_encodeExtHeader_le h

/-! ## Round trips -/

/-- In the default mode, a value is written as the bytes `e` over every lawful sink. -/
def Writes (v : Value) (e : List UInt8) : Prop :=
  ∀ (σ : Type) [LawfulSink σ] (w : Writer σ), w.oldSpec = false → ∃ sink : σ,
    v.write w = .ok () ⟨sink, false⟩
      ∧ LawfulSink.content sink = LawfulSink.content w.sink ++ e

/-- What exceeds no limit is written over every lawful sink. -/
theorem Storable.writes {v : Value} (h : v.Storable) : v.Writes v.encoding := by
  intro σ _ w hw
  exact emits_write h w hw

theorem writes_encoding {v : Value} (h : v.Canonical) : v.Writes v.encoding :=
  h.storable.writes

/-- **WRITING AND THEN READING** gives the value back. A canonical value is written, and out of what
    was written, with anything behind it, that very value is read by every policy that allows its
    depth. Exactly what was written is consumed, and the reader is at the same depth again. -/
theorem read_of_write {v : Value} (h : v.Canonical) :
    ∃ e : List UInt8, v.Writes e
      ∧ ∀ (options : Options) (rest : List UInt8) (r : Reader), r.cursor.WellFormed →
        r.cursor.ahead = e ++ rest → r.depth + v.depth ≤ options.security.maxDepth.toNat →
        ∃ s, read options r = .ok v s ∧ s.consumed = r.consumed + e.length ∧ s.depth = r.depth
          ∧ s.cursor.ahead = rest := by
  refine ⟨v.encoding, writes_encoding h, ?_⟩
  intro options rest r hr hahead hdepth
  exact ⟨_, (encoded_encoding h).read_eq hr hahead (by omega), rfl, rfl, ahead_past_append hahead⟩

/-- An array of a negative integer and a text, read back with a byte behind it. -/
theorem read_of_write_array : ∃ e : List UInt8,
    (Value.array [.integer (-5), .string "a"]).Writes e
      ∧ ∃ s, read .standard (.ofBytes ⟨(e ++ [0x07]).toArray⟩)
          = .ok (.array [.integer (-5), .string "a"]) s
        ∧ s.consumed = 0 + e.length := by
  have hcanonical : (Value.array [.integer (-5), .string "a"]).Canonical := by
    refine .array (by decide) (List.forall_mem_cons.mpr ⟨.integer (by decide), ?_⟩)
    exact List.forall_mem_singleton.mpr (.string (by decide))
  obtain ⟨e, hwrites, hreads⟩ := read_of_write hcanonical
  have hahead : (Cursor.ofBytes ⟨(e ++ [0x07]).toArray⟩).ahead = e ++ [0x07] :=
    Cursor.ahead_ofBytes _
  have hdepth : 0 + (Value.array [.integer (-5), .string "a"]).depth
      ≤ Options.standard.security.maxDepth.toNat := by decide
  have hread := hreads .standard [0x07] (.ofBytes ⟨List.toArray (e ++ [0x07])⟩)
    (Cursor.wellFormed_ofBytes _) hahead hdepth
  obtain ⟨s, hok, hconsumed, -⟩ := hread
  exact ⟨e, hwrites, s, hok, hconsumed⟩

/-- **READING AND THEN WRITING** is a normal form. A value that was read from any of its encodings
    is canonical, and it is written in no more bytes than it was read from. Out of what was written
    the same policy reads the same value, so writing it once more gives the same bytes. -/
theorem write_of_read {options : Options} {r s : Reader} {v : Value} (hr : r.cursor.WellFormed)
    (hread : read options r = .ok v s) :
    v.Canonical ∧ ∃ (n : Nat) (e : List UInt8), s.consumed = r.consumed + n ∧ e.length ≤ n
      ∧ v.Writes e
      ∧ ∀ (rest : List UInt8) (r' : Reader), r'.cursor.WellFormed → r'.depth ≤ r.depth →
        r'.cursor.ahead = e ++ rest →
        ∃ u t, read options r' = .ok u t ∧ u = v ∧ t.consumed = r'.consumed + e.length
          ∧ u.Writes e := by
  -- what was read is one encoding of the value, and the shortest one is what is written
  obtain ⟨n, hn, rfl, hencoded, hdepth⟩ := recognizes_read options r.depth hr rfl hread
  have hcanonical := hencoded.canonical
  have hwrites := writes_encoding hcanonical
  have hle := hencoded.length_encoding_le
  rw [hr.length_take_ahead hn] at hle
  refine ⟨hcanonical, n, v.encoding, rfl, hle, hwrites, ?_⟩
  intro rest r' hr' hd hahead
  exact ⟨v, _, (encoded_encoding hcanonical).read_eq hr' hahead (by omega), rfl, rfl, hwrites⟩

/-- A number below 128 in a field of two bytes, written again in no more than three. -/
theorem write_of_read_wide : (Value.unsigned 5).Canonical ∧ ∃ (n : Nat) (e : List UInt8),
    3 = 0 + n ∧ e.length ≤ n ∧ (Value.unsigned 5).Writes e := by
  have hread : read .standard (Reader.ofBytes ⟨#[0xcd, 0x00, 0x05]⟩)
      = .ok (.unsigned 5) ((Reader.ofBytes ⟨#[0xcd, 0x00, 0x05]⟩).past 3) := by rfl
  obtain ⟨hcanonical, n, e, hn, hle, hwrites, -⟩ :=
    write_of_read (Cursor.wellFormed_ofBytes ⟨#[0xcd, 0x00, 0x05]⟩) hread
  exact ⟨hcanonical, n, e, hn, hle, hwrites⟩

end Value

end MessagePack
