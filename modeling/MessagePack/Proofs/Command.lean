import MessagePack.Proofs.Encoding

/-!
# What an operation puts out

* **`Command.output`** is the bytes of an operation in a mode, or why it is refused, without a sink.
* **`Command.run_eq`** is the step: over any sink whatever, an operation puts out these bytes in one
  piece, or is refused before it has touched the sink.
-/

namespace MessagePack

namespace Token

/-- No token is written as nothing. -/
theorem length_encode_pos (t : Token) : 0 < t.encode.length := by
  cases t with
  | nil | boolean | explicit | float32 | float64 => exact Nat.succ_pos _
  -- the others are as long as their smallest format, which is never empty
  | compact t n =>
      rw [encode, length_encodeInt, length_encodeNat]
      split_ifs <;> omega
  | arrayHeader n =>
      rw [encode, encodeArrayHeader, length_encodeCount]
      split_ifs <;> omega
  | mapHeader n =>
      rw [encode, encodeMapHeader, length_encodeCount]
      split_ifs <;> omega
  | strHeader oldSpec n =>
      rw [encode, length_encodeStrHeader]
      split_ifs <;> omega
  | binHeader n =>
      rw [encode, length_encodeBinHeader]
      split_ifs <;> omega
  | extHeader h =>
      rw [encode, encodeExtHeader_eq, List.length_append]
      exact Nat.succ_pos _
  | timestamp t =>
      rw [encode, length_encodeTimestamp]
      split_ifs <;> omega

/-- The header of binary data in a mode: in the old one it is that of a string. -/
def encodeBlobHeader (oldSpec : Bool) (n : Nat) : List UInt8 :=
  if oldSpec then encodeStrHeader true n else encodeBinHeader n

end Token

namespace Writer

/-- The bytes of what has a length, if the length fits into 32 bits. -/
def ofLength (n : Nat) (bytes : List UInt8) : Except WriteError (List UInt8) :=
  if n < 2 ^ 32 then .ok bytes else .error (.lengthOverflow n)

/-- The bytes of a timestamp, which the old specification does not have. -/
def ofTimestamp (oldSpec : Bool) (t : Timestamp) : Except WriteError (List UInt8) :=
  if oldSpec then .error .oldSpecTimestamp else .ok (Token.encodeTimestamp t)

/-- The bytes of an operation in a mode, or why it is refused. -/
def Command.output (oldSpec : Bool) : Command → Except WriteError (List UInt8)
  | .nil => .ok [Format.nil.byte]
  | .boolean b => .ok [(Format.boolean b).byte]
  | .compact _ n => .ok (Token.encodeInt n.val)
  | .explicit t n => .ok ((Format.int t).byte :: t.encode n.val)
  | .char c => .ok (Token.encodeInt c.toNat)
  | .float32 x => .ok (Format.float32.byte :: BigEndian.encode 4 x.bits.toNat)
  | .float64 x => .ok (Format.float64.byte :: BigEndian.encode 8 x.bits.toNat)
  | .arrayHeader n => .ok (Token.encodeArrayHeader n.toNat)
  | .mapHeader n => .ok (Token.encodeMapHeader n.toNat)
  | .strHeader n => ofLength n (Token.encodeStrHeader oldSpec n)
  | .str text => ofLength text.toUTF8.size
      (Token.encodeStrHeader oldSpec text.toUTF8.size ++ text.toUTF8.data.toList)
  | .strBytes utf8 => ofLength utf8.size
      (Token.encodeStrHeader oldSpec utf8.size ++ utf8.data.toList)
  | .binHeader n => ofLength n (Token.encodeBlobHeader oldSpec n)
  | .bin bytes => ofLength bytes.size
      (Token.encodeBlobHeader oldSpec bytes.size ++ bytes.data.toList)
  | .extHeader h => .ok (Token.encodeExtHeader h.type h.length.toNat)
  | .ext type payload => ofLength payload.size
      (Token.encodeExtHeader type payload.size ++ payload.data.toList)
  | .timestamp t => ofTimestamp oldSpec t
  | .dateTime d => ofTimestamp oldSpec (.ofDateTime d)
  | .raw bytes => .ok bytes.data.toList

/-- The bytes that an operation commits in a mode; one that is refused commits none. -/
def Command.committed (oldSpec : Bool) (c : Command) : List UInt8 :=
  match c.output oldSpec with
  | .ok bytes => bytes
  | .error _ => []

/-! ## The form of the bytes -/

end Writer

/-- One of the forms of something, with no shorter one. -/
def Shortest (Form : List UInt8 → Prop) (x : List UInt8) : Prop :=
  Form x ∧ ∀ y, Form y → x.length ≤ y.length

/-- The forms of an integer. -/
def IsInteger (n : Int) (x : List UInt8) : Prop :=
  ∃ (f : Format) (field : List UInt8), f.HoldsInt field n ∧ x = f.byte :: field

/-- The forms of a timestamp. -/
def IsTimestamp (t : Timestamp) (x : List UInt8) : Prop :=
  ∃ payload, Reader.Extended x timestampType payload ∧ Timestamp.ofPayload? payload = some t

namespace Format

/-- Where the length of a string is in a mode. The old one has no string with one byte for it. -/
def strLengthIn? (oldSpec : Bool) : Format → Option Extent
  | str .w8 => if oldSpec then none else some (.field .w8)
  | f => f.strLength?

/-- Where the length of binary data is in a mode. In the old one, binary data are strings. -/
def blobLengthIn? (oldSpec : Bool) (f : Format) : Option Extent :=
  if oldSpec then f.strLengthIn? true else
    match f with
    | bin w => some (.field w.toWidth)
    | _ => none

end Format

namespace Token

/-- An integer is written in one of its forms, and no form of it is shorter. -/
theorem shortest_encodeInt {n : Int} (hle : -2 ^ 63 ≤ n) (hlt : n < 2 ^ 64) :
    Shortest (IsInteger n) (encodeInt n) := by
  refine ⟨?_, ?_⟩
  · by_cases hn : n < 0
    · obtain ⟨f, field, hx, hf, -⟩ := exists_encodeInt hn hle
      exact ⟨f, field, hf, hx⟩
    · obtain ⟨f, field, hx, hf, -⟩ := exists_encodeNat (n := n.toNat) (by omega)
      rw [Int.toNat_of_nonneg (by omega)] at hf
      exact ⟨f, field, hf, by rw [encodeInt, if_pos (by omega), hx]⟩
  · rintro y ⟨f, field, hf, rfl⟩
    exact length_encodeInt_le hf

/-- The count of an array is written in one of its forms, and no form of it is shorter. -/
theorem shortest_encodeArrayHeader (n : UInt32) :
    Shortest (Headed Format.arrayCount? n.toNat) (encodeArrayHeader n.toNat) := by
  rw [encodeArrayHeader]
  exact ⟨counts_array.headed_encodeCount n.toNat_lt,
    fun _ h => counts_array.length_encodeCount_le h⟩

theorem shortest_encodeMapHeader (n : UInt32) :
    Shortest (Headed Format.mapCount? n.toNat) (encodeMapHeader n.toNat) := by
  rw [encodeMapHeader]
  exact ⟨counts_map.headed_encodeCount n.toNat_lt, fun _ h => counts_map.length_encodeCount_le h⟩

/-- The header of a string is in a form of its mode, and no form of that mode is shorter. -/
theorem shortest_encodeStrHeader (oldSpec : Bool) {n : Nat} (h : n < 2 ^ 32) :
    Shortest (Headed (Format.strLengthIn? oldSpec) n) (encodeStrHeader oldSpec n) := by
  refine ⟨?_, ?_⟩
  · rw [encodeStrHeader]
    split_ifs with h5 h8 h16
    · exact ⟨.fixStr ⟨n, h5⟩, _, [], rfl, .inLead n, rfl⟩
    · exact ⟨.str .w8, _, _, if_neg h8.2, Extent.holds_encode h8.1, rfl⟩
    · exact ⟨.str .w16, _, _, rfl, Extent.holds_encode h16, rfl⟩
    · exact ⟨.str .w32, _, _, rfl, Extent.holds_encode h, rfl⟩
  · rintro y ⟨f, e, field, hf, he, rfl⟩
    rw [length_encodeStrHeader, List.length_cons]
    cases f with
    | fixStr k =>
        cases hf
        obtain ⟨rfl, rfl⟩ := he.of_inLead
        rw [if_pos k.isLt]
        exact Nat.le_add_left 1 _
    | str w =>
        cases w with
        | w8 =>
            -- one byte for the length there is in the new mode alone
            cases oldSpec <;> cases hf
            obtain ⟨hlength, hlt⟩ := lt_of_holds he
            simp only [Width.bytes] at hlength hlt
            simp only [Bool.false_eq_true, not_false_eq_true, and_true]
            split_ifs <;> omega
        | w16 | w32 =>
            cases hf
            obtain ⟨hlength, hlt⟩ := lt_of_holds he
            simp only [LengthWidth.toWidth, Width.bytes] at hlength hlt
            split_ifs <;> omega
    | _ => cases hf

/-- The length of binary data is written in one of the forms of the mode, and no form of that mode
    is shorter. -/
theorem shortest_encodeBlobHeader (oldSpec : Bool) {n : Nat} (h : n < 2 ^ 32) :
    Shortest (Headed (Format.blobLengthIn? oldSpec) n) (encodeBlobHeader oldSpec n) := by
  cases oldSpec with
  | true => exact shortest_encodeStrHeader true h
  | false =>
      obtain ⟨w, field, hx, hfield⟩ := exists_encodeBinHeader h
      refine ⟨⟨.bin w, _, field, rfl, hfield, hx⟩, ?_⟩
      rintro y ⟨f, e, field, hf, he, rfl⟩
      cases f <;> cases hf
      exact length_encodeBinHeader_le he

/-- The header of binary data is one that binary data is read from, in either mode. -/
theorem headed_encodeBlobHeader (oldSpec : Bool) {n : Nat} (h : n < 2 ^ 32) :
    Headed Format.binLength? n (encodeBlobHeader oldSpec n) := by
  obtain ⟨⟨f, e, field, hf, he, hx⟩, -⟩ := shortest_encodeBlobHeader oldSpec h
  refine ⟨f, e, field, ?_, he, hx⟩
  -- the table of the reader has the formats of both modes, so either mode is part of it
  cases oldSpec with
  | false =>
      cases f <;> cases hf
      rfl
  | true =>
      cases f with
      | fixStr => exact hf
      | str w =>
          cases w with
          | w8 => cases hf
          | w16 | w32 => exact hf
      | _ => cases hf

theorem shortest_encodeExtLength {n : Nat} (h : n < 2 ^ 32) :
    Shortest (Headed Format.extLength? n) (encodeExtLength n) :=
  ⟨headed_encodeExtLength h, fun _ => length_encodeExtLength_le⟩

/-- A timestamp is written in one of its forms, and no form of it is shorter. -/
theorem shortest_encodeTimestamp (t : Timestamp) :
    Shortest (IsTimestamp t) (encodeTimestamp t) := by
  refine ⟨exists_encodeTimestamp t, ?_⟩
  rintro y ⟨payload, hy, ht⟩
  exact length_encodeTimestamp_le hy ht

end Token

/-- The values of every integer type fit into 64 bits, with a sign or without. -/
theorem IntType.mem_range {t : IntType} (n : t.Carrier) : -2 ^ 63 ≤ n.val ∧ n.val < 2 ^ 64 := by
  obtain ⟨n, hle, hlt⟩ := n
  rcases t with w | w <;> cases w <;>
    simp only [least, greatest, Width.bits, Width.bytes] at hle hlt ⊢ <;> omega

/-- A field of its own type holds any value of the type. -/
theorem IntType.holds_encode (t : IntType) (n : t.Carrier) :
    (Format.int t).HoldsInt (t.encode n.val) n.val := by
  refine .of_decode (IntType.length_encode t _) ?_
  obtain ⟨n, hle, hlt⟩ := n
  -- an unsigned number is itself modulo the power of its width; two's complement has a lemma
  cases t with
  | unsigned w =>
      have hmem : 0 ≤ n ∧ n < 256 ^ w.bytes := by
        rw [greatest, Width.bits, Int.pow_mul] at hlt
        exact ⟨hle, Int.lt_of_le_sub_one hlt⟩
      have hnat : n.toNat < 256 ^ w.bytes :=
        (Int.toNat_lt hmem.1).mpr (Int.natCast_pow 256 w.bytes ▸ hmem.2)
      show ((BigEndian.decode (BigEndian.encode w.bytes (n % 256 ^ w.bytes).toNat) : Nat) : Int) = n
      rw [Int.emod_eq_of_lt hmem.1 hmem.2, BigEndian.decode_encode_of_lt hnat,
        Int.toNat_of_nonneg hmem.1]
  | signed w =>
      exact IntType.decode_encode_signed hle (Int.lt_of_le_sub_one hlt)

namespace Token

theorem isInteger_encodeInt {t : IntType} (n : t.Carrier) : IsInteger n.val (encodeInt n.val) :=
  (shortest_encodeInt (IntType.mem_range n).1 (IntType.mem_range n).2).1

/-- A character is written as its scalar value, in one of the forms of that integer. -/
theorem isInteger_encodeChar (c : Char) : IsInteger c.toNat (encodeInt c.toNat) := by
  have hlt : c.toNat < 2 ^ 32 := c.val.toNat_lt
  exact (shortest_encodeInt (by omega) (by omega)).1

end Token

namespace Writer

/-- What the bytes of an operation are to be in a mode: the shortest form of its header that the
    mode has, and its body. Explicit integers and floats have one form alone. -/
def Command.Encodes (oldSpec : Bool) (x : List UInt8) : Command → Prop
  | .nil => x = [Format.nil.byte]
  | .boolean b => x = [(Format.boolean b).byte]
  | .compact _ n => Shortest (IsInteger n.val) x
  | .explicit t n => ∃ field, (Format.int t).HoldsInt field n.val
      ∧ x = (Format.int t).byte :: field
  | .char c => Shortest (IsInteger c.toNat) x
  | .float32 v => ∃ field, field.length = 4 ∧ BigEndian.decode field = v.bits.toNat
      ∧ x = Format.float32.byte :: field
  | .float64 v => ∃ field, field.length = 8 ∧ BigEndian.decode field = v.bits.toNat
      ∧ x = Format.float64.byte :: field
  | .arrayHeader n => Shortest (Headed Format.arrayCount? n.toNat) x
  | .mapHeader n => Shortest (Headed Format.mapCount? n.toNat) x
  | .strHeader n => Shortest (Headed (Format.strLengthIn? oldSpec) n) x
  | .str text => ∃ header, Shortest (Headed (Format.strLengthIn? oldSpec) text.toUTF8.size) header
      ∧ x = header ++ text.toUTF8.data.toList
  | .strBytes utf8 => ∃ header, Shortest (Headed (Format.strLengthIn? oldSpec) utf8.size) header
      ∧ x = header ++ utf8.data.toList
  | .binHeader n => Shortest (Headed (Format.blobLengthIn? oldSpec) n) x
  | .bin bytes => ∃ header, Shortest (Headed (Format.blobLengthIn? oldSpec) bytes.size) header
      ∧ x = header ++ bytes.data.toList
  | .extHeader h => ∃ length, Shortest (Headed Format.extLength? h.length.toNat) length
      ∧ x = length ++ [h.type.toUInt8]
  | .ext type payload => ∃ length, Shortest (Headed Format.extLength? payload.size) length
      ∧ x = length ++ type.toUInt8 :: payload.data.toList
  | .timestamp t => Shortest (IsTimestamp t) x
  | .dateTime d => Shortest (IsTimestamp (.ofDateTime d)) x
  | .raw bytes => x = bytes.data.toList

/-- Bytes with a length are put out where the length fits. -/
theorem of_ofLength {n : Nat} {bytes x : List UInt8} (h : ofLength n bytes = .ok x) :
    n < 2 ^ 32 ∧ bytes = x := by
  rw [ofLength] at h
  split at h
  · rename_i hn
    cases h
    exact ⟨hn, rfl⟩
  · cases h

/-- Timestamps are written in the new specification alone. -/
theorem of_ofTimestamp {oldSpec : Bool} {t : Timestamp} {x : List UInt8}
    (h : ofTimestamp oldSpec t = .ok x) : oldSpec = false ∧ Token.encodeTimestamp t = x := by
  cases oldSpec with
  | true => cases h
  | false =>
      cases h
      exact ⟨rfl, rfl⟩

/-- The bytes of an operation are as they are to be. -/
theorem Command.encodes_of_output {oldSpec : Bool} {c : Command} {x : List UInt8}
    (h : c.output oldSpec = .ok x) : c.Encodes oldSpec x := by
  -- by cases on the operation; all that may fail are lengths and timestamps
  cases c with
  | nil | boolean | raw =>
      cases h
      rfl
  | compact t n =>
      cases h
      exact Token.shortest_encodeInt (IntType.mem_range n).1 (IntType.mem_range n).2
  | explicit t n =>
      cases h
      exact ⟨_, t.holds_encode n, rfl⟩
  | char c =>
      cases h
      have hlt := c.val.toNat_lt
      exact Token.shortest_encodeInt (by omega) (by rw [Char.toNat]; omega)
  | float32 v =>
      cases h
      exact ⟨_, BigEndian.length_encode _ _, BigEndian.decode_encode_of_lt v.bits.toNat_lt, rfl⟩
  | float64 v =>
      cases h
      exact ⟨_, BigEndian.length_encode _ _, BigEndian.decode_encode_of_lt v.bits.toNat_lt, rfl⟩
  | arrayHeader n =>
      cases h
      exact Token.shortest_encodeArrayHeader n
  | mapHeader n =>
      cases h
      exact Token.shortest_encodeMapHeader n
  | strHeader n =>
      obtain ⟨hn, rfl⟩ := of_ofLength h
      exact Token.shortest_encodeStrHeader oldSpec hn
  | str text =>
      obtain ⟨hn, rfl⟩ := of_ofLength h
      exact ⟨_, Token.shortest_encodeStrHeader oldSpec hn, rfl⟩
  | strBytes utf8 =>
      obtain ⟨hn, rfl⟩ := of_ofLength h
      exact ⟨_, Token.shortest_encodeStrHeader oldSpec hn, rfl⟩
  | binHeader n =>
      obtain ⟨hn, rfl⟩ := of_ofLength h
      exact Token.shortest_encodeBlobHeader oldSpec hn
  | bin bytes =>
      obtain ⟨hn, rfl⟩ := of_ofLength h
      exact ⟨_, Token.shortest_encodeBlobHeader oldSpec hn, rfl⟩
  | extHeader header =>
      cases h
      exact ⟨_, Token.shortest_encodeExtLength header.length.toNat_lt,
        Token.encodeExtHeader_eq _ _⟩
  | ext type payload =>
      obtain ⟨hn, rfl⟩ := of_ofLength h
      refine ⟨_, Token.shortest_encodeExtLength hn, ?_⟩
      rw [Token.encodeExtHeader_eq, List.append_assoc]
      rfl
  | timestamp t =>
      obtain ⟨-, rfl⟩ := of_ofTimestamp h
      exact Token.shortest_encodeTimestamp t
  | dateTime d =>
      obtain ⟨-, rfl⟩ := of_ofTimestamp h
      exact Token.shortest_encodeTimestamp _

/-! ## One operation over any sink -/

section AnySink

variable {σ α : Type}

/-- What follows a length is carried out with it, if it fits into 32 bits. -/
theorem length_bind (n : Nat) (f : UInt32 → Write σ α) (w : Writer σ) :
    (length n >>= f) w
      = if n < 2 ^ 32 then f (UInt32.ofNat n) w else .error (.lengthOverflow n) w := by
  rw [length, checkedLength]
  by_cases h : n < 2 ^ 32
  · rw [if_pos h, if_pos h]
    rfl
  · rw [if_neg h, if_neg h]
    rfl

theorem mode_bind (f : Bool → Write σ α) (w : Writer σ) : (mode >>= f) w = f w.oldSpec w := rfl

variable [Sink σ]

/-- Puts out bytes in one piece, or refuses to. -/
def put : Except WriteError (List UInt8) → Write σ Unit
  | .ok bytes => raw ⟨bytes.toArray⟩
  | .error e => throw e

/-- What is emitted with its own size, and is not nothing, is put out. -/
theorem emit_eq_put {n : Nat} {block : ByteArray} {bytes : List UInt8} (hn : n = block.size)
    (hbytes : block.data.toList = bytes) (hpos : 0 < bytes.length) :
    emit (σ := σ) n block = put (.ok bytes) := by
  have hsize : ¬ block.isEmpty = true := by
    rw [ByteArray.isEmpty, beq_iff_eq, ← Segments.length_toList_data, hbytes]
    exact Nat.ne_of_gt hpos
  rw [put, ← hbytes]
  show _ = raw block
  rw [raw, if_neg hsize, hn]

/-- To write a token is to put out its encoding. -/
theorem token_eq_put (t : Token) : token (σ := σ) t = put (.ok t.encode) :=
  emit_eq_put rfl t.toList_bytes t.length_encode_pos

/-- A header and its body are put out together, with one request for both. -/
theorem withBody_eq_put {n : Nat} {header : Token} {body : ByteArray}
    (hn : n = header.encode.length) :
    withBody (σ := σ) n header body = put (.ok (header.encode ++ body.data.toList)) := by
  refine emit_eq_put ?_ ?_ ?_
  · rw [ByteArray.size_append, Token.size_bytes, hn]
  · rw [ByteArray.data_append, Array.toList_append, Token.toList_bytes]
  · rw [List.length_append]
    exact Nat.lt_of_lt_of_le header.length_encode_pos (Nat.le_add_right _ _)

/-- An operation on what has a length puts out its bytes, if these are put out where it fits. -/
theorem length_bind_eq_put {n : Nat} {f : UInt32 → Write σ Unit} {w : Writer σ}
    {bytes : List UInt8} (hf : n < 2 ^ 32 → f (UInt32.ofNat n) w = put (.ok bytes) w) :
    (length n >>= f) w = put (ofLength n bytes) w := by
  rw [length_bind, ofLength]
  by_cases h : n < 2 ^ 32
  · rw [if_pos h, if_pos h, hf h]
  · rw [if_neg h, if_neg h]
    rfl

/-- The header of a string is put out in the mode of the writer, unless the length does not fit. -/
theorem strHeader_eq (n : Nat) (w : Writer σ) :
    strHeader n w = put (ofLength n (Token.encodeStrHeader w.oldSpec n)) w := by
  refine length_bind_eq_put fun h => ?_
  rw [mode_bind, token_eq_put, Token.encode, UInt32.toNat_ofNat_of_lt' h]

/-- A string is put out with its header, unless its length does not fit. -/
theorem strBytes_eq (utf8 : ByteArray) (w : Writer σ) : strBytes utf8 w
    = put (ofLength utf8.size
        (Token.encodeStrHeader w.oldSpec utf8.size ++ utf8.data.toList)) w := by
  refine length_bind_eq_put fun h => ?_
  rw [mode_bind, withBody_eq_put (strHeaderSize_eq _ _), Token.encode,
    UInt32.toNat_ofNat_of_lt' h]

/-- The header of binary data is put out in the mode of the writer, unless the length does not
    fit. -/
theorem binHeader_eq (n : Nat) (w : Writer σ) :
    binHeader n w = put (ofLength n (Token.encodeBlobHeader w.oldSpec n)) w := by
  refine length_bind_eq_put fun h => ?_
  rw [mode_bind, token_eq_put]
  cases w.oldSpec with
  | true => rw [if_pos rfl, Token.encode, UInt32.toNat_ofNat_of_lt' h]; rfl
  | false => rw [if_neg Bool.false_ne_true, Token.encode, UInt32.toNat_ofNat_of_lt' h]; rfl

/-- Binary data are put out with their header, unless their length does not fit. -/
theorem bin_eq (bytes : ByteArray) (w : Writer σ) : bin bytes w
    = put (ofLength bytes.size
        (Token.encodeBlobHeader w.oldSpec bytes.size ++ bytes.data.toList)) w := by
  refine length_bind_eq_put fun h => ?_
  rw [mode_bind]
  cases w.oldSpec with
  | true =>
      rw [if_pos rfl, withBody_eq_put (strHeaderSize_eq _ _), Token.encode,
        UInt32.toNat_ofNat_of_lt' h]
      rfl
  | false =>
      rw [if_neg Bool.false_ne_true, withBody_eq_put (binHeaderSize_eq _), Token.encode,
        UInt32.toNat_ofNat_of_lt' h]
      rfl

/-- The payload of an extension is put out with its header, unless its length does not fit. -/
theorem ext_eq (type : Int8) (payload : ByteArray) (w : Writer σ) : ext type payload w
    = put (ofLength payload.size
        (Token.encodeExtHeader type payload.size ++ payload.data.toList)) w := by
  refine length_bind_eq_put fun h => ?_
  have hencode : (Token.extHeader ⟨type, UInt32.ofNat payload.size⟩).encode
      = Token.encodeExtHeader type payload.size := by
    rw [Token.encode, UInt32.toNat_ofNat_of_lt' h]
  rw [← hencode]
  exact congrFun (withBody_eq_put (Token.size_bytes _)) w

/-- A timestamp is put out, unless the mode has none. -/
theorem timestamp_eq (t : Timestamp) (w : Writer σ) :
    timestamp t w = put (ofTimestamp w.oldSpec t) w := by
  rw [timestamp, mode_bind, ofTimestamp]
  cases w.oldSpec with
  | true => rfl
  | false => exact congrFun (token_eq_put (.timestamp t)) w

/-- The step: over any sink, an operation puts out its bytes in one piece, or is refused before it
    has touched the sink. -/
theorem Command.run_eq (c : Command) (w : Writer σ) : c.run w = put (c.output w.oldSpec) w := by
  cases c with
  | nil => exact congrFun (token_eq_put .nil) w
  | boolean b => exact congrFun (token_eq_put (.boolean b)) w
  | compact t n => exact congrFun (token_eq_put (.compact t n)) w
  | explicit t n => exact congrFun (token_eq_put (.explicit t n)) w
  | char c => exact congrFun (token_eq_put _) w
  | float32 x => exact congrFun (token_eq_put (.float32 x)) w
  | float64 x => exact congrFun (token_eq_put (.float64 x)) w
  | arrayHeader n => exact congrFun (token_eq_put (.arrayHeader n)) w
  | mapHeader n => exact congrFun (token_eq_put (.mapHeader n)) w
  | strHeader n => exact strHeader_eq n w
  | str text => exact strBytes_eq text.toUTF8 w
  | strBytes utf8 => exact strBytes_eq utf8 w
  | binHeader n => exact binHeader_eq n w
  | bin bytes => exact bin_eq bytes w
  | extHeader h => exact congrFun (token_eq_put (.extHeader h)) w
  | ext type payload => exact ext_eq type payload w
  | timestamp t => exact timestamp_eq t w
  | dateTime d => exact timestamp_eq (.ofDateTime d) w
  | raw bytes => rfl

end AnySink

/-! ## Over a lawful sink -/

section LawfulSink

variable {σ : Type} [LawfulSink σ] {oldSpec : Bool}

/-- What is put out comes to the sink as it is, and no other byte does. -/
theorem emits_put (x : List UInt8) : Emits (σ := σ) oldSpec (put (.ok x)) x () := by
  rw [put, raw]
  split
  · rename_i hempty
    rw [ByteArray.isEmpty, beq_iff_eq] at hempty
    have hx : x = [] := List.eq_nil_of_length_eq_zero hempty
    rw [hx]
    exact Emits.of_pure ()
  · exact emits_emit ⟨x.toArray⟩

/-- An operation that is not refused in a mode puts its bytes behind the content. -/
theorem emits_command {c : Command} {x : List UInt8} (h : c.output oldSpec = .ok x) :
    Emits (σ := σ) oldSpec c.run x () := by
  intro w hw
  rw [c.run_eq, hw, h]
  exact emits_put x w hw

end LawfulSink

end Writer

end MessagePack
