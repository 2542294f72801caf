import MessagePack.Proofs.Token

/-!
# Reading scalars, strings and extensions

The tokens that are complete values by themselves, each tied to its form from both sides. What a
payload means is said by a function of its bytes alone, `Utf8.decode` for text and
`Timestamp.ofPayload?` for instants; a payload that means nothing is the only way in which reading a
complete form fails.
-/

namespace MessagePack

/-! ## Meanings of payloads -/

/-- The seconds and nanoseconds in the payload of a timestamp, in any of its three layouts. -/
def Timestamp.partsOfPayload? (payload : List UInt8) : Option (Int × Nat) :=
  match payload.length with
  | 4 => some (BigEndian.decode payload, 0)
  | 8 => some ((BigEndian.decode payload : Int) % 2 ^ 34, BigEndian.decode payload / 2 ^ 34)
  | 12 =>
    some ((IntType.signed .w64).decode (payload.drop 4), BigEndian.decode (payload.take 4))
  | _ => none

namespace Timestamp

variable {payload : List UInt8}

/-- Four bytes are the seconds, and there are no nanoseconds. -/
theorem partsOfPayload?_seconds (h : payload.length = 4) :
    partsOfPayload? payload = some ((BigEndian.decode payload : Int), 0) := by
  rw [partsOfPayload?, h]
  rfl

/-- Eight bytes are both: the lower 34 bits are the seconds. -/
theorem partsOfPayload?_packed (h : payload.length = 8) : partsOfPayload? payload =
    some ((BigEndian.decode payload : Int) % 2 ^ 34, BigEndian.decode payload / 2 ^ 34) := by
  rw [partsOfPayload?, h]
  rfl

/-- Twelve bytes are the nanoseconds, and then the seconds with a sign. -/
theorem partsOfPayload?_full (h : payload.length = 12) : partsOfPayload? payload =
    some ((IntType.signed .w64).decode (payload.drop 4), BigEndian.decode (payload.take 4)) := by
  rw [partsOfPayload?, h]
  rfl

/-- No other length has a meaning. -/
theorem partsOfPayload?_length {parts : Int × Nat} (h : partsOfPayload? payload = some parts) :
    payload.length = 4 ∨ payload.length = 8 ∨ payload.length = 12 := by
  rw [partsOfPayload?] at h
  split at h
  · exact Or.inl ‹_›
  · exact Or.inr (Or.inl ‹_›)
  · exact Or.inr (Or.inr ‹_›)
  · cases h

end Timestamp

/-- The instant that the payload of a timestamp stands for, if it stands for one. -/
def Timestamp.ofPayload? (payload : List UInt8) : Option Timestamp :=
  (partsOfPayload? payload).bind fun parts =>
    (Timestamp.ofParts (Int64.ofInt parts.1) (UInt32.ofNat parts.2)).toOption

/-- Text decodes from its own bytes. -/
theorem Utf8.decode_toUTF8 (text : String) : decode text.toUTF8 = .ok text := by
  have hvalid : text.toUTF8.IsValidUTF8 := text.isValidUTF8
  rw [decode, String.fromUTF8?, dif_pos hvalid]
  rfl

/-- Bytes that decode are the bytes of the text. -/
theorem Utf8.toUTF8_of_decode {bytes : ByteArray} {text : String} (h : decode bytes = .ok text) :
    text.toUTF8 = bytes := by
  rw [decode, String.fromUTF8?] at h
  split at h
  · rename_i t ht
    cases h
    split at ht
    · cases ht
      rfl
    · cases ht
  · cases h

namespace Reader

variable {d : Nat} {x rest : List UInt8} {E : ReadError → Prop}

/-! ## Scalars -/

/-- The byte of nil is read as nil. -/
theorem Reads.nil : Reads d nil [Format.nil.byte] rest (fun _ => True) E := by
  refine Reads.format.bind_last ?_
  rintro f rfl
  rw [Format.ofByte_byte]
  exact Reads.of_pure trivial

theorem Recognizes.nil : Recognizes d nil fun x _ => x = [Format.nil.byte] := by
  refine Recognizes.format.bind_last ?_
  rintro x f ⟨b, rfl, rfl⟩
  split
  · rename_i hf
    exact Recognizes.of_pure ⟨rfl, by rw [← hf, Format.byte_ofByte]⟩
  · exact Recognizes.of_throw _

theorem Reads.boolean {v : Bool} :
    Reads d boolean [(Format.boolean v).byte] rest (fun b => b = v) E := by
  refine Reads.format.bind_last ?_
  rintro f rfl
  rw [Format.ofByte_byte]
  exact Reads.of_pure rfl

theorem Recognizes.boolean :
    Recognizes d boolean fun x b => x = [(Format.boolean b).byte] := by
  refine Recognizes.format.bind_last ?_
  rintro x f ⟨b, rfl, rfl⟩
  split
  · rename_i v hf
    exact Recognizes.of_pure ⟨rfl, by rw [← hf, Format.byte_ofByte]⟩
  · exact Recognizes.of_throw _

/-- Nil is consumed, and anything else is left. -/
theorem tryNil_eq : tryNil = do
    if (← nextFormat) = .nil then
      let _ ← take 1
      return true
    else return false := by
  -- the look at the lead byte is taken out of the test
  rw [tryNil, isNil, bind_assoc]
  congr 1
  funext f
  rw [pure_bind]
  simp only [decide_eq_true_eq]

/-- Nil is consumed if it is found, and else nothing is. -/
theorem Recognizes.tryNil : Recognizes d tryNil fun x b =>
    x = (if b then [Format.nil.byte] else []) := by
  rw [tryNil_eq]
  refine Recognizes.bind_peek peeks_nextFormat ?_
  intro b
  split
  · rename_i hb
    refine (Recognizes.take 1).map ?_
    rintro x v ⟨hlength, -⟩ hhead
    obtain ⟨c, rfl⟩ := List.length_eq_one_iff.mp hlength
    rw [if_pos rfl, ← hb, Format.byte_ofByte, hhead c rfl]
  · exact Recognizes.of_pure fun _ => rfl

/-- Where another token is ahead, nil is not found. -/
theorem Reads.tryNil_of_ne {b : UInt8} (h : Format.ofByte b ≠ .nil) :
    Reads d tryNil [] (b :: rest) (fun v => v = false) E := by
  rw [tryNil_eq]
  refine Reads.bind_peek Reads.nextFormat ?_
  rintro f rfl
  rw [if_neg h]
  exact Reads.of_pure rfl

/-- Whatever holds an integer is read as it, with the format. -/
theorem Reads.integer {f : Format} {field : List UInt8} {n : Int} (h : f.HoldsInt field n) :
    Reads d integer (f.byte :: field) rest (fun p => p = (f, n)) E := by
  refine Reads.bind (x := [f.byte]) (y := field) Reads.format ?_
  rintro g rfl
  rw [Format.ofByte_byte]
  cases h with
  | positive v => exact Reads.of_pure rfl
  | negative v => exact Reads.of_pure rfl
  | field h => exact (Reads.int h).map fun n hn => by rw [hn]

/-- What is read as an integer holds it in its format. -/
theorem Recognizes.integer : Recognizes d integer fun x p =>
    ∃ field, x = p.1.byte :: field ∧ p.1.HoldsInt field p.2 := by
  refine Recognizes.format.bind ?_
  rintro x f ⟨b, rfl, rfl⟩
  -- a small integer is the lead byte itself; the others have the field of their type
  split
  · rename_i v hf
    refine Recognizes.of_pure ⟨[], ?_, hf ▸ .positive v⟩
    rw [Format.byte_ofByte]
    rfl
  · rename_i v hf
    refine Recognizes.of_pure ⟨[], ?_, hf ▸ .negative v⟩
    rw [Format.byte_ofByte]
    rfl
  · rename_i t hf
    refine (Recognizes.require (Recognizes.int? t)).map ?_
    rintro y n ⟨hlength, hn⟩
    refine ⟨y, ?_, ?_⟩
    · rw [Format.byte_ofByte]
      rfl
    · rw [hf, hn]
      exact .field hlength
  · exact Recognizes.of_throw _

/-- An integer of a type is read by the reader of that type. -/
theorem Reads.int_of_mem {t : IntType} {f : Format} {field : List UInt8} {n : Int}
    (h : f.HoldsInt field n) (hn : t.least ≤ n ∧ n ≤ t.greatest) :
    Reads d (Reader.int t) (f.byte :: field) rest (fun v => v.val = n) E := by
  refine (Reads.integer h).bind_last ?_
  rintro p rfl
  dsimp only
  rw [IntType.ofInt?, dif_pos hn]
  exact Reads.of_pure rfl

/-- What is read as an integer of a type holds it in some format. -/
theorem Recognizes.int (t : IntType) : Recognizes d (Reader.int t) fun x v =>
    ∃ (f : Format) (field : List UInt8), x = f.byte :: field ∧ f.HoldsInt field v.val := by
  refine Recognizes.integer.bind_last ?_
  rintro x ⟨f, n⟩ ⟨field, rfl, h⟩
  dsimp only
  rw [IntType.ofInt?]
  split
  · rename_i v hv
    split at hv
    · cases hv
      exact Recognizes.of_pure ⟨rfl, f, field, rfl, h⟩
    · cases hv
  · exact Recognizes.of_throw _

/-- What is read as a character holds an integer. -/
theorem Recognizes.char : Recognizes d char fun x _ =>
    ∃ (f : Format) (field : List UInt8) (n : Int), x = f.byte :: field ∧ f.HoldsInt field n := by
  refine (Recognizes.int _).bind_last ?_
  rintro x n ⟨f, field, rfl, h⟩
  simp only
  split
  · exact Recognizes.of_pure ⟨rfl, f, field, _, rfl, h⟩
  · exact Recognizes.of_throw _

/-! ## Floats -/

theorem Reads.float32Field {field : List UInt8} (h : field.length = 4) :
    Reads d float32Field (Format.float32.byte :: field) rest
      (fun v => v = ⟨UInt32.ofNat (BigEndian.decode field)⟩) E :=
  Reads.bind (x := [_]) (y := field) Reads.format fun _ _ =>
    (Reads.nat h).map fun n hn => by rw [hn]

theorem Reads.float64Field {field : List UInt8} (h : field.length = 8) :
    Reads d float64Field (Format.float64.byte :: field) rest
      (fun v => v = ⟨UInt64.ofNat (BigEndian.decode field)⟩) E :=
  Reads.bind (x := [_]) (y := field) Reads.format fun _ _ =>
    (Reads.nat h).map fun n hn => by rw [hn]

/-- A number of 32 bits is read as the bits in its field. -/
theorem Reads.float32 {field : List UInt8} (h : field.length = 4) :
    Reads d float32 (Format.float32.byte :: field) rest
      (fun v => v = ⟨UInt32.ofNat (BigEndian.decode field)⟩) E := by
  refine Reads.bind_peek Reads.nextFormat ?_
  rintro f rfl
  rw [Format.ofByte_byte]
  exact Reads.float32Field h

theorem Reads.float64 {field : List UInt8} (h : field.length = 8) :
    Reads d float64 (Format.float64.byte :: field) rest
      (fun v => v = ⟨UInt64.ofNat (BigEndian.decode field)⟩) E := by
  refine Reads.bind_peek Reads.nextFormat ?_
  rintro f rfl
  rw [Format.ofByte_byte]
  exact Reads.float64Field h

theorem Recognizes.float32Field : Recognizes d float32Field fun x v => ∃ b field,
    x = b :: field ∧ field.length = 4 ∧ v = ⟨UInt32.ofNat (BigEndian.decode field)⟩ := by
  refine Recognizes.format.bind ?_
  rintro x f ⟨b, rfl, rfl⟩
  refine (Recognizes.require (Recognizes.nat? .w32)).map ?_
  rintro y n ⟨hlength, rfl⟩
  exact ⟨b, y, rfl, hlength, rfl⟩

theorem Recognizes.float64Field : Recognizes d float64Field fun x v => ∃ b field,
    x = b :: field ∧ field.length = 8 ∧ v = ⟨UInt64.ofNat (BigEndian.decode field)⟩ := by
  refine Recognizes.format.bind ?_
  rintro x f ⟨b, rfl, rfl⟩
  refine (Recognizes.require (Recognizes.nat? .w64)).map ?_
  rintro y n ⟨hlength, rfl⟩
  exact ⟨b, y, rfl, hlength, rfl⟩

/-- A single precision float is read from a float or an integer. -/
theorem Recognizes.float32 : Recognizes d float32 fun x v =>
    (∃ field, x = Format.float32.byte :: field ∧ field.length = 4
        ∧ v = ⟨UInt32.ofNat (BigEndian.decode field)⟩)
      ∨ (∃ field, x = Format.float64.byte :: field ∧ field.length = 8)
      ∨ ∃ (f : Format) (field : List UInt8) (n : Int),
        x = f.byte :: field ∧ f.HoldsInt field n := by
  refine Recognizes.bind_peek peeks_nextFormat ?_
  intro b
  -- by the next byte, which is still there when the number is read
  split
  · rename_i hb
    refine Recognizes.float32Field.mono ?_
    rintro x v ⟨c, field, rfl, hlength, rfl⟩ hhead
    exact Or.inl ⟨field, by rw [← hb, Format.byte_ofByte, hhead c rfl], hlength, rfl⟩
  · rename_i hb
    refine Recognizes.float64Field.map ?_
    rintro x v ⟨c, field, rfl, hlength, rfl⟩ hhead
    exact Or.inr (Or.inl ⟨field, by rw [← hb, Format.byte_ofByte, hhead c rfl], hlength⟩)
  · refine Recognizes.integer.map ?_
    rintro x ⟨f, n⟩ ⟨field, rfl, h⟩ -
    exact Or.inr (Or.inr ⟨f, field, n, rfl, h⟩)

/-- A double precision float is read from a float or an integer. -/
theorem Recognizes.float64 : Recognizes d float64 fun x v =>
    (∃ field, x = Format.float64.byte :: field ∧ field.length = 8
        ∧ v = ⟨UInt64.ofNat (BigEndian.decode field)⟩)
      ∨ (∃ field, x = Format.float32.byte :: field ∧ field.length = 4)
      ∨ ∃ (f : Format) (field : List UInt8) (n : Int),
        x = f.byte :: field ∧ f.HoldsInt field n := by
  refine Recognizes.bind_peek peeks_nextFormat ?_
  intro b
  split
  · rename_i hb
    refine Recognizes.float32Field.map ?_
    rintro x v ⟨c, field, rfl, hlength, rfl⟩ hhead
    exact Or.inr (Or.inl ⟨field, by rw [← hb, Format.byte_ofByte, hhead c rfl], hlength⟩)
  · rename_i hb
    refine Recognizes.float64Field.mono ?_
    rintro x v ⟨c, field, rfl, hlength, rfl⟩ hhead
    exact Or.inl ⟨field, by rw [← hb, Format.byte_ofByte, hhead c rfl], hlength, rfl⟩
  · refine Recognizes.integer.map ?_
    rintro x ⟨f, n⟩ ⟨field, rfl, h⟩ -
    exact Or.inr (Or.inr ⟨f, field, n, rfl, h⟩)

/-! ## Strings and binary data -/

/-- A header, and a view of as many bytes as it says. -/
def Payload (select : Format → Option Extent) (x : List UInt8) (v : View) : Prop :=
  ∃ header payload, Headed select payload.length header ∧ x = header ++ payload ∧ v.Shows payload

/-- Nil in place of nothing, and a form otherwise. -/
def OrNil {α : Type} (G : List UInt8 → α → Prop) (x : List UInt8) : Option α → Prop
  | none => x = [Format.nil.byte]
  | some a => G x a

/-- A payload behind its header, or nil. Strings and binary data differ in the header alone. -/
def payloadOrNil (header : Read UInt32) : Read (Option View) := do
  if ← tryNil then pure none
  else
    let n ← header
    return some (← take n.toNat)

theorem stringView_eq : stringView = payloadOrNil strHeader := rfl

theorem bytes_eq : bytes = payloadOrNil binHeader := rfl

/-- A payload behind its header is read as a view of it. -/
theorem Reads.payloadOrNil {header : Read UInt32} {select : Format → Option Extent}
    {payload : List UInt8}
    (hheader : ∀ rest, Reads d header x rest (fun m => m.toNat = payload.length) E)
    (h : Headed select payload.length x) (hselect : select .nil = none) :
    Reads d (payloadOrNil header) (x ++ payload) rest
      (fun o => ∃ v, o = some v ∧ v.Shows payload) E := by
  -- the header starts with a lead byte of the table, which is not nil
  have hne : ∃ b tail, x ++ payload ++ rest = b :: tail ∧ Format.ofByte b ≠ .nil := by
    obtain ⟨f, e, field, hf, -, rfl⟩ := h
    refine ⟨f.byte, _, rfl, ?_⟩
    rw [Format.ofByte_byte]
    rintro rfl
    cases hselect.symm.trans hf
  obtain ⟨b, tail, hx, hb⟩ := hne
  refine Reads.bind_peek (hx ▸ Reads.tryNil_of_ne hb) ?_
  rintro v rfl
  refine Reads.bind (hheader _) fun m hm => (Reads.take hm.symm).map ?_
  exact fun v hv => ⟨v, rfl, hv⟩

/-- What is read is nil, or a header with a view of as many bytes. -/
theorem Recognizes.payloadOrNil {header : Read UInt32} {select : Format → Option Extent}
    (h : Recognizes d header fun x m => Headed select m.toNat x) :
    Recognizes d (payloadOrNil header) (OrNil (Payload select)) := by
  refine Recognizes.tryNil.bind ?_
  rintro x b rfl
  cases b with
  | true => exact Recognizes.of_pure rfl
  | false =>
      refine h.bind fun y m hm => (Recognizes.take m.toNat).map ?_
      rintro z v ⟨hlength, hv⟩
      exact ⟨y, z, hlength ▸ hm, rfl, hv⟩

/-- A string is read as a view of its bytes. -/
theorem Reads.stringView {payload : List UInt8} (h : Headed Format.strLength? payload.length x) :
    Reads d stringView (x ++ payload) rest (fun o => ∃ v, o = some v ∧ v.Shows payload) E := by
  rw [stringView_eq]
  exact Reads.payloadOrNil (fun _ => Reads.strHeader h) h rfl

theorem Recognizes.stringView :
    Recognizes d stringView (OrNil (Payload Format.strLength?)) := by
  rw [stringView_eq]
  exact Recognizes.payloadOrNil Recognizes.strHeader

theorem Reads.bytes {payload : List UInt8} (h : Headed Format.binLength? payload.length x) :
    Reads d bytes (x ++ payload) rest (fun o => ∃ v, o = some v ∧ v.Shows payload) E := by
  rw [bytes_eq]
  exact Reads.payloadOrNil (fun _ => Reads.binHeader h) h rfl

theorem Recognizes.bytes : Recognizes d bytes (OrNil (Payload Format.binLength?)) := by
  rw [bytes_eq]
  exact Recognizes.payloadOrNil Recognizes.binHeader

/-- A block is determined by its bytes. -/
theorem eq_of_toList {block : ByteArray} {bytes : List UInt8} (h : block.data.toList = bytes) :
    block = ⟨bytes.toArray⟩ := by
  rw [← h, Array.toArray_toList]

/-- Text fails to be read from bytes only where they do not decode. -/
theorem Reads.decodeText {block : ByteArray} {payload : List UInt8}
    (h : block.data.toList = payload) :
    Reads d (decodeText block) [] rest (fun t => Utf8.decode ⟨payload.toArray⟩ = .ok t)
      (fun e => ∃ fault, e = .invalidUtf8 fault
        ∧ Utf8.decode ⟨payload.toArray⟩ = .error fault) := by
  rw [Reader.decodeText, eq_of_toList h]
  split
  · rename_i t ht
    exact Reads.of_pure ht
  · rename_i fault hfault
    exact Reads.of_throw ⟨fault, rfl, hfault⟩

/-- The text that a block is decoded to has its bytes, and decoding consumes nothing. -/
theorem Recognizes.decodeText (block : ByteArray) :
    Recognizes d (decodeText block) fun x t => x = [] ∧ t.toUTF8 = block := by
  rw [Reader.decodeText]
  split
  · rename_i t ht
    exact Recognizes.of_pure ⟨rfl, Utf8.toUTF8_of_decode ht⟩
  · exact Recognizes.of_throw _

/-- The text of a string, whether its bytes lie in one piece or not. -/
theorem Reads.str {payload : List UInt8} (h : Headed Format.strLength? payload.length x) :
    Reads d str (x ++ payload) rest
      (fun o => ∃ t : Text, o = some t ∧ Utf8.decode ⟨payload.toArray⟩ = .ok t.value)
      (fun e => ∃ fault, e = .invalidUtf8 fault
        ∧ Utf8.decode ⟨payload.toArray⟩ = .error fault) := by
  refine (Reads.stringView h).bind_last ?_
  rintro o ⟨v, rfl, hv⟩
  dsimp only
  split
  · rename_i block hblock
    exact (Reads.decodeText (hv.toList_contiguous hblock)).map fun t ht => ⟨_, rfl, ht⟩
  · exact (Reads.decodeText hv.toList_content).map fun t ht => ⟨_, rfl, ht⟩

/-- A string header and the bytes of a text. -/
def Textual (x : List UInt8) (t : String) : Prop :=
  ∃ header, Headed Format.strLength? t.toUTF8.data.toList.length header
    ∧ x = header ++ t.toUTF8.data.toList

/-- What is read as a string is nil, or the text behind its header. -/
theorem Recognizes.str : Recognizes d str (OrNil fun x t => Textual x t.value) := by
  refine Recognizes.stringView.bind_last ?_
  rintro x (_ | v) hx
  · exact Recognizes.of_pure ⟨rfl, hx⟩
  · obtain ⟨header, payload, hheader, rfl, hv⟩ := hx
    dsimp only
    -- the text is decoded from one piece where it lies in one, and from a copy where it does not
    split
    · rename_i block hblock
      refine (Recognizes.decodeText block).map ?_
      rintro y t ⟨rfl, rfl⟩
      rw [← hv.toList_contiguous hblock] at hheader ⊢
      exact ⟨rfl, header, hheader, rfl⟩
    · refine (Recognizes.decodeText v.content).map ?_
      rintro y t ⟨rfl, ht⟩
      rw [← hv.toList_content, ← ht] at hheader ⊢
      exact ⟨rfl, header, hheader, rfl⟩

/-- A string is read as the text that its bytes are, or refused if they are none. -/
theorem Reads.string {payload : List UInt8} (h : Headed Format.strLength? payload.length x) :
    Reads d string (x ++ payload) rest
      (fun o => ∃ t, o = some t ∧ Utf8.decode ⟨payload.toArray⟩ = .ok t)
      (fun e => ∃ fault, e = .invalidUtf8 fault
        ∧ Utf8.decode ⟨payload.toArray⟩ = .error fault) := by
  refine (Reads.str h).map ?_
  rintro o ⟨t, rfl, ht⟩
  exact ⟨t.value, rfl, ht⟩

/-- What is read as text is nil, or the text behind its header. -/
theorem Recognizes.string : Recognizes d string (OrNil Textual) := by
  refine Recognizes.str.map ?_
  rintro x (_ | t) hx
  · exact hx
  · exact hx

/-! ## Extensions -/

/-- The header of an extension, the byte of its type, and its payload. -/
def Extended (x : List UInt8) (type : Int8) (payload : List UInt8) : Prop :=
  ∃ header b, Headed Format.extLength? payload.length header ∧ type = b.toInt8
    ∧ x = header ++ b :: payload

/-- No payload is longer than 32 bits can say. -/
theorem Extended.length {type : Int8} {payload : List UInt8} (h : Extended x type payload) :
    payload.length < 2 ^ 32 := by
  obtain ⟨header, b, hheader, -, -⟩ := h
  exact hheader.lt narrow_extLength

/-- A look at the header of an extension. -/
theorem Reads.ahead {ε α : Type} {m : EStateM ε Reader α} {P : α → Prop} {E : ε → Prop}
    (h : Reads d m x rest P E) : Reads d (Reader.ahead m) [] (x ++ rest) P E := by
  intro r hr hd hahead
  rcases h hr hd hahead with ⟨a, hm, ha⟩ | ⟨e, s, hm, he⟩
  · exact Or.inl ⟨a, by rw [Reader.ahead, hm, List.length_nil, past_zero hr], ha⟩
  · exact Or.inr ⟨e, r, by rw [Reader.ahead, hm], he⟩

/-- An extension is read as its type and a view of its payload. -/
theorem Reads.ext {type : Int8} {payload : List UInt8} (h : Extended x type payload) :
    Reads d ext x rest (fun e => e.type = type ∧ e.data.Shows payload) E := by
  obtain ⟨header, b, hheader, rfl, rfl⟩ := h
  rw [← List.singleton_append, ← List.append_assoc]
  refine Reads.bind (Reads.extHeader hheader ?_) ?_
  · rw [List.length_append]
    omega
  · intro m hm
    exact (Reads.take hm.2.symm).map fun v hv => ⟨hm.1, hv⟩

/-- What is read as an extension has that type, and a payload that the view shows. -/
theorem Recognizes.ext : Recognizes d ext fun x e =>
    ∃ payload, Extended x e.type payload ∧ e.data.Shows payload := by
  refine Recognizes.extHeader.bind ?_
  rintro x m ⟨y, b, rfl, hheader, htype⟩
  refine (Recognizes.take m.length.toNat).map ?_
  rintro payload v ⟨hlength, hv⟩
  exact ⟨payload, ⟨y, b, hlength ▸ hheader, htype, by rw [List.append_assoc]; rfl⟩, hv⟩

/-! ## Timestamps -/

/-- The payload of a timestamp is read as its parts. Nothing but its length can be wrong. -/
theorem Reads.timestampFields {payload : List UInt8} :
    Reads d (timestampFields payload.length) payload rest
      (fun p => Timestamp.partsOfPayload? payload = some p)
      (fun e => e = .invalidTimestamp ∧ Timestamp.partsOfPayload? payload = none) := by
  unfold Reader.timestampFields
  split
  · rename_i hlength
    rw [Timestamp.partsOfPayload?_seconds hlength]
    exact (Reads.nat (w := .w32) hlength).map fun n hn => by rw [hn]
  · rename_i hlength
    rw [Timestamp.partsOfPayload?_packed hlength]
    exact (Reads.nat (w := .w64) hlength).map fun n hn => by rw [hn]
  · rename_i hlength
    have htake : (payload.take 4).length = 4 := by rw [List.length_take, hlength]; rfl
    have hdrop : (payload.drop 4).length = 8 := by rw [List.length_drop, hlength]
    rw [Timestamp.partsOfPayload?_full hlength]
    -- the payload is read as what its two fields are put together from
    have hsplit := List.take_append_drop 4 payload
    generalize payload.take 4 = x at htake hsplit ⊢
    generalize payload.drop 4 = y at hdrop hsplit ⊢
    subst hsplit
    exact Reads.bind (Reads.nat (w := .w32) htake) fun n hn =>
      (Reads.int (t := .signed .w64) hdrop).map fun m hm => by rw [hn, hm]
  · rename_i h4 h8 h12
    refine Reads.of_throw ⟨rfl, ?_⟩
    cases hparts : Timestamp.partsOfPayload? payload with
    | none => rfl
    | some parts =>
        rcases Timestamp.partsOfPayload?_length hparts with h | h | h
        · exact absurd h h4
        · exact absurd h h8
        · exact absurd h h12

/-- What is read as the fields of a timestamp is a payload with these parts. -/
theorem Recognizes.timestampFields (n : Nat) : Recognizes d (timestampFields n) fun x p =>
    x.length = n ∧ Timestamp.partsOfPayload? x = some p := by
  unfold Reader.timestampFields
  -- by the length, which is that of one of the three layouts
  split
  · refine (Recognizes.require (Recognizes.nat? .w32)).map ?_
    rintro x m ⟨hlength, rfl⟩
    exact ⟨hlength, Timestamp.partsOfPayload?_seconds hlength⟩
  · refine (Recognizes.require (Recognizes.nat? .w64)).map ?_
    rintro x m ⟨hlength, rfl⟩
    exact ⟨hlength, Timestamp.partsOfPayload?_packed hlength⟩
  · refine (Recognizes.require (Recognizes.nat? .w32)).bind ?_
    rintro x m ⟨hx, rfl⟩
    refine (Recognizes.require (Recognizes.int? (.signed .w64))).map ?_
    rintro y k ⟨hy, hk⟩
    have hlength : (x ++ y).length = 12 := by rw [List.length_append, hx, hy]; rfl
    have hdrop : (x ++ y).drop 4 = y := List.drop_left' hx
    have htake : (x ++ y).take 4 = x := List.take_left' hx
    refine ⟨hlength, ?_⟩
    rw [Timestamp.partsOfPayload?_full hlength, hdrop, htake, hk]
  · exact Recognizes.of_throw _

/-- Reads the payload of a timestamp as the instant that it stands for. -/
def instant (length : Nat) : Read Timestamp := do
  let parts ← timestampFields length
  match Timestamp.ofParts (Int64.ofInt parts.1) (UInt32.ofNat parts.2) with
  | .ok t => pure t
  | .error _ => throw .invalidTimestamp

/-- A timestamp is the header of an extension, and its payload if the type is that of timestamps. -/
theorem timestamp_eq : timestamp = extHeader >>= fun h =>
    if h.type = timestampType then instant h.length.toNat
    else throw (.unexpectedExtension timestampType h.type) := by
  rw [timestamp]
  congr 1
  funext h
  by_cases htype : h.type = timestampType
  · rw [if_pos htype, if_neg (not_not_intro htype)]
    rfl
  · rw [if_neg htype, if_pos htype]
    rfl

/-- A payload is read as the instant that it stands for, or refused if it stands for none. -/
theorem Reads.instant {payload : List UInt8} :
    Reads d (instant payload.length) payload rest
      (fun t => Timestamp.ofPayload? payload = some t)
      (fun e => e = .invalidTimestamp ∧ Timestamp.ofPayload? payload = none) := by
  refine (Reads.timestampFields.mono (fun _ hp => hp) ?_).bind_last ?_
  · rintro e ⟨rfl, hparts⟩
    rw [Timestamp.ofPayload?, hparts]
    exact ⟨rfl, rfl⟩
  · intro parts hparts
    rw [Timestamp.ofPayload?, hparts, Option.bind_some]
    split
    · rename_i t ht
      rw [ht]
      exact Reads.of_pure rfl
    · rename_i herror
      rw [herror]
      exact Reads.of_throw ⟨rfl, rfl⟩

/-- What is read as an instant is a payload that stands for it. -/
theorem Recognizes.instant (n : Nat) : Recognizes d (instant n) fun x t =>
    x.length = n ∧ Timestamp.ofPayload? x = some t := by
  refine (Recognizes.timestampFields n).bind_last ?_
  rintro x parts ⟨hlength, hparts⟩
  split
  · rename_i t ht
    refine Recognizes.of_pure ⟨rfl, hlength, ?_⟩
    rw [Timestamp.ofPayload?, hparts, Option.bind_some, ht]
    rfl
  · exact Recognizes.of_throw _

/-- A timestamp is read from an extension of its type; its payload may stand for no instant. -/
theorem Reads.timestamp {payload : List UInt8} (h : Extended x timestampType payload) :
    Reads d timestamp x rest (fun t => Timestamp.ofPayload? payload = some t)
      (fun e => e = .invalidTimestamp ∧ Timestamp.ofPayload? payload = none) := by
  obtain ⟨header, b, hheader, htype, rfl⟩ := h
  rw [timestamp_eq, ← List.singleton_append, ← List.append_assoc]
  refine Reads.bind (Reads.extHeader hheader ?_) ?_
  · rw [List.length_append]
    omega
  · intro m hm
    rw [if_pos (hm.1.trans htype.symm), hm.2]
    exact Reads.instant

/-- What is read as a timestamp is an extension of that type whose payload stands for it. -/
theorem Recognizes.timestamp : Recognizes d timestamp fun x t =>
    ∃ payload, Extended x timestampType payload ∧ Timestamp.ofPayload? payload = some t := by
  rw [timestamp_eq]
  refine Recognizes.extHeader.bind ?_
  rintro x m ⟨y, b, rfl, hheader, htype⟩
  split
  · rename_i hm
    refine (Recognizes.instant _).mono ?_
    rintro payload t ⟨hlength, ht⟩
    refine ⟨payload, ⟨y, b, hlength ▸ hheader, hm.symm.trans htype, ?_⟩, ht⟩
    rw [List.append_assoc]
    rfl
  · exact Recognizes.of_throw _

/-- What is read as a date is an extension of the type of timestamps. -/
theorem Recognizes.dateTime : Recognizes d dateTime fun x _ =>
    ∃ payload, Extended x timestampType payload := by
  refine Recognizes.timestamp.bind_last ?_
  rintro x t ⟨payload, hx, -⟩
  split
  · exact Recognizes.of_pure ⟨rfl, payload, hx⟩
  · exact Recognizes.of_throw _

/-! ## Forms and complete values -/

theorem isValue_nil : IsValue [Format.nil.byte] :=
  isValue_of_fills rfl (.fixed rfl)

theorem isValue_boolean (v : Bool) : IsValue [(Format.boolean v).byte] :=
  isValue_of_fills rfl (.fixed rfl)

theorem isValue_float32 {field : List UInt8} (h : field.length = 4) :
    IsValue (Format.float32.byte :: field) :=
  isValue_of_fills rfl (.fixed h)

theorem isValue_float64 {field : List UInt8} (h : field.length = 8) :
    IsValue (Format.float64.byte :: field) :=
  isValue_of_fills rfl (.fixed h)

/-- A header with its payload is a complete value. -/
theorem Payload.isValue {select : Format → Option Extent} {v : View} (h : Payload select x v)
    (hselect : ∀ f e, select f = some e → f.body? = some (.sized e 0)) : IsValue x := by
  obtain ⟨header, payload, hheader, rfl, -⟩ := h
  exact hheader.isValue hselect rfl

/-- What may be nil is a complete value, if the rest is. -/
theorem OrNil.isValue {α : Type} {G : List UInt8 → α → Prop} {o : Option α} (h : OrNil G x o)
    (hG : ∀ a, G x a → IsValue x) : IsValue x := by
  cases o with
  | none =>
      rw [show x = [Format.nil.byte] from h]
      exact isValue_nil
  | some a => exact hG a h

theorem Textual.isValue {t : String} (h : Textual x t) : IsValue x := by
  obtain ⟨header, hheader, rfl⟩ := h
  exact hheader.isValue (fun _ _ => body?_of_strLength) rfl

/-- An extension is a complete value. -/
theorem Extended.isValue {type : Int8} {payload : List UInt8} (h : Extended x type payload) :
    IsValue x := by
  obtain ⟨header, b, hheader, -, rfl⟩ := h
  exact hheader.isValue (fun _ _ => body?_of_extLength) rfl

end Reader

end MessagePack
