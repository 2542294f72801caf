import Mathlib.Tactic.SplitIfs
import MessagePack.Proofs.Payload
import MessagePack.Proofs.Writer

/-!
# The writer's forms are the shortest

The encoding of a token is one of the forms that the token is read from, and no form of the same
token is shorter. Both are shown kind by kind: an integer in the smallest of nine formats, a header
in the smallest of three, an extension with a payload of a fixed size, an instant in the smallest of
three layouts.
-/

namespace MessagePack

/-! ## Fields -/

/-- A field that is wide enough for a number is read back as that number. -/
theorem BigEndian.decode_encode_of_lt {width n : Nat} (h : n < 256 ^ width) :
    decode (encode width n) = n := by
  rw [decode_encode, Nat.mod_eq_of_lt h]

/-- Bytes read after a number shift it to the left, and their own number is added. -/
theorem BigEndian.foldl_eq (bytes : List UInt8) (a : Nat) :
    bytes.foldl (fun n b => 256 * n + b.toNat) a = a * 256 ^ bytes.length + decode bytes := by
  induction bytes generalizing a with
  | nil => rw [List.foldl_nil, List.length_nil, Nat.pow_zero, Nat.mul_one]; rfl
  | cons b bytes ih =>
      have hdecode : decode (b :: bytes) = b.toNat * 256 ^ bytes.length + decode bytes := by
        rw [decode, List.foldl_cons, ih, Nat.mul_zero, Nat.zero_add]
      rw [List.foldl_cons, ih, hdecode, List.length_cons, Nat.pow_succ, Nat.add_mul,
        Nat.add_assoc, Nat.mul_comm 256 a, Nat.mul_assoc, Nat.mul_comm 256]

/-- Whatever was read before, the low bytes of a number are those that were read last. -/
theorem BigEndian.encode_foldl (bytes : List UInt8) (a : Nat) :
    encode bytes.length (bytes.foldl (fun n b => 256 * n + b.toNat) a) = bytes := by
  -- what was read before stands above these bytes, so it is any number
  induction bytes generalizing a with
  | nil => rfl
  | cons b bytes ih =>
      have hhigh : (bytes.foldl (fun n b => 256 * n + b.toNat) (256 * a + b.toNat))
          / 256 ^ bytes.length = 256 * a + b.toNat := by
        rw [foldl_eq, Nat.mul_comm, Nat.mul_add_div (Nat.pow_pos (by decide)),
          Nat.div_eq_of_lt (decode_lt bytes), Nat.add_zero]
      have hbyte : UInt8.ofNat (256 * a + b.toNat) = b := by
        refine UInt8.toNat.inj ?_
        rw [UInt8.toNat_ofNat', Nat.mul_add_mod, Nat.mod_eq_of_lt b.toNat_lt]
      rw [List.length_cons, List.foldl_cons, encode, ih, hhigh, hbyte]

/-- A field is what its number is written as. -/
theorem BigEndian.encode_decode (bytes : List UInt8) : encode bytes.length (decode bytes) = bytes :=
  encode_foldl bytes 0

/-- A field that is wide enough for a number holds it. -/
theorem Extent.holds_encode {w : Width} {n : Nat} (h : n < 256 ^ w.bytes) :
    (Extent.field w).Holds (BigEndian.encode w.bytes n) n := by
  have hholds := Holds.field (BigEndian.length_encode w.bytes n)
  rwa [BigEndian.decode_encode_of_lt h] at hholds

/-- A number takes as many bytes as its type is wide. -/
theorem IntType.length_encode (t : IntType) (n : Int) : (t.encode n).length = t.width.bytes :=
  BigEndian.length_encode _ _

/-- Two's complement loses nothing that the width has room for. -/
theorem IntType.decode_encode_signed {w : Width} {n : Int} (hle : -2 ^ (w.bits - 1) ≤ n)
    (hlt : n < 2 ^ (w.bits - 1)) : (signed w).decode ((signed w).encode n) = n := by
  have hpos : (256 : Int) ^ w.bytes ≠ 0 := Int.pow_ne_zero (by decide)
  have hmod : (((n % 256 ^ w.bytes).toNat % 256 ^ w.bytes : Nat) : Int) = n % 256 ^ w.bytes := by
    rw [Int.natCast_emod, Int.toNat_of_nonneg (Int.emod_nonneg _ hpos), Int.natCast_pow]
    exact Int.emod_emod_of_dvd _ (Int.dvd_refl _)
  show ((BigEndian.decode (BigEndian.encode w.bytes (n % 256 ^ w.bytes).toNat) : Nat) : Int).bmod
    (256 ^ w.bytes) = n
  rw [BigEndian.decode_encode, hmod]
  have hbmod := Int.emod_bmod n (256 ^ w.bytes)
  rw [Int.natCast_pow] at hbmod
  refine hbmod.trans (Int.bmod_eq_of_le_mul_two ?_ ?_)
  · cases w <;> simp only [Width.bits, Width.bytes] at hle ⊢ <;> omega
  · cases w <;> simp only [Width.bits, Width.bytes] at hlt ⊢ <;> omega

/-- A field is what the integer in it is written as. -/
theorem IntType.encode_decode {t : IntType} {field : List UInt8}
    (h : field.length = t.width.bytes) : t.encode (t.decode field) = field := by
  -- two's complement only moves the number by a multiple of the power of the width
  have hsign : t.decode field % ((256 ^ t.width.bytes : Nat) : Int)
      = (BigEndian.decode field : Int) % ((256 ^ t.width.bytes : Nat) : Int) := by
    cases t with
    | unsigned w => rfl
    | signed w => exact Int.bmod_emod
  have hlt := BigEndian.decode_lt field
  rw [h] at hlt
  rw [← Int.natCast_emod, Nat.mod_eq_of_lt hlt, Int.natCast_pow] at hsign
  have hnumber : (t.decode field % 256 ^ t.width.bytes).toNat = BigEndian.decode field :=
    congrArg Int.toNat hsign
  rw [encode, hnumber, ← h, BigEndian.encode_decode]

/-- A field holds the integer that it decodes to. -/
theorem Format.HoldsInt.of_decode {t : IntType} {field : List UInt8} {n : Int}
    (h : field.length = t.width.bytes) (hn : t.decode field = n) : HoldsInt (.int t) field n := by
  rw [← hn]
  exact .field h

/-- A small negative number is part of the lead byte. -/
theorem Format.HoldsInt.of_negative {v : Fin 32} {n : Int} (hn : (v : Int) - 32 = n) :
    HoldsInt (.negativeFixInt v) [] n := by
  rw [← hn]
  exact .negative v

namespace Token

/-! ## Integers -/

/-- The length of an unsigned number, by the ranges of the five formats. -/
theorem length_encodeNat (n : Nat) : (encodeNat n).length =
    if n < 2 ^ 7 then 1 else if n < 2 ^ 8 then 2 else if n < 2 ^ 16 then 3
    else if n < 2 ^ 32 then 5 else 9 := by
  rw [encodeNat]
  split_ifs <;> simp only [List.length_cons, List.length_nil, BigEndian.length_encode]

/-- The length of an integer, by the ranges of all formats. -/
theorem length_encodeInt (n : Int) : (encodeInt n).length =
    if 0 ≤ n then (encodeNat n.toNat).length else if -2 ^ 5 ≤ n then 1 else if -2 ^ 7 ≤ n then 2
    else if -2 ^ 15 ≤ n then 3 else if -2 ^ 31 ≤ n then 5 else 9 := by
  rw [encodeInt]
  split_ifs <;>
    simp only [List.length_cons, List.length_nil, IntType.length_encode, IntType.width, Width.bytes]

/-- A non-negative integer is written in an unsigned format that holds it. -/
theorem exists_encodeNat {n : Nat} (h : n < 2 ^ 64) :
    ∃ (f : Format) (field : List UInt8), encodeNat n = f.byte :: field
      ∧ f.HoldsInt field n ∧ f.isSigned = false := by
  have hfield : ∀ w : Width, n < 256 ^ w.bytes →
      (Format.int (.unsigned w)).HoldsInt (BigEndian.encode w.bytes n) n := by
    intro w hw
    refine .of_decode (BigEndian.length_encode _ _) ?_
    rw [IntType.decode, BigEndian.decode_encode_of_lt hw]
  rw [encodeNat]
  split_ifs with h7 h8 h16 h32
  · exact ⟨.positiveFixInt ⟨n, h7⟩, [], rfl, .positive ⟨n, h7⟩, rfl⟩
  · exact ⟨.int (.unsigned .w8), _, rfl, hfield .w8 h8, rfl⟩
  · exact ⟨.int (.unsigned .w16), _, rfl, hfield .w16 h16, rfl⟩
  · exact ⟨.int (.unsigned .w32), _, rfl, hfield .w32 h32, rfl⟩
  · exact ⟨.int (.unsigned .w64), _, rfl, hfield .w64 h, rfl⟩

/-- A negative integer is written in a signed format that holds it. -/
theorem exists_encodeInt {n : Int} (hn : n < 0) (h : -2 ^ 63 ≤ n) :
    ∃ (f : Format) (field : List UInt8), encodeInt n = f.byte :: field
      ∧ f.HoldsInt field n ∧ f.isSigned = true := by
  -- all formats with a field are one argument: the bound is that of two's complement
  have hfield : ∀ w : Width, -2 ^ (w.bits - 1) ≤ n →
      (Format.int (.signed w)).HoldsInt ((IntType.signed w).encode n) n := by
    intro w hw
    exact .of_decode (IntType.length_encode _ _)
      (IntType.decode_encode_signed hw (Int.lt_trans hn (Int.pow_pos (by decide))))
  rw [encodeInt, if_neg (by omega)]
  split_ifs with h5 h7 h15 h31
  · refine ⟨_, [], rfl, .of_negative ?_, rfl⟩
    show (((n + 32).toNat % 32 : Nat) : Int) - 32 = n
    omega
  · exact ⟨.int (.signed .w8), _, rfl, hfield .w8 h7, rfl⟩
  · exact ⟨.int (.signed .w16), _, rfl, hfield .w16 h15, rfl⟩
  · exact ⟨.int (.signed .w32), _, rfl, hfield .w32 h31, rfl⟩
  · exact ⟨.int (.signed .w64), _, rfl, hfield .w64 h, rfl⟩

/-- **NO FORM OF AN INTEGER IS SHORTER.** -/
theorem length_encodeInt_le {f : Format} {field : List UInt8} {n : Int}
    (h : f.HoldsInt field n) : (encodeInt n).length ≤ field.length + 1 := by
  rw [length_encodeInt, length_encodeNat]
  -- the formats without a field are the narrowest there are; the others hold what their type does
  cases h with
  | positive v =>
      rw [List.length_nil]
      split_ifs <;> omega
  | negative v =>
      rw [List.length_nil]
      split_ifs <;> omega
  | @field t field h =>
      have hmem := IntType.decode_mem h
      rw [h]
      cases t with
      | unsigned w | signed w =>
          cases w <;> simp only [IntType.least, IntType.greatest, Width.bits, Width.bytes,
            IntType.width] at hmem ⊢ <;> split_ifs <;> omega

/-! ## Headers -/

/-- A number in a field is below the power of its size. -/
theorem lt_of_holds {w : Width} {field : List UInt8} {n : Nat}
    (h : (Extent.field w).Holds field n) : field.length = w.bytes ∧ n < 256 ^ w.bytes := by
  obtain ⟨hlength, rfl⟩ := h.of_field
  have hlt := BigEndian.decode_lt field
  rw [hlength] at hlt
  exact ⟨hlength, hlt⟩

/-- The table that goes with the headers of a container finds the counts in their formats and in no
    others. -/
structure Counts (select : Format → Option Extent) (fix : Fin 16 → Format)
    (field : CountWidth → Format) : Prop where
  fix_eq (k : Fin 16) : select (fix k) = some (.inLead k)
  field_eq (w : CountWidth) : select (field w) = some (.field w.toWidth)
  cases_of {f : Format} {e : Extent} (h : select f = some e) :
    (∃ k : Fin 16, e = .inLead k) ∨ ∃ w : CountWidth, e = .field w.toWidth

theorem counts_array : Counts Format.arrayCount? .fixArray .array where
  fix_eq _ := rfl
  field_eq _ := rfl
  cases_of {f e} h := by
    cases f <;> cases h
    · exact Or.inl ⟨_, rfl⟩
    · exact Or.inr ⟨_, rfl⟩

theorem counts_map : Counts Format.mapCount? .fixMap .map where
  fix_eq _ := rfl
  field_eq _ := rfl
  cases_of {f e} h := by
    cases f <;> cases h
    · exact Or.inl ⟨_, rfl⟩
    · exact Or.inr ⟨_, rfl⟩

section Counts

variable {select : Format → Option Extent} {fix : Fin 16 → Format} {field : CountWidth → Format}

/-- The length of a count, by the ranges of the three formats. -/
theorem length_encodeCount (n : Nat) : (encodeCount fix field n).length =
    if n < 16 then 1 else if n < 2 ^ 16 then 3 else 5 := by
  rw [encodeCount]
  split_ifs <;> simp only [List.length_cons, List.length_nil, BigEndian.length_encode]

/-- A count is written as a header that the table reads as this count. -/
theorem Counts.headed_encodeCount {n : Nat} (hselect : Counts select fix field)
    (h : n < 2 ^ 32) : Headed select n (encodeCount fix field n) := by
  rw [encodeCount]
  split_ifs with h4 h16
  · exact ⟨fix ⟨n, h4⟩, _, [], hselect.fix_eq _, .inLead n, rfl⟩
  · exact ⟨field .w16, _, _, hselect.field_eq _, Extent.holds_encode h16, rfl⟩
  · exact ⟨field .w32, _, _, hselect.field_eq _, Extent.holds_encode h, rfl⟩

/-- **NO HEADER OF A CONTAINER IS SHORTER.** -/
theorem Counts.length_encodeCount_le {n : Nat} {x : List UInt8}
    (hselect : Counts select fix field) (h : Headed select n x) :
    (encodeCount fix field n).length ≤ x.length := by
  obtain ⟨f, e, bytes, hf, he, rfl⟩ := h
  rw [length_encodeCount, List.length_cons]
  rcases hselect.cases_of hf with ⟨k, rfl⟩ | ⟨w, rfl⟩
  · obtain ⟨rfl, rfl⟩ := he.of_inLead
    rw [if_pos k.isLt]
    exact Nat.le_add_left 1 _
  · obtain ⟨hlength, hlt⟩ := lt_of_holds he
    cases w <;> simp only [CountWidth.toWidth, Width.bytes] at hlength hlt <;> split_ifs <;> omega

end Counts

/-- The length of a string is written as a header that the table reads as this length, in either
    mode. -/
theorem headed_encodeStrHeader (oldSpec : Bool) {n : Nat} (h : n < 2 ^ 32) :
    Headed Format.strLength? n (encodeStrHeader oldSpec n) := by
  rw [encodeStrHeader]
  split_ifs with h5 h8 h16
  · exact ⟨.fixStr ⟨n, h5⟩, _, [], rfl, .inLead n, rfl⟩
  · exact ⟨.str .w8, _, _, rfl, Extent.holds_encode h8.1, rfl⟩
  · exact ⟨.str .w16, _, _, rfl, Extent.holds_encode h16, rfl⟩
  · exact ⟨.str .w32, _, _, rfl, Extent.holds_encode h, rfl⟩

/-- Binary data have a header of their own, of three widths. -/
theorem exists_encodeBinHeader {n : Nat} (h : n < 2 ^ 32) :
    ∃ (w : LengthWidth) (field : List UInt8), encodeBinHeader n = (Format.bin w).byte :: field
      ∧ (Extent.field w.toWidth).Holds field n := by
  rw [encodeBinHeader]
  split_ifs with h8 h16
  · exact ⟨.w8, _, rfl, Extent.holds_encode h8⟩
  · exact ⟨.w16, _, rfl, Extent.holds_encode h16⟩
  · exact ⟨.w32, _, rfl, Extent.holds_encode h⟩

/-- The bytes of an extension header before the type. -/
def encodeExtLength (n : Nat) : List UInt8 :=
  match fixExtOf? n with
  | some k => [(Format.fixExt k).byte]
  | none =>
    if n < 2 ^ 8 then (Format.ext .w8).byte :: BigEndian.encode 1 n
    else if n < 2 ^ 16 then (Format.ext .w16).byte :: BigEndian.encode 2 n
    else (Format.ext .w32).byte :: BigEndian.encode 4 n

/-- The header of an extension is that of its length, and then the type. -/
theorem encodeExtHeader_eq (type : Int8) (n : Nat) :
    encodeExtHeader type n = encodeExtLength n ++ [type.toUInt8] := by
  rw [encodeExtHeader, encodeExtLength]
  cases fixExtOf? n <;> rfl

/-- Only powers of two have a format of fixed size. -/
theorem fixExtOf?_eq_some {n : Nat} {k : Fin 5} (h : fixExtOf? n = some k) : n = 2 ^ k.val := by
  unfold fixExtOf? at h
  split at h <;> cases h <;> rfl

/-- Each of the five powers of two has its format. -/
theorem fixExtOf?_two_pow (k : Fin 5) : fixExtOf? (2 ^ k.val) = some k := by
  revert k
  decide

/-- The length of an extension is written as a header that the table reads as this length. -/
theorem headed_encodeExtLength {n : Nat} (h : n < 2 ^ 32) :
    Headed Format.extLength? n (encodeExtLength n) := by
  rw [encodeExtLength]
  split
  · rename_i k hk
    rw [fixExtOf?_eq_some hk]
    exact ⟨.fixExt k, _, [], rfl, .inLead _, rfl⟩
  · split_ifs with h8 h16
    · exact ⟨.ext .w8, _, _, rfl, Extent.holds_encode h8, rfl⟩
    · exact ⟨.ext .w16, _, _, rfl, Extent.holds_encode h16, rfl⟩
    · exact ⟨.ext .w32, _, _, rfl, Extent.holds_encode h, rfl⟩

/-- How many bytes the length of an extension takes, by the ranges of its formats. -/
theorem length_encodeExtLength (n : Nat) : (encodeExtLength n).length =
    if (fixExtOf? n).isSome then 1 else if n < 2 ^ 8 then 2 else if n < 2 ^ 16 then 3 else 5 := by
  rw [encodeExtLength]
  split
  · rename_i k hk
    rw [hk]
    rfl
  · rename_i hk
    rw [hk]
    simp only [Option.isSome_none, Bool.false_eq_true, if_false]
    split_ifs <;> simp only [List.length_cons, BigEndian.length_encode]

/-- **NO OTHER HEADER IS SHORTER**, for strings in the default mode. -/
theorem length_encodeStrHeader_le {n : Nat} {x : List UInt8}
    (h : Headed Format.strLength? n x) : (encodeStrHeader false n).length ≤ x.length := by
  obtain ⟨f, e, field, hf, he, rfl⟩ := h
  rw [length_encodeStrHeader, List.length_cons]
  simp only [Bool.false_eq_true, not_false_eq_true, and_true]
  cases f <;> cases hf
  · obtain ⟨rfl, rfl⟩ := he.of_inLead
    split_ifs <;> omega
  · obtain ⟨hlength, hlt⟩ := lt_of_holds he
    rename_i w
    cases w <;> simp only [LengthWidth.toWidth, Width.bytes] at hlength hlt <;> split_ifs <;> omega

/-- No header of binary data for the same length is shorter than the one that is written. -/
theorem length_encodeBinHeader_le {w : LengthWidth} {field : List UInt8} {n : Nat}
    (h : (Extent.field w.toWidth).Holds field n) :
    (encodeBinHeader n).length ≤ field.length + 1 := by
  obtain ⟨hlength, hlt⟩ := lt_of_holds h
  rw [length_encodeBinHeader]
  cases w <;> simp only [LengthWidth.toWidth, Width.bytes] at hlength hlt <;> split_ifs <;> omega

/-- No header that the table reads as the length of an extension is shorter than the one that is
    written. -/
theorem length_encodeExtLength_le {n : Nat} {x : List UInt8}
    (h : Headed Format.extLength? n x) : (encodeExtLength n).length ≤ x.length := by
  obtain ⟨f, e, field, hf, he, rfl⟩ := h
  rw [length_encodeExtLength, List.length_cons]
  cases f <;> cases hf
  · obtain ⟨hlength, hlt⟩ := lt_of_holds he
    rename_i w
    cases w <;> simp only [LengthWidth.toWidth, Width.bytes] at hlength hlt <;> split_ifs <;> omega
  · obtain ⟨rfl, rfl⟩ := he.of_inLead
    rw [fixExtOf?_two_pow]
    exact Nat.le_refl 1

/-! ## Extensions and timestamps -/

/-- A header with its payload behind it is an extension of that type and payload. -/
theorem extended_encodeExtHeader (type : Int8) {payload : List UInt8}
    (h : payload.length < 2 ^ 32) :
    Reader.Extended (encodeExtHeader type payload.length ++ payload) type payload := by
  refine ⟨encodeExtLength payload.length, type.toUInt8, headed_encodeExtLength h,
    (Int8.toInt8_toUInt8 type).symm, ?_⟩
  rw [encodeExtHeader_eq, List.append_assoc]
  rfl

/-- No other form of an extension with this payload is shorter than the one that is written. -/
theorem length_encodeExtHeader_le {type : Int8} {x payload : List UInt8}
    (h : Reader.Extended x type payload) :
    (encodeExtHeader type payload.length ++ payload).length ≤ x.length := by
  obtain ⟨header, b, hheader, -, rfl⟩ := h
  have hle := length_encodeExtLength_le hheader
  rw [encodeExtHeader_eq, List.append_assoc, List.length_append,
    show (header ++ b :: payload).length = header.length + (payload.length + 1) from
      List.length_append]
  exact Nat.add_le_add_right hle _

end Token

namespace Timestamp

/-- The parts of a payload that stands for an instant. -/
theorem parts_of_ofPayload? {payload : List UInt8} {t : Timestamp}
    (h : ofPayload? payload = some t) : ∃ seconds nanoseconds,
      partsOfPayload? payload = some (seconds, nanoseconds)
        ∧ t.seconds = Int64.ofInt seconds ∧ t.nanoseconds = UInt32.ofNat nanoseconds := by
  rw [ofPayload?] at h
  obtain ⟨⟨seconds, nanoseconds⟩, hparts, ht⟩ := Option.bind_eq_some_iff.mp h
  refine ⟨seconds, nanoseconds, hparts, ?_⟩
  rw [ofParts] at ht
  split at ht
  · cases ht
    exact ⟨rfl, rfl⟩
  · cases ht

/-- The parts of a timestamp in a payload make the timestamp. -/
theorem ofPayload?_of_parts {payload : List UInt8} {t : Timestamp}
    (h : partsOfPayload? payload = some (t.seconds.toInt, t.nanoseconds.toNat)) :
    ofPayload? payload = some t := by
  rw [ofPayload?, h, Option.bind_some, Int64.ofInt_toInt, UInt32.ofNat_toNat, ofParts,
    dif_pos t.nanoseconds_lt]
  rfl

end Timestamp

namespace Token

/-- The layout with seconds alone. -/
theorem ofPayload?_seconds {t : Timestamp} (hle : 0 ≤ t.seconds.toInt)
    (h : t.nanoseconds.toNat * 2 ^ 34 + t.seconds.toInt.toNat < 2 ^ 32) :
    Timestamp.ofPayload? (BigEndian.encode 4
      (t.nanoseconds.toNat * 2 ^ 34 + t.seconds.toInt.toNat)) = some t := by
  apply Timestamp.ofPayload?_of_parts
  rw [Timestamp.partsOfPayload?_seconds (BigEndian.length_encode _ _),
    BigEndian.decode_encode_of_lt h]
  -- a number that fits into 32 bits has no nanoseconds above its seconds
  have hzero : t.nanoseconds.toNat = 0 := by omega
  rw [hzero, Nat.zero_mul, Nat.zero_add, Int.toNat_of_nonneg hle]

/-- The layout with both in one number. -/
theorem ofPayload?_packed {t : Timestamp} (hle : 0 ≤ t.seconds.toInt)
    (hlt : t.seconds.toInt < 2 ^ 34) :
    Timestamp.ofPayload? (BigEndian.encode 8
      (t.nanoseconds.toNat * 2 ^ 34 + t.seconds.toInt.toNat)) = some t := by
  have hnanos := t.nanoseconds_lt
  rw [nanosPerSecond] at hnanos
  apply Timestamp.ofPayload?_of_parts
  rw [Timestamp.partsOfPayload?_packed (BigEndian.length_encode _ _),
    BigEndian.decode_encode_of_lt (by omega)]
  congr 2 <;> omega

/-- The layout with full fields. -/
theorem ofPayload?_full (t : Timestamp) :
    Timestamp.ofPayload? (BigEndian.encode 4 t.nanoseconds.toNat
      ++ (IntType.signed .w64).encode t.seconds.toInt) = some t := by
  have hlength : (BigEndian.encode 4 t.nanoseconds.toNat).length = 4 := BigEndian.length_encode _ _
  have hseconds : (IntType.signed .w64).decode ((IntType.signed .w64).encode t.seconds.toInt)
      = t.seconds.toInt := IntType.decode_encode_signed t.seconds.le_toInt t.seconds.toInt_lt
  apply Timestamp.ofPayload?_of_parts
  rw [Timestamp.partsOfPayload?_full, List.drop_left' hlength, List.take_left' hlength, hseconds,
    BigEndian.decode_encode_of_lt t.nanoseconds.toNat_lt]
  rw [List.length_append, hlength, IntType.length_encode]
  rfl

/-- A timestamp is written as an extension that stands for it. -/
theorem exists_encodeTimestamp (t : Timestamp) : ∃ payload,
    Reader.Extended (encodeTimestamp t) timestampType payload
      ∧ Timestamp.ofPayload? payload = some t := by
  have hextended : ∀ payload : List UInt8, payload.length < 2 ^ 32 →
      Reader.Extended (encodeExtHeader timestampType payload.length ++ payload) timestampType
        payload := fun _ h => extended_encodeExtHeader timestampType h
  simp only [encodeTimestamp]
  -- the three layouts, from the shortest on; each has a length of its own
  split_ifs with hrange hpacked
  · have h := hextended (BigEndian.encode 4
      (t.nanoseconds.toNat * 2 ^ 34 + t.seconds.toInt.toNat)) (by
        rw [BigEndian.length_encode]
        decide)
    rw [BigEndian.length_encode] at h
    exact ⟨_, h, ofPayload?_seconds hrange.1 hpacked⟩
  · have h := hextended (BigEndian.encode 8
      (t.nanoseconds.toNat * 2 ^ 34 + t.seconds.toInt.toNat)) (by
        rw [BigEndian.length_encode]
        decide)
    rw [BigEndian.length_encode] at h
    exact ⟨_, h, ofPayload?_packed hrange.1 hrange.2⟩
  · have hlength : (BigEndian.encode 4 t.nanoseconds.toNat
        ++ (IntType.signed .w64).encode t.seconds.toInt).length = 12 := by
      rw [List.length_append, BigEndian.length_encode, IntType.length_encode]
      rfl
    have h := hextended _ (by rw [hlength]; decide)
    rw [hlength, ← List.append_assoc] at h
    exact ⟨_, h, ofPayload?_full t⟩

/-- The length of a timestamp, by the layout that its parts fit into. -/
theorem length_encodeTimestamp (t : Timestamp) : (encodeTimestamp t).length =
    if 0 ≤ t.seconds.toInt ∧ t.seconds.toInt < 2 ^ 34 then
      if t.nanoseconds.toNat * 2 ^ 34 + t.seconds.toInt.toNat < 2 ^ 32 then 6 else 10
    else 15 := by
  simp only [encodeTimestamp, encodeExtHeader_eq]
  split_ifs <;> simp only [List.length_append, length_encodeExtLength, BigEndian.length_encode,
    IntType.length_encode] <;> rfl

/-- **NO FORM OF A TIMESTAMP IS SHORTER.** -/
theorem length_encodeTimestamp_le {x payload : List UInt8} {t : Timestamp}
    (h : Reader.Extended x timestampType payload) (ht : Timestamp.ofPayload? payload = some t) :
    (encodeTimestamp t).length ≤ x.length := by
  have hle := length_encodeExtHeader_le h
  obtain ⟨seconds, nanoseconds, hparts, hseconds, hnanoseconds⟩ := Timestamp.parts_of_ofPayload? ht
  have hlt := BigEndian.decode_lt payload
  rw [encodeExtHeader_eq, List.length_append, List.length_append, length_encodeExtLength] at hle
  rw [length_encodeTimestamp, hseconds, hnanoseconds]
  rcases Timestamp.partsOfPayload?_length hparts with hlength | hlength | hlength
  · -- four bytes hold seconds alone, and such an instant is written in four bytes
    rw [hlength] at hle hlt
    have hmin : 6 ≤ x.length := hle
    rw [Timestamp.partsOfPayload?_seconds hlength] at hparts
    cases hparts
    rw [Int64.toInt_ofInt_of_le (by omega) (by omega), if_pos (by omega), if_pos]
    · exact hmin
    · show 0 * 2 ^ 34 + _ < 2 ^ 32
      omega
  · -- eight bytes hold both, and the instant is written in no more than eight
    rw [hlength] at hle
    have hmin : 10 ≤ x.length := hle
    rw [Timestamp.partsOfPayload?_packed hlength] at hparts
    cases hparts
    rw [Int64.toInt_ofInt_of_le (by omega) (by omega), if_pos (by omega)]
    split_ifs <;> omega
  · -- no layout takes more than twelve bytes
    rw [hlength] at hle
    have hmin : 15 ≤ x.length := hle
    split_ifs <;> omega

end Token

end MessagePack
