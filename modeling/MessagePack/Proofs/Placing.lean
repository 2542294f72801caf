import MessagePack.Proofs.Command

/-!
# Tokens are placed whole or not at all

`Token.place` is given a region of fixed size. Whatever the token, its bytes depend on the token
alone, so the region decides no more than whether there is room for them. A caller that was refused
is told how many bytes there are, and asks again with as much room; that works only if the number is
exact.

* **`Token.length_encode_mem`** bounds the size of a token, kind by kind.
* **`Token.place_of_fits`** and **`Token.place_of_too_small`** are the two outcomes.
* **`InsufficientSpace.toInt_sentinel`** is the number that stands for a refusal.
* **`Token.place_all_or_nothing`** puts them together, with the sizes of headers that are computed
  without a token.
-/

namespace MessagePack

/-! ## Sizes -/

namespace Token

/-- No integer takes more than nine bytes. -/
theorem length_encodeInt_le_nine (n : Int) : (encodeInt n).length ≤ 9 := by
  rw [length_encodeInt, length_encodeNat]
  split_ifs <;> omega

/-- No length of an extension takes more than five bytes. -/
theorem length_encodeExtLength_le_five (n : Nat) : (encodeExtLength n).length ≤ 5 := by
  rw [length_encodeExtLength]
  split_ifs <;> omega

/-- No token is longer than a timestamp in its widest layout. -/
theorem length_encode_le (t : Token) : t.encode.length ≤ 15 := by
  -- kind by kind, by the length that each is known to have
  cases t with
  | nil | boolean =>
      show 1 ≤ 15
      omega
  | compact type n =>
      have hle : (encodeInt n.val).length ≤ 9 := length_encodeInt_le_nine n.val
      show (encodeInt n.val).length ≤ 15
      omega
  | explicit type n =>
      rw [encode, List.length_cons, IntType.length_encode]
      cases type.width <;> decide
  | float32 | float64 =>
      rw [encode, List.length_cons, BigEndian.length_encode]
      omega
  | arrayHeader n =>
      rw [encode, encodeArrayHeader, length_encodeCount]
      split_ifs <;> omega
  | mapHeader n =>
      rw [encode, encodeMapHeader, length_encodeCount]
      split_ifs <;> omega
  | strHeader oldSpec n =>
      rw [encode, length_encodeStrHeader]
      split_ifs <;> omega
  | binHeader n =>
      rw [encode, length_encodeBinHeader]
      split_ifs <;> omega
  | extHeader h =>
      have hle := length_encodeExtLength_le_five h.length.toNat
      rw [encode, encodeExtHeader_eq, List.length_append, List.length_singleton]
      omega
  | timestamp t =>
      rw [encode, length_encodeTimestamp]
      split_ifs <;> omega

/-- Every token takes from one byte to fifteen. -/
theorem length_encode_mem (t : Token) : 1 ≤ t.encode.length ∧ t.encode.length ≤ 15 :=
  ⟨t.length_encode_pos, t.length_encode_le⟩

end Token

/-! ## Outcomes -/

/-- Of a size that a word has room for, the inverted bits are the number below its negative. -/
theorem InsufficientSpace.toInt_sentinel {e : InsufficientSpace} (h : e.required < 2 ^ 63) :
    e.sentinel.toInt = -e.required - 1 := by
  rw [sentinel, Int64.toInt_not, Int64.toInt_ofNat_of_lt h]
  exact Int.bmod_eq_of_le_mul_two (by omega) (by omega)

namespace Token

variable {t : Token} {region : ByteArray}

/-- In a region with room for it, a token stands in front of what the region had behind that
    room. -/
theorem place_of_fits (h : t.encode.length ≤ region.size) :
    (t.place region).1 = .ok t.encode.length
      ∧ (t.place region).2.data.toList = t.encode ++ region.data.toList.drop t.encode.length := by
  have hfits : t.bytes.size ≤ region.size := by rw [size_bytes]; exact h
  have hplace : t.place region = (.ok t.bytes.size, overwriteAt region 0 t.bytes) := if_pos hfits
  rw [hplace, toList_overwriteAt, List.take_zero, List.nil_append, Nat.zero_add, toList_bytes,
    size_bytes]
  exact ⟨rfl, rfl⟩

/-- Where there is no room nothing is written, and the number of bytes is told. -/
theorem place_of_too_small (h : region.size < t.encode.length) :
    t.place region = (.error ⟨t.encode.length⟩, region) := by
  have hfits : ¬ t.bytes.size ≤ region.size := by rw [size_bytes]; omega
  have hplace : t.place region = (.error ⟨t.bytes.size⟩, region) := if_neg hfits
  rw [hplace, size_bytes]

end Token

/-- **ALL OR NOTHING**: every token has its bytes, of which there are 1 to 15, and they are the same
    for all regions. A region that has room for them begins with them afterwards, keeps all its
    bytes behind them, and their number is the answer. Any other region stays as it is, and the
    answer is that so many bytes are required, in numbers the negative of that less one. The sizes
    of headers that are computed without a token are those of the tokens. -/
theorem Token.place_all_or_nothing (t : Token) :
    1 ≤ t.encode.length ∧ t.encode.length ≤ 15
      ∧ (∀ region : ByteArray, t.encode.length ≤ region.size →
        (t.place region).1 = .ok t.encode.length
          ∧ (t.place region).2.data.toList
            = t.encode ++ region.data.toList.drop t.encode.length)
      ∧ (∀ region : ByteArray, region.size < t.encode.length →
        ∃ e : InsufficientSpace, t.place region = (.error e, region)
          ∧ e.required = t.encode.length ∧ e.sentinel.toInt = -t.encode.length - 1)
      ∧ (∀ oldSpec length, t = .strHeader oldSpec length →
        strHeaderSize length oldSpec = t.encode.length)
      ∧ ∀ length, t = .binHeader length → binHeaderSize length = t.encode.length := by
  obtain ⟨hpos, hle⟩ := t.length_encode_mem
  refine ⟨hpos, hle, fun region hfits => place_of_fits hfits, ?_, ?_, ?_⟩
  -- a token is far shorter than the sizes at which the sentinel would wrap around
  · intro region hsmall
    exact ⟨⟨t.encode.length⟩, place_of_too_small hsmall, rfl,
      InsufficientSpace.toInt_sentinel (by show t.encode.length < 2 ^ 63; omega)⟩
  · rintro oldSpec length rfl
    exact strHeaderSize_eq oldSpec length
  · rintro length rfl
    exact binHeaderSize_eq length

/-- The header of 256 bytes has a size of two digits of length, and needs three bytes in all: a
    region of four keeps its last byte, and one of two keeps both. -/
theorem Token.place_binHeader :
    ((Token.binHeader 256).place ⟨#[7, 7, 7, 9]⟩).2.data.toList = [0xc5, 1, 0, 9]
      ∧ (∃ e, (Token.binHeader 256).place ⟨#[7, 9]⟩ = (.error e, ⟨#[7, 9]⟩)
        ∧ e.sentinel.toInt = -4)
      ∧ binHeaderSize 256 = 3 := by
  obtain ⟨-, -, hfits, hsmall, -, hsize⟩ := place_all_or_nothing (.binHeader 256)
  obtain ⟨e, hplace, -, hsentinel⟩ := hsmall ⟨#[7, 9]⟩ (by decide)
  exact ⟨(hfits ⟨#[7, 7, 7, 9]⟩ (by decide)).2, ⟨e, hplace, hsentinel⟩, hsize 256 rfl⟩

end MessagePack
