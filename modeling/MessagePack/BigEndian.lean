import MessagePack.Format

/-!
# Fixed-width fields in big-endian order

Every field of a token that is wider than a byte is stored with its most significant byte first.

* `BigEndian.encode width n` writes the low `width` bytes of `n`;
* `BigEndian.decode` reads any list of bytes as a number, with `decode_encode` as the round trip;
* `IntType.encode` and `IntType.decode` do the same for the integer types, the signed ones in two's
  complement.
-/

namespace MessagePack

namespace BigEndian

/-- The `width` big-endian bytes of `n`; bits above `8 * width` are dropped. -/
def encode : (width n : Nat) → List UInt8
  | 0, _ => []
  | width + 1, n => UInt8.ofNat (n / 256 ^ width) :: encode width n

/-- The number with the given big-endian bytes. -/
def decode (bytes : List UInt8) : Nat :=
  bytes.foldl (fun n b => 256 * n + b.toNat) 0

/-- A number is written in as many bytes as the field is wide, whether or not it fits. -/
@[simp] theorem length_encode (width n : Nat) : (encode width n).length = width := by
  induction width with
  | zero => rfl
  | succ width ih => simp only [encode, List.length_cons, ih]

/-- Bytes read after a number shift it to the left and add their own value. -/
theorem foldl_encode (a width n : Nat) :
    (encode width n).foldl (fun m b => 256 * m + b.toNat) a
      = a * 256 ^ width + n % 256 ^ width := by
  induction width generalizing a with
  | zero => simp [encode, Nat.mod_one]
  | succ width ih =>
    have hb : (UInt8.ofNat (n / 256 ^ width)).toNat = n / 256 ^ width % 256 := by simp
    rw [encode, List.foldl_cons, ih, hb, Nat.pow_succ, Nat.mod_mul, Nat.add_mul, Nat.mul_comm 256 a,
      Nat.mul_assoc, Nat.mul_comm 256 (256 ^ width), Nat.mul_comm (n / 256 ^ width % 256)]
    omega

/-- A field reads back as what it was written from, up to the bits that were dropped. -/
theorem decode_encode (width n : Nat) : decode (encode width n) = n % 256 ^ width := by
  rw [decode, foldl_encode, Nat.zero_mul, Nat.zero_add]

end BigEndian

namespace IntType

/-- The bytes of a field that holds `n`, in two's complement if `n` is negative. -/
def encode (t : IntType) (n : Int) : List UInt8 :=
  BigEndian.encode t.width.bytes (n % 256 ^ t.width.bytes).toNat

/-- The integer that a field of the type holds. -/
def decode (t : IntType) (bytes : List UInt8) : Int :=
  match t with
  | unsigned _ => BigEndian.decode bytes
  | signed w => (BigEndian.decode bytes : Int).bmod (256 ^ w.bytes)

end IntType

end MessagePack
