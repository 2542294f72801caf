import MessagePack.Power

/-!
# Binary floating point numbers as bits

A float travels as the bits of its IEEE 754 interchange format, and it is kept as those bits, so
that nothing about a NaN is lost. Arithmetic is not needed here; what is needed is

* `FloatLayout.classify`: what a bit pattern stands for, as an exact `mantissa * 2 ^ exponent`;
* `FloatLayout.round`: the bits of the float nearest to such a number, a tie going to the even
  neighbour;
* the conversions between the two formats and from the integers, which are these two in sequence;
* `Binary32.sameNumber` and `Binary64.sameNumber`: equality as numbers, where a NaN differs from
  itself and the two zeros are equal.
-/

namespace MessagePack

/-! ## Layouts -/

/-- How the bits of a float are divided, from the top: a sign, an exponent and a fraction. -/
structure FloatLayout where
  exponentBits : Nat
  fractionBits : Nat

/-- What the bits of a float stand for. A finite number is `mantissa * 2 ^ exponent` with the sign
in front. -/
inductive FloatClass where
  | nan (negative : Bool) (payload : Nat)
  | infinite (negative : Bool)
  | finite (negative : Bool) (mantissa : Nat) (exponent : Int)

namespace FloatLayout

/-- The layout of single precision. -/
def single : FloatLayout :=
  ⟨8, 23⟩

/-- The layout of double precision. -/
def double : FloatLayout :=
  ⟨11, 52⟩

/-- The exponent of the unit in the last place of the smallest numbers. -/
def leastExponent (l : FloatLayout) : Int :=
  2 - 2 ^ (l.exponentBits - 1) - l.fractionBits

/-- The bits of positive infinity. -/
def infinityBits (l : FloatLayout) : Nat :=
  (2 ^ l.exponentBits - 1) * 2 ^ l.fractionBits

/-- The bit that holds the sign. -/
def signBit (l : FloatLayout) : Nat :=
  2 ^ (l.exponentBits + l.fractionBits)

/-- The bits with a sign put in front. -/
def withSign (l : FloatLayout) (negative : Bool) (magnitude : Nat) : Nat :=
  if negative then l.signBit + magnitude else magnitude

/-- What a bit pattern stands for. -/
def classify (l : FloatLayout) (bits : Nat) : FloatClass :=
  let negative := l.signBit ≤ bits
  let exponent := bits / 2 ^ l.fractionBits % 2 ^ l.exponentBits
  let fraction := bits % 2 ^ l.fractionBits
  if exponent = 2 ^ l.exponentBits - 1 then
    if fraction = 0 then .infinite negative else .nan negative fraction
  else if exponent = 0 then
    .finite negative fraction l.leastExponent
  else
    .finite negative (2 ^ l.fractionBits + fraction) (l.leastExponent + (exponent - 1))

/-- The whole number nearest to `n / 2 ^ shift`, a tie going to the even neighbour. -/
def halveToEven (n shift : Nat) : Nat :=
  let quotient := n / 2 ^ shift
  let twice := 2 * (n % 2 ^ shift)
  if twice < 2 ^ shift then quotient
  else if 2 ^ shift < twice then quotient + 1
  else quotient + quotient % 2

/-- The bits of the float nearest to `mantissa * 2 ^ exponent`, a tie going to the even neighbour;
what is too large becomes infinite. The unit in the last place follows from the number of bits of
the mantissa, and a carry out of the fraction runs into the exponent, as it should. -/
def round (l : FloatLayout) (negative : Bool) (mantissa : Nat) (exponent : Int) : Nat :=
  if mantissa = 0 then l.withSign negative 0
  else
    let unit := max (exponent + Nat.log2 mantissa - l.fractionBits) l.leastExponent
    let significand :=
      if unit ≤ exponent then mantissa * 2 ^ (exponent - unit).toNat
      else halveToEven mantissa (unit - exponent).toNat
    let magnitude := (unit - l.leastExponent).toNat * 2 ^ l.fractionBits + significand
    l.withSign negative (min magnitude l.infinityBits)

/-- The bits of a quiet NaN with a given payload. -/
def quietNaN (l : FloatLayout) (negative : Bool) (payload : Nat) : Nat :=
  l.withSign negative (l.infinityBits + (payload ||| 2 ^ (l.fractionBits - 1)))

/-- The bits, in layout `target`, of the number that `bits` stands for in layout `l`. A NaN keeps
its sign and the upper bits of its payload, and becomes quiet. -/
def convert (l target : FloatLayout) (bits : Nat) : Nat :=
  match l.classify bits with
  | .nan negative payload =>
    target.quietNaN negative (payload * 2 ^ target.fractionBits / 2 ^ l.fractionBits)
  | .infinite negative => target.withSign negative target.infinityBits
  | .finite negative mantissa exponent => target.round negative mantissa exponent

/-- The bits of the float nearest to an integer. -/
def ofInt (l : FloatLayout) (n : Int) : Nat :=
  l.round (n < 0) n.natAbs 0

/-- Whether a bit pattern is a NaN. -/
def isNaN (l : FloatLayout) (bits : Nat) : Bool :=
  l.infinityBits < bits % l.signBit

/-- Whether a bit pattern is one of the two zeros. -/
def isZero (l : FloatLayout) (bits : Nat) : Bool :=
  bits % l.signBit = 0

/-- Whether two bit patterns stand for the same number. -/
def sameNumber (l : FloatLayout) (x y : Nat) : Bool :=
  !l.isNaN x && (x = y || l.isZero x && l.isZero y)

end FloatLayout

/-! ## The two formats -/

/-- A single precision float, as its bits. -/
structure Binary32 where
  bits : UInt32
  deriving DecidableEq

/-- A double precision float, as its bits. -/
structure Binary64 where
  bits : UInt64
  deriving DecidableEq

namespace Binary32

/-- The float nearest to an integer. -/
def ofInt (n : Int) : Binary32 :=
  ⟨UInt32.ofNat (FloatLayout.single.ofInt n)⟩

/-- The same number in double precision. -/
def widen (x : Binary32) : Binary64 :=
  ⟨UInt64.ofNat (FloatLayout.single.convert .double x.bits.toNat)⟩

/-- Whether the float is not a number. -/
def isNaN (x : Binary32) : Bool :=
  FloatLayout.single.isNaN x.bits.toNat

/-- Equality as numbers: a NaN differs from itself and the two zeros are equal. -/
def sameNumber (x y : Binary32) : Bool :=
  FloatLayout.single.sameNumber x.bits.toNat y.bits.toNat

end Binary32

namespace Binary64

/-- The float nearest to an integer. -/
def ofInt (n : Int) : Binary64 :=
  ⟨UInt64.ofNat (FloatLayout.double.ofInt n)⟩

/-- The nearest number in single precision. -/
def narrow (x : Binary64) : Binary32 :=
  ⟨UInt32.ofNat (FloatLayout.double.convert .single x.bits.toNat)⟩

/-- Whether the float is not a number. -/
def isNaN (x : Binary64) : Bool :=
  FloatLayout.double.isNaN x.bits.toNat

/-- Equality as numbers: a NaN differs from itself and the two zeros are equal. -/
def sameNumber (x y : Binary64) : Bool :=
  FloatLayout.double.sameNumber x.bits.toNat y.bits.toNat

end Binary64

end MessagePack
