import MessagePack.BinaryFloat

/-!
# The shortest decimal that reads back

A float is written with the fewest decimal digits that still read back as the same float, and among
those with the digits nearest to it; of two that are equally near, the larger. The search is exact:
a float is the middle of an interval of numbers that all round to it, and for one, two, three and
more digits the two neighbours of the float on that decimal grid are tested.

* **`Decimal.shortest`** finds the digits;
* **`Decimal.positional`** writes digits without an exponent, however many zeros that takes.
-/

namespace MessagePack

namespace Decimal

/-- A positive rational number. -/
structure Ratio where
  numerator : Nat
  denominator : Nat

/-- A number `mantissa * 2 ^ exponent` as a ratio. -/
def Ratio.ofBinary (mantissa : Nat) (exponent : Int) : Ratio :=
  ⟨mantissa * 2 ^ exponent.toNat, 2 ^ (-exponent).toNat⟩

/-- The ratio divided by a power of ten. -/
def Ratio.scaled (r : Ratio) (power : Int) : Ratio :=
  ⟨r.numerator * 10 ^ (-power).toNat, r.denominator * 10 ^ power.toNat⟩

/-- The largest natural number that is not above the ratio. -/
def Ratio.floor (r : Ratio) : Nat :=
  r.numerator / r.denominator

/-- The order of a ratio and a natural number. -/
def Ratio.compareNat (r : Ratio) (n : Nat) : Ordering :=
  compare r.numerator (n * r.denominator)

/-- The numbers that round to one float: everything between two ends, which belong to it or not. -/
structure Interval where
  low : Ratio
  high : Ratio
  closed : Bool

/-- Whether the interval holds `n * 10 ^ power`. -/
def Interval.holds (i : Interval) (power : Int) (n : Nat) : Bool :=
  match (i.low.scaled power).compareNat n, (i.high.scaled power).compareNat n with
  | .lt, .gt => true
  | .eq, _ | _, .eq => i.closed
  | _, _ => false

/-- Decimal digits as a number, and the power of ten that it is multiplied by. -/
structure Digits where
  value : Nat
  power : Int

/-- The neighbour of a number on the grid of `10 ^ power` that the interval holds, the nearer one if
it holds both, and the upper one if they are equally near. -/
def nearest? (i : Interval) (number : Ratio) (power : Int) : Option Digits :=
  let scaled := number.scaled power
  let below := scaled.floor
  let twice : Ratio := ⟨2 * scaled.numerator, scaled.denominator⟩
  match i.holds power below && below ≠ 0, i.holds power (below + 1) with
  | true, true =>
    some ⟨if twice.compareNat (2 * below + 1) = .lt then below else below + 1, power⟩
  | true, false => some ⟨below, power⟩
  | false, true => some ⟨below + 1, power⟩
  | false, false => none

/-- Tries grids, each ten times finer than the one before. -/
def search (i : Interval) (number : Ratio) : (grids : Nat) → (power : Int) → Digits
  | 0, power => ⟨(number.scaled power).floor, power⟩
  | grids + 1, power =>
    match nearest? i number power with
    | some digits => digits
    | none => search i number grids (power - 1)

/-- A power of ten above a number `mantissa * 2 ^ exponent`: three decimal digits take less than ten
binary ones. -/
def powerAbove (mantissa : Nat) (exponent : Int) : Int :=
  let bits := exponent + Nat.log2 mantissa + 1
  if 0 ≤ bits then bits * 30103 / 100000 + 1 else bits * 30102 / 100000 + 1

/-- The interval of the numbers that round to `mantissa * 2 ^ exponent`. Its lower part is half as
wide if the floats below lie twice as dense, as they do below a power of two. -/
def roundingInterval (l : FloatLayout) (mantissa : Nat) (exponent : Int) : Interval :=
  let denser := mantissa = 2 ^ l.fractionBits ∧ l.leastExponent < exponent
  { low := if denser then .ofBinary (4 * mantissa - 1) (exponent - 2)
      else .ofBinary (2 * mantissa - 1) (exponent - 1)
    high := .ofBinary (2 * mantissa + 1) (exponent - 1)
    closed := mantissa % 2 = 0 }

/-- The shortest digits of the positive float `mantissa * 2 ^ exponent`. Seventeen digits suffice
for double precision. -/
def shortest (l : FloatLayout) (mantissa : Nat) (exponent : Int) : Digits :=
  search (roundingInterval l mantissa exponent) (.ofBinary mantissa exponent) 20
    (powerAbove mantissa exponent)

/-- Digits in positional notation. -/
def positional (d : Digits) : String :=
  let text := toString d.value
  if 0 ≤ d.power then text ++ String.ofList (List.replicate d.power.toNat '0')
  else
    let places := (-d.power).toNat
    let padded := List.replicate (places + 1 - text.length) '0' ++ text.toList
    let whole := padded.length - places
    String.ofList (padded.take whole) ++ "." ++ String.ofList (padded.drop whole)

/-- The text of a float: its shortest digits in positional notation. -/
def render (l : FloatLayout) (bits : Nat) : String :=
  match l.classify bits with
  | .nan _ _ => "NaN"
  | .infinite negative => if negative then "-inf" else "inf"
  | .finite negative mantissa exponent =>
    let magnitude :=
      if mantissa = 0 then "0" else positional (shortest l mantissa exponent)
    if negative then "-" ++ magnitude else magnitude

end Decimal

/-- The text of a single precision float. -/
def Binary32.render (x : Binary32) : String :=
  Decimal.render .single x.bits.toNat

/-- The text of a double precision float. -/
def Binary64.render (x : Binary64) : String :=
  Decimal.render .double x.bits.toNat

end MessagePack
