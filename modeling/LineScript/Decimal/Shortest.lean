/-!
# The shortest decimal of a binary number

A binary64 number is written with the fewest decimal digits that still read back
as that number, and among those with the digits nearest to it. All arithmetic is
exact: a positive finite number is a fraction, and so are the two ends of the
interval of reals that round to it.

For one digit, two digits, and so on, the number has two neighbours on the grid
of decimals with that many digits. The first grid with a neighbour inside the
interval gives the answer. Seventeen digits are always enough.
-/

namespace LineScript.Decimal

/-- The number `digits * 10 ^ exponent`. -/
structure Scaled where
  digits : Nat
  exponent : Int
  deriving DecidableEq, Repr

/-- A positive number with the interval of reals that round to it, as fractions
over one denominator. The ends belong to the interval when `closed` holds. -/
structure Rounding where
  low : Nat
  value : Nat
  high : Nat
  denominator : Nat
  closed : Bool
  deriving DecidableEq, Repr

namespace Rounding

/-- The rounding interval of `mantissa * 2 ^ exponent`. It reaches half a step to
either side, and below a power of two the step is half as long. A tie rounds to
the even mantissa, so the ends belong to the interval of an even one. -/
def ofBinary (mantissa : Nat) (exponent : Int) (narrowBelow : Bool) : Rounding :=
  let scale := Nat.pow 2 (exponent - 2).toNat
  { low := (4 * mantissa - if narrowBelow then 1 else 2) * scale
    value := 4 * mantissa * scale
    high := (4 * mantissa + 2) * scale
    denominator := Nat.pow 2 (2 - exponent).toNat
    closed := mantissa % 2 = 0 }

/-- How many fractions a binary64 number tells apart: it has fifty-two bits for them. -/
def fractionSize : Nat :=
  0x10000000000000

/-- The rounding interval of the positive finite number with these sixty-four
bits. The sign bit is not looked at. -/
def ofBits (bits : Nat) : Rounding :=
  let fraction : Nat := bits % fractionSize
  let biased : Nat := bits / fractionSize % 2048
  if biased = 0 then ofBinary fraction (-1074) false
  else ofBinary (fraction + fractionSize) (biased - 1075) (fraction = 0 && 1 < biased)

/-- The same interval measured in units of `10 ^ exponent`. -/
def inUnits (r : Rounding) (exponent : Int) : Rounding :=
  let scale := Nat.pow 10 (-exponent).toNat
  { r with
    low := r.low * scale
    value := r.value * scale
    high := r.high * scale
    denominator := r.denominator * Nat.pow 10 exponent.toNat }

/-- Whether the whole number `n` lies in the interval. -/
def holds (r : Rounding) (n : Nat) : Bool :=
  let scaled := n * r.denominator
  if r.closed then r.low ≤ scaled && scaled ≤ r.high else r.low < scaled && scaled < r.high

/-- The whole number of the interval that is nearest to the value, if one of the
value's two neighbours lies in the interval. Half way between them the upper one
is taken. -/
def nearest? (r : Rounding) : Option Nat :=
  let below := r.value / r.denominator
  let above := below + 1
  match r.holds below, r.holds above with
  | true, true =>
    if above * r.denominator - r.value ≤ r.value - below * r.denominator then some above
    else some below
  | true, false => some below
  | false, true => some above
  | false, false => none

end Rounding

/-- How many decimal digits `n` has; zero has none. -/
def digitCount (n : Nat) : Nat :=
  if n = 0 then 0 else (Nat.toDigits 10 n).length

namespace Rounding

/-- The exponent `e` with `10 ^ (e - 1) ≤ value < 10 ^ e`. -/
def magnitude (r : Rounding) : Int :=
  if r.denominator ≤ r.value then digitCount (r.value / r.denominator)
  else 1 - (digitCount ((r.denominator + r.value - 1) / r.value - 1) : Int)

/-- The best decimal of `count` digits. -/
def withDigits? (r : Rounding) (count : Nat) : Option Scaled :=
  let exponent := r.magnitude - count
  ((r.inUnits exponent).nearest?).map fun digits => { digits, exponent }

/-- The decimal with the fewest digits that rounds to the value. -/
def shortest (r : Rounding) : Scaled :=
  ((List.range' 1 17).findSome? r.withDigits?).getD { digits := 0, exponent := 0 }

end Rounding

/-- Drops zeros at the end of a fraction with the given number of places. -/
def dropZeros : (places digits : Nat) → Nat × Nat
  | 0, digits => (0, digits)
  | places + 1, digits =>
    if digits % 10 = 0 then dropZeros places (digits / 10) else (places + 1, digits)

/-- Digits with a point in front of the last `places` of them. A zero stands in
front of the point if no digit does. -/
def pointed (places digits : Nat) : List Char :=
  let text := Nat.toDigits 10 digits
  let padded := List.replicate (places + 1 - text.length) '0' ++ text
  let whole := padded.length - places
  if places = 0 then text else padded.take whole ++ '.' :: padded.drop whole

/-- Writes a decimal without an exponent and without zeros at its end. -/
def Scaled.positional (d : Scaled) : List Char :=
  if 0 ≤ d.exponent then Nat.toDigits 10 d.digits ++ List.replicate d.exponent.toNat '0'
  else
    let (places, digits) := dropZeros (-d.exponent).toNat d.digits
    pointed places digits

end LineScript.Decimal
