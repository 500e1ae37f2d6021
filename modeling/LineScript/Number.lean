import LineScript.Decimal.Shortest

/-!
# Numbers

A number is a 64-bit integer or a binary64 float. Sums, differences and products
of two integers are taken exactly and then have to fit: a result outside the
64-bit range is no number. As soon as one operand is a float, both are taken as
floats, and a quotient is a float in every case.
-/

namespace LineScript

inductive Number where
  | integer (n : Int64)
  | float (x : Float)
  deriving DecidableEq, Repr

namespace Number

/-- The integer `n`, if it fits into 64 bits. -/
def ofInt? (n : Int) : Option Number :=
  if Int64.minValue.toInt ≤ n ∧ n ≤ Int64.maxValue.toInt then some (.integer (Int64.ofInt n))
  else none

def toFloat : Number → Float
  | .integer n => Float.ofInt n.toInt
  | .float x => x

/-- An operation that is exact on two integers and a float operation otherwise. -/
def combine? (exact : Int → Int → Int) (rounded : Float → Float → Float) (a b : Number) :
    Option Number :=
  match a, b with
  | .integer m, .integer n => ofInt? (exact m.toInt n.toInt)
  | a, b => some (.float (rounded a.toFloat b.toFloat))

def add? : Number → Number → Option Number := combine? (· + ·) (· + ·)

def sub? : Number → Number → Option Number := combine? (· - ·) (· - ·)

def mul? : Number → Number → Option Number := combine? (· * ·) (· * ·)

/-- The quotient is a float, also of two integers, so dividing by zero gives an
infinity or no number and never fails. -/
def div (a b : Number) : Number :=
  .float (a.toFloat / b.toFloat)

/-- Whether two numbers are the same value. An integer is never a float, the two
zeros are one value, and so are all floats that are no number. -/
def same : Number → Number → Bool
  | .integer m, .integer n => m = n
  | .float x, .float y => x == y || (x.isNaN && y.isNaN)
  | _, _ => false

/-- A float as text: the shortest decimal that reads back, without an exponent. -/
def floatText (x : Float) : String :=
  if x.isNaN then "NaN"
  else
    let bits := x.toBits.toNat
    let magnitude := bits % 0x8000000000000000
    let sign := if magnitude = bits then "" else "-"
    if x.isInf then sign ++ "inf"
    else if magnitude = 0 then sign ++ "0"
    else sign ++ String.ofList (Decimal.Rounding.ofBits magnitude).shortest.positional

def text : Number → String
  | .integer n => toString n.toInt
  | .float x => floatText x

/-! ## Literals -/

/-- The value of a run of decimal digits, or nothing if another character stands
among them or there is none. -/
def digits? (s : List Char) : Option Nat :=
  if s.isEmpty || !s.all Char.isDigit then none
  else some (s.foldl (fun value c => 10 * value + (c.toNat - '0'.toNat)) 0)

/-- Reads a whole number with an optional sign that fits into 64 bits. -/
def ofIntegerText? : List Char → Option Number
  | '-' :: digits => (digits? digits).bind fun n => ofInt? (-n)
  | '+' :: digits => (digits? digits).bind fun n => ofInt? n
  | digits => (digits? digits).bind fun n => ofInt? n

/-- Whether an exponent follows. -/
def isExponentMark (c : Char) : Bool :=
  c = 'e' || c = 'E'

/-- Reads an exponent, which has an optional sign. Without its mark there is none. -/
def exponent? : List Char → Option Int
  | [] => some 0
  | _ :: '-' :: digits => (digits? digits).map fun n => -n
  | _ :: '+' :: digits => (digits? digits).map fun n => n
  | _ :: digits => (digits? digits).map fun n => n

/-- The float nearest to `n` times a power of ten. -/
def scaled (n : Nat) (exponent : Int) : Float :=
  if 0 < exponent then Float.ofScientific n false exponent.toNat
  else Float.ofScientific n true (-exponent).toNat

/-- Reads digits, of which some may stand behind a point, and possibly an exponent
as the nearest float. -/
def decimal? (s : List Char) : Option Float := do
  let mantissa := s.takeWhile (!isExponentMark ·)
  let whole := mantissa.takeWhile (· != '.')
  let fraction := (mantissa.dropWhile (· != '.')).drop 1
  let n ← digits? (whole ++ fraction)
  let exponent ← exponent? (s.dropWhile (!isExponentMark ·))
  return scaled n (exponent - fraction.length)

/-- Reads a decimal or one of the names for what is infinite or no number, in small
or capital letters. -/
def unsignedFloat? (s : List Char) : Option Float :=
  match String.ofList (s.map Char.toLower) with
  | "inf" | "infinity" => some (1 / 0)
  | "nan" => some (0 / 0)
  | _ => decimal? s

/-- Reads a float with an optional sign. No decimal is too large: past the largest
float it is infinite. -/
def ofFloatText? : List Char → Option Number
  | '-' :: rest => (unsignedFloat? rest).map fun x => .float (-x)
  | '+' :: rest => (unsignedFloat? rest).map .float
  | rest => (unsignedFloat? rest).map .float

end Number

end LineScript
