import TreeEvolution.Decimal.Shortest

/-!
# Numbers as text

Two families of number text are written.  `Layout.write` lays out the shortest decimal of a
double; the decisions a layout has to make are the fields of a `Layout`, and the three layouts in
use are values of it.  `writeFixed` writes a fixed number of decimal places instead, rounding the
exact value with ties to the even digit.
-/

namespace TreeEvolution.Decimal

/-- The decisions of a layout of shortest decimals. -/
structure Layout where
  /-- Whether an integral value written positionally keeps a point and a zero. -/
  pointZero : Bool
  /-- Whether values whose leading digit has an exponent below `-4` or above `15` are written with
  an exponent. -/
  exponents : Bool
  /-- The text of the value that is no number. -/
  notANumber : String
  /-- The text of infinity. -/
  infinity : String

/-- Numbers inside running text: always positional, and integral values without a point. -/
def Layout.running : Layout where
  pointZero := false
  exponents := false
  notANumber := "NaN"
  infinity := "inf"

/-- Numbers inside descriptions of values: recognisable as floating-point numbers, and very large
or very small ones with an exponent. -/
def Layout.described : Layout where
  pointZero := true
  exponents := true
  notANumber := "NaN"
  infinity := "inf"

/-- Numbers inside settings files: always positional, and never without a point. -/
def Layout.filed : Layout where
  pointZero := true
  exponents := false
  notANumber := "nan"
  infinity := "inf"

/-- A string of zeros. -/
def zeros (n : Nat) : String :=
  String.ofList (List.replicate n '0')

/-- Digits with a point before the last `places` of them; zeros are put in front where there are
too few digits. -/
def setPoint (digits : Nat) (places : Nat) : String :=
  let text := Nat.toDigits 10 digits
  let padded := List.replicate (places + 1 - text.length) '0' ++ text
  let whole := padded.length - places
  if places = 0 then String.ofList padded
  else String.ofList (padded.take whole ++ '.' :: padded.drop whole)

/-- A decimal without an exponent. -/
def positional (pointZero : Bool) (d : Scaled) : String :=
  if 0 ≤ d.exponent then
    toString d.digits ++ zeros d.exponent.toNat ++ (if pointZero then ".0" else "")
  else setPoint d.digits (-d.exponent).toNat

/-- A decimal with one digit before the point and an exponent. -/
def scientific (d : Scaled) : String :=
  let places := digitCount d.digits - 1
  setPoint d.digits places ++ "e" ++ toString (d.exponent + places)

namespace Layout

/-- The text of a finite positive double, given by its bits. -/
def magnitude (layout : Layout) (bits : Nat) : String :=
  let d := shortest bits
  let leading : Int := d.exponent + (digitCount d.digits - 1 : Nat)
  if layout.exponents && (leading < -4 || 15 < leading) then scientific d
  else positional layout.pointZero d

/-- The text of a double. -/
def write (layout : Layout) (x : Float) : String :=
  if x.isNaN then layout.notANumber
  else
    let bits := magnitudeBits x
    let sign := if isNegative x then "-" else ""
    let text :=
      if bits = 0 then (if layout.pointZero then "0.0" else "0")
      else if bits = Binary.infinityBits then layout.infinity
      else layout.magnitude bits
    sign ++ text

end Layout

/-- A double with a fixed number of decimal places.  The exact value is rounded, a tie going to the
even last digit; the sign is kept where the digits round to zero. -/
def writeFixed (places : Nat) (x : Float) : String :=
  if x.isNaN then "NaN"
  else
    let bits := magnitudeBits x
    let sign := if isNegative x then "-" else ""
    if bits = Binary.infinityBits then sign ++ "inf"
    else
      let (num, den) := (Binary.ofBits bits).ratio
      sign ++ setPoint (roundDiv .toEven (num * Nat.pow 10 places) den) places

end TreeEvolution.Decimal
