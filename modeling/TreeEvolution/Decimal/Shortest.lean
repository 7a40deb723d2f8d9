import TreeEvolution.Decimal.Binary

/-!
# Decimals, and the shortest one that reads back

A decimal is a natural number times a power of ten.  `Decimal.toFloat` is the double nearest to a
decimal, and `shortest` chooses, for a finite positive double, the decimal with the fewest digits
that reads back as it.

The choice follows the definition.  For one digit, two digits, and so on, the value has two
neighbours on the grid of decimals with that many digits; the first grid on which a neighbour reads
back decides, the nearer neighbour is taken if both do, and the upper one if they are equally near.
Should no grid up to seventeen digits have such a neighbour, the exact decimal value is returned,
which reads back as well.
-/

namespace TreeEvolution.Decimal

/-- A non-negative decimal, `digits * 10 ^ exponent`. -/
structure Scaled where
  /-- The digits, as one natural number. -/
  digits : Nat
  /-- The power of ten they are scaled by. -/
  exponent : Int
  deriving DecidableEq

/-- The number of decimal digits of a natural number; zero has one. -/
def digitCount (n : Nat) : Nat :=
  (Nat.toDigits 10 n).length

namespace Scaled

/-- The value as a quotient of naturals. -/
def ratio (d : Scaled) : Nat × Nat :=
  scaleDown 10 d.digits 1 (-d.exponent)

/-- The magnitude of the double nearest to a decimal.  Decimals far beyond the range of the doubles
are answered without forming their powers of ten. -/
def nearestBits (d : Scaled) : Nat :=
  let leading : Int := digitCount d.digits + d.exponent
  if d.digits = 0 then 0
  else if 400 < leading then Binary.infinityBits
  else if leading < -400 then 0
  else Binary.nearestBits d.ratio.1 d.ratio.2

/-- The double nearest to a decimal with a given sign. -/
def toFloat (negative : Bool) (d : Scaled) : Float :=
  ofSignAndBits negative d.nearestBits

/-- The same value without trailing zeros in the digits. -/
def stripZeros (d : Scaled) : Scaled :=
  if h : d.digits ≠ 0 ∧ d.digits % 10 = 0 then
    stripZeros ⟨d.digits / 10, d.exponent + 1⟩
  else d
termination_by d.digits
decreasing_by omega

end Scaled

/-- The exponent of the leading decimal digit of a positive quotient: the greatest `k` for which
`10 ^ k` is at most `num / den`.  The digit counts of the two numbers determine it up to one. -/
def leadingExponent (num den : Nat) : Int :=
  let estimate : Int := (digitCount num : Int) - digitCount den
  let (n, d) := scaleDown 10 num den estimate
  if d ≤ n then estimate else estimate - 1

/-- The decimal value of a double, digit by digit. -/
def exactDecimal (x : Binary) : Scaled :=
  if 0 ≤ x.exponent then ⟨x.significand * Nat.pow 2 x.exponent.toNat, 0⟩
  else ⟨x.significand * Nat.pow 5 (-x.exponent).toNat, x.exponent⟩

/-- Of the two neighbours of `num / den` on the grid of the multiples of `10 ^ exponent`, the one
that reads back as `bits`: the nearer if both do, the upper on a tie. -/
def neighbourReadingBack (bits num den : Nat) (exponent : Int) : Option Scaled :=
  let (n, d) := scaleDown 10 num den exponent
  let lower : Scaled := ⟨n / d, exponent⟩
  let upper : Scaled := ⟨n / d + 1, exponent⟩
  if lower.nearestBits = bits then
    if upper.nearestBits = bits ∧ d ≤ 2 * (n % d) then some upper else some lower
  else if upper.nearestBits = bits then some upper
  else none

/-- The neighbour on the first of `count` grids, each ten times finer than the one before, on which
one reads back. -/
def firstReadingBack (bits num den : Nat) (exponent : Int) : Nat → Option Scaled
  | 0 => none
  | count + 1 =>
    match neighbourReadingBack bits num den exponent with
    | some d => some d
    | none => firstReadingBack bits num den (exponent - 1) count

/-- The shortest decimal that reads back as a finite positive double, given by its bits. -/
def shortest (bits : Nat) : Scaled :=
  let x := Binary.ofBits bits
  let (num, den) := x.ratio
  let found := firstReadingBack bits num den (leadingExponent num den) 17
  (found.getD (exactDecimal x)).stripZeros

end TreeEvolution.Decimal
