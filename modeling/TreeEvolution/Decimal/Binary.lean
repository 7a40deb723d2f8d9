/-!
# Doubles as exact rationals

A finite double is a natural number times a power of two.  `Binary.ofBits` reads the two from the
bit pattern, and `Binary.nearestBits` goes the other way: it rounds an arbitrary non-negative
rational, given as a quotient of naturals, to the nearest double, a tie going to the even
significand.  Everything here is exact arithmetic on naturals, so reading and writing decimals can
be reasoned about without any floating-point operation.

Magnitudes are handled as bit patterns without the sign bit.  On these the order of the naturals is
the order of the values, and a carry out of the significand runs into the exponent, which is what
makes the packing in `nearestBits` a single sum.
-/

namespace TreeEvolution.Decimal

/-- What becomes of a value that lies exactly between two neighbours of a grid. -/
inductive Tie where
  /-- The neighbour with the even count is taken. -/
  | toEven
  /-- The upper neighbour is taken. -/
  | up
  deriving DecidableEq

/-- The quotient `num / den`, rounded to the nearest natural. -/
def roundDiv (tie : Tie) (num den : Nat) : Nat :=
  let whole := num / den
  match compare (2 * (num % den)) den with
  | .lt => whole
  | .gt => whole + 1
  | .eq =>
    match tie with
    | .up => whole + 1
    | .toEven => if whole % 2 = 0 then whole else whole + 1

/-- The quotient of two naturals that equals `num / den * base ^ (-shift)`: a factor moves to the
denominator when `shift` is positive and to the numerator when it is negative. -/
def scaleDown (base num den : Nat) (shift : Int) : Nat × Nat :=
  if 0 ≤ shift then (num, den * Nat.pow base shift.toNat)
  else (num * Nat.pow base (-shift).toNat, den)

/-- A finite non-negative double, `significand * 2 ^ exponent`. -/
structure Binary where
  /-- The integral significand. -/
  significand : Nat
  /-- The power of two it is scaled by. -/
  exponent : Int
  deriving DecidableEq

namespace Binary

/-- The number of bits of the stored fraction. -/
def fractionBits : Nat := 52

/-- The value of the bit that normal significands have in front of the stored fraction: two to the
power of `fractionBits`. -/
def hiddenBit : Nat := 0x10000000000000

/-- The exponent of the least positive double. -/
def leastExponent : Int := -1074

/-- The bit pattern of infinity, which is also the first one beyond the finite magnitudes. -/
def infinityBits : Nat := 2047 * hiddenBit

/-- The value of a finite magnitude.  A zero exponent field marks the subnormal numbers, whose
significand has no hidden bit. -/
def ofBits (bits : Nat) : Binary :=
  let field := bits / hiddenBit
  let fraction := bits % hiddenBit
  if field = 0 then ⟨fraction, leastExponent⟩
  else ⟨hiddenBit + fraction, leastExponent + (field - 1 : Nat)⟩

/-- The value as a quotient of naturals. -/
def ratio (x : Binary) : Nat × Nat :=
  scaleDown 2 x.significand 1 (-x.exponent)

/-- The exponent that gives `num / den` a significand of 53 bits, or the least exponent where the
value is too small for that.  The binary logarithms of the two numbers determine it up to one. -/
def exponentFor (num den : Nat) : Int :=
  let estimate : Int := (num.log2 : Int) - den.log2 - (fractionBits + 1 : Nat)
  let (n, d) := scaleDown 2 num den estimate
  max leastExponent (if d * (2 * hiddenBit) ≤ n then estimate + 1 else estimate)

/-- The bit pattern of the double nearest to `num / den`, ties going to the even significand.  A
value beyond the finite range becomes infinity. -/
def nearestBits (num den : Nat) : Nat :=
  if num = 0 then 0
  else
    let exponent := exponentFor num den
    let (n, d) := scaleDown 2 num den exponent
    min infinityBits ((exponent - leastExponent).toNat * hiddenBit + roundDiv .toEven n d)

end Binary

/-- The value of the sign bit in the bit pattern of a double. -/
def signBit : Nat := 0x8000000000000000

/-- The bit pattern of the magnitude of a double: all but the sign bit. -/
def magnitudeBits (x : Float) : Nat :=
  x.toBits.toNat % signBit

/-- True of the doubles whose sign bit is set, negative zero among them. -/
def isNegative (x : Float) : Bool :=
  signBit ≤ x.toBits.toNat

/-- The double with a given sign and magnitude. -/
def ofSignAndBits (negative : Bool) (bits : Nat) : Float :=
  Float.ofBits (UInt64.ofNat (if negative then signBit + bits else bits))

end TreeEvolution.Decimal
