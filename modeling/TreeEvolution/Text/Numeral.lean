import TreeEvolution.Decimal.Shortest

/-!
# Numerals

Numbers are read from decimal digits by their exact value, which is rounded once, at the end, if a
floating-point number is wanted.  The readers of this module accept what programs usually accept
from their surroundings: a sign, digits, and for floating-point numbers a point, an exponent, and
words for infinity and for what is no number.
-/

namespace TreeEvolution.Text

/-! ### Digits -/

/-- The value of a digit in a base up to sixteen. -/
def digitValue (c : Char) : Nat :=
  if c.isDigit then c.toNat - '0'.toNat
  else if c.isUpper then c.toNat - 'A'.toNat + 10
  else c.toNat - 'a'.toNat + 10

/-- The number with the given digits. -/
def ofDigits (base : Nat) (digits : List Char) : Nat :=
  digits.foldl (fun n c => base * n + digitValue c) 0

/-- The number with the given decimal digits, of which there must be one at least. -/
def natural? (digits : List Char) : Option Nat :=
  if !digits.isEmpty && digits.all Char.isDigit then some (ofDigits 10 digits) else none

/-- Take a sign off a text.  The first part is true of a minus. -/
def takeSign : List Char → Bool × List Char
  | '-' :: rest => (true, rest)
  | '+' :: rest => (false, rest)
  | text => (false, text)

/-- A number with a sign. -/
def withSign (negative : Bool) (n : Nat) : Int :=
  if negative then -n else n

/-- Whether an integer is one of 64 bits with a sign. -/
def fitsWord (n : Int) : Bool :=
  -0x8000000000000000 ≤ n && n ≤ 0x7FFFFFFFFFFFFFFF

/-! ### Numbers from the surroundings -/

/-- An integer of 64 bits with an optional sign. -/
def integer? (text : List Char) : Option Int := do
  let (negative, digits) := takeSign text
  let n ← natural? digits
  let value := withSign negative n
  if fitsWord value then some value else none

/-- A natural number of 64 bits with an optional plus. -/
def word? (text : List Char) : Option Nat := do
  let n ← natural? (match text with | '+' :: digits => digits | digits => digits)
  if n < UInt64.size then some n else none

/-- The double nearest to a decimal with digits before and after the point. -/
def floatOfParts (negative : Bool) (whole fraction : List Char) (exponent : Int) : Float :=
  Decimal.Scaled.toFloat negative
    ⟨ofDigits 10 (whole ++ fraction), exponent - fraction.length⟩

/-- Not a number. -/
def notANumber : Float :=
  Float.ofBits 0x7ff8000000000000

/-- Infinity with a sign. -/
def infinity (negative : Bool) : Float :=
  Decimal.ofSignAndBits negative Decimal.Binary.infinityBits

/-- Whether a character begins the exponent of a numeral. -/
def isExponentMark (c : Char) : Bool :=
  c = 'e' || c = 'E'

/-- The exponent at the end of a numeral, if there is one. -/
def exponent? : List Char → Option Int
  | [] => some 0
  | _ :: text => do
    let (negative, digits) := takeSign text
    let n ← natural? digits
    some (withSign negative n)

/-- The digits before and after the point of a numeral, at least one of them. -/
def mantissa? (text : List Char) : Option (List Char × List Char) :=
  let (whole, rest) := text.span Char.isDigit
  let fraction? : Option (List Char) := match rest with
    | [] => some []
    | '.' :: fraction => if fraction.all Char.isDigit then some fraction else none
    | _ => none
  match fraction? with
  | some fraction => if whole.isEmpty && fraction.isEmpty then none else some (whole, fraction)
  | none => none

/-- A floating-point number with an optional sign, in decimal digits or as a word. -/
def float? (text : List Char) : Option Float :=
  let (negative, magnitude) := takeSign text
  let word := String.ofList (magnitude.map Char.toLower)
  if word = "inf" || word = "infinity" then some (infinity negative)
  else if word = "nan" then some notANumber
  else do
    let (digits, mark) := magnitude.span fun c => !isExponentMark c
    let (whole, fraction) ← mantissa? digits
    let exponent ← exponent? mark
    some (floatOfParts negative whole fraction exponent)

end TreeEvolution.Text
