import TreeEvolution.Symbol.Basic

/-!
# Numbers

The symbols of programs over floating-point numbers: arithmetic, in which division by almost nothing
gives zero, constants named by their value, and rules for symbols with other numbers of arguments.
-/

namespace TreeEvolution.Numeric

/-! ### Arithmetic -/

/-- The constant with a given value, which is also its name. -/
def constant (value : Float) : Symbol Float :=
  .constant (Printed.text value) value

/-- Addition. -/
def addition : Symbol Float :=
  .operator "+" fun a b => .ok (a + b)

/-- Subtraction. -/
def subtraction : Symbol Float :=
  .operator "-" fun a b => .ok (a - b)

/-- Multiplication. -/
def multiplication : Symbol Float :=
  .operator "*" fun a b => .ok (a * b)

/-- Division by a number closer to zero than this gives zero. -/
def leastDivisor : Float := 1e-10

/-- The quotient of two numbers, or zero if the divisor is almost zero. -/
def quotient (a b : Float) : Float :=
  if -leastDivisor < b ∧ b < leastDivisor then 0 else a / b

/-- Division. -/
def division : Symbol Float :=
  .operator "/" fun a b => .ok (quotient a b)

/-- The first number with its sign changed. -/
def opposite : List Float → Except Fault Float
  | a :: _ => .ok (-a)
  | [] => .error .indexOutOfRange

/-- The change of sign. -/
def negation : Symbol Float :=
  .function "-" 1 opposite Nat.one_pos

/-! ### Rules of further symbols -/

/-- The sum of the values, from left to right. -/
def sum (values : List Float) : Except Fault Float :=
  .ok (values.foldl (· + ·) 0)

/-- The number of values. -/
def count (values : List Float) : Except Fault Float :=
  .ok (Float.ofNat values.length)

/-- The second value if the first is positive, and else the third. -/
def choose : List Float → Except Fault Float
  | condition :: values =>
    match values[if 0 < condition then 0 else 1]? with
    | some value => .ok value
    | none => .error .indexOutOfRange
  | [] => .error .indexOutOfRange

/-- The second number if it is smaller, and else the first. -/
def least (a b : Float) : Except Fault Float :=
  .ok (if b < a then b else a)

/-- One if the first number is smaller, and else zero. -/
def less (a b : Float) : Except Fault Float :=
  .ok (if a < b then 1 else 0)

end TreeEvolution.Numeric
