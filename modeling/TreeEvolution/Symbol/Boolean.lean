import TreeEvolution.Symbol.Basic

/-!
# Truth values

The symbols of programs over truth values: the usual connectives, the constants `True` and `False`,
and rules for symbols with other numbers of arguments.
-/

namespace TreeEvolution.Boolean

/-! ### Connectives -/

/-- The constant with a given truth value. -/
def constant (value : Bool) : Symbol Bool :=
  .constant (if value then "True" else "False") value

/-- Conjunction. -/
def conjunction : Symbol Bool :=
  .operator "and" fun a b => .ok (a && b)

/-- Disjunction. -/
def disjunction : Symbol Bool :=
  .operator "or" fun a b => .ok (a || b)

/-- Exclusive disjunction. -/
def exclusion : Symbol Bool :=
  .operator "xor" fun a b => .ok (a != b)

/-- The opposite of the first value. -/
def not : List Bool → Except Fault Bool
  | a :: _ => .ok !a
  | [] => .error .indexOutOfRange

/-- Negation. -/
def negation : Symbol Bool :=
  .function "not" 1 not Nat.one_pos

/-! ### Rules of further symbols -/

/-- Whether every value is true. -/
def all (values : List Bool) : Except Fault Bool :=
  .ok (values.all id)

/-- Whether some value is true. -/
def any (values : List Bool) : Except Fault Bool :=
  .ok (values.any id)

/-- Whether an odd number of values is true. -/
def odd (values : List Bool) : Except Fault Bool :=
  .ok (values.foldl (· != ·) false)

/-- The second value if the first is true, and else the third. -/
def choose : List Bool → Except Fault Bool
  | condition :: values =>
    match values[if condition then 0 else 1]? with
    | some value => .ok value
    | none => .error .indexOutOfRange
  | [] => .error .indexOutOfRange

/-- False only of two true values. -/
def nand (a b : Bool) : Except Fault Bool :=
  .ok !(a && b)

/-- False only of a true value and a false one. -/
def implies (a b : Bool) : Except Fault Bool :=
  .ok (!a || b)

end TreeEvolution.Boolean
