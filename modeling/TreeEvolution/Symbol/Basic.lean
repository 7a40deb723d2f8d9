import TreeEvolution.Random.Recipe
import TreeEvolution.Text.Quoted

/-!
# Symbols

A symbol labels a node of a program tree.  Leaves are constants, sensors, random constants and the
inputs of a program; the symbols of inner nodes are functions, with any positive number of
arguments, and operators, which take two arguments and are written between them.

A symbol is applied to values (`Symbol.apply`), written as text around the texts of its arguments
(`Symbol.write`), and described (`Symbol.describe`).  Leaves are applied to the inputs of the
program and inner symbols to the values of their subtrees; only inputs look at the former.

A random constant comes without a value.  `Symbol.realise` draws one by the recipe of the constant,
and the result keeps its value for as long as it lives.

What a sensor reads and what a rule makes of its arguments are functions without a memory.  The
surroundings of a sensor are taken to stay as they are, so its reading is a part of the symbol: the
same value whenever the symbol is applied, or the same fault.
-/

namespace TreeEvolution

/-- Values that can be written. -/
class Printed (V : Type) where
  /-- A value within running text. -/
  text : V → String
  /-- A value within a description. -/
  description : V → String

instance : Printed Bool where
  text b := if b then "true" else "false"
  description b := if b then "true" else "false"

instance : Printed Float where
  text := Decimal.Layout.running.write
  description := Decimal.Layout.described.write

/-- The label of a node in a program tree over the values `V`. -/
inductive Symbol (V : Type) where
  /-- A leaf with a fixed value. -/
  | constant (name : String) (value : V)
  /-- A leaf whose value is read off its surroundings, always with the same outcome. -/
  | sensor (name : String) (reading : Except Fault V)
  /-- A leaf that stands for one of the inputs of a program. -/
  | input (name : String) (index : Nat)
  /-- A leaf whose value is drawn at random by a recipe, and kept from then on. -/
  | random (name : String) (recipe : Recipe V) (value : Option V)
  /-- An inner symbol, written in front of its arguments. -/
  | function (name : String) (arity : Nat) (rule : List V → Except Fault V)
      (arity_pos : 0 < arity)
  /-- An inner symbol, written between its two arguments. -/
  | operator (name : String) (rule : V → V → Except Fault V)

namespace Symbol

variable {V σ : Type}

/-- The name of a symbol. -/
def name : Symbol V → String
  | constant name _ | sensor name _ | input name _ | random name _ _ => name
  | function name _ _ _ | operator name _ => name

/-- The number of subtrees below a node with this symbol; zero for leaves. -/
def arity : Symbol V → Nat
  | constant _ _ | sensor _ _ | input _ _ | random _ _ _ => 0
  | function _ arity _ _ => arity
  | operator _ _ => 2

/-- A function symbol with a number of arguments that is known only now. -/
def function? (name : String) (arity : Nat) (rule : List V → Except Fault V) :
    Except Fault (Symbol V) :=
  if h : 0 < arity then .ok (function name arity rule h) else .error .nullaryFunction

/-- The index of the input a symbol stands for. -/
def inputIndex? : Symbol V → Option Nat
  | input _ index => some index
  | _ => none

/-- The value of a symbol: of a leaf on the inputs of the program, of an inner symbol on the values
of its subtrees. -/
def apply (s : Symbol V) (values : List V) : Except Fault V :=
  match s with
  | constant _ value => .ok value
  | sensor _ reading => reading
  | input name index =>
    match values[index]? with
    | some value => .ok value
    | none => .error (.unboundVariable name index values.length)
  | random name _ value =>
    match value with
    | some value => .ok value
    | none => .error (.undrawnConstant name)
  | function name arity rule _ =>
    if values.length = arity then rule values else .error (.wrongArity name arity values.length)
  | operator name rule =>
    match values with
    | [a, b] => rule a b
    | _ => .error (.wrongArity name 2 values.length)

/-- A name in front of its arguments; without arguments the name stands alone. -/
def call (name : String) (arguments : List String) : String :=
  if arguments.isEmpty then name else name ++ "(" ++ ", ".intercalate arguments ++ ")"

/-- The text of a symbol around the texts of its arguments.  A random constant is written as its
value once it has one. -/
def write [Printed V] (s : Symbol V) (arguments : List String) : Except Fault String :=
  match s with
  | random name _ value => .ok (value.elim name Printed.text)
  | operator name _ =>
    match arguments with
    | a :: b :: _ => .ok ("(" ++ a ++ " " ++ name ++ " " ++ b ++ ")")
    | _ => .error .indexOutOfRange
  | s => .ok (call s.name arguments)

/-- The symbol that takes the place of a random constant when a program is made, with its value
drawn.  Any other symbol is used as it is. -/
def realise [WordSource σ] : Symbol V → Draw σ (Option (Symbol V))
  | random name recipe _ => do
    let value ← recipe.follow
    pure (some (random name recipe (some value)))
  | _ => pure none

/-! ### Descriptions -/

/-- A record with named fields, within a description. -/
def describeFields (kind : String) (fields : List (String × String)) (more : Bool) : String :=
  let entries := fields.map fun (field, text) => field ++ ": " ++ text
  kind ++ " \x7b " ++ ", ".intercalate (entries ++ if more then [".."] else []) ++ " \x7d"

/-- A description of a symbol.  Rules, recipes and readings have no text; two dots stand for
them. -/
def describe [Printed V] : Symbol V → String
  | constant name value =>
    describeFields "Constant"
      [("name", Text.quoted name), ("value", Printed.description value)] false
  | sensor name _ => describeFields "Terminal" [("name", Text.quoted name)] true
  | input name index =>
    describeFields "Variable" [("name", Text.quoted name), ("index", toString index)] false
  | random name _ value =>
    let content := value.elim "None" fun v => "Some(" ++ Printed.description v ++ ")"
    describeFields "Ephemeral" [("name", Text.quoted name), ("value", content)] true
  | function name arity _ _ =>
    describeFields "Function" [("name", Text.quoted name), ("arity", toString arity)] true
  | operator name _ => describeFields "Operator" [("name", Text.quoted name)] true

/-- A short form of a symbol: the text of a leaf, and the name of an inner symbol with its number
of arguments. -/
def brief [Printed V] (s : Symbol V) : String :=
  if s.arity = 0 then
    match s.write [] with
    | .ok text => text
    | .error _ => s.name
  else s.name ++ "/" ++ toString s.arity

end Symbol

end TreeEvolution
