import TreeEvolution.Extent
import TreeEvolution.Symbol.Basic

/-!
# Vocabularies

A vocabulary is the supply of symbols that programs are made of.  It starts with one input symbol
for each input of a program and is extended symbol by symbol; leaves join the terminals and inner
symbols the functions, each at the end.  Since nothing is ever put in front of the first inputs,
`Vocabulary.input` finds them by position.

A symbol for an input that does not exist is refused.
-/

namespace TreeEvolution

/-- The symbols that programs are made of. -/
structure Vocabulary (V : Type) where
  /-- The number of inputs of a program. -/
  inputs : Nat
  /-- The leaves, those for the inputs first. -/
  terminals : List (Symbol V)
  /-- The inner symbols. -/
  functions : List (Symbol V)

namespace Vocabulary

variable {V : Type}

/-- The symbols of the inputs.  Inputs without a name of their own are called `in0`, `in1`, and so
on by their position. -/
def inputSymbols (inputs : Nat) (names : List String) : List (Symbol V) :=
  (List.range inputs).map fun i => .input (names.getD i ("in" ++ toString i)) i

/-- The vocabulary of nothing but inputs. -/
def ofInputs (inputs : Nat) (names : List String) : Except Fault (Vocabulary V) :=
  if Extent.fits inputs then .ok ⟨inputs, inputSymbols inputs names, []⟩
  else .error .beyondMemory

/-- Whether a symbol stands for an input beyond the declared ones. -/
def outOfRange? (v : Vocabulary V) (s : Symbol V) : Option Nat :=
  s.inputIndex?.filter (v.inputs ≤ ·)

/-- Extend a vocabulary by a symbol. -/
def add (v : Vocabulary V) (s : Symbol V) : Except Error (Vocabulary V) :=
  match v.outOfRange? s with
  | some index => .error (.variableOutOfRange index v.inputs)
  | none =>
    .ok (if 0 < s.arity then { v with functions := v.functions ++ [s] }
      else { v with terminals := v.terminals ++ [s] })

/-- Extend a vocabulary by symbols in order, up to the first that is refused.  The symbols before
that one are kept. -/
def addAll (v : Vocabulary V) : List (Symbol V) → Option Error × Vocabulary V
  | [] => (none, v)
  | s :: rest =>
    match v.add s with
    | .ok extended => extended.addAll rest
    | .error e => (some e, v)

/-- Extend a vocabulary by symbols in order, unless one of them is refused. -/
def extend (v : Vocabulary V) (symbols : List (Symbol V)) : Except Error (Vocabulary V) :=
  match v.addAll symbols with
  | (none, extended) => .ok extended
  | (some e, _) => .error e

/-- The vocabulary of inputs and further symbols. -/
def of (inputs : Nat) (names : List String) (symbols : List (Symbol V)) :
    Except Failure (Vocabulary V) := do
  let bare ← (ofInputs inputs names).mapError Failure.fault
  (bare.extend symbols).mapError Failure.error

/-- The symbol of an input. -/
def input (v : Vocabulary V) (index : Nat) : Except Failure (Symbol V) :=
  if index < v.inputs then
    match v.terminals[index]? with
    | some s => .ok s
    | none => .error (Fault.indexOutOfRange : Failure)
  else .error (Error.variableOutOfRange index v.inputs : Failure)

/-- The share of the terminals among all symbols; one if there are no symbols. -/
def terminalRatio (v : Vocabulary V) : Float :=
  let total := Float.ofNat (v.terminals.length + v.functions.length)
  if total == 0 then 1 else Float.ofNat v.terminals.length / total

/-- The names of the symbols between brackets. -/
def text (v : Vocabulary V) : String :=
  "[" ++ " ".intercalate ((v.terminals ++ v.functions).map Symbol.name) ++ "]"

/-- A description of a vocabulary by the numbers of its symbols. -/
def describe (v : Vocabulary V) : String :=
  Symbol.describeFields "PrimitiveSet"
    [("num_vars", toString v.inputs), ("terminals", toString v.terminals.length),
     ("primitives", toString v.functions.length)] false

end Vocabulary

end TreeEvolution
