import TreeEvolution.Evolution
import TreeEvolution.Settings.Store
import TreeEvolution.Symbol.Boolean

/-!
# Even parity

A demonstration: find a program that tells whether an even number of its inputs are true.  It is
made of the connectives and the two constants, and its fitness is the share of the combinations of
inputs on which it is right.
-/

namespace TreeEvolution.EvenParity

/-- The number of inputs. -/
def inputs : Nat := 6

/-- Every combination of a number of inputs, the first input changing least often. -/
def combinations : Nat → List (List Bool)
  | 0 => [[]]
  | n + 1 => [false, true].flatMap fun b => (combinations n).map (b :: ·)

/-- Every combination of inputs, and whether an even number of them are true. -/
def cases : List (List Bool × Bool) :=
  (combinations inputs).map fun values => (values, values.countP id % 2 == 0)

/-- The symbols of the programs. -/
def vocabulary : Except Failure (Vocabulary Bool) :=
  Vocabulary.of inputs []
    [Boolean.conjunction, Boolean.disjunction, Boolean.exclusion, Boolean.negation,
     Boolean.constant true, Boolean.constant false]

/-- The settings of the demonstration when no file gives others. -/
def settings : Settings where
  initMethod := .full
  initMinDepth := 3
  initMaxDepth := 5

/-- The text of the best program of a run.  Settings without a seed use the one given here. -/
def solve (s : Settings) (otherSeed : UInt64) : Except Failure String := do
  let report : Report := ⟨s.maxGenerations, s.targetFitness⟩
  let v ← vocabulary
  let (evolution, _) ←
    (Evolution.of Keystream.ofSeed otherSeed s v (Scoring.agreement cases)).mapError Failure.error
  match (evolution.run report.observer (Evolution.stepsUpTo s.maxGenerations) ()).answer with
  | some (.ok population) =>
    let best ← population.best.mapError Failure.error
    best.text.mapError Failure.fault
  | some (.error f) => .error f
  | none => .error (Error.noValidIndividual : Failure)

/-- What the demonstration leaves behind. -/
structure Outcome where
  /-- The exit code. -/
  exit : Nat
  /-- What it says. -/
  output : String
  /-- What it complains of. -/
  complaint : String

/-- The outcome of a failure. -/
def Outcome.ofFailure : Failure → Outcome
  | .error e => ⟨1, "", "Error: " ++ e.message ++ "\n"⟩
  | .fault f => ⟨101, "", f.message?.getD "" ++ "\n"⟩

/-- Run the demonstration with settings that may have been refused. -/
def run (s : Except Failure Settings) (otherSeed : UInt64) : Outcome :=
  match s with
  | .error f => Outcome.ofFailure f
  | .ok s =>
    match solve s otherSeed with
    | .ok text => ⟨0, text ++ "\n", ""⟩
    | .error f => Outcome.ofFailure f

end TreeEvolution.EvenParity
