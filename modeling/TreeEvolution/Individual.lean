import TreeEvolution.Program.Basic
import TreeEvolution.Text.Column

/-!
# Individuals

An individual is a program together with its score.  A score is a fitness and a mark that says
whether the fitness means anything; a new individual has none.
-/

namespace TreeEvolution

/-- A fitness, and whether it is valid. -/
structure Score where
  /-- The fitness; one is a perfect program. -/
  fitness : Float
  /-- Whether the fitness means anything. -/
  valid : Bool

/-- The score of a program that has not been scored. -/
def Score.pending : Score :=
  ⟨0, false⟩

/-- A program and its score. -/
structure Individual (V : Type) where
  /-- The program. -/
  code : Program V
  /-- Its score. -/
  score : Score := Score.pending

namespace Individual

variable {V : Type}

/-- Whether the individual has a valid fitness. -/
def valid (i : Individual V) : Bool :=
  i.score.valid

/-- The fitness of the individual. -/
def fitness (i : Individual V) : Float :=
  i.score.fitness

/-- The number of symbols of the program. -/
def size (i : Individual V) : Nat :=
  i.code.size

/-- The depth of the program, zero for one without symbols. -/
def depth (i : Individual V) : Except Fault Nat :=
  if i.code.isEmpty then .ok 0 else i.code.depth

/-- Whether two individuals have the same text. -/
def sameCode [Printed V] (i j : Individual V) : Except Fault Bool := do
  let s ← i.code.text
  let t ← j.code.text
  pure (s == t)

/-- The fitness of an individual in a column of six characters; question marks stand for a fitness
that is not valid. -/
def fitnessColumn (i : Individual V) : String :=
  Text.padLeft 6 (if i.valid then Decimal.writeFixed 3 i.fitness else "????")

/-- The fitness of an individual and its program. -/
def text [Printed V] (i : Individual V) : Except Fault String := do
  let code ← i.code.text
  pure (i.fitnessColumn ++ "  " ++ code)

/-- A description of an individual. -/
def describe (i : Individual V) : String :=
  Symbol.describeFields "Individual"
    [("code", i.code.describe), ("fitness", Printed.description i.fitness),
     ("fitness_valid", Printed.description i.valid)] false

end Individual

end TreeEvolution
