import TreeEvolution.Decimal.Written

/-!
# Failures

A computation of this library can end without a value in two ways.  An `Error` is a request that
was refused: the settings have a flaw, a variable does not exist, a population has nobody to select.
A `Fault` is a broken precondition: a listing that is no program, a symbol applied to the wrong
number of values, a random range without members, a list that no memory can hold.  Errors are
answered by the operation that refuses; a fault stops whatever computation it occurs in.  `Failure`
is either of the two.

Errors and faults are recorded by their cause, and the wording is left to `Error.message` and
`Fault.message?`.
-/

namespace TreeEvolution

/-- What can be wrong with settings. -/
inductive Flaw where
  /-- Fewer than two individuals. -/
  | populationTooSmall
  /-- No worker to score individuals. -/
  | noWorker
  /-- Tournaments without entrants. -/
  | emptyTournament
  /-- A crossover probability outside the unit interval. -/
  | crossoverOutOfRange
  /-- A mutation probability outside the unit interval. -/
  | mutationOutOfRange
  /-- A target fitness outside the unit interval. -/
  | targetOutOfRange
  /-- No height is allowed for initial trees. -/
  | noInitialHeight (least greatest : Nat)
  /-- No height is allowed for the trees that mutation grows. -/
  | noMutationHeight (least greatest : Nat)
  /-- A size limit that no program meets. -/
  | sizeLimitZero
  /-- A new probability for an operator that lies outside the unit interval. -/
  | probabilityRejected (operator : String) (probability : Float)

/-- The wording of a flaw. -/
def Flaw.message : Flaw → String
  | populationTooSmall => "Population size must be at least 2"
  | noWorker => "At least one evaluation thread is required"
  | emptyTournament => "Tournament size must be at least 1"
  | crossoverOutOfRange => "Crossover probability must be between 0 and 1"
  | mutationOutOfRange => "Mutation probability must be between 0 and 1"
  | targetOutOfRange => "Target fitness must be between 0 and 1"
  | noInitialHeight least greatest =>
    "Initial depth range " ++ toString least ++ "..=" ++ toString greatest ++ " is empty"
  | noMutationHeight least greatest =>
    "Mutation depth range " ++ toString least ++ "..=" ++ toString greatest ++ " is empty"
  | sizeLimitZero => "Size limit must allow at least one opcode"
  | probabilityRejected operator probability =>
    operator ++ " probability " ++ Decimal.Layout.running.write probability ++
      " must be between 0 and 1"

/-- A refused request. -/
inductive Error where
  /-- The settings have a flaw. -/
  | configuration (flaw : Flaw)
  /-- A variable beyond the declared inputs. -/
  | variableOutOfRange (index inputs : Nat)
  /-- Nobody can be taken from an empty population. -/
  | emptyPopulation
  /-- No individual has a valid fitness. -/
  | noValidIndividual
  /-- The least height of a sampler exceeds the greatest. -/
  | noHeight (least greatest : Nat)
  /-- The vocabulary has no terminals. -/
  | noTerminal
  /-- The settings cannot be read from the file and the environment. -/
  | unreadableSettings
  /-- A number of the settings is beyond the integers of a settings file. -/
  | unwritableSettings
  /-- A file cannot be written. -/
  | inaccessibleFile

/-- The wording of an error. -/
def Error.message : Error → String
  | configuration flaw => "Configuration error: " ++ flaw.message
  | variableOutOfRange index inputs =>
    "Variable index " ++ toString index ++ " out of range for " ++ toString inputs ++
      " declared inputs"
  | emptyPopulation => "Cannot select from an empty population"
  | noValidIndividual => "No individual with a valid fitness"
  | noHeight least greatest =>
    "Generation error: minimum height " ++ toString least ++ " exceeds maximum " ++
      toString greatest
  | noTerminal => "Generation error: primitive set has no terminals to build leaves from"
  | unreadableSettings => "Config source error: the settings cannot be read"
  | unwritableSettings => "TOML error: an integer is out of range"
  | inaccessibleFile => "IO error: the file cannot be written"

/-- A broken precondition. -/
inductive Fault where
  /-- A subtree reaches beyond the end of its listing. -/
  | missingSymbol (position length : Nat)
  /-- A listing goes on after its root subtree is complete. -/
  | noOpenSlot
  /-- The root subtree ends before the listing does. -/
  | leftOver (last length : Nat)
  /-- Applying a whole listing did not leave exactly one value. -/
  | notReduced
  /-- Fewer values are at hand than a symbol takes. -/
  | missingValues
  /-- A symbol is applied to the wrong number of values. -/
  | wrongArity (name : String) (expected received : Nat)
  /-- A variable has no input. -/
  | unboundVariable (name : String) (index inputs : Nat)
  /-- A random constant is used before its value is drawn. -/
  | undrawnConstant (name : String)
  /-- A function symbol without arguments. -/
  | nullaryFunction
  /-- Mutation of any number of individuals but one. -/
  | mutationArity
  /-- Crossover of any number of individuals but two. -/
  | crossoverArity
  /-- An index beyond the end of a sequence. -/
  | indexOutOfRange
  /-- A random draw from a range without members, or with an impossible probability. -/
  | impossibleDraw
  /-- A count beyond the numbers of 64 bits. -/
  | countOverflow
  /-- A list that no memory can hold. -/
  | beyondMemory
  deriving DecidableEq

/-- The wording of a fault, for those that have one. -/
def Fault.message? : Fault → Option String
  | missingSymbol position length =>
    some ("malformed expression: subtree needs element " ++ toString position ++ " of " ++
      toString length)
  | noOpenSlot => some "malformed expression: more opcodes than child slots"
  | leftOver last length =>
    some ("malformed expression: root subtree ends at " ++ toString last ++ " of " ++
      toString length ++ " opcodes")
  | notReduced => some "malformed expression: evaluation did not reduce to one value"
  | wrongArity name expected received =>
    some ("opcode " ++ name ++ " expects " ++ toString expected ++ " arguments, got " ++
      toString received)
  | unboundVariable name index inputs =>
    some ("variable " ++ name ++ " bound to input " ++ toString index ++ " but only " ++
      toString inputs ++ " inputs supplied")
  | undrawnConstant name => some ("ephemeral constant " ++ name ++ " evaluated before init")
  | nullaryFunction => some "a function needs at least one argument"
  | mutationArity => some "mutation takes exactly one individual"
  | crossoverArity => some "crossover takes exactly two individuals"
  | missingValues | indexOutOfRange | impossibleDraw | countOverflow | beyondMemory => none

/-- A computation that ended without a value. -/
inductive Failure where
  /-- A request was refused. -/
  | error (error : Error)
  /-- A precondition was broken. -/
  | fault (fault : Fault)

instance : Coe Error Failure := ⟨Failure.error⟩

instance : Coe Fault Failure := ⟨Failure.fault⟩

end TreeEvolution
