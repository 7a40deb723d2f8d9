import TreeEvolution.Limit
import TreeEvolution.TreeSampler

/-!
# Settings

The settings of an evolution, with the values they have when nothing else is said, and the check
that a run can be made with them.  `Settings.flaw?` finds the first flaw in a fixed order, so
settings with several flaws are always refused for the same one.

All values that are meant when nothing else is said are the same everywhere but one: there is to be
a worker for each core of the machine.  Here the machine is taken to have one core; the check asks
no more of this number than that it is positive.
-/

namespace TreeEvolution

/-- The settings of an evolution. -/
structure Settings where
  /-- The number of individuals. -/
  populationSize : Nat := 500
  /-- The number of workers that score individuals; when nothing else is said, one for the single
  core of the machine. -/
  threads : Nat := 1
  /-- The seed of all random choices; without one, a seed is drawn from elsewhere. -/
  seed : Option UInt64 := none
  /-- The generation with which a run ends at the latest. -/
  maxGenerations : Nat := 40
  /-- The fitness with which a run ends. -/
  targetFitness : Float := 0.9999
  /-- The number of entrants of a tournament. -/
  tournamentSize : Nat := 7
  /-- The probability of crossover. -/
  crossoverProbability : Float := 0.5
  /-- The probability of mutation. -/
  mutationProbability : Float := 0.2
  /-- How initial trees grow. -/
  initMethod : Growth := .ramped
  /-- The least height of initial trees. -/
  initMinDepth : Nat := 1
  /-- The greatest height of initial trees. -/
  initMaxDepth : Nat := 3
  /-- The least height of the trees that mutation grows. -/
  mutationMinDepth : Nat := 0
  /-- The greatest height of the trees that mutation grows. -/
  mutationMaxDepth : Nat := 2
  /-- The greatest depth of children. -/
  depthLimit : Option Nat := none
  /-- The greatest size of children. -/
  sizeLimit : Option Nat := none
  /-- Whether every individual is told of after each scoring. -/
  verbose : Bool := false

namespace Settings

/-- Whether a number lies in the unit interval. -/
def isProbability (p : Float) : Bool :=
  0 ≤ p && p ≤ 1

/-- The first flaw of some settings. -/
def flaw? (s : Settings) : Option Flaw :=
  if s.populationSize < 2 then some .populationTooSmall
  else if s.threads = 0 then some .noWorker
  else if s.tournamentSize = 0 then some .emptyTournament
  else if !isProbability s.crossoverProbability then some .crossoverOutOfRange
  else if !isProbability s.mutationProbability then some .mutationOutOfRange
  else if !isProbability s.targetFitness then some .targetOutOfRange
  else if s.initMaxDepth < s.initMinDepth then
    some (.noInitialHeight s.initMinDepth s.initMaxDepth)
  else if s.mutationMaxDepth < s.mutationMinDepth then
    some (.noMutationHeight s.mutationMinDepth s.mutationMaxDepth)
  else if s.sizeLimit = some 0 then some .sizeLimitZero
  else none

/-- Refuse settings with a flaw. -/
def validate (s : Settings) : Except Error Unit :=
  match s.flaw? with
  | some flaw => .error (.configuration flaw)
  | none => .ok ()

/-- The limits that the settings put on children. -/
def limits (s : Settings) : List Limit :=
  (s.depthLimit.map Limit.depth).toList ++ (s.sizeLimit.map Limit.size).toList

end Settings

end TreeEvolution
