import TreeEvolution.Progress
import TreeEvolution.Random.Keystream
import TreeEvolution.Selection
import TreeEvolution.Settings.Basic
import TreeEvolution.Variation

/-!
# Evolution

An evolution carries a population from generation to generation.  The first step samples the initial
population and scores it; each later step selects individuals, breeds from them and scores what has
no score.  A step that fails leaves the population and the generation as they were, and only the
random source goes on.

Limits are kept in three places: in the crossover, in the mutation, and in the evolution itself.
The last one is there so that an operation which is put in the place of another can be given all
limits that came before.

Every operation answers with a `Reply`: the evolution afterwards, the answer, and what there is to
tell.

Generations are counted by natural numbers, which do not end as the counters of a machine do; no run
lasts until the greatest number of 64 bits.
-/

namespace TreeEvolution

/-- How far an evolution has come. -/
inductive Stage (V : Type) where
  /-- There is no population yet. -/
  | initial
  /-- There is a population, of some generation. -/
  | stepping (population : Population V) (generation : Nat)

/-- An evolution of programs over the values `V` with random words from a source `σ`. -/
structure Evolution (σ V : Type) where
  /-- The settings. -/
  settings : Settings
  /-- The symbols of the programs. -/
  vocabulary : Vocabulary V
  /-- The source of initial programs. -/
  sampler : TreeSampler V
  /-- The rule of selection. -/
  selection : Selection
  /-- The crossover. -/
  crossover : Crossover
  /-- The mutation. -/
  mutation : Mutation V
  /-- All limits on children, in the order in which they were added. -/
  limits : List Limit
  /-- The judge of programs. -/
  scorer : Scorer V
  /-- The seed of the random words. -/
  seed : UInt64
  /-- The random words still to come. -/
  source : σ
  /-- How far the evolution has come. -/
  stage : Stage V

/-- What an evolution answers to a request. -/
structure Reply (σ V α : Type) where
  /-- The evolution afterwards. -/
  evolution : Evolution σ V
  /-- The answer. -/
  answer : Except Failure α
  /-- What there is to tell. -/
  records : List Record

namespace Evolution

variable {σ V ω : Type}

/-! ### Setting up -/

/-- Guard crossover and mutation with one more limit. -/
def addLimit (e : Evolution σ V) (l : Limit) : Evolution σ V :=
  { e with
    crossover := e.crossover.limit l
    mutation := e.mutation.limit l
    limits := e.limits ++ [l] }

/-- The record of the seed. -/
def seedRecord (seed : UInt64) : Record :=
  ⟨.info, "set random seed: " ++ toString seed.toNat⟩

/-- An evolution with the operations that its settings describe.  Settings without a seed use the
one given here. -/
def of (sourceOf : UInt64 → σ) (otherSeed : UInt64) (settings : Settings)
    (vocabulary : Vocabulary V) (scorer : Scorer V) :
    Except Error (Evolution σ V × List Record) := do
  settings.validate
  let sampler ←
    TreeSampler.of settings.initMethod vocabulary settings.initMinDepth settings.initMaxDepth
  let shoots ←
    TreeSampler.of .grow vocabulary settings.mutationMinDepth settings.mutationMaxDepth
  let seed := settings.seed.getD otherSeed
  let bare : Evolution σ V :=
    { settings := settings
      vocabulary := vocabulary
      sampler := sampler
      selection := .tournament settings.tournamentSize
      crossover := ⟨[]⟩
      mutation := ⟨shoots, []⟩
      limits := []
      scorer := scorer
      seed := seed
      source := sourceOf seed
      stage := .initial }
  pure (settings.limits.foldl addLimit bare, [seedRecord seed])

/-- The evolution with another source of initial programs. -/
def withSampler (e : Evolution σ V) (sampler : TreeSampler V) : Evolution σ V :=
  { e with sampler := sampler }

/-- The evolution with another rule of selection. -/
def withSelection (e : Evolution σ V) (selection : Selection) : Evolution σ V :=
  { e with selection := selection }

/-- The evolution with another crossover, to which the limits added so far are applied as well. -/
def withCrossover (e : Evolution σ V) (crossover : Crossover) : Evolution σ V :=
  { e with crossover := e.limits.foldl Crossover.limit crossover }

/-- The evolution with another mutation, to which the limits added so far are applied as well. -/
def withMutation (e : Evolution σ V) (mutation : Mutation V) : Evolution σ V :=
  { e with mutation := e.limits.foldl Mutation.limit mutation }

/-- The evolution with another probability of crossover. -/
def setCrossoverProbability (e : Evolution σ V) (p : Float) : Except Error (Evolution σ V) :=
  if Settings.isProbability p then
    .ok { e with settings := { e.settings with crossoverProbability := p } }
  else .error (.configuration (.probabilityRejected "crossover" p))

/-- The evolution with another probability of mutation. -/
def setMutationProbability (e : Evolution σ V) (p : Float) : Except Error (Evolution σ V) :=
  if Settings.isProbability p then
    .ok { e with settings := { e.settings with mutationProbability := p } }
  else .error (.configuration (.probabilityRejected "mutation" p))

/-- The population, once there is one. -/
def population (e : Evolution σ V) : Option (Population V) :=
  match e.stage with
  | .initial => none
  | .stepping population _ => some population

/-- The number of generations bred so far, once there is a population. -/
def generation (e : Evolution σ V) : Option Nat :=
  match e.stage with
  | .initial => none
  | .stepping _ generation => some generation

/-! ### Steps -/

/-- The records that are made when a population has been scored. -/
def afterScoring [Printed V] (e : Evolution σ V) (p : Population V) (count : Nat) : List Record :=
  ⟨.debug, toString count ++ " evaluations on " ++ toString e.settings.threads ++ " threads"⟩ ::
    if e.settings.verbose then p.roster else []

/-- Score a population and make it the one of the given generation. -/
def install [Printed V] (e : Evolution σ V) (p : Population V) (generation : Nat) :
    Reply σ V Nat :=
  let outcome := Scoring.score e.scorer e.settings.threads p.members
  match outcome.count with
  | .ok count =>
    let scored : Population V := ⟨outcome.individuals⟩
    { evolution := { e with stage := .stepping scored generation }
      answer := .ok count
      records := outcome.records ++ e.afterScoring scored count }
  | .error f => { evolution := e, answer := .error f, records := outcome.records }

/-- Draw a population that can be kept and make it the one of the given generation. -/
def advance [Printed V] (e : Evolution σ V) (draw : Draw σ (Population V)) (generation : Nat) :
    Reply σ V Nat :=
  match (draw >>= Population.kept).outcome e.source with
  | (.ok p, source) => install { e with source := source } p generation
  | (.error f, source) =>
    { evolution := { e with source := source }, answer := .error f, records := [] }

/-- Begin anew with an initial population.  The answer is the number of scores made. -/
def start [Printed V] [WordSource σ] (e : Evolution σ V) : Reply σ V Nat :=
  e.advance (Population.sample e.settings.populationSize e.sampler) 0

/-- The next generation from a population. -/
def offspring [WordSource σ] (e : Evolution σ V) (p : Population V) : Draw σ (Population V) := do
  let selected ← e.selection.select p e.settings.populationSize
  Variation.breed e.crossover e.mutation e.settings.crossoverProbability
    e.settings.mutationProbability selected

/-- Go on by one generation, or begin.  The answer is the number of scores made. -/
def step [Printed V] [WordSource σ] (e : Evolution σ V) : Reply σ V Nat :=
  match e.stage with
  | .initial => e.start
  | .stepping p generation => e.advance (e.offspring p) (generation + 1)

/-! ### Runs -/

/-- The records of the parameters of a run. -/
def parameters (e : Evolution σ V) : List Record :=
  let s := e.settings
  let lines := [
    "primitives:     " ++ e.vocabulary.text,
    "population:     " ++ toString s.populationSize,
    "threads:        " ++ toString s.threads,
    "initial trees:  " ++ s.initMethod.name ++ " depth " ++ toString s.initMinDepth ++ "..=" ++
      toString s.initMaxDepth,
    "tournament:     " ++ toString s.tournamentSize,
    "crossover prob: " ++ Printed.text s.crossoverProbability,
    "mutation prob:  " ++ Printed.text s.mutationProbability ++ " (subtree depth " ++
      toString s.mutationMinDepth ++ "..=" ++ toString s.mutationMaxDepth ++ ")"]
  let limits :=
    (s.depthLimit.map fun n => "depth limit:    " ++ toString n).toList ++
      (s.sizeLimit.map fun n => "size limit:     " ++ toString n).toList
  (lines ++ limits).map (⟨.info, ·⟩)

/-- What a run leaves behind. -/
structure Run (σ V ω : Type) where
  /-- The evolution afterwards. -/
  evolution : Evolution σ V
  /-- The state of the observer afterwards. -/
  state : ω
  /-- The last population, or why there is none; nothing if the observer never said stop. -/
  answer : Option (Except Failure (Population V))
  /-- What there is to tell. -/
  records : List Record

/-- A run with records before it. -/
def Run.after (records : List Record) (r : Run σ V ω) : Run σ V ω :=
  { r with records := records ++ r.records }

/-- Step until the observer says stop, at most the given number of times. -/
def stepUntil [Printed V] [WordSource σ] (observer : Observer V ω) :
    Nat → ω → Evolution σ V → Run σ V ω
  | 0, state, e => ⟨e, state, none, []⟩
  | steps + 1, state, e =>
    let reply := e.step
    match reply.answer, reply.evolution.stage with
    | .error f, _ => ⟨reply.evolution, state, some (.error f), reply.records⟩
    | .ok _, .initial => (stepUntil observer steps state reply.evolution).after reply.records
    | .ok scores, .stepping p generation =>
      let seen := observer.observe state p generation scores
      let records := reply.records ++ seen.records
      match seen.stop with
      | .ok true => ⟨reply.evolution, seen.state, some (.ok p), records⟩
      | .ok false => (stepUntil observer steps seen.state reply.evolution).after records
      | .error f => ⟨reply.evolution, seen.state, some (.error f), records⟩

/-- Tell the parameters and step until the observer says stop, at most the given number of
times. -/
def run [Printed V] [WordSource σ] (observer : Observer V ω) (steps : Nat) (state : ω)
    (e : Evolution σ V) : Run σ V ω :=
  (stepUntil observer steps state e).after e.parameters

/-- The number of steps after which every run that ends at the given generation is over. -/
def stepsUpTo (generation : Nat) : Nat :=
  generation + 1

end Evolution

end TreeEvolution
