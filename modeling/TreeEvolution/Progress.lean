import TreeEvolution.Population

/-!
# Progress

An observer is shown every generation of a run and says when to stop.  It has a state of its own
but nothing to change in the run.

`Report` is the observer that tells of the best individual of each generation and stops at a
generation or a fitness.
-/

namespace TreeEvolution

/-- What an observer makes of a generation. -/
structure Observation (ω : Type) where
  /-- The state of the observer afterwards. -/
  state : ω
  /-- Whether the run shall stop. -/
  stop : Except Fault Bool
  /-- What there is to tell. -/
  records : List Record

/-- Someone to whom the generations of a run are shown. -/
structure Observer (V ω : Type) where
  /-- Look at a population, the number of its generation and the number of scores it took. -/
  observe : ω → Population V → (generation scores : Nat) → Observation ω

/-- The conditions under which a run is over. -/
structure Report where
  /-- The generation with which the run ends at the latest. -/
  maxGenerations : Nat
  /-- The fitness with which the run ends. -/
  targetFitness : Float

namespace Report

variable {V : Type}

/-- The beginning of a line on a generation. -/
def heading (generation scores : Nat) : String :=
  "gen " ++ Text.padLeft 4 (toString generation) ++ "  evals " ++
    Text.padLeft 6 (toString scores) ++ "  "

/-- The line on a generation, and whether the run is over. -/
def onGeneration [Printed V] (r : Report) (p : Population V) (generation scores : Nat) :
    Except Fault (Record × Bool) :=
  let exhausted : Bool := r.maxGenerations ≤ generation
  match p.best with
  | .ok best => do
    let text ← best.text
    pure (⟨.info, heading generation scores ++ "best " ++ text⟩,
      r.targetFitness ≤ best.fitness || exhausted)
  | .error e => pure (⟨.warn, heading generation scores ++ e.message⟩, exhausted)

/-- The observer that writes these lines. -/
def observer [Printed V] (r : Report) : Observer V Unit where
  observe _ p generation scores :=
    match r.onGeneration p generation scores with
    | .ok (line, ended) => ⟨(), .ok ended, [line]⟩
    | .error f => ⟨(), .error f, []⟩

end Report

/-- A generation that was shown. -/
structure Sighting (V : Type) where
  /-- The number of the generation. -/
  generation : Nat
  /-- The number of scores it took. -/
  scores : Nat
  /-- Its best individual. -/
  best : Except Error (Individual V)

/-- The observer that keeps what it is shown and stops at a generation. -/
def watcher {V : Type} (last : Nat) : Observer V (List (Sighting V)) where
  observe seen p generation scores :=
    ⟨seen ++ [⟨generation, scores, p.best⟩], .ok (last ≤ generation), []⟩

end TreeEvolution
