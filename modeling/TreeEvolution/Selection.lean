import TreeEvolution.Population

/-!
# Selection

Individuals are selected for breeding with replacement: each pick is independent of the others, and
an individual may be picked more than once.  Uniform selection takes each pick at random, and in a
tournament a pick is the best of a group of random picks.
-/

namespace TreeEvolution

/-- A rule for selecting individuals. -/
inductive Selection where
  /-- Every individual with the same probability. -/
  | uniform
  /-- The best of a random group of the given size, which is at least one. -/
  | tournament (size : Nat)
  deriving DecidableEq

namespace Selection

variable {V σ : Type}

/-- Random picks from a population. -/
def picks [WordSource σ] (p : Population V) (count : Nat) : Draw σ (Population V) :=
  if h : p.members.isEmpty then Draw.error .emptyPopulation
  else do
    Draw.require (Extent.fits count) .beyondMemory
    let pick : Draw σ (Individual V) := do
      let i ← Random.element p.members (by simpa using h)
      pure i.val
    let members ← Draw.times pick count
    pure ⟨members⟩

/-- The winner of a tournament. -/
def winner [WordSource σ] (p : Population V) (size : Nat) : Draw σ (Individual V) := do
  let group ← picks p (max size 1)
  match group.best with
  | .ok i => pure i
  | .error e => Draw.error e

/-- Select a number of individuals from a population. -/
def select [WordSource σ] (s : Selection) (p : Population V) (count : Nat) :
    Draw σ (Population V) :=
  match s with
  | uniform => picks p count
  | tournament size => do
    let members ← Draw.times (winner p size) count
    pure ⟨members⟩

end Selection

end TreeEvolution
