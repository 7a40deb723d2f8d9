import TreeEvolution.Scoring
import TreeEvolution.TreeSampler

/-!
# Populations

A population is a list of individuals.  The best of them is the first among those of the greatest
valid fitness.
-/

namespace TreeEvolution

/-- The individuals that live at one time. -/
structure Population (V : Type) where
  /-- The individuals in order. -/
  members : List (Individual V)

namespace Population

variable {V σ : Type}

/-- A population of random programs. -/
def sample [WordSource σ] (size : Nat) (sampler : TreeSampler V) : Draw σ (Population V) := do
  Draw.require (Extent.fits size) .beyondMemory
  let members ← Draw.times (do let code ← sampler.sample; pure { code := code }) size
  pure ⟨members⟩

/-- The number of individuals. -/
def size (p : Population V) : Nat :=
  p.members.length

/-- A population that is to be kept.  A program with more symbols than a list can hold is a
fault. -/
def kept (p : Population V) : Draw σ (Population V) := do
  Draw.require (p.members.all fun i => Extent.fits i.size) .beyondMemory
  pure p

/-- The better of the best individual so far and another one.  The earlier one is kept unless the
other is fitter. -/
def better (best : Option (Individual V)) (i : Individual V) : Option (Individual V) :=
  match best with
  | some b => if i.fitness ≤ b.fitness then some b else some i
  | none => some i

/-- The fittest individual with a valid fitness; of several, the first. -/
def best (p : Population V) : Except Error (Individual V) :=
  if p.members.isEmpty then .error .emptyPopulation
  else
    match (p.members.filter Individual.valid).foldl better none with
    | some i => .ok i
    | none => .error .noValidIndividual

/-- One record for each individual. -/
def roster [Printed V] (p : Population V) : List Record :=
  p.members.zipIdx.filterMap fun (i, position) =>
    match i.text with
    | .ok text => some ⟨.trace, Text.padLeft 4 (toString position) ++ ": " ++ text⟩
    | .error _ => none

end Population

end TreeEvolution
