import TreeEvolution.Limit
import TreeEvolution.Population

/-!
# Variation

New individuals are bred from selected ones.  Crossover exchanges a random subtree of one parent for
a random subtree of another, and mutation replaces a random subtree by a new random tree.  Children
have no score, and each of them must keep within the limits of the operation; otherwise its place
goes to the parent in the same position.

`breed` takes a selected population through both operations: first crossover of neighbours, pair by
pair, and then mutation of individuals, each with its own probability.
-/

namespace TreeEvolution

/-- The exchange of subtrees between two individuals. -/
structure Crossover where
  /-- The limits on children. -/
  limits : List Limit

/-- The replacement of a subtree by a random one. -/
structure Mutation (V : Type) where
  /-- The source of new subtrees. -/
  sampler : TreeSampler V
  /-- The limits on children. -/
  limits : List Limit

namespace Crossover

variable {V σ : Type}

/-- The operation with one more limit. -/
def limit (c : Crossover) (l : Limit) : Crossover :=
  { c with limits := c.limits ++ [l] }

/-- Exchange random subtrees of two individuals.  Single leaves are left as they are. -/
def vary [WordSource σ] (c : Crossover) :
    List (Individual V) → Draw σ (List (Individual V))
  | [a, b] =>
    if a.size < 2 || b.size < 2 then pure [a, b]
    else do
      let (here, fromA) ← a.code.randomSubtree
      let (there, fromB) ← b.code.randomSubtree
      let left ← Draw.settled (a.code.replaceSubtree here fromB)
      let right ← Draw.settled (b.code.replaceSubtree there fromA)
      Draw.settled (Limit.enforceAll c.limits [a, b] [{ code := left }, { code := right }])
  | _ => Draw.fault .crossoverArity

end Crossover

namespace Mutation

variable {V σ : Type}

/-- The operation with one more limit. -/
def limit (m : Mutation V) (l : Limit) : Mutation V :=
  { m with limits := m.limits ++ [l] }

/-- Replace a random subtree of an individual by a random tree. -/
def vary [WordSource σ] (m : Mutation V) :
    List (Individual V) → Draw σ (List (Individual V))
  | [a] =>
    if h : 0 < a.size then do
      let position ← Random.below a.size h
      let tree ← m.sampler.sample
      let child ← Draw.settled (a.code.replaceSubtree position tree)
      Draw.settled (Limit.enforceAll m.limits [a] [{ code := child }])
    else pure [a]
  | _ => Draw.fault .mutationArity

end Mutation

namespace Variation

variable {V σ : Type}

/-- Put individuals in the first places of a list. -/
def overwrite {α : Type} : List α → List α → List α
  | _ :: slots, a :: replacements => a :: overwrite slots replacements
  | slots, _ => slots

/-- Cross neighbours, pair by pair, each pair with a probability. -/
def crossPairs [WordSource σ] (c : Crossover) (probability : Float) :
    List (Individual V) → Draw σ (List (Individual V))
  | a :: b :: rest => do
    let chance ← Random.unit
    let pair ←
      if chance < probability then do
        let children ← c.vary [a, b]
        pure (overwrite [a, b] children)
      else pure [a, b]
    let others ← crossPairs c probability rest
    pure (pair ++ others)
  | rest => pure rest

/-- Mutate individuals, each with a probability. -/
def mutateEach [WordSource σ] (m : Mutation V) (probability : Float) :
    List (Individual V) → Draw σ (List (Individual V))
  | [] => pure []
  | a :: rest => do
    let chance ← Random.unit
    let kept ←
      if chance < probability then do
        let children ← m.vary [a]
        pure (children.getLastD a)
      else pure a
    let others ← mutateEach m probability rest
    pure (kept :: others)

/-- Breed a population: crossover of neighbours, then mutation of individuals. -/
def breed [WordSource σ] (c : Crossover) (m : Mutation V)
    (crossoverProbability mutationProbability : Float) (p : Population V) :
    Draw σ (Population V) := do
  let crossed ← crossPairs c crossoverProbability p.members
  let mutated ← mutateEach m mutationProbability crossed
  pure ⟨mutated⟩

end Variation

end TreeEvolution
