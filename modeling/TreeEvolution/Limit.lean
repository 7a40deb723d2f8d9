import TreeEvolution.Individual

/-!
# Limits

A limit keeps programs from growing without bounds.  A child that breaks a limit is replaced by the
individual it is derived from, score included.  Several limits are applied one after the other,
each to what the one before has let through.
-/

namespace TreeEvolution

/-- A bound on programs. -/
inductive Limit where
  /-- A greatest number of symbols. -/
  | size (greatest : Nat)
  /-- A greatest depth. -/
  | depth (greatest : Nat)
  deriving DecidableEq

namespace Limit

variable {V : Type}

/-- Whether an individual keeps within a limit. -/
def admits (limit : Limit) (i : Individual V) : Except Fault Bool :=
  match limit with
  | size greatest => .ok (i.size ≤ greatest)
  | depth greatest => do
    let d ← i.depth
    pure (d ≤ greatest)

/-- The child if it keeps within the limit, and else the individual it is derived from. -/
def enforce (limit : Limit) (parent child : Individual V) : Except Fault (Individual V) := do
  if ← limit.admits child then pure child else pure parent

/-- Apply a limit to the children of some individuals, each derived from the one in its place. -/
def enforceEach (limit : Limit) : List (Individual V) → List (Individual V) →
    Except Fault (List (Individual V))
  | parent :: parents, child :: children => do
    let kept ← limit.enforce parent child
    let others ← limit.enforceEach parents children
    pure (kept :: others)
  | _, _ => .ok []

/-- Apply limits one after the other. -/
def enforceAll (limits : List Limit) (parents children : List (Individual V)) :
    Except Fault (List (Individual V)) :=
  limits.foldlM (fun children limit => limit.enforceEach parents children) children

end Limit

end TreeEvolution
