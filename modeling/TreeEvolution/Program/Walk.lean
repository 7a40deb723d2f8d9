import TreeEvolution.Symbol.Basic

/-!
# Walking a listing

A program is listed from the root downwards: each symbol is followed by the listings of its
subtrees.  A walk goes through such a listing once and visits the nodes from the leaves upwards,
every node as soon as its subtrees are complete, so that a stack of intermediate results is all
that is needed to compute something along the tree.

The nodes whose subtrees are not yet complete are kept in a stack of `Open` nodes.  A leaf completes
the innermost open node if that one waits for a single subtree, and then possibly the nodes around
it; `complete` takes these off the stack.  The walk ends with the node that leaves the stack empty,
or runs out of symbols before.

The stack may become as high as the program is deep.  A walk by recursion, with a call for each open
node, makes the same visits; but it can exhaust the calls of a machine in a program that is deep
enough, and that is left out here.
-/

namespace TreeEvolution

/-- One visit of a walk. -/
inductive Visit (V : Type) where
  /-- A leaf. -/
  | leaf (symbol : Symbol V)
  /-- An inner node, after its subtrees. -/
  | node (symbol : Symbol V)

namespace Visit

variable {V : Type}

/-- The symbol that is visited. -/
def symbol : Visit V → Symbol V
  | leaf s | node s => s

end Visit

namespace Walk

variable {V : Type}

/-- A node that waits for subtrees. -/
structure Open (V : Type) where
  /-- The symbol of the node. -/
  symbol : Symbol V
  /-- The number of subtrees that are missing. -/
  missing : Nat

/-- Enter a finished subtree into the stack of open nodes.  The nodes it completes are visited,
from the inside outwards. -/
def complete : List (Open V) → List (Visit V) × List (Open V)
  | [] => ([], [])
  | node :: outer =>
    if node.missing ≤ 1 then
      let (visits, rest) := complete outer
      (.node node.symbol :: visits, rest)
    else ([], { node with missing := node.missing - 1 } :: outer)

end Walk

/-- The course of a walk. -/
structure Walk (V : Type) where
  /-- The visits that were made. -/
  visits : List (Visit V)
  /-- The number of symbols of the subtree, unless the listing ended inside it. -/
  size? : Option Nat

namespace Walk

variable {V : Type}

/-- A walk with visits before it, that begins one symbol earlier. -/
def after (visits : List (Visit V)) (w : Walk V) : Walk V :=
  ⟨visits ++ w.visits, w.size?.map (· + 1)⟩

/-- Walk through a listing inside a stack of open nodes. -/
def through : List (Symbol V) → List (Open V) → Walk V
  | [], _ => ⟨[], none⟩
  | s :: rest, stack =>
    if s.arity = 0 then
      match complete stack with
      | (visits, []) => ⟨.leaf s :: visits, some 1⟩
      | (visits, node :: outer) => (through rest (node :: outer)).after (.leaf s :: visits)
    else (through rest (⟨s, s.arity⟩ :: stack)).after []

/-- Walk through the first subtree of a listing. -/
def ofListing (symbols : List (Symbol V)) : Walk V :=
  through symbols []

end Walk

end TreeEvolution
