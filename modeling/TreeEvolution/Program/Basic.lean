import TreeEvolution.Extent
import TreeEvolution.Program.Walk

/-!
# Programs

A program is a tree of symbols, kept as the listing of its symbols from the root downwards.  Any
list of symbols is admitted; one that is not the listing of a tree is a fault of most operations,
and `Program.isWellFormed` tells in advance.

`Program.evaluate` and `Program.text` are computed along a walk, with a stack of the results of the
subtrees that are complete.  `Program.depth` and `Program.isWellFormed` go through the listing from
the root instead and keep account of the places where subtrees are still to come.
-/

namespace TreeEvolution

/-- A tree of symbols, listed from the root downwards. -/
structure Program (V : Type) where
  /-- The symbols of the listing. -/
  symbols : List (Symbol V)

namespace Program

variable {V σ : Type}

/-- The number of symbols. -/
def size (p : Program V) : Nat :=
  p.symbols.length

/-- Whether there are no symbols. -/
def isEmpty (p : Program V) : Bool :=
  p.symbols.isEmpty

/-! ### Subtrees -/

/-- The walk through the subtree at a position. -/
def walk (p : Program V) (position : Nat) : Walk V :=
  Walk.ofListing (p.symbols.drop position)

/-- The position of the last symbol of a walk that began at a position. -/
def lastOf (p : Program V) (position : Nat) (w : Walk V) : Except Fault Nat :=
  match w.size? with
  | some size => .ok (position + size - 1)
  | none => .error (.missingSymbol (max position p.size) p.size)

/-- The position of the last symbol of the subtree at a position. -/
def subtreeEnd (p : Program V) (position : Nat) : Except Fault Nat :=
  p.lastOf position (p.walk position)

/-- The subtree at a position. -/
def subtree (p : Program V) (position : Nat) : Except Fault (Program V) := do
  let last ← p.subtreeEnd position
  pure ⟨(p.symbols.drop position).take (last + 1 - position)⟩

/-- A program with another one in the place of the subtree at a position. -/
def replaceSubtree (p : Program V) (position : Nat) (replacement : Program V) :
    Except Fault (Program V) := do
  let last ← p.subtreeEnd position
  pure ⟨p.symbols.take position ++ replacement.symbols ++ p.symbols.drop (last + 1)⟩

/-- A uniformly random position and the subtree there. -/
def randomSubtree [WordSource σ] (p : Program V) : Draw σ (Nat × Program V) :=
  if h : 0 < p.size then do
    let position ← Random.below p.size h
    let subtree ← Draw.settled (p.subtree position)
    pure (position.val, subtree)
  else Draw.fault .impossibleDraw

/-! ### Results along the tree -/

/-- The topmost results of a stack, in the order in which they were put there, and the stack below
them. -/
def popped {α : Type} (count : Nat) (stack : List α) (above : List α) : Option (List α × List α) :=
  match count, stack with
  | 0, stack => some (above, stack)
  | _ + 1, [] => none
  | count + 1, a :: stack => popped count stack (a :: above)

/-- Replace the results of the subtrees of a visited node by the result of the node. -/
def reduce {α : Type} (result : Symbol V → List α → Except Fault α) (base : List α)
    (stack : List α) : Visit V → Except Fault (List α)
  | .leaf s => do
    let a ← result s base
    pure (a :: stack)
  | .node s =>
    match popped s.arity stack [] with
    | some (arguments, below) => do
      let a ← result s arguments
      pure (a :: below)
    | none => .error .missingValues

/-- Compute a result along the tree.  Leaves are computed from `base` and nodes from the results of
their subtrees.  The listing must consist of one tree. -/
def along {α : Type} (result : Symbol V → List α → Except Fault α) (base : List α)
    (p : Program V) : Except Fault (List α) := do
  let w := p.walk 0
  let stack ← w.visits.foldlM (reduce result base) []
  let last ← p.lastOf 0 w
  if last + 1 = p.size then pure stack else .error (.leftOver last p.size)

/-- The value of a program on its inputs. -/
def evaluate (p : Program V) (inputs : List V) : Except Fault V := do
  match ← p.along Symbol.apply inputs with
  | [value] => pure value
  | _ => .error .notReduced

/-- The text of a program.  Operators are written between their arguments and functions in front of
them. -/
def text [Printed V] (p : Program V) : Except Fault String :=
  if p.isEmpty then .ok ""
  else do
    match ← p.along Symbol.write [] with
    | text :: _ => pure text
    | [] => pure ""

/-! ### Scans from the root -/

/-- The greatest depth of the symbols of a listing, when the subtrees to come begin at the given
depths.  A symbol with more subtrees than a list can hold is a fault. -/
def depthBelow (symbols : List (Symbol V)) (pending : List Nat) (greatest : Nat) :
    Except Fault Nat :=
  match symbols, pending with
  | [], _ => .ok greatest
  | _ :: _, [] => .error .noOpenSlot
  | s :: rest, depth :: pending =>
    if Extent.fits s.arity then
      depthBelow rest (List.replicate s.arity (depth + 1) ++ pending) (max greatest depth)
    else .error .beyondMemory

/-- The depth of a program; a single leaf has depth zero. -/
def depth (p : Program V) : Except Fault Nat :=
  depthBelow p.symbols [0] 0

/-- Whether a listing consists of exactly the given number of subtrees.  The subtrees to come are
counted in 64 bits. -/
def listsTrees : List (Symbol V) → Nat → Except Fault Bool
  | [], pending => .ok (pending == 0)
  | _ :: _, 0 => .ok false
  | s :: rest, pending + 1 =>
    if pending + s.arity < UInt64.size then listsTrees rest (pending + s.arity)
    else .error .countOverflow

/-- Whether a program is the listing of a tree. -/
def isWellFormed (p : Program V) : Except Fault Bool :=
  listsTrees p.symbols 1

/-! ### Descriptions -/

/-- The names of the symbols as a list. -/
def describe (p : Program V) : String :=
  "[" ++ ", ".intercalate (p.symbols.map fun s => Text.quoted s.name) ++ "]"

/-- The short forms of the symbols. -/
def brief [Printed V] (p : Program V) : List String :=
  p.symbols.map Symbol.brief

end Program

end TreeEvolution
