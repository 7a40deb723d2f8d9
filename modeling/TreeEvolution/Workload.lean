import TreeEvolution.Extent

/-!
# Shares of work

Work on the elements of a list is divided among workers into contiguous shares.  All shares but the
last have the same size, and the last one takes the remainder.  There are never more shares than
elements, and never fewer than one unless there is nothing to do.
-/

namespace TreeEvolution.Workload

/-- The number of workers among which the work on `n` elements is divided. -/
def workersFor (n workers : Nat) : Nat :=
  min (max workers 1) n

/-- The beginning of each share and its end, which is not part of it. -/
def shares (n workers : Nat) : List (Nat × Nat) :=
  let count := workersFor n workers
  let size := n / count
  (List.range count).map fun i =>
    (i * size, if i + 1 = count then n else (i + 1) * size)

/-- The shares of the work on `n` elements, unless there are more of them than a list can hold. -/
def divide (n workers : Nat) : Except Fault (List (Nat × Nat)) :=
  if Extent.fits (workersFor n workers) then .ok (shares n workers) else .error .beyondMemory

/-- The number of elements of a share. -/
def shareSize (share : Nat × Nat) : Nat :=
  share.2 - share.1

/-- Cut a list into pieces of the given sizes. -/
def cut {α : Type} : List Nat → List α → List (List α)
  | [], _ => []
  | size :: sizes, l => l.take size :: cut sizes (l.drop size)

/-- The share as a range. -/
def shareText (share : Nat × Nat) : String :=
  toString share.1 ++ ".." ++ toString share.2

/-- The shares of some work. -/
def text (shares : List (Nat × Nat)) : String :=
  "[" ++ ", ".intercalate (shares.map shareText) ++ "]"

end TreeEvolution.Workload
