import TreeEvolution.Failure

/-!
# Extents

A list takes up memory, and memory ends.  A list that is asked for by a number that no memory can
hold is not begun at all: `Extent.fits` tells in advance, and the computation stops with the fault
`beyondMemory` before it has made any item or drawn any random word for one.

How many items a memory holds depends on the machine and on the items.  Here one bound stands for
all lists: no machine has room for as many items of any kind, and lists that are shorter are taken
to find room, also where a machine at hand would run out of memory before.
-/

namespace TreeEvolution.Extent

/-- The number of items that is too great for any list. -/
def bound : Nat := 0x100000000000000

/-- Whether a list may have a number of items. -/
def fits (count : Nat) : Bool :=
  count < bound

end TreeEvolution.Extent
