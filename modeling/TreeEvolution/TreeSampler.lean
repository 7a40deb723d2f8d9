import TreeEvolution.Program.Basic
import TreeEvolution.Vocabulary

/-!
# Random trees

A sampler makes random programs from a vocabulary.  It first settles a height between its least and
its greatest one and then lists a tree from the root downwards.  The depths at which subtrees are
still to come are kept in a stack.  At each of them a terminal is put if the branch has reached the
height, and else a function, with as many places below it as it has arguments; a sampler that grows
its trees may stop a branch earlier, from the least height on.

The listing ends because every function replaces its place by at most `maxArity` places one level
further down, where the places at the height have no places below them; `weight` is the measure
that decreases.
-/

namespace TreeEvolution

/-- How far the branches of random trees reach. -/
inductive Growth where
  /-- Every branch reaches the height. -/
  | full
  /-- A branch may end anywhere between the least height and the height. -/
  | grow
  /-- One of the two above, with equal probability for each tree. -/
  | ramped
  deriving DecidableEq

/-- The name of a kind of growth. -/
def Growth.name : Growth → String
  | full => "Full"
  | grow => "Grow"
  | ramped => "Ramped"

/-- A rule for making random programs. -/
structure TreeSampler (V : Type) where
  /-- How far the branches reach. -/
  growth : Growth
  /-- The symbols the trees are made of. -/
  vocabulary : Vocabulary V
  /-- The least height of a tree. -/
  least : Nat
  /-- The greatest height of a tree. -/
  greatest : Nat
  /-- There is a height to choose. -/
  least_le_greatest : least ≤ greatest
  /-- There is a leaf to choose. -/
  terminals_ne_nil : vocabulary.terminals ≠ []

namespace TreeSampler

variable {V σ : Type}

/-- The sampler with the given properties, if there are heights and leaves to choose from. -/
def of (growth : Growth) (vocabulary : Vocabulary V) (least greatest : Nat) :
    Except Error (TreeSampler V) :=
  if heights : least ≤ greatest then
    match h : vocabulary.terminals with
    | [] => .error .noTerminal
    | _ :: _ => .ok ⟨growth, vocabulary, least, greatest, heights, by simp [h]⟩
  else .error (.noHeight least greatest)

/-- A random leaf.  A random constant gets its value here. -/
def leaf [WordSource σ] (t : TreeSampler V) : Draw σ (Symbol V) := do
  let s ← Random.element t.vocabulary.terminals t.terminals_ne_nil
  let realised ← s.val.realise
  pure (realised.getD s.val)

/-! ### The measure of what is to come -/

/-- The greatest number of arguments of the symbols of a list. -/
def maxArity (symbols : List (Symbol V)) : Nat :=
  (symbols.map Symbol.arity).foldr max 0

/-- The symbols of a list have at most the greatest number of arguments. -/
theorem arity_le_maxArity {symbols : List (Symbol V)} {s : Symbol V} (h : s ∈ symbols) :
    s.arity ≤ maxArity symbols := by
  induction symbols with
  | nil => cases h
  | cons t rest ih =>
    simp only [maxArity, List.map_cons, List.foldr_cons]
    rcases List.mem_cons.mp h with rfl | h
    · exact Nat.le_max_left _ _
    · exact Nat.le_trans (ih h) (Nat.le_max_right _ _)

/-- The weight of a place with some levels below it: more than all the places that a function may
put one level further down. -/
def weight (arity : Nat) : Nat → Nat
  | 0 => 1
  | levels + 1 => (arity + 1) * weight arity levels

/-- The weight of all places to come. -/
def totalWeight (arity height : Nat) : List Nat → Nat
  | [] => 0
  | depth :: pending => weight arity (height - depth) + totalWeight arity height pending

/-- Every place has some weight. -/
theorem weight_pos (arity levels : Nat) : 0 < weight arity levels := by
  induction levels with
  | zero => exact Nat.one_pos
  | succ levels ih => exact Nat.mul_pos (Nat.succ_pos arity) ih

/-- Places of one depth weigh as much as their number says. -/
theorem totalWeight_replicate_append (arity height depth count : Nat) (pending : List Nat) :
    totalWeight arity height (List.replicate count depth ++ pending) =
      count * weight arity (height - depth) + totalWeight arity height pending := by
  induction count with
  | zero => simp
  | succ count ih =>
    rw [List.replicate_succ, List.cons_append, totalWeight, ih, Nat.succ_mul]
    omega

/-- What is to come weighs less when a place is taken away. -/
theorem totalWeight_lt_cons (arity height depth : Nat) (pending : List Nat) :
    totalWeight arity height pending < totalWeight arity height (depth :: pending) := by
  have positive := weight_pos arity (height - depth)
  rw [totalWeight]
  omega

/-- A place above the height outweighs the places that a function puts below it. -/
theorem totalWeight_replicate_lt {arity height depth count : Nat} (pending : List Nat)
    (hd : depth < height) (hc : count ≤ arity) :
    totalWeight arity height (List.replicate count (depth + 1) ++ pending) <
      totalWeight arity height (depth :: pending) := by
  obtain ⟨levels, h⟩ : ∃ levels, height - depth = levels + 1 := ⟨height - depth - 1, by omega⟩
  have h' : height - (depth + 1) = levels := by omega
  have positive := weight_pos arity levels
  have scaled : count * weight arity levels ≤ arity * weight arity levels :=
    Nat.mul_le_mul_right _ hc
  rw [totalWeight_replicate_append, totalWeight, h, h', weight, Nat.succ_mul]
  omega

/-! ### Trees -/

/-- Whether a branch that may go on ends at a depth all the same. -/
def stops [WordSource σ] (t : TreeSampler V) (grows : Bool) (depth : Nat) : Draw σ Bool :=
  if grows && t.least ≤ depth then Draw.coin t.vocabulary.terminalRatio else pure false

/-- List the subtrees that are to come at the given depths. -/
def expand [WordSource σ] (t : TreeSampler V) (grows : Bool) (height : Nat) :
    List Nat → Draw σ (List (Symbol V))
  | [] => pure []
  | depth :: pending =>
    if h : t.vocabulary.functions.isEmpty || height ≤ depth then do
      let s ← t.leaf
      let rest ← t.expand grows height pending
      pure (s :: rest)
    else do
      if ← t.stops grows depth then
        let s ← t.leaf
        let rest ← t.expand grows height pending
        pure (s :: rest)
      else
        let s ← Random.element t.vocabulary.functions (by simp at h; exact h.1)
        Draw.require (Extent.fits s.val.arity) .beyondMemory
        let rest ← t.expand grows height (List.replicate s.val.arity (depth + 1) ++ pending)
        pure (s.val :: rest)
termination_by pending => totalWeight (maxArity t.vocabulary.functions) height pending
decreasing_by
  · exact totalWeight_lt_cons _ _ _ _
  · exact totalWeight_lt_cons _ _ _ _
  · simp at h
    exact totalWeight_replicate_lt _ h.2 (arity_le_maxArity s.property)

/-- Whether the branches of the next tree may end early. -/
def grows [WordSource σ] (t : TreeSampler V) : Draw σ Bool :=
  match t.growth with
  | .full => pure false
  | .grow => pure true
  | .ramped => Draw.coin 0.5

/-- A random program. -/
def sample [WordSource σ] (t : TreeSampler V) : Draw σ (Program V) := do
  let grows ← t.grows
  let height ← Random.between t.least t.greatest
  let symbols ← t.expand grows height [0]
  pure ⟨symbols⟩

end TreeSampler

end TreeEvolution
