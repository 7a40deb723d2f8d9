import TreeEvolution.Random.Draw

/-!
# Recipes

A recipe says how a random constant comes by its value: it asks for random words one at a time and
ends in a value or in a fault.  A recipe does not know the source of its words, so one recipe can
be carried inside a symbol and be followed with any source; `Recipe.follow` does that.

The second half of the module holds the recipes in common use.
-/

namespace TreeEvolution

/-- A rule for drawing a value, as a tree of requests for random words. -/
inductive Recipe (α : Type) where
  /-- The value is settled. -/
  | done (value : α)
  /-- The rule is broken off. -/
  | broken (fault : Fault)
  /-- Go on with 32 random bits. -/
  | ask32 (next : UInt32 → Recipe α)
  /-- Go on with 64 random bits. -/
  | ask64 (next : UInt64 → Recipe α)

namespace Recipe

variable {α β σ : Type}

/-- Follow a rule and then the rule that its value determines. -/
protected def bind : Recipe α → (α → Recipe β) → Recipe β
  | done value, next => next value
  | broken fault, _ => broken fault
  | ask32 rule, next => ask32 fun word => (rule word).bind next
  | ask64 rule, next => ask64 fun word => (rule word).bind next

instance : Monad Recipe where
  pure := done
  bind := Recipe.bind

instance : RandomWords Recipe where
  word32 := ask32 done
  word64 := ask64 done

/-- Draw a value by a recipe, with the words of a source. -/
def follow [WordSource σ] : Recipe α → Draw σ α
  | done value => pure value
  | broken fault => Draw.fault fault
  | ask32 next => do
    let word ← RandomWords.word32
    (next word).follow
  | ask64 next => do
    let word ← RandomWords.word64
    (next word).follow

/-! ## Recipes in common use -/

/-- The remainder of 32 random bits on division by `modulus`. -/
def residue (modulus : UInt32) : Recipe Float :=
  ask32 fun word =>
    if modulus = 0 then broken .impossibleDraw else done (word % modulus).toFloat

/-- The integer that a 32-bit word chooses from `lo` upwards.  When every word is a choice, the word
itself is the integer, in two's complement. -/
def chosenInteger (lo : Int) (range : Nat) (word : UInt32) : Int :=
  if range = UInt32.size then word.toInt32.toInt
  else lo + (word.toNat * range / UInt32.size : Nat)

/-- A uniformly random integer between `lo` and `hi`, both included. -/
def integer (lo hi : Int32) : Recipe Float :=
  if hi < lo then broken .impossibleDraw
  else do
    let range := (hi.toInt - lo.toInt).toNat + 1
    let word ← Random.firstAccepted RandomWords.word32
      (fun w => range == UInt32.size || Random.accepts UInt32.size range w.toNat) Random.patience
    pure (Float.ofInt (chosenInteger lo.toInt range word))

/-- A random number of the unit interval. -/
def unit : Recipe Float :=
  Random.unit

/-- The parity of 32 random bits. -/
def parity : Recipe Bool :=
  ask32 fun word => done (word % 2 == 1)

/-- Heads with probability `p`. -/
def coin (p : Float) : Recipe Bool :=
  if 0 ≤ p ∧ p ≤ 1 then Random.coin p else broken .impossibleDraw

end Recipe

end TreeEvolution
