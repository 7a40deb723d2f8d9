import TreeEvolution.Failure

/-!
# Random draws

Random computations consume words of 32 and 64 random bits.  `WordSource` is a state that yields
such words one after the other, `RandomWords` is a monad in which they can be asked for, and `Draw`
is the monad the library uses: a computation that threads a source, that may fail, and that keeps
the source as it stood when it failed.

## Uniform choices

A choice among `n` numbers multiplies a word by `n`: the upper half of the product is the choice,
and the word is rejected if the lower half lies beyond the zone in which every choice is equally
likely.  Each word is rejected with probability below one half.  The number of rejections in a row
is bounded by `patience`, after which the next word is taken as it is.  The bound is beyond the
length of any list of words and beyond any number of words that could be asked for one by one; with
it every draw ends and every choice is below `n`, whatever the source yields.  Without the bound a
draw would go on for ever from a source of rejected words only.  This is the one case that is left
out, and a source of random words is never seen to be in it.
-/

namespace TreeEvolution

/-- A state that yields random words. -/
class WordSource (σ : Type) where
  /-- The next 32 random bits, and the state after them. -/
  next32 : σ → UInt32 × σ
  /-- The next 64 random bits, and the state after them. -/
  next64 : σ → UInt64 × σ

/-- A monad in which random words can be asked for. -/
class RandomWords (m : Type → Type) where
  /-- Ask for 32 random bits. -/
  word32 : m UInt32
  /-- Ask for 64 random bits. -/
  word64 : m UInt64

/-- A random computation over the source `σ`.  A failure keeps the state of the source. -/
abbrev Draw (σ α : Type) := ExceptT Failure (StateM σ) α

namespace Draw

variable {σ α : Type}

/-- The outcome of a random computation, and the source after it. -/
def outcome (draw : Draw σ α) (source : σ) : Except Failure α × σ :=
  (ExceptT.run draw).run source

/-- The computation that is broken off by a fault. -/
def fault (f : Fault) : Draw σ α :=
  throw (Failure.fault f)

/-- The computation that is refused with an error. -/
def error (e : Error) : Draw σ α :=
  throw (Failure.error e)

/-- A computation without random words as a random one. -/
def settled : Except Fault α → Draw σ α
  | .ok a => pure a
  | .error f => fault f

/-- Go on under a condition, and break off with a fault otherwise. -/
def require (condition : Bool) (f : Fault) : Draw σ Unit :=
  if condition then pure () else fault f

/-- Repeat a computation and collect its values in order. -/
def times (draw : Draw σ α) : Nat → Draw σ (List α)
  | 0 => pure []
  | n + 1 => do
    let first ← draw
    let others ← times draw n
    pure (first :: others)

end Draw

instance {σ : Type} [WordSource σ] : RandomWords (ExceptT Failure (StateM σ)) where
  word32 := ExceptT.mk fun source =>
    let (word, rest) := WordSource.next32 source
    (.ok word, rest)
  word64 := ExceptT.mk fun source =>
    let (word, rest) := WordSource.next64 source
    (.ok word, rest)

namespace Random

variable {m : Type → Type} [Monad m]

/-! ## Uniform choices -/

/-- The number of words in a row that a choice may reject. -/
def patience : Nat := 0x4000000000000000

/-- The first word that is accepted, or the last of `budget + 1` words. -/
def firstAccepted {α : Type} (word : m α) (accept : α → Bool) : Nat → m α
  | 0 => word
  | budget + 1 => do
    let w ← word
    if accept w then pure w else firstAccepted word accept budget

/-- The greatest lower half of a product for which the choice is unbiased: the number of choices,
shifted to the top of the word, less one.  There are `size` words. -/
def acceptanceZone (size n : Nat) : Nat :=
  (n <<< (size.log2 - 1 - n.log2)) - 1

/-- Whether a word out of `size` makes an unbiased choice among `n` numbers. -/
def accepts (size n word : Nat) : Bool :=
  word * n % size ≤ acceptanceZone size n

/-- The upper half of the product of a word and a positive number is below that number. -/
theorem choice_lt {size n word : Nat} (hn : 0 < n) (hw : word < size) :
    word * n / size < n := by
  rw [Nat.div_lt_iff_lt_mul (Nat.zero_lt_of_lt hw), Nat.mul_comm n]
  exact Nat.mul_lt_mul_of_pos_right hw hn

variable [RandomWords m]

/-- The number a 64-bit word chooses below `n`.  Counts beyond the words wrap around, and a full
turn takes the word itself. -/
def chosenBelow (n : Nat) (hn : 0 < n) (word : UInt64) : Fin n :=
  if h : n % UInt64.size = 0 then
    ⟨word.toNat,
      Nat.lt_of_lt_of_le word.toNat_lt_size (Nat.le_of_dvd hn (Nat.dvd_of_mod_eq_zero h))⟩
  else
    ⟨word.toNat * (n % UInt64.size) / UInt64.size,
      Nat.lt_of_lt_of_le (choice_lt (Nat.pos_of_ne_zero h) word.toNat_lt_size) (Nat.mod_le n _)⟩

/-- A uniformly random number below `n`. -/
def below (n : Nat) (hn : 0 < n) : m (Fin n) := do
  let range := n % UInt64.size
  let word ← firstAccepted RandomWords.word64
    (fun w => range == 0 || accepts UInt64.size range w.toNat) patience
  pure (chosenBelow n hn word)

/-- A uniformly random number between `lo` and `hi`, both included. -/
def between (lo hi : Nat) : m Nat := do
  let offset ← below (hi - lo + 1) (Nat.succ_pos _)
  pure (lo + offset)

/-- A uniformly random element of a list that is not empty. -/
def element {α : Type} (l : List α) (hl : l ≠ []) : m { a : α // a ∈ l } := do
  let i ← below l.length (List.length_pos_iff.mpr hl)
  pure ⟨l[i], List.getElem_mem i.isLt⟩

/-! ## Coins -/

/-- A random number of the unit interval, a multiple of `2 ^ (-53)` below one. -/
def unit : m Float := do
  let word ← RandomWords.word64
  pure ((word >>> 11).toFloat / 9007199254740992)

/-- The number of 64-bit words that a coin of probability `p` counts as heads. -/
def coinThreshold (p : Float) : UInt64 :=
  (p * 18446744073709551616).toUInt64

/-- Heads with probability `p`.  A certain outcome consumes nothing. -/
def coin (p : Float) : m Bool :=
  if p == 1 then pure true
  else do
    let word ← RandomWords.word64
    pure (decide (word < coinThreshold p))

end Random

/-- Heads with probability `p`.  A number that is no probability is a fault. -/
def Draw.coin {σ : Type} [WordSource σ] (p : Float) : Draw σ Bool :=
  if 0 ≤ p ∧ p ≤ 1 then Random.coin p else Draw.fault .impossibleDraw

end TreeEvolution
