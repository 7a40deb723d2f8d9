import TreeEvolution.Random.Draw

/-!
# The keystream of twelve rounds

The words of a seeded source are the keystream of the ChaCha cipher with twelve rounds: a key of
eight words, a block counter of 64 bits that starts at zero, and a nonce of zeros.  A block is
sixteen words of 32 bits; a word of 64 bits takes two of them, the lower half first, and may reach
across the end of a block.

The sixteen words of the cipher's state are kept as four rows of four.  A round on the columns then
acts on whole rows, and a round on the diagonals is one on the columns of rotated rows.
-/

namespace TreeEvolution

/-- Four words of the cipher's state. -/
structure Row where
  /-- The first word. -/
  a : UInt32
  /-- The second word. -/
  b : UInt32
  /-- The third word. -/
  c : UInt32
  /-- The fourth word. -/
  d : UInt32

namespace Row

/-- Combine two rows word by word. -/
@[inline] def zipWith (f : UInt32 → UInt32 → UInt32) (x y : Row) : Row :=
  ⟨f x.a y.a, f x.b y.b, f x.c y.c, f x.d y.d⟩

/-- A word with its bits rotated to the left. -/
@[inline] def rotateBits (word amount : UInt32) : UInt32 :=
  (word <<< amount) ||| (word >>> (32 - amount))

/-- The exclusive or of two rows with the bits of every word rotated. -/
@[inline] def mix (amount : UInt32) (x y : Row) : Row :=
  zipWith (fun u v => rotateBits (u ^^^ v) amount) x y

/-- The row whose first word is the second one of the given row. -/
@[inline] def rotate (x : Row) : Row :=
  ⟨x.b, x.c, x.d, x.a⟩

/-- The words of a row in order. -/
def toList (x : Row) : List UInt32 :=
  [x.a, x.b, x.c, x.d]

instance : Add Row := ⟨zipWith (· + ·)⟩

end Row

/-- The sixteen words of the cipher's state. -/
structure Block where
  /-- Words 0 to 3. -/
  top : Row
  /-- Words 4 to 7. -/
  upper : Row
  /-- Words 8 to 11. -/
  lower : Row
  /-- Words 12 to 15. -/
  bottom : Row

namespace Block

/-- One round on the columns. -/
def columnRound (s : Block) : Block :=
  let top := s.top + s.upper
  let bottom := s.bottom.mix 16 top
  let lower := s.lower + bottom
  let upper := s.upper.mix 12 lower
  let top := top + upper
  let bottom := bottom.mix 8 top
  let lower := lower + bottom
  let upper := upper.mix 7 lower
  ⟨top, upper, lower, bottom⟩

/-- One round on the columns and one on the diagonals. -/
def doubleRound (s : Block) : Block :=
  let s := s.columnRound
  let s := columnRound ⟨s.top, s.upper.rotate, s.lower.rotate.rotate, s.bottom.rotate.rotate.rotate⟩
  ⟨s.top, s.upper.rotate.rotate.rotate, s.lower.rotate.rotate, s.bottom.rotate⟩

/-- The words of a block in order. -/
def toList (s : Block) : List UInt32 :=
  s.top.toList ++ s.upper.toList ++ s.lower.toList ++ s.bottom.toList

instance : Add Block :=
  ⟨fun s t => ⟨s.top + t.top, s.upper + t.upper, s.lower + t.lower, s.bottom + t.bottom⟩⟩

end Block

/-- A position in the keystream of a key. -/
structure Keystream where
  /-- Words 0 to 3 of the key. -/
  keyUpper : Row
  /-- Words 4 to 7 of the key. -/
  keyLower : Row
  /-- The number of the next block. -/
  counter : UInt64
  /-- The words of the current block that have not been taken. -/
  ready : List UInt32

namespace Keystream

/-- The state of the cipher before the rounds of the next block. -/
def initialBlock (k : Keystream) : Block where
  top := ⟨0x61707865, 0x3320646e, 0x79622d32, 0x6b206574⟩
  upper := k.keyUpper
  lower := k.keyLower
  bottom := ⟨k.counter.toUInt32, (k.counter >>> 32).toUInt32, 0, 0⟩

/-- The next block of the keystream: twelve rounds, added to the state before them. -/
def nextBlock (k : Keystream) : Block :=
  let s := k.initialBlock
  let mixed :=
    s.doubleRound.doubleRound.doubleRound.doubleRound.doubleRound.doubleRound
  mixed + s

/-- The next word of the keystream. -/
def next (k : Keystream) : UInt32 × Keystream :=
  match k.ready with
  | word :: rest => (word, { k with ready := rest })
  | [] =>
    let block := k.nextBlock
    (block.top.a, { k with counter := k.counter + 1, ready := block.toList.tail })

/-- Two words of the keystream as one, the lower half first. -/
def nextPair (k : Keystream) : UInt64 × Keystream :=
  let (low, k) := k.next
  let (high, k) := k.next
  (low.toUInt64 ||| (high.toUInt64 <<< 32), k)

/-- One step of the generator that spreads a seed over a key: its word and its next state. -/
def expand (state : UInt64) : UInt32 × UInt64 :=
  let state := state * 6364136223846793005 + 11634580027462260723
  let folded := (((state >>> 18) ^^^ state) >>> 27).toUInt32
  let amount := (state >>> 59).toUInt32
  ((folded >>> amount) ||| (folded <<< ((32 - amount) % 32)), state)

/-- Four words of a key, and the state of the generator after them. -/
def expandRow (state : UInt64) : Row × UInt64 :=
  let (a, state) := expand state
  let (b, state) := expand state
  let (c, state) := expand state
  let (d, state) := expand state
  (⟨a, b, c, d⟩, state)

/-- The beginning of the keystream of a seed. -/
def ofSeed (seed : UInt64) : Keystream :=
  let (upper, state) := expandRow seed
  let (lower, _) := expandRow state
  { keyUpper := upper, keyLower := lower, counter := 0, ready := [] }

instance : WordSource Keystream where
  next32 := next
  next64 := nextPair

end Keystream

end TreeEvolution
