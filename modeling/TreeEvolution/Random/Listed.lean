import TreeEvolution.Random.Keystream

/-!
# Listed words

A source can also be given by the 64-bit words it yields.  When the list is used up the source goes
on with a generator that adds a constant to its state and mixes the bits of the sum.  A word of 32
bits is the lower half of one of 64.

`Source` is a source of either kind.
-/

namespace TreeEvolution

/-- A source that yields listed words first. -/
structure ListedWords where
  /-- The words still to be yielded. -/
  listed : List UInt64
  /-- The state of the generator that goes on after them. -/
  state : UInt64 := 0

namespace ListedWords

/-- The bits of a word, mixed. -/
def scramble (z : UInt64) : UInt64 :=
  let z := (z ^^^ (z >>> 30)) * 0xbf58476d1ce4e5b9
  let z := (z ^^^ (z >>> 27)) * 0x94d049bb133111eb
  z ^^^ (z >>> 31)

/-- The next word. -/
def next (s : ListedWords) : UInt64 × ListedWords :=
  match s.listed with
  | word :: rest => (word, { s with listed := rest })
  | [] =>
    let state := s.state + 0x9e3779b97f4a7c15
    (scramble state, { s with state := state })

instance : WordSource ListedWords where
  next32 s :=
    let (word, rest) := s.next
    (word.toUInt32, rest)
  next64 := next

end ListedWords

/-- A source of random words, seeded or listed. -/
inductive Source where
  /-- The keystream of a seed. -/
  | seeded (stream : Keystream)
  /-- Listed words. -/
  | listed (words : ListedWords)

instance : WordSource Source where
  next32
    | .seeded stream => let (word, rest) := WordSource.next32 stream; (word, .seeded rest)
    | .listed words => let (word, rest) := WordSource.next32 words; (word, .listed rest)
  next64
    | .seeded stream => let (word, rest) := WordSource.next64 stream; (word, .seeded rest)
    | .listed words => let (word, rest) := WordSource.next64 words; (word, .listed rest)

end TreeEvolution
