/-!
# The random stream

A generator of 64-bit words with 256 bits of state (xoshiro256++).  Its seed is spread over the
state by a second, smaller generator, so that any 64-bit number is a good seed.
-/

namespace GeneticProgramming

structure Random where
  s0 : UInt64
  s1 : UInt64
  s2 : UInt64
  s3 : UInt64
deriving DecidableEq, Repr, Inhabited

namespace Random

def rotateLeft (x k : UInt64) : UInt64 := (x <<< k) ||| (x >>> (64 - k))

def rotateRight32 (x k : UInt32) : UInt32 := (x >>> k) ||| (x <<< (32 - k))

/-- The next word, and the generator after it. -/
def next (g : Random) : UInt64 × Random :=
  let word := rotateLeft (g.s0 + g.s3) 23 + g.s0
  let t := g.s1 <<< 17
  let s2 := g.s2 ^^^ g.s0
  let s3 := g.s3 ^^^ g.s1
  (word, ⟨g.s0 ^^^ s3, g.s1 ^^^ s2, s2 ^^^ t, rotateLeft s3 45⟩)

/-- One step of the generator that spreads a seed. -/
def spread (state : UInt64) : UInt32 × UInt64 :=
  let state := state * 6364136223846793005 + 11634580027462260723
  let x := (((state >>> 18) ^^^ state) >>> 27).toUInt32
  (rotateRight32 x (state >>> 59).toUInt32, state)

/-- Two steps give the low and the high half of a word. -/
def spreadWord (state : UInt64) : UInt64 × UInt64 :=
  let (low, state) := spread state
  let (high, state) := spread state
  (low.toUInt64 ||| (high.toUInt64 <<< 32), state)

def ofSeed (seed : UInt64) : Random :=
  let (s0, state) := spreadWord seed
  let (s1, state) := spreadWord state
  let (s2, state) := spreadWord state
  let (s3, _) := spreadWord state
  ⟨s0, s1, s2, s3⟩

/-- A bijection on words that leaves no visible trace of its argument. -/
def scramble (z : UInt64) : UInt64 :=
  let z := z + 0x9E3779B97F4A7C15
  let z := (z ^^^ (z >>> 30)) * 0xBF58476D1CE4E5B9
  let z := (z ^^^ (z >>> 27)) * 0x94D049BB133111EB
  z ^^^ (z >>> 31)

/-- The seed of the stream for one slot of one generation. -/
def taskSeed (seed generation slot : UInt64) : UInt64 :=
  scramble (scramble (scramble seed ^^^ generation) ^^^ slot)

/-- Every slot of every generation has a stream of its own, so slots may be filled in any order. -/
def forTask (seed generation slot : UInt64) : Random := ofSeed (taskSeed seed generation slot)

end Random

end GeneticProgramming
