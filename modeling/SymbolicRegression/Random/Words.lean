/-
# Random words

All randomness comes as a sequence of 64-bit words.

* `WordSource` : anything that hands out words one by one;
* `Xoshiro256` : the xoshiro256++ generator, seeded from one word by a
  permuted congruential generator;
* `ScriptedWords` : given words first, then a generator's, with a count.
-/

namespace SymbolicRegression

/-- A state that hands out 64-bit words, each with the state to go on with. -/
class WordSource (σ : Type) where
  next : σ → UInt64 × σ

/-- The bits of `x` moved up by `k`, those that leave at the top coming back at the bottom. -/
def rotateLeft (x k : UInt64) : UInt64 := (x <<< k) ||| (x >>> (64 - k))

/-! ## The generator -/

/-- The state of a xoshiro256++ generator. -/
structure Xoshiro256 where
  s0 : UInt64
  s1 : UInt64
  s2 : UInt64
  s3 : UInt64
  deriving DecidableEq, Repr

namespace Xoshiro256

/-- The next word, and the state after it. -/
def next (g : Xoshiro256) : UInt64 × Xoshiro256 :=
  let word := rotateLeft (g.s0 + g.s3) 23 + g.s0
  let s2 := g.s2 ^^^ g.s0
  let s3 := g.s3 ^^^ g.s1
  let s1 := g.s1 ^^^ s2
  let s0 := g.s0 ^^^ s3
  (word, ⟨s0, s1, s2 ^^^ (g.s1 <<< 17), rotateLeft s3 45⟩)

instance : WordSource Xoshiro256 := ⟨next⟩

/-- One step of the congruential generator that spreads a seed. -/
def seedStep (state : UInt64) : UInt64 := state * 6364136223846793005 + 11634580027462260723

/-- The 32 bits that a state of the seeding generator gives: a xorshift, then a
rotation by its five top bits. -/
def seedBits (state : UInt64) : UInt32 :=
  let bits := (((state >>> 18) ^^^ state) >>> 27).toUInt32
  let turn := (state >>> 59).toUInt32
  (bits >>> turn) ||| (bits <<< ((32 - turn) % 32))

/-- Two steps of the seeding generator: a word, its low half first, and the state after it. -/
def seedWord (state : UInt64) : UInt64 × UInt64 :=
  let low := seedStep state
  let high := seedStep low
  ((seedBits low).toUInt64 ||| ((seedBits high).toUInt64 <<< 32), high)

/-- The generator that a seed starts. -/
def ofSeed (seed : UInt64) : Xoshiro256 :=
  let (s0, seed) := seedWord seed
  let (s1, seed) := seedWord seed
  let (s2, seed) := seedWord seed
  let (s3, _) := seedWord seed
  ⟨s0, s1, s2, s3⟩

end Xoshiro256

/-! ## Scripted words -/

/-- A source that hands out the words of a script and then those of a
generator, and counts the words it has handed out. -/
structure ScriptedWords where
  script : List UInt64
  generator : Xoshiro256
  taken : Nat := 0

namespace ScriptedWords

/-- The next word: of the script while it lasts, then of the generator. -/
def next (s : ScriptedWords) : UInt64 × ScriptedWords :=
  match s.script with
  | word :: script => (word, { s with script, taken := s.taken + 1 })
  | [] =>
      let (word, generator) := s.generator.next
      (word, { s with generator, taken := s.taken + 1 })

instance : WordSource ScriptedWords := ⟨next⟩

end ScriptedWords

end SymbolicRegression
