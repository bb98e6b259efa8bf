import BoostedTrees.Number.Single

/-!
# A small fast generator

Row sampling draws from a generator with four words of state. A seed of one word is
spread over the state by a splitting generator, so that similar seeds start far
apart.
-/

namespace BoostedTrees.Random

/-- A word turned left. -/
def rotateLeft (x : UInt64) (turn : UInt64) : UInt64 := (x <<< turn) ||| (x >>> (64 - turn))

/-- The splitting generator: a counter with a fixed odd step, whose bits are mixed. -/
def splitMix (state : UInt64) : UInt64 × UInt64 :=
  let state := state + 0x9e3779b97f4a7c15
  let z := (state ^^^ (state >>> 30)) * 0xbf58476d1ce4e5b9
  let z := (z ^^^ (z >>> 27)) * 0x94d049bb133111eb
  (z ^^^ (z >>> 31), state)

/-- The state of the generator. -/
structure Xoshiro where
  a : UInt64
  b : UInt64
  c : UInt64
  d : UInt64

namespace Xoshiro

def ofSeed (seed : UInt64) : Xoshiro :=
  let (a, seed) := splitMix seed
  let (b, seed) := splitMix seed
  let (c, seed) := splitMix seed
  let (d, _) := splitMix seed
  ⟨a, b, c, d⟩

/-- The next word, and the state after it. -/
def next (g : Xoshiro) : UInt64 × Xoshiro :=
  let word := rotateLeft (g.a + g.d) 23 + g.a
  let c := g.c ^^^ g.a
  let d := g.d ^^^ g.b
  let b := g.b ^^^ c
  let a := g.a ^^^ d
  (word, ⟨a, b, c ^^^ (g.b <<< 17), rotateLeft d 45⟩)

end Xoshiro

/-- A number in `[0, 1)` from the high bits of a word of thirty-two bits. -/
def unit (word : UInt32) : Single :=
  Single.ofNat (word >>> 8).toNat * Single.ofDecimal 59604644775390625 (-24)

/-- A number in `[0, 1)`, and the state after it. -/
def Xoshiro.nextUnit (g : Xoshiro) : Single × Xoshiro :=
  let (word, g) := g.next
  (unit (word >>> 32).toUInt32, g)

end BoostedTrees.Random
