import BoostedTrees.Matrix
import BoostedTrees.Random.Xoshiro

/-!
# Sampling rows

A tree may be grown on a share of the rows. Every row is drawn by itself, in order,
and no number is drawn where all rows are taken.
-/

namespace BoostedTrees.Growth

/-- Draws from the rows that are given, with the generator left behind. -/
def sampleFrom (share : Single) : List Nat → Random.Xoshiro → List Nat × Random.Xoshiro
  | [], source => ([], source)
  | row :: rest, source =>
    let (x, source) := source.nextUnit
    let (rows, source) := sampleFrom share rest source
    (if x < share then row :: rows else rows, source)

/-- The rows that a tree is grown on, and the generator left behind. -/
def sample (share : Single) (rows : Nat) (source : Random.Xoshiro) :
    List Nat × Random.Xoshiro :=
  let all := List.range (lowWord rows)
  if 1 ≤ share then (all, source) else sampleFrom share all source

/-- The generator of a round: the seed and the number of the round, which may be
negative, are added as words. -/
def roundSource (seed : UInt64) (iteration : Int32) : Random.Xoshiro :=
  Random.Xoshiro.ofSeed (seed + iteration.toInt64.toUInt64)

end BoostedTrees.Growth
