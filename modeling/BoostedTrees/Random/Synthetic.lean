import BoostedTrees.Random.ChaCha
import BoostedTrees.Matrix

/-!
# Synthetic data

Matrices with uniform features and labels that depend on them, reproducible from a
seed.
-/

namespace BoostedTrees.Random

/-- Uniform values in `[least, greatest]`, row after row. -/
def dense (rows columns : Nat) (seed : UInt64) (least greatest : Single) : Array Single :=
  let width := greatest - least
  ((ChaCha.units seed (rows * columns)).map fun u => least + u * width).toArray

/-- Labels of uniform features in `[0, 1]`, one per row. -/
def labelled (id rows columns : Nat) (seed : UInt64) (label : Array Single → Single) :
    Except ArgumentError Matrix := do
  let m ← Matrix.ofRows id rows columns (dense rows columns seed 0 1)
  return { m with labels := (Array.range rows).map fun i => label (m.row i) }

/-- Linear targets: weights in `[-1, 1)` drawn from a second seed, and a half added. -/
def regression (id rows columns : Nat) (seed : UInt64) : Except ArgumentError Matrix :=
  let weights := (ChaCha.units (seed ^^^ 0x5eed) columns).map fun u => u * 2 - 1
  labelled id rows columns seed fun row =>
    (row.toList.zip weights).foldl (fun sum (x, w) => sum + x * w) 0 + Single.ofDecimal 5 (-1)

/-- Two classes: one where the first two features sum past one. -/
def binary (id rows columns : Nat) (seed : UInt64) : Except ArgumentError Matrix :=
  labelled id rows columns seed fun row => if 1 < row.getD 0 0 + row.getD 1 0 then 1 else 0

/-- Query groups of one size; the relevance follows the first feature in three steps. -/
def ranking (id groups groupSize columns : Nat) (seed : UInt64) : Except ArgumentError Matrix := do
  let m ← labelled id (groups * groupSize) columns seed fun row =>
    Single.ofNat (row.getD 0 0 * 3).toNatSaturating
  return { m with groups := List.replicate groups (UInt32.ofNat groupSize) }

end BoostedTrees.Random
