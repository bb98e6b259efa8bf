import BoostedTrees.Objective.Gradient

/-!
# What a leaf is worth

The sums of the first and second derivatives over some rows decide the value that
these rows should get and how much it lowers the loss. Sums are taken in double
precision, from the first row to the last.
-/

namespace BoostedTrees

/-- What a learner's settings say about growing a tree. -/
structure GrowthRules where
  learningRate : Single
  /-- How deep the tree may grow; `0` sets no limit. -/
  maxDepth : Nat
  lambda : Single
  gamma : Single
  minChildWeight : Single
deriving DecidableEq

/-- The sums of the first and second derivatives over some rows. -/
structure Sums where
  first : Double
  second : Double
deriving DecidableEq

namespace Sums

def zero : Sums := ⟨0, 0⟩

instance : Add Sums := ⟨fun a b => ⟨a.first + b.first, a.second + b.second⟩⟩
instance : Sub Sums := ⟨fun a b => ⟨a.first - b.first, a.second - b.second⟩⟩

/-- How much a leaf over the rows lowers the loss, up to a constant factor. -/
def score (lambda : Double) (s : Sums) : Double :=
  let scale := s.second + lambda
  if scale ≤ 0 then 0 else s.first * s.first / scale

/-- The value of a leaf over the rows, before it is scaled by the learning rate. -/
def weight (lambda : Double) (s : Sums) : Double :=
  let scale := s.second + lambda
  if scale ≤ 0 then 0 else (-s.first) / scale

end Sums

namespace Gradient

/-- The derivatives of one row. -/
def sumsAt (g : Gradient) (row : Nat) : Sums :=
  ⟨(g.first.getD row 0).toDouble, (g.second.getD row 0).toDouble⟩

/-- The sums over rows, taken from the left. -/
def sums (g : Gradient) (rows : List Nat) : Sums :=
  rows.foldl (fun s row => s + g.sumsAt row) .zero

/-- The derivatives of one output of every row. -/
def output (g : Gradient) (outputs rows k : Nat) : Gradient :=
  Gradient.ofList ((List.range rows).map fun i =>
    (g.first.getD (i * outputs + k) 0, g.second.getD (i * outputs + k) 0))

end Gradient

end BoostedTrees
