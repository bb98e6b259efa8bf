import BoostedTrees.Matrix.Metadata
import BoostedTrees.Objective.Basic

/-!
# Gradients

The first and second derivative of the loss at the current margins, one pair for
every output of every row. Ranking compares the rows of a query group pair by pair
and looks at nothing outside of the group.
-/

namespace BoostedTrees

/-- First and second derivatives, row after row. -/
structure Gradient where
  first : Array Single
  second : Array Single
deriving DecidableEq

namespace Gradient

def empty : Gradient := ⟨#[], #[]⟩

def append (a b : Gradient) : Gradient := ⟨a.first ++ b.first, a.second ++ b.second⟩

instance : Append Gradient := ⟨append⟩

/-- The gradient with the given derivatives at each place. -/
def ofList (entries : List (Single × Single)) : Gradient :=
  ⟨(entries.map (·.1)).toArray, (entries.map (·.2)).toArray⟩

end Gradient

namespace Objective

/-- The least second derivative of the losses that can be flat. -/
def flattest : Single := Single.ofDecimal 1 (-16)

/-- The derivatives of squared error. -/
def squaredLoss (weight margin label : Single) : Single × Single :=
  ((margin - label) * weight, weight)

/-- The derivatives of the logistic loss. -/
def logisticLoss (weight margin label : Single) : Single × Single :=
  let p := sigmoid margin
  ((p - label) * weight, (p * (1 - p)).larger flattest * weight)

/-- The derivatives of the loss on class probabilities, one pair for each class. -/
def classLoss (weight : Single) (margins : List Single) (label : Single) :
    List (Single × Single) :=
  (softmax margins).zipIdx.map fun (p, k) =>
    let target : Single := if label.toNatSaturating = k then 1 else 0
    ((p - target) * weight, (2 * p * (1 - p)).larger flattest * weight)

/-! ## Ranking -/

/-- All ordered pairs of the first `n` places, in lexicographic order. -/
def orderedPairs (n : Nat) : List (Nat × Nat) :=
  (List.range n).flatMap fun i => (List.range n).map fun j => (i, j)

/-- Counts one pair in: the row at `i` should stand above the row at `j`. -/
def rankPair (weight : Single) (margins : Array Single) (g : Gradient) (pair : Nat × Nat) :
    Gradient :=
  let (i, j) := pair
  let wrong := sigmoid (margins.getD j 0 - margins.getD i 0)
  let push := wrong * weight
  let curve := (wrong * (1 - wrong)).larger flattest * weight
  ⟨(g.first.modify i (· - push)).modify j (· + push),
    (g.second.modify i (· + curve)).modify j (· + curve)⟩

/-- The gradient on the rows of one query group: every pair in which the first row
is not labelled at most as high as the second counts. -/
def rankGroup (weight : Single) (margins labels : Array Single) : Gradient :=
  let pairs := (orderedPairs labels.size).filter fun (i, j) =>
    !decide (labels.getD i 0 ≤ labels.getD j 0)
  let none : Gradient := ⟨Array.replicate labels.size 0, Array.replicate labels.size 0⟩
  let g := pairs.foldl (rankPair weight margins) none
  ⟨g.first, g.second.map (Single.larger · flattest)⟩

/-! ## All objectives -/

/-- The gradient at the margins of a matrix whose metadata fits its rows. -/
def gradient (o : Objective) (outputs : Nat) (m : Matrix) (margins : Array Single) : Gradient :=
  let perRow (loss : Single → Single → Single → Single × Single) : Gradient :=
    Gradient.ofList ((List.range m.rows).map fun i =>
      loss (m.rowWeight i) (margins.getD i 0) (m.label i))
  let perClass : Gradient :=
    Gradient.ofList ((List.range m.rows).flatMap fun i =>
      classLoss (m.rowWeight i) (margins.extract (i * outputs) ((i + 1) * outputs)).toList (m.label i))
  match o with
  | squaredError => perRow squaredLoss
  | logistic => perRow logisticLoss
  | binaryLogistic => perRow logisticLoss
  | binaryMargin => perRow logisticLoss
  | classProbabilities => perClass
  | mostLikelyClass => perClass
  | pairwiseRank =>
    (m.groupSpans.zipIdx.map fun (span, q) =>
      rankGroup (m.groupWeight q) (span.slice margins) (span.slice m.labels)).foldl (· ++ ·) .empty

end Objective

end BoostedTrees
