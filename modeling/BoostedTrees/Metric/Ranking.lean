import BoostedTrees.Number.Double

/-!
# Scores of a ranking

Two scores of the order that predictions put rows in. The area under the ROC curve
walks down the predictions, one tie at a time, and adds the area of a trapezoid for
every tie. The average precision takes the rows one at a time.

The area is computed in any type of numbers that weights can be read into, so that
it can also be taken without rounding.
-/

namespace BoostedTrees.Ranking

/-- A row under a ranking. -/
structure Sample where
  score : Single
  label : Single
  weight : Single
deriving DecidableEq

/-- Whether a row counts as positive. -/
def Sample.isPositive (s : Sample) : Bool := Single.ofDecimal 5 (-1) < s.label

/-- A list from the highest score to the lowest; equal bits keep their order. -/
def descending {α : Type} (score : α → Single) (items : List α) : List α :=
  items.mergeSort fun a b => decide ((score b).rank ≤ (score a).rank)

/-- The runs of samples with the same score, in order. -/
def ties (samples : List Sample) : List (List Sample) :=
  samples.splitBy fun a b => a.score.sameNumber b.score

section Area

variable {α : Type} [OfNat α 0] [OfNat α 2] [Add α] [Sub α] [Mul α] [Div α] [DecidableEq α]
  (read : Single → α)

/-- The walk down a ranking: the weight of the positive and of the negative rows so
far, and the area under the curve. -/
structure Walk (α : Type) where
  positive : α
  negative : α
  area : α

/-- Adds the weight of one row. -/
def Walk.addWeight (w : Walk α) (s : Sample) : Walk α :=
  if s.isPositive then { w with positive := w.positive + read s.weight }
  else { w with negative := w.negative + read s.weight }

/-- Takes the rows of one tie: the curve runs straight from where it was. -/
def Walk.addTie (w : Walk α) (tie : List Sample) : Walk α :=
  let next := tie.foldl (Walk.addWeight read) w
  -- A trapezoid: the width of the tie times the mean of the heights at its ends.
  { next with
    area := w.area + (next.negative - w.negative) * (next.positive + w.positive) / 2 }

/-- The area under the ROC curve, as a share of the whole; none if the positive or
the negative rows have no weight. Scores are meant to be numbers: a walk that takes rows
while their score equals the first one of them never gets past a NaN and does not end.
Here a NaN is a tie of its own, so that there is a value then as well. -/
def rocArea? (samples : List Sample) : Option α :=
  let walk := (ties (descending (·.score) samples)).foldl (Walk.addTie read) ⟨0, 0, 0⟩
  if walk.positive = 0 ∨ walk.negative = 0 then none
  else some (walk.area / (walk.positive * walk.negative))

end Area

/-- The precision at every relevant row of a ranking, given how many relevant rows
and rows stand above. -/
def precisions : (hits rank : Nat) → (relevant : List Bool) → List Double
  | _, _, [] => []
  | hits, rank, true :: rest =>
    Double.ofNat (hits + 1) / Double.ofNat (rank + 1) :: precisions (hits + 1) (rank + 1) rest
  | hits, rank, false :: rest => precisions hits (rank + 1) rest

/-- The mean of numbers, whose sum is taken from the left. -/
def mean (xs : List Double) : Double := xs.foldl (· + ·) 0 / Double.ofNat xs.length

/-- The average precision of scores with their labels; one if no row is relevant. -/
def averagePrecision (rows : List (Single × Single)) : Double :=
  let relevant := (descending (·.1) rows).map fun (_, label) => decide (0 < label)
  let values := precisions 0 0 relevant
  if values.isEmpty then 1 else mean values

/-- The mean of the average precisions of query groups. -/
def meanPrecision (groups : List (List (Single × Single))) : Double :=
  if groups.isEmpty then Double.nan else mean (groups.map averagePrecision)

end BoostedTrees.Ranking
