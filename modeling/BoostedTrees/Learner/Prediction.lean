import BoostedTrees.Learner.Basic

/-!
# Prediction

A learner predicts for a matrix or for rows that are given directly. A prediction is
one flat list of numbers, row after row; how many stand for a row depends on what is
asked for.
-/

namespace BoostedTrees

/-- What is asked of a prediction. -/
inductive PredictionKind where
  /-- Margins under the transform of the objective. -/
  | value
  | margin
  /-- The leaf of every tree. -/
  | leaf
  /-- For every output one number for every feature, and the bias. -/
  | contributions
deriving DecidableEq

namespace PredictionKind

/-- The bits of a mask that ask for something other than values. -/
def marginBit : Int32 := 1

def leafBit : Int32 := 2

def contributionsBit : Int32 := 4

/-- What a mask asks for. Contributions win over leaves, and leaves over margins;
other bits mean nothing. -/
def ofMask (mask : Int32) : PredictionKind :=
  if mask &&& contributionsBit ≠ 0 then contributions
  else if mask &&& leafBit ≠ 0 then leaf
  else if mask &&& marginBit ≠ 0 then margin
  else value

/-- The mask that asks for one thing. -/
def mask : PredictionKind → Int32
  | value => 0
  | margin => marginBit
  | leaf => leafBit
  | contributions => contributionsBit

@[simp] theorem ofMask_mask (k : PredictionKind) : ofMask k.mask = k := by cases k <;> decide

end PredictionKind

/-- Rows that are given without a matrix, one after another. -/
structure DenseRows where
  values : Array Single
  rows : Nat
  columns : Nat
  /-- The value that stands for a missing one, beside NaN. -/
  missing : Single
deriving DecidableEq

namespace DenseRows

/-- Whether there are as many values as the shape asks for. -/
def fitsShape (d : DenseRows) : Bool := Matrix.cells? d.rows d.columns = some d.values.size

/-- The rows, with missing values marked. -/
def toRows (d : DenseRows) : Rows where
  count := d.rows
  columns := d.columns
  values :=
    if d.missing.isNaN then d.values
    else d.values.map fun v => if isMissing d.missing v then Single.nan else v

end DenseRows

namespace Learner

/-- The number of columns that stand for features in contributions. -/
def contributionColumns (l : Learner) (columns : Nat) : Nat :=
  if l.features ≠ 0 then l.features.toNat else columns

/-- The sums of the trees' outputs for a matrix, remembered ones if they are over
all trees that are asked for. -/
def sumsWithin (trees : Forest.Range) (rows : Rows) (matrix? : Option Matrix) :
    StateM Learner (Array Single) := do
  let l ← get
  match matrix? with
  | some m =>
    if trees = l.forest.all ∧ l.cache.contains m.id then treeSums m false
    else return sumsOf (l.forest.within trees) rows l.outputs
  | none => return sumsOf (l.forest.within trees) rows l.outputs

/-- Predicts for rows from the rounds `first` up to `last`; zero stands for the end. -/
def predictRows (kind : PredictionKind) (first last : UInt32) (rows : Rows)
    (matrix? : Option Matrix) (baseMargin : Array Single) : LearnerM (List Single) := do
  let l ← get
  match l.forest.range? l.outputs first last with
  | none => throw (.roundRange first last l.rounds)
  | some range =>
    let start ← check (·.startingMargins rows.count baseMargin)
    let trees := l.forest.within range
    match kind with
    | .contributions =>
      let base := start.toArray
      let features := l.contributionColumns rows.columns
      let explained := explain id trees
      return rows.entries (l.outputs * (features + 1)) fun i =>
        (BoostedTrees.contributions explained features l.outputs (rows.row i)
          (base.extract (i * l.outputs) ((i + 1) * l.outputs)).toList).toList
    | .leaf =>
      return rows.entries trees.length fun i => (leavesOf trees (rows.row i)).map Single.ofNat
    | .margin =>
      return (addMargins start.toArray (← sumsWithin range rows matrix?)).toList
    | .value =>
      let margins := (addMargins start.toArray (← sumsWithin range rows matrix?)).toList
      return l.settings.objective.outputTransform l.outputs margins

/-- Predicts for a matrix from the first rounds, or from all if their number is zero. -/
def predict (m : Matrix) (mask : Int32) (limit : UInt32) : LearnerM (List Single) := do
  check (·.checkColumns m.columns)
  predictRows (.ofMask mask) 0 limit m.toRows (some m) m.baseMargin

/-- What the code of a prediction in place asks for. -/
def kindOfCode (code : Int32) : Except EngineError PredictionKind :=
  if code = 0 then .ok .value
  else if code = 1 then .ok .margin
  else .error (.unknownPredictType code)

/-- Predicts for rows that are given without a matrix. -/
def predictDense (d : DenseRows) (first last : UInt32) (code : Int32) (baseMargin : Array Single) :
    LearnerM (List Single) := do
  let kind ← check fun _ => kindOfCode code
  if !d.fitsShape then throw (.denseSize d.values.size d.rows d.columns)
  check (·.checkColumns d.columns)
  predictRows kind first last d.toRows none baseMargin

end Learner

end BoostedTrees
