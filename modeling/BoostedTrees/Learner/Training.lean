import BoostedTrees.Growth.Grow
import BoostedTrees.Growth.Sampling
import BoostedTrees.Learner.Basic

/-!
# Training

A round grows one tree for every output, from the gradient of the objective or from
one that is given, and appends them to the forest. The first round fixes the number
of features.
-/

namespace BoostedTrees

namespace Learner

/-- The trees of a round, for the given outputs. All draw their rows from one source. -/
def growOutputs (s : Settings) (m : Matrix) (g : Gradient) :
    (outputs : List Nat) → Random.Xoshiro → List Tree
  | [], _ => []
  | k :: rest, source =>
    let (rows, source) := Growth.sample s.subsample m.rows source
    Growth.grow s.growthRules m (g.output s.outputs m.rows k) rows :: growOutputs s m g rest source

/-- The trees of a round. -/
def growRound (s : Settings) (iteration : Int32) (m : Matrix) (g : Gradient) : List Tree :=
  growOutputs s m g (List.range s.outputs) (Growth.roundSource s.seed iteration)

/-- Fixes the number of features, which a model without trees may still raise. -/
def fixFeatures (m : Matrix) : LearnerM Unit := do
  let l ← get
  let columns := UInt64.ofNat m.columns
  if l.features = 0 ∨ (l.forest.trees = [] ∧ l.features < columns) then
    set { l with features := columns }
  else if columns ≠ l.features then throw (.trainingColumns columns l.features)

/-- Checks that a matrix can be trained on with the objective. -/
def checkTrainingData (l : Learner) (m : Matrix) : Except EngineError Unit := do
  m.checkMetadata l.outputs
  l.settings.objective.checkLabels l.outputs m.labels
  let _ ← l.settings.objective.baseMargin l.settings.baseScore

/-- A round with a given gradient. -/
def boost (iteration : Int32) (m : Matrix) (g : Gradient) : LearnerM Unit := do
  let l ← get
  let expected := l.outputCount m.rows
  if g.first.size ≠ expected ∨ g.second.size ≠ expected then
    throw (.gradientSize expected g.first.size g.second.size)
  check fun l => m.checkMetadata l.outputs
  fixFeatures m
  modify fun l =>
    { l with forest := l.forest.addRound (growRound l.settings iteration m g) }
  let _ ← treeSums m true

/-- A round with the gradient of the objective. -/
def update (iteration : Int32) (m : Matrix) : LearnerM Unit := do
  check (·.checkTrainingData m)
  fixFeatures m
  -- The matrix is remembered from its first round on.
  let margins ← margins m true
  let l ← get
  boost iteration m (l.settings.objective.gradient l.outputs m margins)

end Learner

end BoostedTrees
