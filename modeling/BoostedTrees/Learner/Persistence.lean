import BoostedTrees.Learner.Basic
import BoostedTrees.Model.Codec
import BoostedTrees.Tree.Dump

/-!
# Saving and loading a learner

A learner is saved as a stored model and loaded from one. A stored model is checked
before it is taken over, so that every tree that was loaded is one and adds to an
output that there is.
-/

namespace BoostedTrees

namespace Learner

/-- The stored form of the model. -/
def toStored (l : Learner) : StoredModel where
  version := .current
  attributes := l.attributes
  featureNames := l.featureNames
  featureTypes := l.featureTypes
  parameters := {
    baseScore := l.settings.baseScore
    numClass := l.settings.numClass
    numFeature := l.features }
  objective := l.settings.objective.name
  forest := {
    trees := l.forest.trees.map (·.tree.toStored)
    treeInfo := l.forest.trees.map (·.output) }

/-- The settings with those that a stored model fixes. -/
def storedSettings (s : Settings) (m : StoredModel) : Except EngineError Settings :=
  s.setAll [("objective", m.objective), ("num_class", toString m.parameters.numClass.toNat),
    ("base_score", m.parameters.baseScore.text)]

/-- Checks that the trees of a stored model form whole rounds. -/
def checkRounds (f : StoredForest) (outputs : Nat) : Except ModelFault Unit :=
  if f.treeInfo.length ≠ f.trees.length then
    .error (.treeInfoLength f.trees.length f.treeInfo.length)
  else
    match f.treeInfo.find? fun k => outputs ≤ k.toNat with
    | some k => .error (.groupOutOfRange k outputs)
    | none =>
      if f.trees.length % outputs ≠ 0 then .error (.partialRound f.trees.length outputs)
      else .ok ()

/-- Checks that a list of feature metadata is empty or as long as there are features. -/
def checkFeatureInfo (field : String) (values : List String) (features : UInt64) :
    Except ModelFault Unit :=
  if values ≠ [] ∧ values.length ≠ features.toNat then
    .error (.featureInfoLength field values.length features)
  else .ok ()

/-- The trees of a stored model, of which the given number stand before. -/
def storedTrees (features : UInt64) : (before : Nat) → List StoredTree → Except ModelFault (List Tree)
  | _, [] => .ok []
  | i, s :: rest =>
    match Tree.ofStored s features with
    | .error e => .error (.tree i e)
    | .ok t => do return t :: (← storedTrees features (i + 1) rest)

/-- The forest of a stored model for the given number of outputs. -/
def storedForest (m : StoredModel) (outputs : Nat) : Except ModelFault Forest := do
  let features := m.parameters.numFeature
  checkRounds m.forest outputs
  checkFeatureInfo "feature_names" m.featureNames features
  checkFeatureInfo "feature_types" m.featureTypes features
  let trees ← storedTrees features 0 m.forest.trees
  return ⟨List.zipWith OutputTree.mk trees m.forest.treeInfo⟩

/-- Takes a stored model over. The cache is emptied, and settings that the model does
not fix are kept. -/
def loadStored (m : StoredModel) : LearnerM Unit := do
  -- Settings and forest are settled before the learner is touched.
  let s ← check fun l => storedSettings l.settings m
  let forest ← check fun _ => (storedForest m s.outputs).mapError EngineError.invalidModel
  set {
    settings := s
    attributes := m.attributes
    featureNames := m.featureNames
    featureTypes := m.featureTypes
    features := m.parameters.numFeature
    forest
    cache := .empty : Learner }

/-- The bytes of the model in a format. -/
def saveAs (l : Learner) (format : ModelFormat) : Except EngineError (List UInt8) :=
  (l.toStored.encode format).mapError EngineError.unsavable

/-- The bytes of the model in the format of a name. -/
def save (l : Learner) (format : String) : Except EngineError (List UInt8) :=
  match ModelFormat.ofName? format with
  | none => .error (.unknownModelFormat format)
  | some format => l.saveAs format

/-- Takes over the model that bytes hold. -/
def load (bytes : List UInt8) : LearnerM Unit :=
  match StoredModel.decode bytes with
  | .error e => throw (.unloadable e)
  | .ok m => loadStored m

/-- The dumps of all trees. -/
def dump (l : Learner) (map : FeatureMap) (statistics : Bool) (format : String) :
    Except EngineError (List String) :=
  match DumpFormat.ofName? format with
  | none => .error (.unknownDumpFormat format)
  | some format => .ok (l.forest.trees.map fun t => t.tree.dump map statistics format)

end Learner

end BoostedTrees
