import BoostedTrees.Model.Stored
import BoostedTrees.Model.Wire

/-!
# Binary payloads

The wire form of a stored model and of its parts. Two payloads are built from them:
the whole model, and the older one without feature metadata.
-/

namespace BoostedTrees

/-! ## Writing -/

namespace Wire

def storedTree (t : StoredTree) : Bytes :=
  list uint32 t.splitIndices ++ list single t.splitConditions ++
    list int32 t.leftChildren ++ list int32 t.rightChildren ++ list bool t.defaultLeft ++
    list single t.baseWeights ++ list single t.lossChanges ++ list single t.sumHessian

def storedForest (f : StoredForest) : Bytes :=
  list storedTree f.trees ++ list uint32 f.treeInfo

def storedParameters (p : StoredParameters) : Bytes :=
  single p.baseScore ++ uint32 p.numClass ++ uint64 p.numFeature

def version (v : StoredVersion) : Bytes := uint32 v.major ++ uint32 v.minor ++ uint32 v.patch

def storedModel (m : StoredModel) : Bytes :=
  version m.version ++ dictionary text m.attributes ++ list text m.featureNames ++
    list text m.featureTypes ++ storedParameters m.parameters ++ text m.objective ++
    storedForest m.forest

/-- The payload without version and feature metadata. -/
def plainModel (m : StoredModel) : Bytes :=
  storedParameters m.parameters ++ text m.objective ++ dictionary text m.attributes ++
    storedForest m.forest

end Wire

/-! ## Reading -/

namespace Wire.Reader

def storedTree : Reader StoredTree := do
  let splitIndices ← list uint32
  let splitConditions ← list single
  let leftChildren ← list int32
  let rightChildren ← list int32
  let defaultLeft ← list bool
  let baseWeights ← list single
  let lossChanges ← list single
  let sumHessian ← list single
  return ⟨splitIndices, splitConditions, leftChildren, rightChildren, defaultLeft, baseWeights,
    lossChanges, sumHessian⟩

def storedForest : Reader StoredForest := do
  let trees ← list storedTree
  let treeInfo ← list uint32
  return ⟨trees, treeInfo⟩

def storedParameters : Reader StoredParameters := do
  let baseScore ← single
  let numClass ← uint32
  let numFeature ← uint64
  return ⟨baseScore, numClass, numFeature⟩

def version : Reader StoredVersion := do
  let major ← uint32
  let minor ← uint32
  let patch ← uint32
  return ⟨major, minor, patch⟩

def storedModel : Reader StoredModel := do
  let version ← version
  let attributes ← dictionary text
  let featureNames ← list text
  let featureTypes ← list text
  let parameters ← storedParameters
  let objective ← text
  let forest ← storedForest
  return ⟨version, attributes, featureNames, featureTypes, parameters, objective, forest⟩

/-- A model read without version and feature metadata is of the current version and
has no such metadata. -/
def plainModel : Reader StoredModel := do
  let parameters ← storedParameters
  let objective ← text
  let attributes ← dictionary text
  let forest ← storedForest
  return ⟨.current, attributes, [], [], parameters, objective, forest⟩

end Wire.Reader

end BoostedTrees
