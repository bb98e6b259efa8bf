import BoostedTrees.Tree.Stored
import BoostedTrees.Dictionary

/-!
# Stored models

The persisted form of a model, which all formats write: the parameters that a
trained model fixes, its trees with the output group of each, and its attributes and
feature metadata. Nothing is checked here; a stored model is whatever was read.
-/

namespace BoostedTrees

/-- The version of the stored form. -/
structure StoredVersion where
  major : UInt32
  minor : UInt32
  patch : UInt32
deriving DecidableEq

/-- The parameters that a trained model fixes. -/
structure StoredParameters where
  baseScore : Single
  numClass : UInt32
  numFeature : UInt64
deriving DecidableEq

/-- The trees and, for each, its output group. -/
structure StoredForest where
  trees : List StoredTree
  treeInfo : List UInt32
deriving DecidableEq

/-- A model as it is persisted. -/
structure StoredModel where
  version : StoredVersion
  attributes : Dictionary String
  featureNames : List String
  featureTypes : List String
  parameters : StoredParameters
  objective : String
  forest : StoredForest

/-- The version that is written. -/
def StoredVersion.current : StoredVersion := ⟨1, 0, 0⟩

end BoostedTrees
