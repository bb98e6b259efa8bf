import BoostedTrees.Model.Stored
import BoostedTrees.Json.Decoder
import BoostedTrees.Json.Writer

/-!
# Models as JSON

The text form of a stored model: every field under its name, in a fixed order.
-/

namespace BoostedTrees

open Json

/-! ## Writing -/

namespace StoredTree

def toJson (t : StoredTree) : List Char :=
  Writer.object [
    ("split_indices", Writer.array (t.splitIndices.map fun n => Writer.nat n.toNat)),
    ("split_conditions", Writer.array (t.splitConditions.map Writer.single)),
    ("left_children", Writer.array (t.leftChildren.map fun n => Writer.int n.toInt)),
    ("right_children", Writer.array (t.rightChildren.map fun n => Writer.int n.toInt)),
    ("default_left", Writer.array (t.defaultLeft.map Writer.bool)),
    ("base_weights", Writer.array (t.baseWeights.map Writer.single)),
    ("loss_changes", Writer.array (t.lossChanges.map Writer.single)),
    ("sum_hessian", Writer.array (t.sumHessian.map Writer.single))]

end StoredTree

namespace StoredModel

def versionJson (v : StoredVersion) : List Char :=
  Writer.array ([v.major, v.minor, v.patch].map fun n => Writer.nat n.toNat)

def parametersJson (p : StoredParameters) : List Char :=
  Writer.object [
    ("base_score", Writer.single p.baseScore),
    ("num_class", Writer.nat p.numClass.toNat),
    ("num_feature", Writer.nat p.numFeature.toNat)]

def forestJson (f : StoredForest) : List Char :=
  Writer.object [
    ("trees", Writer.array (f.trees.map StoredTree.toJson)),
    ("tree_info", Writer.array (f.treeInfo.map fun n => Writer.nat n.toNat))]

def toJson (m : StoredModel) : List Char :=
  Writer.object [
    ("version", versionJson m.version),
    ("learner", Writer.object [
      ("attributes", Writer.object (m.attributes.entries.map fun (k, v) => (k, Writer.string v))),
      ("feature_names", Writer.array (m.featureNames.map Writer.string)),
      ("feature_types", Writer.array (m.featureTypes.map Writer.string)),
      ("model_param", parametersJson m.parameters),
      ("objective", Writer.string m.objective),
      ("gradient_booster", forestJson m.forest)])]

end StoredModel

/-! ## Reading -/

namespace Json.Decoder

def version : Decoder StoredVersion := fun depth j => do
  match ← listOf 3 uint32 depth j with
  | [major, minor, patch] => return ⟨major, minor, patch⟩
  | _ => none

def storedTree : Decoder StoredTree := fun depth j => do
  let r ← Record.ofJson? ["split_indices", "split_conditions", "left_children", "right_children",
    "default_left", "base_weights", "loss_changes", "sum_hessian"] depth j
  return {
    splitIndices := ← r.required "split_indices" (list uint32)
    splitConditions := ← r.required "split_conditions" (list single)
    leftChildren := ← r.required "left_children" (list int32)
    rightChildren := ← r.required "right_children" (list int32)
    defaultLeft := ← r.required "default_left" (list bool)
    baseWeights := ← r.required "base_weights" (list single)
    lossChanges := ← r.required "loss_changes" (list single)
    sumHessian := ← r.required "sum_hessian" (list single) }

def storedParameters : Decoder StoredParameters := fun depth j => do
  let r ← Record.ofJson? ["base_score", "num_class", "num_feature"] depth j
  return {
    baseScore := ← r.required "base_score" single
    numClass := ← r.required "num_class" uint32
    numFeature := ← r.required "num_feature" uint64 }

def storedForest : Decoder StoredForest := fun depth j => do
  let r ← Record.ofJson? ["trees", "tree_info"] depth j
  return {
    trees := ← r.required "trees" (list storedTree)
    treeInfo := ← r.required "tree_info" (list uint32) }

/-- The part of a model beside its version. -/
def learner (version : StoredVersion) : Decoder StoredModel := fun depth j => do
  let r ← Record.ofJson? ["attributes", "feature_names", "feature_types", "model_param",
    "objective", "gradient_booster"] depth j
  return {
    version
    attributes := ← r.required "attributes" (dictionary text)
    featureNames := ← r.required "feature_names" (list text)
    featureTypes := ← r.required "feature_types" (list text)
    parameters := ← r.required "model_param" storedParameters
    objective := ← r.required "objective" text
    forest := ← r.required "gradient_booster" storedForest }

def storedModel : Decoder StoredModel := fun depth j => do
  let r ← Record.ofJson? ["version", "learner"] depth j
  r.required "learner" (learner (← r.required "version" version))

end Json.Decoder

end BoostedTrees
