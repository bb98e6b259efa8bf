import BoostedTrees.Engine.Handle
import BoostedTrees.Number.Text
import BoostedTrees.Tree.Validation
import BoostedTrees.Model.Error

/-!
# Why an engine refuses a call

Each cause carries what its message names. `EngineError.message` is the only place
where the wording is fixed.
-/

namespace BoostedTrees

/-- Why a stored model that could be read is not loaded. -/
inductive ModelFault where
  | treeInfoLength (trees infos : Nat)
  | groupOutOfRange (group : UInt32) (groups : Nat)
  | partialRound (trees groups : Nat)
  | featureInfoLength (field : String) (length : Nat) (features : UInt64)
  | tree (index : Nat) (error : TreeError)
deriving DecidableEq

def ModelFault.message : ModelFault → String
  | .treeInfoLength trees infos => s!"{trees} trees but {infos} tree_info entries"
  | .groupOutOfRange group groups => s!"tree group {group} out of {groups} groups"
  | .partialRound trees groups => s!"{trees} trees do not form whole rounds of {groups} groups"
  | .featureInfoLength field length features => s!"{length} {field} for {features} features"
  | .tree index error => s!"tree {index}: " ++ error.message

inductive EngineError where
  /-- A message that the engine gives in its own words. -/
  | reported (message : String)
  /- Handles -/
  | invalidHandle (handle : Handle)
  | handlesExhausted
  /- Parameters -/
  | parameterName (key : String)
  | parameterValue (key value : String)
  | parameterRange (key : String) (least greatest value : Single)
  | unknownObjective (name : String)
  | unknownMetric (name : String)
  | malformedConfig
  /- Feature metadata -/
  | featureInfoLength (field : String) (length : Nat) (features : UInt64)
  | unknownFeatureType (type : String)
  | unknownFeatureField (field : String)
  /- Data -/
  | tooManyColumns (columns : Nat) (features : UInt64)
  | trainingColumns (columns : UInt64) (features : UInt64)
  | baseMarginSize (length expected : Nat)
  | gradientSize (expected gradients hessians : Nat)
  | groupTotal (total rows : Nat)
  | labelCount (labels rows : Nat)
  | weightCount (weights rows groups : Nat)
  | baseScoreNotProbability (value : Single)
  | labelNotProbability (label : Single)
  | tooFewClasses
  | labelNotClass (label : Single)
  /- Metrics -/
  | metricLabelCount (metric : String) (labels rows : Nat)
  | metricGroups (metric : String) (groups : Nat)
  | metricLabel (metric : String) (label : Single) (groups : Nat)
  | metricCoverage (covered predictions : Nat)
  | matrixNames (matrices names : Nat)
  /- Prediction -/
  | roundRange (first last rounds : UInt32)
  | unknownPredictType (code : Int32)
  | denseSize (length rows columns : Nat)
  | outputWithoutRows (length : Nat)
  | outputRagged (length rows : Nat)
  | outputTooLarge
  /- Models and files -/
  | unknownModelFormat (name : String)
  | unknownDumpFormat (name : String)
  | invalidModel (fault : ModelFault)
  | unsavable (error : CodecError)
  | unloadable (error : CodecError)
  | unreadableFile (path : String)
  | unwritableFile (path : String)
  /- Feature maps -/
  | unreadableFeatureMap (path : String)
  | featureMapLine (line : Nat)
  | featureMapIndex (index : String)
  | featureMapOrder (index line : Nat)
  | featureMapType (type : String)
  /- Reports and dumps -/
  | malformedReportEntry (entry : String)
  | invalidMetricValue (value : String)
  | lineWithoutStatistic (statistic line : String)
  | invalidStatistic (statistic value : String)
  | malformedDump
  | nodeWithoutStatistic (node : UInt32) (importance : String)
deriving DecidableEq

namespace EngineError

def message : EngineError → String
  | reported message => message
  | invalidHandle handle => "Invalid booster handle " ++ handle.text
  | handlesExhausted => "Booster handle space exhausted"
  | parameterName key => s!"Invalid parameter name '{key}': names must not contain whitespace"
  | parameterValue key value => s!"Invalid value '{value}' for parameter '{key}'"
  | parameterRange key least greatest value =>
    let low := least.text
    let high := greatest.text
    let got := value.text
    s!"Parameter '{key}' must be in [{low}, {high}], got {got}"
  | unknownObjective name => s!"Unknown objective function: '{name}'"
  | unknownMetric name => s!"Unknown metric function {name}"
  | malformedConfig => "Failed to parse config: not a configuration"
  | featureInfoLength field length features =>
    s!"Length of {field} ({length}) must match the number of features ({features})."
  | unknownFeatureType type => s!"Unknown feature type '{type}'"
  | unknownFeatureField field => s!"Unknown feature info field '{field}'"
  | tooManyColumns columns features =>
    s!"Number of columns in data ({columns}) exceeds the number of features in the booster ({features})."
  | trainingColumns columns features =>
    s!"Number of columns in training data ({columns}) does not match the number of features in the booster ({features})."
  | baseMarginSize length expected =>
    s!"Size of base margin ({length}) must be rows x groups ({expected})."
  | gradientSize expected gradients hessians =>
    s!"Gradient and hessian must have rows x groups = {expected} entries, got {gradients} and {hessians}."
  | groupTotal total rows =>
    s!"Invalid group structure. Number of rows obtained from groups ({total}) doesn't equal to actual number of rows given by data ({rows})."
  | labelCount labels rows => s!"Size of labels ({labels}) must match the number of rows ({rows})."
  | weightCount weights rows groups =>
    s!"Size of weights ({weights}) must match the number of rows ({rows}) or groups ({groups})."
  | baseScoreNotProbability value =>
    let got := value.text
    s!"base_score must be in (0,1) for logistic loss, got: {got}"
  | labelNotProbability label =>
    let got := label.text
    s!"label must be in [0,1] for logistic regression, got: {got}"
  | tooFewClasses => "num_class must be set to at least 2 for multi-class objectives"
  | labelNotClass label =>
    let got := label.text
    s!"SoftmaxMultiClassObj: label must be in [0, num_class), got: {got}"
  | metricLabelCount metric labels rows =>
    s!"Metric {metric} needs one label per row: {labels} labels for {rows} rows."
  | metricGroups metric groups => s!"Metric {metric} does not support {groups} output groups."
  | metricLabel metric label groups =>
    let got := label.text
    s!"Metric {metric} got label {got} outside [0, {groups})."
  | metricCoverage covered predictions =>
    s!"Metric map: query groups cover {covered} rows but {predictions} predictions were given."
  | matrixNames matrices names => s!"Got {matrices} matrices but {names} names."
  | roundRange first last rounds =>
    s!"Invalid iteration range [{first}, {last}) for a model with {rounds} rounds."
  | unknownPredictType code => s!"Unknown predict type: {code}"
  | denseSize length rows columns =>
    s!"Dense input has {length} values, expected {rows} x {columns}."
  | outputWithoutRows length => s!"engine returned {length} values for 0 rows"
  | outputRagged length rows => s!"engine returned {length} values, not a multiple of {rows} rows"
  | outputTooLarge => "ShapeError/Overflow: arithmetic overflow"
  | unknownModelFormat name =>
    s!"Unknown model format '{name}', expected one of: json, ubj, deprecated"
  | unknownDumpFormat name => s!"Unknown dump format '{name}', expected 'text' or 'json'"
  | invalidModel fault => "Invalid model: " ++ fault.message
  | unsavable error => "Failed to save model: " ++ error.message
  | unloadable error => "Failed to load model: " ++ error.message
  | unreadableFile path => s!"Failed to read {path}: the file cannot be read"
  | unwritableFile path => s!"Failed to write {path}: the file cannot be written"
  | unreadableFeatureMap path => s!"Failed to read feature map {path}: the file cannot be read"
  | featureMapLine line =>
    s!"Invalid feature map line {line}: expected 'index<TAB>name<TAB>type'"
  | featureMapIndex index => s!"Invalid feature index '{index}' in feature map"
  | featureMapOrder index line =>
    s!"Feature map indices must be consecutive from 0, got {index} at line {line}"
  | featureMapType type => s!"Unknown feature type '{type}' in feature map"
  | malformedReportEntry entry => s!"malformed evaluation entry '{entry}'"
  | invalidMetricValue value => s!"invalid metric value '{value}'"
  | lineWithoutStatistic statistic line => s!"dump line has no '{statistic}' statistic: {line}"
  | invalidStatistic statistic value => s!"invalid {statistic} value '{value}' in dump"
  | malformedDump => "malformed json tree dump: not a tree"
  | nodeWithoutStatistic node importance => s!"node {node} has no {importance} statistic"

end EngineError

end BoostedTrees
