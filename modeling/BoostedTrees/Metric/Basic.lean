import BoostedTrees.Matrix.Metadata
import BoostedTrees.Metric.Ranking
import BoostedTrees.Objective.Basic

/-!
# Metrics

A metric scores predictions against labels. Most are means over the rows, each with
its weight; the others look at the order of the predictions. A metric whose value
the data leave open, such as a mean over no weight, is a NaN.
-/

namespace BoostedTrees

inductive Metric where
  /-- The root of the mean squared error. -/
  | rootMeanSquare
  /-- The mean of the absolute error. -/
  | meanAbsolute
  /-- The mean negative log-likelihood of a probability. -/
  | logLoss
  /-- The share of rows on the wrong side of one half. -/
  | errorRate
  /-- The area under the ROC curve. -/
  | rocArea
  /-- The mean negative log-likelihood of a class. -/
  | classLogLoss
  /-- The share of rows for which another class is more likely. -/
  | classErrorRate
  /-- The average precision, as a mean over the query groups. -/
  | averagePrecision
deriving DecidableEq

namespace Metric

def name : Metric → String
  | rootMeanSquare => "rmse"
  | meanAbsolute => "mae"
  | logLoss => "logloss"
  | errorRate => "error"
  | rocArea => "auc"
  | classLogLoss => "mlogloss"
  | classErrorRate => "merror"
  | averagePrecision => "map"

def ofName : String → Except EngineError Metric
  | "rmse" => .ok rootMeanSquare
  | "mae" => .ok meanAbsolute
  | "logloss" => .ok logLoss
  | "error" => .ok errorRate
  | "auc" => .ok rocArea
  | "mlogloss" => .ok classLogLoss
  | "merror" => .ok classErrorRate
  | "map" => .ok averagePrecision
  | other => .error (.unknownMetric other)

@[simp] theorem ofName_name (m : Metric) : ofName m.name = .ok m := by cases m <;> rfl

/-- Whether the metric scores rows with an output for every class. -/
def isMulticlass : Metric → Bool
  | classLogLoss => true
  | classErrorRate => true
  | _ => false

/-! ## Losses of a row -/

/-- The least probability whose logarithm is taken. -/
def leastProbability : Double := Double.ofDecimal 1 (-15)

def squaredError (prediction label : Double) : Double :=
  (prediction - label) * (prediction - label)

def absoluteError (prediction label : Double) : Double := (prediction - label).magnitude

/-- The log-likelihood of a label under a probability. -/
def logLikelihood (q label : Double) : Double := label * q.log + (1 - label) * (1 - q).log

/-- The negative log-likelihood of a label, for a probability kept off zero and one. -/
def logError (prediction label : Double) : Double :=
  -logLikelihood (Double.clamp leastProbability (1 - leastProbability) prediction) label

/-- One if prediction and label are on different sides of one half, else zero. -/
def sideError (prediction label : Double) : Double :=
  let predicted : Double := if Double.ofDecimal 5 (-1) < prediction then 1 else 0
  if predicted.sameNumber label then 0 else 1

/-- The negative log-likelihood of the labelled class. -/
def classLogError (row : List Single) (label : Single) : Double :=
  -((row.getD label.toNatSaturating 0).toDouble.larger leastProbability).log

/-- One if the labelled class is not the most likely one, else zero. -/
def classError (row : List Single) (label : Single) : Double :=
  if Objective.argmax row = label.toNatSaturating then 0 else 1

/-- The mean of losses with their weights, over the sum of the weights. -/
def weightedMean (entries : List (Double × Double)) : Double :=
  let (sum, weight) := entries.foldl
    (fun (sum, weight) (loss, w) => (sum + loss * w, weight + w)) ((0, 0) : Double × Double)
  if weight.sameNumber 0 then Double.nan else sum / weight

/-! ## Scores -/

/-- Checks that the metric can score predictions with the given outputs per row. -/
def check (metric : Metric) (outputs : Nat) (m : Matrix) : Except EngineError Unit :=
  if m.labels.size ≠ m.rows then
    .error (.metricLabelCount metric.name m.labels.size m.rows)
  else if metric.isMulticlass ≠ decide (1 < outputs) then
    .error (.metricGroups metric.name outputs)
  else if metric.isMulticlass then
    match m.labels.find? fun y => decide (y < 0) || outputs ≤ y.toNatSaturating with
    | some y => .error (.metricLabel metric.name y outputs)
    | none => .ok ()
  else .ok ()

/-- The weighted mean of a loss on the prediction and the label of every row. -/
def meanLoss (loss : Double → Double → Double) (m : Matrix) (predictions : Array Single) : Double :=
  weightedMean ((List.range m.rows).map fun i =>
    (loss (predictions.getD i 0).toDouble (m.label i).toDouble, (m.rowWeight i).toDouble))

/-- The weighted mean of a loss on the outputs and the label of every row. -/
def meanClassLoss (loss : List Single → Single → Double) (outputs : Nat) (m : Matrix)
    (predictions : Array Single) : Double :=
  weightedMean ((List.range m.rows).map fun i =>
    (loss (predictions.extract (i * outputs) ((i + 1) * outputs)).toList (m.label i),
      (m.rowWeight i).toDouble))

/-- The score of the predictions for a matrix, whose labels they are compared with. -/
def score (metric : Metric) (outputs : Nat) (m : Matrix) (predictions : Array Single) :
    Except EngineError Double := do
  metric.check outputs m
  match metric with
  | rootMeanSquare => return (meanLoss squaredError m predictions).sqrt
  | meanAbsolute => return meanLoss absoluteError m predictions
  | logLoss => return meanLoss logError m predictions
  | errorRate => return meanLoss sideError m predictions
  | classLogLoss => return meanClassLoss classLogError outputs m predictions
  | classErrorRate => return meanClassLoss classError outputs m predictions
  | rocArea =>
    let samples := (List.range m.rows).map fun i =>
      { score := predictions.getD i 0, label := m.label i, weight := m.rowWeight i }
    return (Ranking.rocArea? Single.toDouble samples).getD Double.nan
  | averagePrecision =>
    if m.coveredRows ≠ predictions.size ∨ m.coveredRows ≠ m.labels.size then
      .error (.metricCoverage m.coveredRows predictions.size)
    else
      return Ranking.meanPrecision (m.groupSpans.map fun span =>
        (span.slice predictions).toList.zip (span.slice m.labels).toList)

end Metric

namespace Objective

/-- The metric that is reported where no other is asked for. -/
def defaultMetric : Objective → Metric
  | squaredError => .rootMeanSquare
  | logistic => .rootMeanSquare
  | binaryLogistic => .logLoss
  | binaryMargin => .logLoss
  | classProbabilities => .classLogLoss
  | mostLikelyClass => .classErrorRate
  | pairwiseRank => .averagePrecision

end Objective

end BoostedTrees
