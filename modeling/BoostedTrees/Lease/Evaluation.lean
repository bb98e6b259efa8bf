import BoostedTrees.Lease.Prediction
import BoostedTrees.Report

/-!
# Evaluation through a lease

A report on named matrices comes from the engine, with the metrics that the model is
set to, or from a metric of the caller, which is given the predictions for every
matrix in turn. Both reports have the same form. An evaluator is whatever makes a report;
these are two of them.
-/

namespace BoostedTrees

/-- A metric of the caller. -/
structure CustomMetric where
  name : String
  score : Grid → Matrix → Single

namespace Lease

variable {σ : Type} (e : Engine σ) (l : Lease)

/-- Refuses matrices without as many names. -/
def checkNames (ms : List Matrix) (names : List String) : LeaseM σ Unit := do
  if ms.length ≠ names.length then refuse (.matrixNames ms.length names.length)

/-- The report of the engine. -/
def evaluate (ms : List Matrix) (names : List String) (iteration : Int32) : LeaseM σ String := do
  checkNames ms names
  l.ask e (.evaluate iteration ms names)

/-- The report of the engine, and the values that it shows. -/
def evaluateInto (ms : List Matrix) (names : List String) (iteration : Int32) :
    LeaseM σ (String × List Single) := do
  let report ← l.evaluate e ms names iteration
  return (report, ← judge (Report.parse report.toList))

/-- The values of a metric for named matrices, each with its entry in the report. -/
def scoreEach (metric : CustomMetric) :
    List (Matrix × String) → LeaseM σ (List (Single × List Char))
  | [] => return []
  | (m, name) :: rest => do
    let value := metric.score (← l.predict e m) m
    let entry := Report.entry name.toList metric.name.toList value.toDouble
    return (value, entry) :: (← scoreEach metric rest)

/-- The report of a metric of the caller, and its values. -/
def evaluateCustomInto (ms : List Matrix) (names : List String) (iteration : Int32)
    (metric : CustomMetric) : LeaseM σ (String × List Single) := do
  checkNames ms names
  let scores ← l.scoreEach e metric (ms.zip names)
  return (String.ofList (Report.opening iteration ++ scores.flatMap (·.2)), scores.map (·.1))

/-- The report of a metric of the caller. -/
def evaluateCustom (ms : List Matrix) (names : List String) (iteration : Int32)
    (metric : CustomMetric) : LeaseM σ String := do
  return (← l.evaluateCustomInto e ms names iteration metric).1

/-! ## Evaluators -/

/-- What makes a report on named matrices with a lease. -/
abbrev Evaluator (σ : Type) := Lease → Int32 → List Matrix → List String → LeaseM σ String

/-- The metrics that the model is set to, in one request. -/
def nativeMetrics : Evaluator σ := fun l iteration ms names =>
  l.ask e (.evaluate iteration ms names)

/-- A metric of the caller. -/
def customMetric (metric : CustomMetric) : Evaluator σ := fun l iteration ms names => do
  let scores ← l.scoreEach e metric (ms.zip names)
  return String.ofList (Report.opening iteration ++ scores.flatMap (·.2))

/-- The report of an evaluator. -/
def evaluateBy (evaluator : Evaluator σ) (ms : List Matrix) (names : List String)
    (iteration : Int32) : LeaseM σ String := do
  checkNames ms names
  evaluator l iteration ms names

theorem evaluate_eq (ms : List Matrix) (names : List String) (iteration : Int32) :
    l.evaluate e ms names iteration = l.evaluateBy (nativeMetrics e) ms names iteration := rfl

theorem evaluateCustom_eq (ms : List Matrix) (names : List String) (iteration : Int32)
    (metric : CustomMetric) :
    l.evaluateCustom e ms names iteration metric =
      l.evaluateBy (customMetric e metric) ms names iteration := by
  simp only [evaluateCustom, evaluateCustomInto, evaluateBy, customMetric, bind_assoc, pure_bind]

end Lease

end BoostedTrees
