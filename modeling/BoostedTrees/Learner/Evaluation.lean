import BoostedTrees.Learner.Basic
import BoostedTrees.Report

/-!
# Evaluation

A learner scores its predictions for named matrices with the metrics that it
reports, matrix by matrix.
-/

namespace BoostedTrees

namespace Learner

/-- The entries of the metrics for predictions. -/
def scoreEntries (outputs : Nat) (m : Matrix) (name : String) (predictions : Array Single) :
    List Metric → Except EngineError (List Char)
  | [] => .ok []
  | metric :: rest => do
    let value ← metric.score outputs m predictions
    return Report.entry name.toList metric.name.toList value ++
      (← scoreEntries outputs m name predictions rest)

/-- The predictions for a matrix that metrics score. -/
def scoredPredictions (m : Matrix) : LearnerM (Array Single) := do
  let margins ← margins m false
  let l ← get
  return (l.settings.objective.evalTransform l.outputs margins.toList).toArray

/-- The entries for named matrices. -/
def evaluateEach : List (Matrix × String) → LearnerM (List Char)
  | [] => return []
  | (m, name) :: rest => do
    let predictions ← scoredPredictions m
    let entries ← check fun l =>
      scoreEntries l.outputs m name predictions l.settings.reportedMetrics
    return entries ++ (← evaluateEach rest)

/-- The report on a round for matrices and as many names. All matrices are checked
before any of them is scored. -/
def evaluate (iteration : Int32) (ms : List Matrix) (names : List String) : LearnerM String := do
  if ms.length ≠ names.length then throw (.matrixNames ms.length names.length)
  check fun l => ms.forM (·.checkMetadata l.outputs)
  return String.ofList (Report.opening iteration ++ (← evaluateEach (ms.zip names)))

end Learner

end BoostedTrees
