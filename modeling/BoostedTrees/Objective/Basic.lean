import BoostedTrees.Number.Text
import BoostedTrees.Engine.Error

/-!
# Objectives

An objective says what a model is trained for. It fixes how the outputs of the
trees, the margins, are turned into predictions, which labels it takes, and which
metric is reported unless others are asked for. Margins stand row after row, with
one entry for every output of a row.
-/

namespace BoostedTrees

inductive Objective where
  | squaredError
  /-- Regression on probabilities. -/
  | logistic
  | binaryLogistic
  /-- Like `binaryLogistic`, but predictions stay margins. -/
  | binaryMargin
  /-- One probability for every class. -/
  | classProbabilities
  /-- The most likely class. -/
  | mostLikelyClass
  /-- Order within query groups, learned from pairs. -/
  | pairwiseRank
deriving DecidableEq

namespace Objective

instance : Inhabited Objective := ⟨squaredError⟩

def name : Objective → String
  | squaredError => "reg:squarederror"
  | logistic => "reg:logistic"
  | binaryLogistic => "binary:logistic"
  | binaryMargin => "binary:logitraw"
  | classProbabilities => "multi:softprob"
  | mostLikelyClass => "multi:softmax"
  | pairwiseRank => "rank:pairwise"

/-- The objective of a name. Squared error has a second one. -/
def ofName : String → Except EngineError Objective
  | "reg:squarederror" => .ok squaredError
  | "reg:linear" => .ok squaredError
  | "reg:logistic" => .ok logistic
  | "binary:logistic" => .ok binaryLogistic
  | "binary:logitraw" => .ok binaryMargin
  | "multi:softprob" => .ok classProbabilities
  | "multi:softmax" => .ok mostLikelyClass
  | "rank:pairwise" => .ok pairwiseRank
  | other => .error (.unknownObjective other)

@[simp] theorem ofName_name (o : Objective) : ofName o.name = .ok o := by cases o <;> rfl

/-- Whether a row has an output for every class. -/
def isMulticlass : Objective → Bool
  | classProbabilities => true
  | mostLikelyClass => true
  | _ => false

/-- Whether labels and the base score are probabilities. -/
def isLogistic : Objective → Bool
  | logistic => true
  | binaryLogistic => true
  | binaryMargin => true
  | _ => false

/-! ## Transforms -/

def sigmoid (x : Single) : Single := 1 / (1 + (-x).exp)

/-- The exponentials of a row, scaled to sum to one. The largest margin is taken off
first, so none of them overflows. -/
def softmax (row : List Single) : List Single :=
  let largest := row.foldl Single.larger Single.negInfinity
  let powers := row.map fun v => (v - largest).exp
  let total := powers.foldl (· + ·) 0
  powers.map (· / total)

/-- The place of the largest number of a row, the first one on a tie; `0` where no
number is larger than negative infinity. -/
def argmax (row : List Single) : Nat :=
  (row.zipIdx.foldl (fun best (v, i) => if best.1 < v then (v, i) else best)
    (Single.negInfinity, 0)).2

/-- The first rows of a list that holds one row of a width after another. -/
def takeRows {α : Type} (width : Nat) : (count : Nat) → List α → List (List α)
  | 0, _ => []
  | count + 1, values => values.take width :: takeRows width count (values.drop width)

/-- Cuts a list into rows of a width, the last of which may be shorter. -/
def rowsOf {α : Type} (width : Nat) (values : List α) : List (List α) :=
  takeRows width ((values.length + width - 1) / width) values

/-- The predictions that metrics see: probabilities where the objective has them. -/
def evalTransform (o : Objective) (outputs : Nat) (margins : List Single) : List Single :=
  match o with
  | logistic => margins.map sigmoid
  | binaryLogistic => margins.map sigmoid
  | classProbabilities => (rowsOf (max outputs 1) margins).flatMap softmax
  | mostLikelyClass => (rowsOf (max outputs 1) margins).flatMap softmax
  | _ => margins

/-- The predictions that are returned: what metrics see, except that the most likely
class takes the place of a row of probabilities. -/
def outputTransform (o : Objective) (outputs : Nat) (margins : List Single) : List Single :=
  match o with
  | mostLikelyClass => (rowsOf (max outputs 1) margins).map fun row => Single.ofNat (argmax row)
  | _ => o.evalTransform outputs margins

/-! ## Base score and labels -/

/-- The margin that the base score stands for. Logistic objectives take it as a
probability strictly between zero and one. -/
def baseMargin (o : Objective) (baseScore : Single) : Except EngineError Single :=
  if o.isLogistic then
    if 0 < baseScore ∧ baseScore < 1 then .ok (baseScore / (1 - baseScore)).log
    else .error (.baseScoreNotProbability baseScore)
  else .ok baseScore

def isProbability (label : Single) : Bool := 0 ≤ label && label ≤ 1

/-- Whether a label is the number of a class. -/
def isClass (outputs : Nat) (label : Single) : Bool :=
  !(decide (label < 0)) && label.isWhole && label.toNatSaturating < outputs

/-- Checks that the objective takes the labels. -/
def checkLabels (o : Objective) (outputs : Nat) (labels : Array Single) : Except EngineError Unit :=
  if o.isLogistic then
    match labels.find? fun y => !isProbability y with
    | some y => .error (.labelNotProbability y)
    | none => .ok ()
  else if o.isMulticlass then
    if outputs < 2 then .error .tooFewClasses
    else
      match labels.find? fun y => !isClass outputs y with
      | some y => .error (.labelNotClass y)
      | none => .ok ()
  else .ok ()

end Objective

end BoostedTrees
