import BoostedTrees.Dictionary
import BoostedTrees.Metric.Basic
import BoostedTrees.Number.Numeral
import BoostedTrees.Text.Blank

/-!
# Settings of a learner

Settings arrive as pairs of a name and a text. A text is read when it arrives, so
one that cannot be read or is out of range is refused and changes nothing. Names
that mean nothing are kept too, because every accepted text is written out again
when the configuration is saved.
-/

namespace BoostedTrees

structure Settings where
  learningRate : Single := Single.ofDecimal 3 (-1)
  /-- How deep trees grow; `0` sets no limit. -/
  maxDepth : UInt32 := 6
  /-- The penalty on large leaf values. -/
  lambda : Single := 1
  /-- The gain that a split must exceed. -/
  gamma : Single := 0
  /-- The least sum of second derivatives on either side of a split. -/
  minChildWeight : Single := 1
  /-- The share of the rows that a tree is grown on. -/
  subsample : Single := 1
  seed : UInt64 := 0
  baseScore : Single := Single.ofDecimal 5 (-1)
  numClass : UInt32 := 0
  objective : Objective := .squaredError
  /-- The metrics that are reported, in the order they were asked for. -/
  metrics : List Metric := []
  threads : Int32 := 0
  verbosity : UInt32 := 1
  validateParameters : Bool := false
  /-- The last text of every name that was accepted, metrics aside. -/
  given : Dictionary String := .empty

namespace Settings

/-- The settings before any is given. -/
def initial : Settings := {}

instance : Inhabited Settings := ⟨initial⟩

/-! ## Reading texts -/

/-- What a text stands for, blanks around it aside. -/
def readValue {α : Type} (read? : List Char → Option α) (key value : String) :
    Except EngineError α :=
  match read? (Text.trim value.toList) with
  | some x => .ok x
  | none => .error (.parameterValue key value)

def readWord : (key value : String) → Except EngineError UInt32 :=
  readValue fun cs => (natOfText? 0x100000000 cs).map UInt32.ofNat

def readSeed : (key value : String) → Except EngineError UInt64 :=
  readValue fun cs => (natOfText? 0x10000000000000000 cs).map UInt64.ofNat

def readThreads : (key value : String) → Except EngineError Int32 :=
  readValue fun cs => (intOfText? 0x80000000 cs).map Int32.ofInt

/-- The texts for yes and no. -/
def boolOfText? (cs : List Char) : Option Bool :=
  match String.ofList cs with
  | "1" => some true
  | "true" => some true
  | "True" => some true
  | "0" => some false
  | "false" => some false
  | "False" => some false
  | _ => none

/-- A number between two bounds, which it may be equal to. -/
def readBetween (least greatest : Single) (key value : String) : Except EngineError Single := do
  let x ← readValue Single.ofText? key value
  if least ≤ x ∧ x ≤ greatest then return x
  else .error (.parameterRange key least greatest x)

/-- A finite number that is not negative. -/
def readSize : (key value : String) → Except EngineError Single := readBetween 0 Single.largest

/-! ## Setting -/

/-- The name that a value is kept under, by which synonyms share one value. -/
def keptName : String → String
  | "learning_rate" => "eta"
  | "reg_lambda" => "lambda"
  | "min_split_loss" => "gamma"
  | key => key

/-- Asks for a metric, unless it is asked for already. -/
def addMetric (s : Settings) (metric : Metric) : Settings :=
  if metric ∈ s.metrics then s else { s with metrics := s.metrics ++ [metric] }

/-- The settings with the meaning of a text taken over. A name without a meaning
changes nothing here. -/
def assign (s : Settings) (key value : String) : Except EngineError Settings :=
  match keptName key with
  | "eta" => do return { s with learningRate := ← readSize key value }
  | "max_depth" => do return { s with maxDepth := ← readWord key value }
  | "lambda" => do return { s with lambda := ← readSize key value }
  | "gamma" => do return { s with gamma := ← readSize key value }
  | "min_child_weight" => do return { s with minChildWeight := ← readSize key value }
  | "subsample" => do
    return { s with subsample := ← readBetween Single.epsilon 1 key value }
  | "seed" => do return { s with seed := ← readSeed key value }
  | "base_score" => do return { s with baseScore := ← readValue Single.ofText? key value }
  | "num_class" => do return { s with numClass := ← readWord key value }
  | "objective" => do return { s with objective := ← Objective.ofName value }
  | "nthread" => do return { s with threads := ← readThreads key value }
  | "verbosity" => do return { s with verbosity := ← readWord key value }
  | "validate_parameters" => do
    return { s with validateParameters := ← readValue boolOfText? key value }
  | _ => .ok s

/-- The name under which metrics are asked for, one after another. -/
def metricName : String := "eval_metric"

/-- The settings with one more given. The empty name is passed over, and names
must not contain blanks. -/
def set (s : Settings) (key value : String) : Except EngineError Settings :=
  if key.isEmpty then .ok s
  else if key.toList.any Text.isBlank then .error (.parameterName key)
  else if key = metricName then do return s.addMetric (← Metric.ofName value)
  else do
    -- A text that is refused is not kept either.
    let s ← s.assign key value
    return { s with given := s.given.insert (keptName key) value }

/-- The settings with several more given, in order; none of them is if one is refused. -/
def setAll (s : Settings) : List (String × String) → Except EngineError Settings
  | [] => .ok s
  | (key, value) :: rest => do (← s.set key value).setAll rest

/-! ## What follows from settings -/

/-- The number of outputs of every row: one for each class where the objective has
classes. -/
def outputs (s : Settings) : Nat :=
  if s.objective.isMulticlass then max s.numClass.toNat 1 else 1

theorem outputs_pos (s : Settings) : 0 < s.outputs := by
  unfold outputs
  split <;> omega

/-- The metrics that are reported. -/
def reportedMetrics (s : Settings) : List Metric :=
  if s.metrics.isEmpty then [s.objective.defaultMetric] else s.metrics

end Settings

end BoostedTrees
