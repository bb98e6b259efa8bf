import BoostedTrees.Growth.Score
import BoostedTrees.Learner.Cache
import BoostedTrees.Settings.Config

/-!
# Learners

A learner is a model under training: its settings, its forest, what is known about
its features, and free attributes. Calls on a learner may fail; what a failing call
did to the learner before it failed stays.
-/

namespace BoostedTrees

structure Learner where
  settings : Settings
  attributes : Dictionary String
  featureNames : List String
  featureTypes : List String
  /-- The number of features; zero while it is not known. -/
  features : UInt64
  forest : Forest
  cache : MarginCache

/-- A call on a learner. -/
abbrev LearnerM := ExceptT EngineError (StateM Learner)

/-- The margins that rows start from. -/
inductive StartingMargins where
  /-- The same margin as often as there are outputs. -/
  | uniform (count : Nat) (margin : Single)
  /-- One for every output of every row. -/
  | given (margins : Array Single)
deriving DecidableEq

/-- The margins one after another. -/
def StartingMargins.toArray : StartingMargins → Array Single
  | uniform count margin => Array.replicate count margin
  | given margins => margins

/-- What the settings say about growing a tree. -/
def Settings.growthRules (s : Settings) : GrowthRules where
  learningRate := s.learningRate
  maxDepth := s.maxDepth.toNat
  lambda := s.lambda
  gamma := s.gamma
  minChildWeight := s.minChildWeight

namespace Learner

/-- A learner without trees that remembers sums for the given matrices. The widest
of them decides the number of features. -/
def create (cache : List Matrix) : Learner where
  settings := .initial
  attributes := .empty
  featureNames := []
  featureTypes := []
  features := cache.foldl (fun n m => max n (UInt64.ofNat m.columns)) 0
  forest := .empty
  cache := .ofMatrices cache

instance : Inhabited Learner := ⟨create []⟩

/-- The number of outputs of every row. -/
def outputs (l : Learner) : Nat := l.settings.outputs

def rounds (l : Learner) : UInt32 := l.forest.rounds l.outputs

/-- A part of a call that looks at the learner and may refuse. -/
def check {α : Type} (f : Learner → Except EngineError α) : LearnerM α := do
  match f (← get) with
  | .ok a => return a
  | .error e => throw e

/-! ## Settings and metadata -/

/-- The learner with other settings. What is remembered is for the number of outputs
that it was taken with, so another number empties the cache. -/
def withSettings (l : Learner) (s : Settings) : Learner :=
  if s.outputs = l.outputs then { l with settings := s }
  else { l with settings := s, cache := .empty }

def setParameter (key value : String) : LearnerM Unit := do
  let s ← check fun l => l.settings.set key value
  modify (·.withSettings s)

def setAttribute (key : String) (value? : Option String) : LearnerM Unit :=
  modify fun l =>
    { l with
      attributes := match value? with
        | some value => l.attributes.insert key value
        | none => l.attributes.erase key }

def isFeatureType (type : String) : Bool := ["i", "q", "int", "float", "c"].contains type

/-- Sets the names or the types of the features. Either list is empty or as long as
there are features, once their number is known. -/
def setFeatureInfo (field : String) (values : List String) : LearnerM Unit := do
  let l ← get
  if values ≠ [] ∧ l.features ≠ 0 ∧ values.length ≠ l.features.toNat then
    throw (.featureInfoLength field values.length l.features)
  match field with
  | "feature_name" => set { l with featureNames := values }
  | "feature_type" =>
    match values.find? fun t => !isFeatureType t with
    | some type => throw (.unknownFeatureType type)
    | none => set { l with featureTypes := values }
  | field => throw (.unknownFeatureField field)

def featureInfo (l : Learner) (field : String) : Except EngineError (List String) :=
  match field with
  | "feature_name" => .ok l.featureNames
  | "feature_type" => .ok l.featureTypes
  | field => .error (.unknownFeatureField field)

/-! ## Configuration -/

def loadConfig (text : String) : LearnerM Unit := do
  let s ← check fun l => l.settings.loadConfig text
  modify (·.withSettings s)

/-! ## Margins -/

/-- Refuses data with more columns than there are features. -/
def checkColumns (l : Learner) (columns : Nat) : Except EngineError Unit :=
  if l.features ≠ 0 ∧ l.features.toNat < columns then .error (.tooManyColumns columns l.features)
  else .ok ()

/-- The number of outputs of rows. -/
def outputCount (l : Learner) (rows : Nat) : Nat := entryCount rows l.outputs

/-- The margins that rows start from: those that are given, or the base score. -/
def startingMargins (l : Learner) (rows : Nat) (given : Array Single) :
    Except EngineError StartingMargins :=
  if given.isEmpty then
    (l.settings.objective.baseMargin l.settings.baseScore).map (.uniform (l.outputCount rows))
  else if given.size ≠ l.outputCount rows then
    .error (.baseMarginSize given.size (l.outputCount rows))
  else .ok (.given given)

/-- The sums of the outputs of all trees for a matrix. An entry that is remembered is
brought up to date; where there is none, one is added if that is asked for. -/
def treeSums (m : Matrix) (register : Bool) : StateM Learner (Array Single) := do
  let l ← get
  match l.cache.find? m.id with
  | some e =>
    let e := e.brought l.forest l.outputs m
    set { l with cache := l.cache.put e }
    return e.sums
  | none =>
    let e := RememberedSums.taken l.forest l.outputs m
    if register then set { l with cache := l.cache.withRoom.put e }
    return e.sums

/-- Adds the sums of the trees' outputs to the margins that rows start from. -/
def addMargins (base sums : Array Single) : Array Single := Array.zipWith (· + ·) base sums

/-- The margins of a matrix. -/
def margins (m : Matrix) (register : Bool) : LearnerM (Array Single) := do
  let start ← check fun l => l.startingMargins m.rows m.baseMargin
  return addMargins start.toArray (← treeSums m register)

end Learner

end BoostedTrees
