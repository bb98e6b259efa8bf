import BoostedTrees.Engine.Basic
import BoostedTrees.Files
import BoostedTrees.Learner.Evaluation
import BoostedTrees.Learner.Persistence
import BoostedTrees.Learner.Training

/-!
# The local engine

An engine that keeps its learners itself. Handles count up from one and are never
given out again; a request for a handle that is not kept is refused. Models and
feature maps are read from and written to the files of one directory.
-/

namespace BoostedTrees

/-- The state of the local engine. -/
structure Workshop where
  /-- The word of the next handle. -/
  next : UInt64
  learners : List (Handle × Learner)
  /-- How many handles were given out. -/
  created : Nat
  /-- How many handles were released. -/
  freed : Nat
  files : Files

namespace Workshop

def empty : Workshop := ⟨1, [], 0, 0, .empty⟩

variable (w : Workshop)

/-- How many handles are kept. -/
def live : Nat := w.learners.length

def learner? (h : Handle) : Option Learner := (w.learners.find? (·.1 = h)).map (·.2)

/-- Replaces the learner of a handle. -/
def setLearner (h : Handle) (l : Learner) : Workshop :=
  { w with learners := w.learners.map fun entry => if entry.1 = h then (h, l) else entry }

/-! ## Calls -/

def create (cache : List Matrix) : EngineM Workshop Handle := do
  let w ← get
  -- The counter moves on even if no handle is given out.
  set { w with next := w.next + 1 }
  match Handle.ofRaw? w.next with
  | none => throw .handlesExhausted
  | some h =>
    modify fun w =>
      { w with learners := (h, .create cache) :: w.learners, created := w.created + 1 }
    return h

def free (h : Handle) : EngineM Workshop Unit := do
  let w ← get
  match w.learner? h with
  | none => throw (.invalidHandle h)
  | some _ =>
    set { w with learners := w.learners.filter (·.1 ≠ h), freed := w.freed + 1 }

/-- A call on the learner of a handle. -/
def onLearner {α : Type} (h : Handle) (call : LearnerM α) : EngineM Workshop α := do
  match (← get).learner? h with
  | none => throw (.invalidHandle h)
  | some l =>
    let (result, l) := call.run l
    modify (·.setLearner h l)
    match result with
    | .ok a => return a
    | .error e => throw e

/-- A look at the learner of a handle. -/
def ofLearner {α : Type} (h : Handle) (f : Learner → Except EngineError α) : EngineM Workshop α :=
  onLearner h (Learner.check f)

/-- Loads the model of a file into the learner of a handle. -/
def loadFile (h : Handle) (path : String) : EngineM Workshop Unit := do
  let files := (← get).files
  onLearner h <|
    match files.read? path with
    | none => throw (.unreadableFile path)
    | some bytes => Learner.load bytes

/-- Saves the model of a handle to a file, in the format of its extension, or else
in the default one. -/
def saveFile (h : Handle) (path : String) : EngineM Workshop Unit := do
  let bytes ← ofLearner h (·.saveAs ((ModelFormat.ofPath? path).getD default))
  match (← get).files.write? path bytes with
  | none => throw (.unwritableFile path)
  | some files => modify fun w => { w with files }

/-- The feature map of a file, or the empty one where no file is named. -/
def featureMap (path? : Option String) : EngineM Workshop FeatureMap := do
  match path? with
  | none => return .empty
  | some path =>
    match ((← get).files.read? path).bind Text.ofUtf8? with
    | none => throw (.unreadableFeatureMap path)
    | some text => FeatureMap.ofText text

def answer (h : Handle) : (r : Request) → EngineM Workshop r.Reply
  | .setParameter key value => onLearner h (Learner.setParameter key value)
  | .getAttribute key => ofLearner h fun l => .ok (l.attributes.get? key)
  | .setAttribute key value? => onLearner h (Learner.setAttribute key value?)
  | .attributeNames => ofLearner h fun l => .ok l.attributes.keys
  | .setFeatureInfo field values => onLearner h (Learner.setFeatureInfo field values)
  | .featureInfo field => ofLearner h (·.featureInfo field)
  | .featureCount => ofLearner h fun l => .ok l.features
  | .roundCount => ofLearner h fun l => .ok l.rounds
  | .update iteration m => onLearner h (Learner.update iteration m)
  | .boost iteration m g => onLearner h (Learner.boost iteration m g)
  | .evaluate iteration ms names => onLearner h (Learner.evaluate iteration ms names)
  | .predict m mask limit => onLearner h (Learner.predict m mask limit)
  | .predictDense rows first last code baseMargin =>
    onLearner h (Learner.predictDense rows first last code (baseMargin.getD #[]))
  | .loadFile path => loadFile h path
  | .saveFile path => saveFile h path
  | .load bytes => onLearner h (Learner.load bytes)
  | .save format => ofLearner h (·.save format)
  | .dump mapPath? statistics format => do
    let map ← featureMap mapPath?
    ofLearner h (·.dump map statistics format)
  | .dumpNamed names statistics format =>
    ofLearner h (·.dump (.ofNames names) statistics format)
  | .config => ofLearner h fun l => .ok l.settings.config
  | .loadConfig text => onLearner h (Learner.loadConfig text)

/-- The engine that keeps its learners itself. -/
def engine : Engine Workshop where
  create := create
  free := free
  answer := answer

end Workshop

end BoostedTrees
