import BoostedTrees.Engine.Basic
import BoostedTrees.Grid
import BoostedTrees.Lease.Error
import BoostedTrees.Model.Format

/-!
# Leases

A lease owns one handle of an engine. Disposing of it releases the handle, once; from
then on every operation is refused without a call. Arguments that can be judged
without the engine are judged before any call.

A lease also carries a version, a tag that travels with the model when it is written
to a stream.
-/

namespace BoostedTrees

structure Lease where
  /-- The handle, until it is released. -/
  handle? : Option Handle
  version : Int32
deriving DecidableEq

/-- An operation that may use an engine with the given state. -/
abbrev LeaseM (σ : Type) := ExceptT LeaseError (StateM σ)

namespace Lease

variable {σ : Type} (e : Engine σ)

/-- A use of the engine as a part of an operation. -/
def native {α : Type} (use : EngineM σ α) : LeaseM σ α := fun s =>
  let (result, s) := use s
  (result.mapError LeaseError.native, s)

/-- What the engine's words lead to, without a call. -/
def judge {α : Type} (result : Except EngineError α) : LeaseM σ α :=
  match result with
  | .ok a => return a
  | .error err => throw (.native err)

/-- Refuses arguments. -/
def refuse {α : Type} (err : ArgumentError) : LeaseM σ α := throw (.contract err)

variable (l : Lease)

/-- A request about the model of the lease. -/
def ask (r : Request) : LeaseM σ r.Reply := do
  match l.handle? with
  | none => throw .disposed
  | some h => native (e.answer h r)

/-- Without a handle every request is refused, and the engine is not called. -/
theorem ask_of_isNone {l : Lease} (h : l.handle? = none) (r : Request) (s : σ) :
    l.ask e r s = (.error .disposed, s) := by
  simp only [ask, h]
  rfl

/-! ## Lifecycle -/

def isDisposed : Bool := l.handle?.isNone

/-- The lease without its handle. -/
def released : Lease := { l with handle? := none }

/-- Releases the handle, if it is still held. Whatever the engine answers, the lease
holds nothing afterwards. -/
def dispose : StateM σ (Except LeaseError Unit × Lease) := do
  match l.handle? with
  | none => return (.ok (), l)
  | some h => return (← (native (e.free h)).run, l.released)

/-- Releases the handle, if it is still held, whether or not the engine agrees. -/
def drop : StateM σ Unit := do
  let _ ← l.dispose e

/-- The lease if its setup succeeds; otherwise its handle is released and
the first error stays. -/
def orDispose (setup : LeaseM σ Unit) : LeaseM σ Lease := fun s =>
  match setup s with
  | (.ok (), s) => (.ok l, s)
  | (.error err, s) => (.error err, (l.dispose e s).2)

/-- A lease on a new model. -/
def fresh (cache : List Matrix) : LeaseM σ Lease := do
  return ⟨some (← native (e.create cache)), 0⟩

/-- A lease on a new model that a request has been made about. -/
def loaded (r : Request) : LeaseM σ Lease := do
  let l ← fresh e []
  l.orDispose e (discard (l.ask e r))

/-- A lease on the model of a file. -/
def ofFile (path : String) : LeaseM σ Lease := loaded e (.loadFile path)

/-- A lease on the model that bytes hold. -/
def ofBytes (bytes : List UInt8) : LeaseM σ Lease := loaded e (.load bytes)

/-! ## Parameters and attributes -/

def setParameter (key value : String) : LeaseM σ Unit := l.ask e (.setParameter key value)

/-- Sets parameters in order, up to the first that is refused. -/
def setParameters : List (String × String) → LeaseM σ Unit
  | [] => return ()
  | (key, value) :: rest => do
    l.setParameter e key value
    setParameters rest

/-- A lease on a new model with parameters set. -/
def create (parameters : List (String × String)) (cache : List Matrix) : LeaseM σ Lease := do
  let l ← fresh e cache
  l.orDispose e (l.setParameters e parameters)

def attribute? (key : String) : LeaseM σ (Option String) := l.ask e (.getAttribute key)

def setAttribute (key value : String) : LeaseM σ Unit := l.ask e (.setAttribute key (some value))

def removeAttribute (key : String) : LeaseM σ Unit := l.ask e (.setAttribute key none)

/-- Sets attributes in order, up to the first that is refused. -/
def setAttributes : List (String × String) → LeaseM σ Unit
  | [] => return ()
  | (key, value) :: rest => do
    l.setAttribute e key value
    setAttributes rest

/-- The attributes with the given names, added to those that were found. -/
def collectAttributes (found : Dictionary String) : List String → LeaseM σ (Dictionary String)
  | [] => return found
  | name :: rest => do
    match ← l.attribute? e name with
    | none => collectAttributes found rest
    | some value => collectAttributes (found.insert name value) rest

/-- All attributes: their names are asked for first, then every one of them. -/
def attributes : LeaseM σ (Dictionary String) := do
  l.collectAttributes e .empty (← l.ask e .attributeNames)

/-! ## Features and rounds -/

def featureNames : LeaseM σ (List String) := l.ask e (.featureInfo "feature_name")

def setFeatureNames (names : List String) : LeaseM σ Unit :=
  l.ask e (.setFeatureInfo "feature_name" names)

def featureTypes : LeaseM σ (List String) := l.ask e (.featureInfo "feature_type")

def setFeatureTypes (types : List String) : LeaseM σ Unit :=
  l.ask e (.setFeatureInfo "feature_type" types)

def featureCount : LeaseM σ UInt64 := l.ask e .featureCount

def roundCount : LeaseM σ UInt32 := l.ask e .roundCount

/-! ## Persistence -/

def saveFile (path : String) : LeaseM σ Unit := l.ask e (.saveFile path)

/-- The bytes of the model in a format. -/
def saveAs (format : ModelFormat) : LeaseM σ (List UInt8) := l.ask e (.save format.name)

/-- The bytes of the model in the default format. -/
def save : LeaseM σ (List UInt8) := l.saveAs e default

/-- Replaces the model by the one that bytes hold. -/
def load (bytes : List UInt8) : LeaseM σ Unit := l.ask e (.load bytes)

def config : LeaseM σ String := l.ask e .config

def loadConfig (text : String) : LeaseM σ Unit := l.ask e (.loadConfig text)

end Lease

end BoostedTrees
