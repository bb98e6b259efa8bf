import BoostedTrees.ArgumentError
import BoostedTrees.Engine.Error

/-!
# Why an operation on a leased model fails
-/

namespace BoostedTrees

/-- Why a model does not fit its frame. -/
inductive FrameError where
  | oversized (length : Nat)
  | endsEarly (got expected : Nat)
deriving DecidableEq

def FrameError.message : FrameError → String
  | .oversized length => s!"model of {length} bytes does not fit a u32 frame"
  | .endsEarly got expected => s!"stream ended after {got} of {expected} model bytes"

inductive LeaseError where
  /-- The engine refused a call. -/
  | native (error : EngineError)
  /-- The arguments are wrong; the engine was not called. -/
  | contract (error : ArgumentError)
  | serialization (error : FrameError)
  /-- The stream ended before a whole word was read. -/
  | streamEnded
  /-- The handle has been released. -/
  | disposed
deriving DecidableEq

namespace LeaseError

def message : LeaseError → String
  | native error => "native error: " ++ error.message
  | contract error => "invalid argument: " ++ error.message
  | serialization error => "serialization error: " ++ error.message
  | streamEnded => "I/O error: failed to fill whole buffer"
  | disposed => "booster has been disposed"

/-- The message of the engine, where the engine refused a call. -/
def nativeMessage? : LeaseError → Option String
  | native error => some error.message
  | _ => none

end LeaseError

end BoostedTrees
