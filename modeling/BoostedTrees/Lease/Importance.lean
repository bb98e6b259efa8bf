import BoostedTrees.Importance
import BoostedTrees.Lease.Basic
import BoostedTrees.Tree.Dump

/-!
# Dumps and importance through a lease

Dumps name features by a feature map in a file or by a list of names. Importance is
taken from structured dumps, or from text dumps where the engine gives no other.
-/

namespace BoostedTrees

/-- Where a dump takes the names of features from. -/
inductive Naming where
  /-- A feature map in a file, if one is named. -/
  | file (path? : Option String)
  | names (names : List String)
deriving DecidableEq

namespace Lease

variable {σ : Type} (e : Engine σ) (l : Lease) (naming : Naming)

/-- The dumps of all trees. -/
def dump (statistics : Bool) (format : DumpFormat) : LeaseM σ (List String) :=
  match naming with
  | .file path? => l.ask e (.dump path? statistics format.name)
  | .names names => l.ask e (.dumpNamed names statistics format.name)

/-- The number of splits of every feature. -/
def splitCounts : LeaseM σ (Dictionary Nat) := do
  return Importance.splitCounts (← l.dump e naming false .text)

/-- The dumps that importance is taken from: structured ones, or text dumps if the
engine refuses to give these. -/
def statisticsDump : LeaseM σ (DumpFormat × List String) := fun s =>
  match l.dump e naming true .json s with
  | (.ok trees, s) => (.ok (.json, trees), s)
  -- Any refusal of the engine counts, whatever its cause.
  | (.error (.native _), s) =>
    match l.dump e naming true .text s with
    | (.ok trees, s) => (.ok (.text, trees), s)
    | (.error err, s) => (.error err, s)
  | (.error err, s) => (.error err, s)

/-- The importance of every feature, of the kind with the given name. -/
def importance (kind : String) : LeaseM σ (Dictionary Double) := do
  match Importance.ofName kind with
  | .error err => refuse err
  | .ok kind =>
    match ← l.statisticsDump e naming with
    | (.json, trees) => judge (Importance.ofJsonDump trees kind)
    | (.text, trees) => judge (Importance.ofTextDump trees kind)

end Lease

end BoostedTrees
