import BoostedTrees.ArgumentError
import BoostedTrees.Engine.Error
import BoostedTrees.Dictionary
import BoostedTrees.Number.Numeral
import BoostedTrees.Text.Blank
import BoostedTrees.Text.Split
import BoostedTrees.Tree.DumpNode

/-!
# Feature importance

How much a model uses each feature, computed from its dumps: the number of splits,
or the sum or mean over the splits of a statistic. Features are known by the labels
that the dump shows. Text and structured dumps are read by different rules, but both
end in the same tally, to which the splits are added in preorder, tree after tree.
-/

namespace BoostedTrees

inductive Importance where
  /-- The number of splits. -/
  | weight
  /-- The mean gain of the splits. -/
  | gain
  /-- The mean cover of the splits. -/
  | cover
  | totalGain
  | totalCover
deriving DecidableEq

/-- The statistics that a dump shows for a split. -/
inductive Statistic where
  | gain
  | cover
deriving DecidableEq

def Statistic.name : Statistic → String
  | gain => "gain"
  | cover => "cover"

namespace Importance

def name : Importance → String
  | weight => "weight"
  | gain => "gain"
  | cover => "cover"
  | totalGain => "total_gain"
  | totalCover => "total_cover"

def ofName? : String → Option Importance
  | "weight" => some weight
  | "gain" => some gain
  | "cover" => some cover
  | "total_gain" => some totalGain
  | "total_cover" => some totalCover
  | _ => none

/-- The importance with a name; the arguments are wrong if there is none. -/
def ofName (text : String) : Except ArgumentError Importance :=
  match ofName? text with
  | some kind => .ok kind
  | none => .error (.unknownImportance text)

/-- The statistic that is summed. -/
def statistic? : Importance → Option Statistic
  | weight => none
  | gain => some .gain
  | totalGain => some .gain
  | cover => some .cover
  | totalCover => some .cover

/-- Whether the sum is divided by the number of splits. -/
def isMean : Importance → Bool
  | gain => true
  | cover => true
  | _ => false

end Importance

/-- What was counted and summed for one feature. -/
structure Tally where
  count : Nat
  sum : Double

namespace Tally

/-- The tallies with one more split on a feature. -/
def add (tallies : Dictionary Tally) (feature : String) (value : Double) : Dictionary Tally :=
  let t := (tallies.get? feature).getD ⟨0, 0⟩
  tallies.insert feature ⟨t.count + 1, t.sum + value⟩

/-- The score of a tally. -/
def score (kind : Importance) (t : Tally) : Double :=
  if kind = .weight then Double.ofNat t.count
  else if kind.isMean then t.sum / Double.ofNat t.count
  else t.sum

end Tally

namespace Dictionary

/-- The dictionary with every value replaced by a function of it. -/
def map {β γ : Type} (f : β → γ) (d : Dictionary β) : Dictionary γ where
  entries := d.entries.map fun (k, v) => (k, f v)
  sorted := List.pairwise_map.mpr d.sorted

end Dictionary

namespace Importance

/-- The scores of tallies. -/
def scores (kind : Importance) (tallies : Dictionary Tally) : Dictionary Double :=
  tallies.map (Tally.score kind)

/-! ## Text dumps -/

/-- The feature of a line that shows a split: what stands in the first brackets, up
to the condition. -/
def splitFeature? (line : List Char) : Option (List Char) := do
  let (_, rest) ← Text.cutFirst '[' line
  let (inner, _) ← Text.cutFirst ']' rest
  match Text.cutFirst '<' inner with
  | some (name, _) => return name
  | none => return inner

/-- The statistic that a line shows: what follows its first mention up to a comma. -/
def lineStatistic (line : List Char) (s : Statistic) : Except EngineError Double :=
  match Text.afterFirst (s.name.toList ++ ['=']) line with
  | none => .error (.lineWithoutStatistic s.name (String.ofList line))
  | some rest =>
    let value := Text.trim (rest.takeWhile (· ≠ ','))
    match Double.ofText? value with
    | some x => .ok x
    | none => .error (.invalidStatistic s.name (String.ofList value))

/-- Adds the split of a line, if it shows one. -/
def addLine (kind : Importance) (tallies : Dictionary Tally) (line : List Char) :
    Except EngineError (Dictionary Tally) :=
  match splitFeature? line with
  | none => .ok tallies
  | some feature => do
    let value ← match kind.statistic? with
      | some s => lineStatistic line s
      | none => .ok 0
    return Tally.add tallies (String.ofList feature) value

/-- The lines of all dumps. -/
def dumpLines (trees : List String) : List (List Char) :=
  trees.flatMap fun tree => Text.lines tree.toList

/-- Importance from text dumps; means and sums need dumps with statistics. -/
def ofTextDump (trees : List String) (kind : Importance) :
    Except EngineError (Dictionary Double) := do
  return kind.scores (← (dumpLines trees).foldlM (addLine kind) .empty)

/-- The number of splits of every feature, from text dumps. -/
def splitCounts (trees : List String) : Dictionary Nat :=
  (dumpLines trees).foldl (fun counts line =>
    match splitFeature? line with
    | none => counts
    | some feature =>
      let key := String.ofList feature
      counts.insert key ((counts.get? key).getD 0 + 1)) .empty

/-! ## Structured dumps -/

/-- The statistic that a split adds: nothing for a count. -/
def nodeStatistic (kind : Importance) (f : DumpFields) : Except EngineError Double :=
  let value := match kind.statistic? with
    | some .gain => f.gain
    | some .cover => f.cover
    | none => some 0
  match value with
  | some x => .ok x
  | none => .error (.nodeWithoutStatistic f.id kind.name)

/-- Adds the split of a node, if it is one. -/
def addFields (kind : Importance) (tallies : Dictionary Tally) (f : DumpFields) :
    Except EngineError (Dictionary Tally) :=
  match f.split with
  | none => .ok tallies
  | some feature => do return Tally.add tallies feature (← kind.nodeStatistic f)

mutual

/-- Adds the splits of a node and of those below it, in preorder. -/
def addNode (kind : Importance) (tallies : Dictionary Tally) :
    DumpNode → Except EngineError (Dictionary Tally)
  | .node f children => do
    let tallies ← kind.addFields tallies f
    addNodes kind tallies children

def addNodes (kind : Importance) (tallies : Dictionary Tally) :
    List DumpNode → Except EngineError (Dictionary Tally)
  | [] => .ok tallies
  | child :: rest => do
    let tallies ← addNode kind tallies child
    addNodes kind tallies rest

end

/-- Adds the splits of one structured dump. -/
def addDump (kind : Importance) (tallies : Dictionary Tally) (tree : String) :
    Except EngineError (Dictionary Tally) :=
  match DumpNode.ofText? tree with
  | none => .error .malformedDump
  | some root => kind.addNode tallies root

/-- Importance from structured dumps. -/
def ofJsonDump (trees : List String) (kind : Importance) :
    Except EngineError (Dictionary Double) := do
  return kind.scores (← trees.foldlM kind.addDump .empty)

end Importance

end BoostedTrees
