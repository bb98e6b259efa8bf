import BoostedTrees.ArgumentError
import BoostedTrees.Tree.Basic
import BoostedTrees.Tree.DumpNode
import BoostedTrees.Tree.FeatureMap

/-!
# Dumps of trees

A text dump has a line for every node in preorder, indented by its depth in tabs: a
split with its label and children, a leaf with its value, and gain and cover where
statistics are asked for. A structured dump nests the same nodes.
-/

namespace BoostedTrees

inductive DumpFormat where
  | text
  | json
deriving DecidableEq

namespace DumpFormat

instance : Inhabited DumpFormat := ⟨text⟩

def name : DumpFormat → String
  | text => "text"
  | json => "json"

def ofName? : String → Option DumpFormat
  | "text" => some text
  | "json" => some json
  | _ => none

/-- The format of a name that is given as an argument. -/
def ofName (name : String) : Except ArgumentError DumpFormat :=
  match ofName? name with
  | some format => .ok format
  | none => .error (.unknownDumpFormat name)

end DumpFormat

namespace Tree

variable (t : Tree) (map : FeatureMap) (statistics : Bool)

/-- A name and the text of its value. -/
def assignment (name : String) (value : List Char) : List Char := name.toList ++ '=' :: value

/-- The line of a node, without its indentation. -/
def dumpLine (i : Nat) : List Char :=
  let n := t.node i
  let number (k : Nat) := Nat.toDigits 10 k
  let comma (part : List Char) := ',' :: part
  match n.children with
  | none =>
    number i ++ ':' :: assignment "leaf" n.value.chars ++
      if statistics then comma (assignment "cover" n.cover.chars) else []
  | some (left, right) =>
    number i ++ [':', '['] ++ map.label n.feature n.threshold ++ [']', ' '] ++
      assignment "yes" (number left) ++ comma (assignment "no" (number right)) ++
      comma (assignment "missing" (number ((n.missingChild?).getD 0))) ++
      if statistics then
        comma (assignment "gain" n.gain.chars) ++ comma (assignment "cover" n.cover.chars)
      else []

/-- The text dump. -/
def dumpText : String :=
  String.ofList (t.outline.flatMap fun (i, depth) =>
    List.replicate depth '\t' ++ t.dumpLine map statistics i ++ ['\n'])

/-- The structured dump of what is below a node. -/
def dumpNodeFrom : (fuel : Nat) → (depth : Nat) → (i : Nat) → DumpNode
  | fuel, depth, i =>
    let n := t.node i
    let statistic (x : Single) : Option Double := if statistics then some x.toDouble else none
    let word (k : Nat) : UInt32 := UInt32.ofNat k
    match n.children, fuel with
    | some (left, right), fuel + 1 =>
      .node {
        id := word i
        depth := some (word depth)
        split := some (map.name n.feature)
        splitCondition := some n.threshold
        yes := some (word left)
        no := some (word right)
        missing := n.missingChild?.map word
        gain := statistic n.gain
        cover := statistic n.cover
        leaf := none }
        [dumpNodeFrom fuel (depth + 1) left, dumpNodeFrom fuel (depth + 1) right]
    | _, _ =>
      .node {
        id := word i
        depth := none
        split := none
        splitCondition := none
        yes := none
        no := none
        missing := none
        gain := none
        cover := statistic n.cover
        leaf := some n.value }
        []

/-- The structured dump. -/
def dumpNode : DumpNode := t.dumpNodeFrom map statistics t.size 0 0

/-- The dump in a format. -/
def dump (format : DumpFormat) : String :=
  match format with
  | .text => t.dumpText map statistics
  | .json => String.ofList (t.dumpNode map statistics).toJson

end Tree

end BoostedTrees
