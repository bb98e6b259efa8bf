import BoostedTrees.Engine.Error
import BoostedTrees.Number.Numeral
import BoostedTrees.Text.Blank
import BoostedTrees.Text.Split

/-!
# Feature maps

Names and kinds of features by which dumps label splits. As text, a feature map has
a line for every feature with its index, its name and its kind, separated by tabs;
the indices count up from zero. Blank lines are passed over, but they count in the
numbers of lines that errors name.
-/

namespace BoostedTrees

/-- How a split on a feature is labelled. -/
inductive FeatureKind where
  /-- Present or absent: the label has no condition. -/
  | indicator
  | quantitative
  /-- Whole numbers: the condition is rounded up. -/
  | integer
  | float
deriving DecidableEq

def FeatureKind.ofName? : String → Option FeatureKind
  | "i" => some indicator
  | "q" => some quantitative
  | "int" => some integer
  | "float" => some float
  | _ => none

structure FeatureMap where
  names : List String
  kinds : List FeatureKind

namespace FeatureMap

/-- The map that names no feature. -/
def empty : FeatureMap := ⟨[], []⟩

/-- The map with names alone. -/
def ofNames (names : List String) : FeatureMap := ⟨names, []⟩

/-- The map with the feature of one more line. -/
def addLine (map : FeatureMap) (line : List Char) (number : Nat) : Except EngineError FeatureMap :=
  if (Text.trim line).isEmpty then .ok map
  else
    match Text.splitOn '\t' line with
    | [index, name, kind] =>
      match natOfText? 0x10000000000000000 (Text.trim index) with
      | none => .error (.featureMapIndex (String.ofList index))
      | some i =>
        if i ≠ map.names.length then .error (.featureMapOrder i number)
        else
          match FeatureKind.ofName? (String.ofList (Text.trim kind)) with
          | none => .error (.featureMapType (String.ofList kind))
          | some k => .ok ⟨map.names ++ [String.ofList name], map.kinds ++ [k]⟩
    | _ => .error (.featureMapLine number)

/-- The map of lines that start with the given number. -/
def ofLines (map : FeatureMap) : (number : Nat) → List (List Char) → Except EngineError FeatureMap
  | _, [] => .ok map
  | number, line :: rest => do
    let map ← map.addLine line number
    map.ofLines (number + 1) rest

/-- The map that a text holds. -/
def ofText (text : String) : Except EngineError FeatureMap := empty.ofLines 1 (Text.lines text.toList)

/-- The name of a feature; by default an `f` and its index. -/
def name (map : FeatureMap) (feature : UInt32) : String :=
  map.names.getD feature.toNat ("f" ++ toString feature.toNat)

/-- The kind of a feature, quantitative by default. -/
def kind (map : FeatureMap) (feature : UInt32) : FeatureKind :=
  map.kinds.getD feature.toNat .quantitative

/-- The label of a split: the name, and the condition unless the kind has none. -/
def label (map : FeatureMap) (feature : UInt32) (condition : Single) : List Char :=
  let name := (map.name feature).toList
  match map.kind feature with
  | .indicator => name
  | .integer =>
    let n := condition.ceilSaturating
    name ++ '<' :: withSign (n < 0) (Nat.toDigits 10 n.natAbs)
  | _ => name ++ '<' :: condition.chars

end FeatureMap

end BoostedTrees
