/-!
# Why arguments are refused before any call

Causes that are found by looking at the arguments alone.
-/

namespace BoostedTrees

inductive ArgumentError where
  /-- The number of values of a matrix does not fit a word. -/
  | shapeOverflow (rows columns : Nat)
  /-- The sides of a matrix without values do not fit a signed word together. -/
  | shapeTooLarge
  | bufferSize (length rows columns : Nat)
  | unknownModelFormat (name : String)
  | unknownDumpFormat (name : String)
  | unknownImportance (name : String)
  | unknownPrediction (name : String)
  | unknownPredictionCode (code : Int32)
  | gradientLengths (gradients hessians : Nat)
  | roundRangeLength (length : Nat)
  | denseSize (length rows columns : Nat)
  | matrixNames (matrices names : Nat)
deriving DecidableEq

def ArgumentError.message : ArgumentError → String
  | .shapeOverflow rows columns => s!"matrix shape {rows}x{columns} overflows"
  | .shapeTooLarge => "ShapeError/Overflow: arithmetic overflow"
  | .bufferSize length rows columns =>
    let expected := rows * columns
    s!"dense buffer has {length} values, expected {rows}x{columns} = {expected}"
  | .unknownModelFormat name =>
    s!"unknown model format '{name}', expected one of: json, ubj, deprecated"
  | .unknownDumpFormat name => s!"unknown dump format '{name}', expected 'text' or 'json'"
  | .unknownImportance name =>
    s!"unknown importance type '{name}', expected one of weight, gain, cover, total_gain, total_cover"
  | .unknownPrediction name =>
    s!"unknown prediction type '{name}', expected 'value' or 'margin'"
  | .unknownPredictionCode code =>
    s!"unknown prediction type {code}, expected 0 (value) or 1 (margin)"
  | .gradientLengths gradients hessians =>
    s!"gradient and hessian lengths differ: {gradients} vs {hessians}"
  | .roundRangeLength length =>
    s!"iteration range must have two elements [begin, end), got {length}"
  | .denseSize length rows columns =>
    s!"dense input has {length} values, expected {rows} x {columns}"
  | .matrixNames matrices names => s!"got {matrices} evaluation matrices but {names} names"

end BoostedTrees
