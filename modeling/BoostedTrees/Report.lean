import BoostedTrees.Number.Text
import BoostedTrees.Number.Numeral
import BoostedTrees.Text.Blank
import BoostedTrees.Text.Split
import BoostedTrees.Engine.Error

/-!
# Evaluation reports

A report is the number of a round in brackets and one entry for every dataset and
metric: a tab, the names joined by a hyphen, a colon and the value with six decimal
places. Reading a report takes what follows the last colon of every entry, so names
may hold colons, but no tabs.
-/

namespace BoostedTrees.Report

/-- The start of the report on a round. -/
def opening (iteration : Int32) : List Char :=
  '[' :: (withSign (iteration < 0) (Nat.toDigits 10 iteration.toInt.natAbs) ++ [']'])

/-- One entry of a report. -/
def entry (name metric : List Char) (value : Double) : List Char :=
  '\t' :: (name ++ '-' :: (metric ++ ':' :: value.fixedChars))

/-- The value of an entry; a NaN may have any case and keeps its sign. -/
def value? (text : List Char) : Option Single := Single.ofText? text

/-- The value that one entry reports. -/
def parseEntry (entry : List Char) : Except EngineError Single :=
  match Text.cutLast ':' entry with
  | none => .error (.malformedReportEntry (String.ofList entry))
  | some (_, text) =>
    match value? (Text.trim text) with
    | none => .error (.invalidMetricValue (String.ofList text))
    | some x => .ok x

/-- The values of all entries of a report, in order. -/
def parse (report : List Char) : Except EngineError (List Single) :=
  ((Text.splitOn '\t' report).drop 1).mapM parseEntry

end BoostedTrees.Report
