/-!
# Cutting text

Cutting at every mark, at the first and at the last one, and into lines.
-/

namespace BoostedTrees.Text

/-- The parts between the marks, one more than there are marks. -/
def splitOn (mark : Char) : List Char → List (List Char)
  | [] => [[]]
  | c :: cs =>
    if c = mark then [] :: splitOn mark cs
    else
      match splitOn mark cs with
      | [] => [[c]]
      | part :: parts => (c :: part) :: parts

theorem splitOn_ne_nil (mark : Char) (cs : List Char) : splitOn mark cs ≠ [] := by
  cases cs with
  | nil => simp [splitOn]
  | cons c cs =>
    simp only [splitOn]
    split
    · simp
    · split <;> simp

/-- Nothing is lost: the parts with marks between them are the text. -/
theorem intercalate_splitOn (mark : Char) (cs : List Char) :
    [mark].intercalate (splitOn mark cs) = cs := by
  induction cs with
  | nil => simp [splitOn, List.intercalate]
  | cons c cs ih =>
    simp only [splitOn]
    cases h : splitOn mark cs with
    | nil => exact absurd h (splitOn_ne_nil mark cs)
    | cons part parts =>
      rw [h] at ih
      split
      · next hc => subst hc; simpa [List.intercalate, List.intersperse] using ih
      · cases parts <;> simpa [List.intercalate, List.intersperse] using ih

/-- What stands before and after the first mark. -/
def cutFirst (mark : Char) : List Char → Option (List Char × List Char)
  | [] => none
  | c :: cs =>
    if c = mark then some ([], cs)
    else (cutFirst mark cs).map fun (before, after) => (c :: before, after)

/-- What stands before and after the last mark. -/
def cutLast (mark : Char) : List Char → Option (List Char × List Char)
  | [] => none
  | c :: cs =>
    match cutLast mark cs with
    | some (before, after) => some (c :: before, after)
    | none => if c = mark then some ([], cs) else none

/-- What stands after the first occurrence of a word. -/
def afterFirst (word : List Char) : List Char → Option (List Char)
  | [] => if word.isEmpty then some [] else none
  | c :: cs =>
    if word.isPrefixOf (c :: cs) then some ((c :: cs).drop word.length)
    else afterFirst word cs

/-- A line without the carriage return that stood before its line feed. -/
def dropReturn (line : List Char) : List Char :=
  if line.getLast? = some '\r' then line.dropLast else line

/-- The lines of a text. A line feed ends a line, together with one carriage return
before it; text after the last line feed is a line as it stands. -/
def lines (text : List Char) : List (List Char) :=
  let parts := splitOn '\n' text
  let last := parts.getLast?.getD []
  parts.dropLast.map dropReturn ++ if last.isEmpty then [] else [last]

end BoostedTrees.Text
