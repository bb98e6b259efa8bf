import BoostedTrees.ArgumentError
import BoostedTrees.Number.Single

/-!
# Feature matrices

A matrix holds one row of feature values per sample, a NaN where a value is missing.
Labels, weights, query groups and starting margins are kept beside the features; a
matrix takes them as they are, and the operations that use them check them.

Every matrix has a number of its own, by which an engine knows it again.

Rows may also come without a matrix, and there may be many more of them than there are
values: a row without columns takes no place. So nothing here lists rows before they
are known to be needed.
-/

namespace BoostedTrees

/-! ## Sizes -/

/-- Sizes are words, so they stay below this number. -/
def sizeBound : Nat := 0x10000000000000000

/-- The number of entries of rows that have `width` entries each. A number that does
not fit a word loses its high bits. -/
def entryCount (rows width : Nat) : Nat := rows * width % sizeBound

theorem entryCount_of_lt {rows width : Nat} (h : rows * width < sizeBound) :
    entryCount rows width = rows * width := Nat.mod_eq_of_lt h

/-- How many of some rows or columns training goes through. It numbers them with words of
thirty-two bits, so a number that does not fit one loses its high bits. -/
def lowWord (count : Nat) : Nat := (UInt32.ofNat count).toNat

theorem lowWord_of_lt {count : Nat} (h : count < 0x100000000) : lowWord count = count :=
  Nat.mod_eq_of_lt h

/-- The number of rows of `width` entries that the given number of entries needs, the
last of which may not be full. -/
def rowsNeeded (width entries : Nat) : Nat := (entries + width - 1) / width

/-- As many entries as fill whole rows need just these rows. -/
theorem rowsNeeded_mul {width : Nat} (h : 0 < width) (rows : Nat) :
    rowsNeeded width (rows * width) = rows := by
  rw [rowsNeeded, Nat.add_sub_assoc h, Nat.mul_comm, Nat.mul_add_div h,
    Nat.div_eq_of_lt (Nat.sub_lt h Nat.one_pos), Nat.add_zero]

/-! ## Rows -/

/-- Rows of feature values, which stand one after another. -/
structure Rows where
  count : Nat
  columns : Nat
  values : Array Single
deriving DecidableEq

namespace Rows

variable (r : Rows)

/-- The values of a row. -/
def row (i : Nat) : Array Single := r.values.extract (i * r.columns) ((i + 1) * r.columns)

/-- The `width` entries of every row, row after row. Where rows have none, it does not matter
how many rows there are. -/
def entries {α : Type} (width : Nat) (entriesOf : Nat → List α) : List α :=
  if width = 0 then [] else (List.range r.count).flatMap entriesOf

end Rows

/-! ## Matrices -/

structure Matrix where
  id : Nat
  rows : Nat
  columns : Nat
  /-- The feature values, row after row. -/
  values : Array Single
  labels : Array Single
  weights : Array Single
  /-- The sizes of the query groups, in row order. -/
  groups : List UInt32
  /-- The starting margins, row after row. -/
  baseMargin : Array Single
  size_values : values.size = rows * columns

/-- Whether a value counts as missing beside a marker for missing values. -/
def isMissing (marker value : Single) : Bool := value.isNaN || value.sameNumber marker

namespace Matrix

/-- The number of values of a shape, unless it does not fit a word. -/
def cells? (rows columns : Nat) : Option Nat :=
  if rows * columns < sizeBound then some (rows * columns) else none

/-- The sides of a shape that are not zero must fit a signed word together. -/
def sidesFit (rows columns : Nat) : Bool := max rows 1 * max columns 1 < 0x8000000000000000

/-- The matrix with the given rows and nothing beside them. -/
def ofRows (id rows columns : Nat) (values : Array Single) : Except ArgumentError Matrix :=
  if h : values.size = rows * columns then
    if sidesFit rows columns then
      .ok ⟨id, rows, columns, values, #[], #[], [], #[], h⟩
    else .error .shapeTooLarge
  else .error (.bufferSize values.size rows columns)

/-- The matrix of a row-major buffer, in which a marker stands for missing values. -/
def ofDense (id : Nat) (data : Array Single) (rows columns : Nat) (marker : Single) :
    Except ArgumentError Matrix :=
  match cells? rows columns with
  | none => .error (.shapeOverflow rows columns)
  | some _ => ofRows id rows columns (data.map fun v => if isMissing marker v then Single.nan else v)

/-- The matrix of a column-major buffer. -/
def ofColumns (id : Nat) (data : Array Single) (rows columns : Nat) : Except ArgumentError Matrix :=
  if data.size = rows * columns then
    ofRows id rows columns
      ((Array.range (rows * columns)).map fun k =>
        -- The place `k` of the row-major order is row `k / columns`, column `k % columns`.
        data.getD (k % columns * rows + k / columns) Single.nan)
  else .error (.bufferSize data.size rows columns)

variable (m : Matrix)

/-- The value of a row in a column. -/
def value (row column : Nat) : Single := m.values.getD (row * m.columns + column) Single.nan

/-- The rows without what stands beside them. -/
def toRows : Rows := ⟨m.rows, m.columns, m.values⟩

/-- The values of a row. -/
def row (i : Nat) : Array Single := m.toRows.row i

/-- The same matrix under another number. -/
def withId (id : Nat) : Matrix := { m with id }

end Matrix

end BoostedTrees
