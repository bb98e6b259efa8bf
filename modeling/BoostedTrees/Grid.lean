import BoostedTrees.Engine.Error
import BoostedTrees.Matrix

/-!
# Grids

Numbers in rows of the same length, row after row. Predictions are returned as one
row for every row of the data.
-/

namespace BoostedTrees

structure Grid where
  rows : Nat
  columns : Nat
  values : List Single
  length_values : values.length = rows * columns
deriving DecidableEq

namespace Grid

/-- The grid without rows. -/
def empty : Grid := ⟨0, 0, [], rfl⟩

/-- The grid of a flat list with the given number of rows. The list must fill whole
rows; without rows it must be empty. The sides are bounded like those of a matrix. -/
def ofFlat (rows : Nat) (values : List Single) : Except EngineError Grid :=
  if rows = 0 then
    if values.isEmpty then .ok empty else .error (.outputWithoutRows values.length)
  else if h : values.length % rows = 0 then
    if Matrix.sidesFit rows (values.length / rows) then
      .ok ⟨rows, values.length / rows, values,
        (Nat.mul_div_cancel' (Nat.dvd_of_mod_eq_zero h)).symm⟩
    else .error .outputTooLarge
  else .error (.outputRagged values.length rows)

end Grid

end BoostedTrees
