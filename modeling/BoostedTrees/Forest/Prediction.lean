import BoostedTrees.Forest.Basic

/-!
# What trees say about a row

The sum of the trees' outputs, the leaves that a row reaches, and the contributions
of features to the sum. Every split on the path of a row credits its feature with
the change of the mean output; the mean output of the root is the bias.

Sums and contributions are computed in any type of numbers that the trees' values
can be read into, so that they can also be taken without rounding.
-/

namespace BoostedTrees

/-- The leaves that a row reaches, tree by tree. -/
def leavesOf (trees : List OutputTree) (row : Array Single) : List Nat :=
  trees.map fun t => t.tree.leafOf row

section Sums

variable {α : Type} [Add α] (read : Single → α)

/-- Adds the outputs of trees for a row to the numbers that are there, tree by tree. -/
def addOutputs (trees : List OutputTree) (row : Array Single) (sums : Array α) : Array α :=
  trees.foldl (fun sums t => sums.modify t.output.toNat (· + read (t.tree.output row))) sums

end Sums

section Contributions

variable {α : Type} [OfNat α 0] [Add α] [Sub α] [Mul α] [Div α] [LT α] [DecidableLT α]
  (read : Single → α)

/-- A tree with the mean outputs below its nodes. -/
structure Explained (α : Type) where
  tree : Tree
  output : Nat
  means : Array α

/-- The trees with their mean outputs. -/
def explain (trees : List OutputTree) : List (Explained α) :=
  trees.map fun t => ⟨t.tree, t.output.toNat, t.tree.means read⟩

/-- The features that the path of a row credits, each with the change of the mean
output at its split. -/
def Explained.credits (e : Explained α) (row : Array Single) : List (Nat × α) :=
  let path := e.tree.path row
  (path.zip path.tail).map fun (i, next) =>
    ((e.tree.node i).feature.toNat, e.means.getD next 0 - e.means.getD i 0)

/-- Adds what one tree contributes for a row. The columns of an output are its
features and last its bias; a feature beyond them is credited nowhere. -/
def Explained.addTo (e : Explained α) (features : Nat) (row : Array Single) (columns : Array α) :
    Array α :=
  let start := e.output * (features + 1)
  let columns := columns.modify (start + features) (· + e.means.getD 0 0)
  (e.credits row).foldl (fun columns (feature, change) =>
    if feature < features then columns.modify (start + feature) (· + change) else columns) columns

/-- The contributions for a row: for every output a column for every feature and the
bias, to which the row's starting margin is added last. -/
def contributions (trees : List (Explained α)) (features outputs : Nat) (row : Array Single)
    (base : List α) : Array α :=
  let columns := trees.foldl (fun columns e => e.addTo features row columns)
    (Array.replicate (outputs * (features + 1)) 0)
  base.zipIdx.foldl (fun columns (margin, k) =>
    columns.modify (k * (features + 1) + features) (· + margin)) columns

end Contributions

end BoostedTrees
