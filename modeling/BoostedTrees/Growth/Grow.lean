import BoostedTrees.Growth.Split
import BoostedTrees.Tree.Basic

/-!
# Growing a tree

A tree starts as one leaf with all rows. A node gets the statistics of its rows and
is split as long as a split can be found and the depth allows it; the rows are dealt
to the two children in their order.
-/

namespace BoostedTrees

namespace Growth

variable (rules : GrowthRules) (m : Matrix) (g : Gradient)

/-- The value of a node over rows with the given sums. -/
def value (total : Sums) : Single :=
  (total.weight rules.lambda.toDouble * rules.learningRate.toDouble).toSingle

/-- Grows the tree at a leaf that the given rows reach: the statistics first, then
the left and then the right subtree. -/
def growAt : (levels : Nat) → (t : Tree) → (i : Nat) → (rows : List Nat) → Tree
  | levels, t, i, rows =>
    let total := g.sums rows
    -- A node keeps its statistics also when it is split.
    let t := t.setStatistics i (value rules total) total.second.toSingle
    match levels with
    | 0 => t
    | levels + 1 =>
      match Split.find? rules m g rows total with
      | none => t
      | some s =>
        let (leftRows, rightRows) := rows.partition (s.sendsLeft m)
        let left := t.size
        let t := t.split i s.feature s.threshold s.defaultLeft s.gain.toSingle
        let t := growAt levels t left leftRows
        growAt levels t (left + 1) rightRows

/-- How many levels a tree over some rows may have below its root. A split that leaves
rows on both sides shortens the lists, so without a limit as many levels as there are
rows are enough for such splits. A threshold that is not finite may leave a side
without rows; growth that would repeat it for ever is cut off there. -/
def levels (rows : List Nat) : Nat := if rules.maxDepth = 0 then rows.length else rules.maxDepth

/-- The tree grown on some rows of a matrix. -/
def grow (rows : List Nat) : Tree :=
  growAt rules m g (levels rules rows) (Tree.leaf 0 0) 0 rows

end Growth

end BoostedTrees
