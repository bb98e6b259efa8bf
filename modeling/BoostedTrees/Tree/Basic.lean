import BoostedTrees.Number.Double

/-!
# Regression trees

A tree is an array of nodes; node `0` is the root. A node is a leaf or a split with
a left and a right child given by their places in the array, in any order. Every
node carries the statistics that are stored and shown: a value, the gain of its
split, and its cover, the sum of the hessians of the rows that reach it.

Nothing here asks that the children form a tree. `Tree.visit` in
`BoostedTrees.Tree.Validation` decides that; the walks below carry as much fuel as
there are nodes, which is enough for any tree that passes.
-/

namespace BoostedTrees

/-- One node. A leaf has no children; its feature, threshold, default direction and
gain mean nothing but are kept as they were stored. -/
structure Node where
  feature : UInt32
  threshold : Single
  children : Option (Nat × Nat)
  /-- Whether a row that lacks the feature goes left. -/
  defaultLeft : Bool
  value : Single
  gain : Single
  cover : Single
deriving DecidableEq

namespace Node

def leaf (value cover : Single) : Node := ⟨0, 0, none, false, value, 0, cover⟩

/-- What is read outside of the array. -/
def blank : Node := leaf 0 0

def isLeaf (n : Node) : Bool := n.children.isNone

/-- The child that a row lacking the feature goes to. -/
def missingChild? (n : Node) : Option Nat :=
  n.children.map fun (left, right) => if n.defaultLeft then left else right

/-- The child that a row goes to: a missing value takes the default direction, a
value below the threshold goes left. -/
def childFor? (n : Node) (row : Array Single) : Option Nat :=
  let v := row.getD n.feature.toNat Single.nan
  if v.isNaN then n.missingChild?
  else n.children.map fun (left, right) => if v < n.threshold then left else right

end Node

/-- A regression tree, as the array of its nodes. -/
structure Tree where
  nodes : Array Node
deriving DecidableEq

namespace Tree

variable (t : Tree)

/-- The tree of a single leaf. -/
def leaf (value cover : Single) : Tree := ⟨#[Node.leaf value cover]⟩

def size : Nat := t.nodes.size

def node (i : Nat) : Node := t.nodes.getD i Node.blank

/-- The largest feature that a split uses. -/
def maxFeature? : Option UInt32 :=
  t.nodes.foldl (fun best n =>
    if n.isLeaf then best
    else some (match best with
      | none => n.feature
      | some f => if f < n.feature then n.feature else f)) none

/-! ## Walks -/

/-- The nodes that a row passes from a node on to its leaf. -/
def pathFrom (row : Array Single) : (fuel : Nat) → (i : Nat) → List Nat
  | 0, i => [i]
  | fuel + 1, i =>
    match (t.node i).childFor? row with
    | none => [i]
    | some child => i :: pathFrom row fuel child

/-- The nodes that a row passes from the root to its leaf. -/
def path (row : Array Single) : List Nat := t.pathFrom row t.size 0

/-- The leaf that a row reaches. -/
def leafOf (row : Array Single) : Nat := (t.path row).getLastD 0

/-- The value of the leaf that a row reaches. -/
def output (row : Array Single) : Single := (t.node (t.leafOf row)).value

/-- The nodes below a node, each with its depth: the node itself, then its left
subtree, then its right subtree. -/
def outlineFrom : (fuel : Nat) → (depth : Nat) → (i : Nat) → List (Nat × Nat)
  | 0, depth, i => [(i, depth)]
  | fuel + 1, depth, i =>
    match (t.node i).children with
    | none => [(i, depth)]
    | some (left, right) =>
      (i, depth) :: (outlineFrom fuel (depth + 1) left ++ outlineFrom fuel (depth + 1) right)

/-- All nodes in preorder, each with its depth. -/
def outline : List (Nat × Nat) := t.outlineFrom t.size 0 0

/-- All nodes in preorder. -/
def preorder : List Nat := t.outline.map (·.1)

/-- The depth of every node, by its place in the array. -/
def depths : Array Nat :=
  t.outline.foldl (fun ds (i, depth) => ds.setIfInBounds i depth) (Array.replicate t.size 0)

/-! ## Means -/

section Means

variable {α : Type} [OfNat α 0] [Add α] [Mul α] [Div α] [LT α] [DecidableLT α]

/-- The mean output below a node, each child weighted by its cover; the node's own
value where the covers do not sum to a positive number. Statistics are read into
any type of numbers, so that the mean can also be taken without rounding. -/
def meanFrom (read : Single → α) : (fuel : Nat) → (i : Nat) → α
  | 0, i => read (t.node i).value
  | fuel + 1, i =>
    match (t.node i).children with
    | none => read (t.node i).value
    | some (left, right) =>
      let leftCover := read (t.node left).cover
      let rightCover := read (t.node right).cover
      let total := leftCover + rightCover
      if 0 < total then
        (leftCover * meanFrom read fuel left + rightCover * meanFrom read fuel right) / total
      else read (t.node i).value

/-- The mean output below every node, by its place in the array. -/
def means (read : Single → α) : Array α := (Array.range t.size).map (t.meanFrom read t.size)

end Means

/-! ## Growing -/

/-- The tree with the statistics of a node replaced. -/
def setStatistics (i : Nat) (value cover : Single) : Tree :=
  ⟨t.nodes.modify i fun n => { n with value, cover }⟩

/-- The tree with a leaf turned into a split, whose two children are new leaves at
the end of the array. -/
def split (i : Nat) (feature : UInt32) (threshold : Single) (defaultLeft : Bool)
    (gain : Single) : Tree :=
  let children := some (t.size, t.size + 1)
  ⟨(t.nodes.modify i fun n =>
    { n with feature, threshold, children, defaultLeft, gain }) |>.push Node.blank |>.push Node.blank⟩

@[simp] theorem size_setStatistics (i : Nat) (value cover : Single) :
    (t.setStatistics i value cover).size = t.size := by
  simp [setStatistics, size]

@[simp] theorem size_split (i : Nat) (feature : UInt32) (threshold : Single)
    (defaultLeft : Bool) (gain : Single) :
    (t.split i feature threshold defaultLeft gain).size = t.size + 2 := by
  simp [split, size]

end Tree

end BoostedTrees
