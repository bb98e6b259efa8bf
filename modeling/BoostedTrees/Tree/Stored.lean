import BoostedTrees.Tree.Validation

/-!
# Stored trees

A tree is stored as eight lists with one entry per node. A leaf has `-1` for both
children there. Reading a tree back checks that the lists agree in length, that
every node has two children or none, and that the nodes form a tree.
-/

namespace BoostedTrees

/-- The lists of a stored tree. -/
structure StoredTree where
  splitIndices : List UInt32
  splitConditions : List Single
  leftChildren : List Int32
  rightChildren : List Int32
  defaultLeft : List Bool
  baseWeights : List Single
  lossChanges : List Single
  sumHessian : List Single
deriving DecidableEq

namespace StoredTree

/-- The child of a leaf. -/
def noChild : Int32 := -1

variable (s : StoredTree)

/-- The number of nodes, which the list of left children decides. -/
def nodeCount : Nat := s.leftChildren.length

/-- The lengths of the other lists, by field. -/
def lengths : List (String × Nat) :=
  [("split_indices", s.splitIndices.length), ("split_conditions", s.splitConditions.length),
    ("right_children", s.rightChildren.length), ("default_left", s.defaultLeft.length),
    ("base_weights", s.baseWeights.length), ("loss_changes", s.lossChanges.length),
    ("sum_hessian", s.sumHessian.length)]

def checkLengths : Except TreeError Unit :=
  match s.lengths.find? (·.2 ≠ s.nodeCount) with
  | some (field, length) => .error (.lengthMismatch field length s.nodeCount)
  | none => .ok ()

/-- The place of a child in the array. -/
def place (nodes i : Nat) (side : Side) (child : Int32) : Except TreeError Nat :=
  if child < 0 ∨ nodes ≤ child.toInt.toNat then
    .error (.childOutOfBounds i side child.toInt nodes)
  else .ok child.toInt.toNat

/-- The children of a node, from its two entries. -/
def children (nodes i : Nat) (left right : Int32) : Except TreeError (Option (Nat × Nat)) :=
  if left = noChild ∧ right = noChild then .ok none
  else if left = noChild ∨ right = noChild then .error (.halfLeaf i)
  else do
    let l ← place nodes i .left left
    let r ← place nodes i .right right
    return some (l, r)

/-- The nodes of lists that agree in length, each from its eight entries. -/
def nodes : Except TreeError (List Node) :=
  let count := s.nodeCount
  let feature := s.splitIndices.toArray
  let threshold := s.splitConditions.toArray
  let left := s.leftChildren.toArray
  let right := s.rightChildren.toArray
  let defaultLeft := s.defaultLeft.toArray
  let value := s.baseWeights.toArray
  let gain := s.lossChanges.toArray
  let cover := s.sumHessian.toArray
  (List.range count).mapM fun i => do
    return {
      feature := feature.getD i 0
      threshold := threshold.getD i 0
      children := ← children count i (left.getD i noChild) (right.getD i noChild)
      defaultLeft := defaultLeft.getD i false
      value := value.getD i 0
      gain := gain.getD i 0
      cover := cover.getD i 0 }

end StoredTree

namespace Tree

/-- The tree that is stored, for a model with the given number of features. -/
def ofStored (s : StoredTree) (features : UInt64) : Except TreeError Tree := do
  s.checkLengths
  let t : Tree := ⟨(← s.nodes).toArray⟩
  t.validate features
  return t

/-- The entry of a child. -/
def storedChild (child : Option Nat) : Int32 :=
  match child with
  | none => StoredTree.noChild
  | some c => Int32.ofNat c

/-- The lists that a tree is stored as. -/
def toStored (t : Tree) : StoredTree :=
  let nodes := t.nodes.toList
  { splitIndices := nodes.map (·.feature)
    splitConditions := nodes.map (·.threshold)
    leftChildren := nodes.map fun n => storedChild (n.children.map (·.1))
    rightChildren := nodes.map fun n => storedChild (n.children.map (·.2))
    defaultLeft := nodes.map (·.defaultLeft)
    baseWeights := nodes.map (·.value)
    lossChanges := nodes.map (·.gain)
    sumHessian := nodes.map (·.cover) }

end Tree

end BoostedTrees
