import BoostedTrees.Tree.Basic

/-!
# Valid trees

Nodes form a tree when following children from the root reaches every node by
exactly one path, and, in a model with a known number of features, every split uses
one of them. The check is a depth-first search with a mark on every node it has
seen.
-/

namespace BoostedTrees

/-- The two children of a split. -/
inductive Side where
  | left
  | right
deriving DecidableEq

def Side.name : Side → String
  | .left => "left"
  | .right => "right"

/-- Why nodes are not a valid tree. -/
inductive TreeError where
  /-- There are no nodes. -/
  | empty
  /-- The lists of a stored tree differ in length. -/
  | lengthMismatch (field : String) (length nodes : Nat)
  /-- A node has one child only. -/
  | halfLeaf (node : Nat)
  /-- A child is not a place in the array. -/
  | childOutOfBounds (node : Nat) (side : Side) (child : Int) (nodes : Nat)
  /-- A node is its own child. -/
  | selfLoop (node : Nat)
  /-- Two paths lead to a node. -/
  | duplicateVisit (node : Nat)
  /-- No path leads to a node. -/
  | unreachable (node : Nat)
  /-- A split uses a feature that the model does not have. -/
  | featureOutOfBounds (node : Nat) (feature : UInt32) (features : UInt64)
deriving DecidableEq

def TreeError.message : TreeError → String
  | .empty => "tree has no nodes"
  | .lengthMismatch field length nodes => s!"{field} has {length} entries for {nodes} nodes"
  | .halfLeaf node => s!"node {node} has exactly one child"
  | .childOutOfBounds node side child nodes =>
    let name := side.name
    s!"node {node} {name} child {child} out of bounds ({nodes} nodes)"
  | .selfLoop node => s!"node {node} is its own child"
  | .duplicateVisit node => s!"node {node} reached twice"
  | .unreachable node => s!"node {node} unreachable from root"
  | .featureOutOfBounds node feature features =>
    s!"node {node} splits on feature {feature} but the model has {features}"

namespace Tree

variable (t : Tree)

/-- Whether a split uses a feature of the model; every feature will do while their
number is zero, which means it is not known. -/
def checkFeature (features : UInt64) (i : Nat) : Except TreeError Unit :=
  let feature := (t.node i).feature
  if features ≠ 0 ∧ features.toNat ≤ feature.toNat then
    .error (.featureOutOfBounds i feature features)
  else .ok ()

/-- Whether a child is another node of the array. -/
def checkChild (i : Nat) (side : Side) (child : Nat) : Except TreeError Unit :=
  if child = i then .error (.selfLoop i)
  else if t.size ≤ child then .error (.childOutOfBounds i side child t.size)
  else .ok ()

/-- Marks the nodes that are reached from those on a stack. Every step but the last
marks one more node, so one step more than there are nodes is enough. -/
def visit (features : UInt64) :
    (fuel : Nat) → (stack : List Nat) → (seen : Array Bool) → Except TreeError (Array Bool)
  | 0, _, seen => .ok seen
  | _ + 1, [], seen => .ok seen
  | fuel + 1, i :: stack, seen =>
    if seen.getD i false then .error (.duplicateVisit i)
    else
      let seen := seen.setIfInBounds i true
      match (t.node i).children with
      | none => visit features fuel stack seen
      | some (left, right) => do
        t.checkFeature features i
        t.checkChild i .left left
        t.checkChild i .right right
        -- The right subtree is searched first, which decides what error comes first.
        visit features fuel (right :: left :: stack) seen

/-- Succeeds when the nodes form a tree for a model with the given number of
features. -/
def validate (features : UInt64) : Except TreeError Unit := do
  if t.size = 0 then throw .empty
  let seen ← t.visit features (t.size + 1) [0] (Array.replicate t.size false)
  match seen.findIdx? (!·) with
  | some i => throw (.unreachable i)
  | none => return ()

end Tree

end BoostedTrees
