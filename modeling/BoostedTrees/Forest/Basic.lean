import BoostedTrees.Tree.Basic

/-!
# Forests

A forest is a list of trees, each of which adds to one output. Training appends one
tree for every output and calls that a round. Rounds are counted from the number of
trees, and a range of rounds stands for the trees of these rounds.
-/

namespace BoostedTrees

/-- A tree and the output that it adds to. -/
structure OutputTree where
  tree : Tree
  output : UInt32
deriving DecidableEq

structure Forest where
  trees : List OutputTree
deriving DecidableEq

namespace Forest

def empty : Forest := ⟨[]⟩

variable (f : Forest)

def size : Nat := f.trees.length

/-- The forest with a round more: one tree for every output, in order. -/
def addRound (round : List Tree) : Forest :=
  ⟨f.trees ++ round.zipIdx.map fun (t, k) => ⟨t, UInt32.ofNat k⟩⟩

@[simp] theorem size_addRound (round : List Tree) :
    (f.addRound round).size = f.size + round.length := by
  simp [size, addRound]

/-- The number of rounds of a model with the given number of outputs. -/
def rounds (outputs : Nat) : UInt32 := UInt32.ofNat (f.size / max outputs 1)

/-- The trees from one place in the list up to another. -/
structure Range where
  start : Nat
  stop : Nat
deriving DecidableEq

/-- The places of all trees. -/
def all : Range := ⟨0, f.size⟩

/-- The places of the trees of the rounds from `first` up to `last`, where zero
stands for the end; none where they are not rounds of the forest. -/
def range? (outputs : Nat) (first last : UInt32) : Option Range :=
  let rounds := f.rounds outputs
  let last := if last = 0 then rounds else last
  if last < first ∨ rounds < last then none
  else some ⟨first.toNat * outputs, last.toNat * outputs⟩

/-- The trees at the places of a range. -/
def within (r : Range) : List OutputTree := (f.trees.take r.stop).drop r.start

@[simp] theorem within_all : f.within f.all = f.trees := by
  simp [within, all, size]

/-- A round more changes nothing about the trees that were there. -/
theorem within_addRound (round : List Tree) {r : Range} (h : r.stop ≤ f.size) :
    (f.addRound round).within r = f.within r := by
  simp only [within, addRound]
  rw [List.take_append_of_le_length h]

end Forest

end BoostedTrees
