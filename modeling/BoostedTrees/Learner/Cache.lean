import BoostedTrees.Forest.Prediction
import BoostedTrees.Matrix

/-!
# Remembered sums

A learner remembers, for the matrices it is trained on, the sums of the trees'
outputs so far. Sums that were remembered are brought up to date by adding the trees
that came later, which gives what adding all trees would give; sums that do not fit
the matrix or the trees any more are taken anew.

The number of matrices that training adds is bounded: a full cache gives up the
matrix with the smallest number, which is the oldest one.
-/

namespace BoostedTrees

/-- Adds the outputs of trees to the sums of the rows. -/
def addToRows (trees : List OutputTree) (rows : Rows) (outputs : Nat) (sums : Array Single) :
    Array Single :=
  ((List.range (rowsNeeded outputs sums.size)).flatMap fun i =>
    (addOutputs id trees (rows.row i) (sums.extract (i * outputs) ((i + 1) * outputs))).toList).toArray

/-- The sums of the outputs of trees for rows. -/
def sumsOf (trees : List OutputTree) (rows : Rows) (outputs : Nat) : Array Single :=
  addToRows trees rows outputs (Array.replicate (entryCount rows.count outputs) 0)

/-- The sums of the first trees of a forest for one matrix. -/
structure RememberedSums where
  /-- The number of the matrix. -/
  matrix : Nat
  /-- How many trees the sums are over. -/
  trees : Nat
  rows : Nat
  outputs : Nat
  sums : Array Single
deriving DecidableEq

namespace RememberedSums

/-- The entry of a matrix before any sums are asked for. It is for no output, so it fits
no use, and the sums are taken at the first one. -/
def start (m : Matrix) : RememberedSums := ⟨m.id, 0, m.rows, 0, #[]⟩

/-- The sums over all trees of a forest, taken anew. -/
def taken (f : Forest) (outputs : Nat) (m : Matrix) : RememberedSums :=
  ⟨m.id, f.size, m.rows, outputs, sumsOf f.trees m.toRows outputs⟩

/-- Whether the sums are over trees that the forest still starts with. -/
def fits (e : RememberedSums) (f : Forest) (outputs : Nat) (m : Matrix) : Bool :=
  e.rows = m.rows && e.outputs = outputs && e.trees ≤ f.size

/-- The sums over all trees of a forest. -/
def brought (e : RememberedSums) (f : Forest) (outputs : Nat) (m : Matrix) : RememberedSums :=
  if e.fits f outputs m then
    if e.trees < f.size then
      { e with
        trees := f.size
        sums := addToRows (f.trees.drop e.trees) m.toRows outputs e.sums }
    else e
  else taken f outputs m

end RememberedSums

/-- The sums that a learner remembers, at most one entry for every matrix. -/
structure MarginCache where
  entries : List RememberedSums
deriving DecidableEq

namespace MarginCache

def empty : MarginCache := ⟨[]⟩

/-- How many matrices training may add. -/
def capacity : Nat := 64

variable (c : MarginCache)

def find? (id : Nat) : Option RememberedSums := c.entries.find? (·.matrix = id)

def contains (id : Nat) : Bool := (c.find? id).isSome

def erase (id : Nat) : MarginCache := ⟨c.entries.filter (·.matrix ≠ id)⟩

/-- The cache with an entry, which replaces the one of the same matrix. -/
def put (e : RememberedSums) : MarginCache := ⟨e :: (c.erase e.matrix).entries⟩

/-- Putting an entry in changes what is found for its own matrix only. -/
theorem find?_put (e : RememberedSums) (id : Nat) :
    (c.put e).find? id = if id = e.matrix then some e else c.find? id := by
  by_cases h : id = e.matrix
  · simp [find?, put, h]
  · simp only [find?, put, erase, List.find?_cons, List.find?_filter, h, if_false]
    simp only [Ne.symm h, decide_false]
    congr 1
    funext x
    by_cases hx : x.matrix = id <;> simp [hx, h]

/-- The number of the oldest matrix. -/
def oldest? : Option Nat := (c.entries.map (·.matrix)).min?

/-- The cache with room for one more matrix: a full one gives up the oldest. -/
def withRoom : MarginCache :=
  if c.entries.length < capacity then c
  else
    match c.oldest? with
    | some id => c.erase id
    | none => c

/-- The cache that starts out with the given matrices. -/
def ofMatrices (ms : List Matrix) : MarginCache :=
  ms.foldl (fun c m => c.put (.start m)) .empty

end MarginCache

end BoostedTrees
