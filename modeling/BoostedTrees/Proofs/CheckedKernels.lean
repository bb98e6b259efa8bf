import BoostedTrees.Learner.Cache
import BoostedTrees.Proofs.TreeSearch

/-!
# Kernels that check what they touch

The kernels of predictions once more, with a check before every access: places that are
read or written must be in their arrays, ranges must be ranges of them, and a walk must
reach its leaf in as many steps as the tree has nodes. Sizes that are computed must fit
words, and there must be room for the arrays that are asked for. A kernel that fails a check
has no result. On trees whose nodes have an order in which parents come first only checks of
sizes can fail, and the results are those of the kernels without checks.

## Main definitions

* `Checked.Runs`: what a computation that checks comes to
* `Checked.word`, `Checked.entryCount`: sizes that fit a word, and sizes of arrays
* `Checked.path`, `Checked.means`: walks and means of one tree
* `Checked.leavesOf`, `Checked.sumsOf`, `Checked.contributions`: the kernels
* `OutputTree.Safe`: a tree that has such an order and adds to an output that there is

## Main results

* `Checked.path_eq`, `Checked.means_eq`: no check fails in one tree
* `Checked.leavesOf_eq`, `Checked.contributions_eq`: nor for a row
* `Checked.runs_sumsOf`: sums for rows ask for room, and for nothing else
-/

namespace BoostedTrees

namespace Checked

/-! ## Computations that check -/

/-- A computation that checks gives a value if a condition holds, and is stopped by a check
if not. -/
structure Runs {α : Type} (x : Option α) (P : Prop) (a : α) : Prop where
  eq_some : P → x = some a
  eq_none : ¬P → x = none

namespace Runs

variable {α β : Type} {x : Option α} {P Q : Prop} {a a' : α} {f : α → Option β} {b : β}

theorem of_eq (h : x = some a) (hp : P) : Runs x P a := ⟨fun _ => h, fun hno => absurd hp hno⟩

theorem ite [Decidable P] : Runs (if P then some a else none) P a :=
  ⟨fun h => if_pos h, fun h => if_neg h⟩

theorem congr (h : Runs x P a) (hiff : P ↔ Q) : Runs x Q a := propext hiff ▸ h

/-- One computation after another asks for what both ask for. -/
theorem bind (hx : Runs x P a) (hf : P → Runs (f a) Q b) : Runs (x >>= f) (P ∧ Q) b where
  eq_some := by
    rintro ⟨hp, hq⟩
    rw [hx.eq_some hp]
    exact (hf hp).eq_some hq
  eq_none hno := by
    by_cases hp : P
    · rw [hx.eq_some hp]
      exact (hf hp).eq_none fun hq => hno ⟨hp, hq⟩
    · rw [hx.eq_none hp]
      rfl

theorem map (h : Runs x P a) (f : α → β) : Runs (x >>= fun a => pure (f a)) P (f a) :=
  (h.bind (b := f a) fun _ => .of_eq rfl trivial).congr (iff_of_eq (and_true P))

theorem isSome_iff (h : Runs x P a) : x.isSome ↔ P := by
  by_cases hp : P
  · simp only [h.eq_some hp, Option.isSome_some, hp]
  · simp only [h.eq_none hp, Option.isSome_none, Bool.false_eq_true, hp]

/-- There is no other value. -/
theorem eq_of_eq_some (h : Runs x P a) (hx : x = some a') : a' = a := by
  by_cases hp : P
  · exact Option.some.inj (hx.symm.trans (h.eq_some hp))
  · cases hx.symm.trans (h.eq_none hp)

end Runs

/-! ## Sizes -/

/-- An array of singles has fewer entries than this. Each of them takes four bytes, and all
of them together take no more bytes than the largest signed word. -/
def roomBound : Nat := 0x2000000000000000

theorem lt_sizeBound {n : Nat} (h : n < roomBound) : n < sizeBound := Nat.lt_trans h (by decide)

/-- A number, if it fits a word. -/
def word (n : Nat) : Option Nat := if n < sizeBound then some n else none

/-- The number of entries of rows, if there is room for an array of them. -/
def entryCount (rows width : Nat) : Option Nat :=
  if rows * width < roomBound then some (rows * width) else none

theorem runs_word (n : Nat) : Runs (word n) (n < sizeBound) n := .ite

theorem runs_entryCount (rows width : Nat) :
    Runs (entryCount rows width) (rows * width < roomBound) (rows * width) := .ite

/-! ## Arrays -/

section Arrays

variable {α : Type}

/-- The array with one entry changed, if there is such an entry. -/
def modify (a : Array α) (i : Nat) (f : α → α) : Option (Array α) :=
  if i < a.size then some (a.modify i f) else none

/-- The entries from one place up to another, if they are entries of the array. -/
def slice (a : Array α) (start stop : Nat) : Option (Array α) :=
  if start ≤ stop ∧ stop ≤ a.size then some (a.extract start stop) else none

theorem modify_eq {a : Array α} {i : Nat} (h : i < a.size) (f : α → α) :
    modify a i f = some (a.modify i f) := if_pos h

theorem slice_eq {a : Array α} {start stop : Nat} (hle : start ≤ stop) (h : stop ≤ a.size) :
    slice a start stop = some (a.extract start stop) := if_pos ⟨hle, h⟩

end Arrays

/-! ## Walks -/

section Walks

variable (t : Tree) (row : Array Single)

/-- The nodes that a row passes from a node on to its leaf, in as many steps as there is
fuel. -/
def pathFrom : (fuel : Nat) → (i : Nat) → Option (List Nat)
  | 0, _ => none
  | fuel + 1, i => do
    let n ← t.nodes[i]?
    match n.childFor? row with
    | none => return [i]
    | some child => return i :: (← pathFrom fuel child)

/-- The nodes that a row passes from the root to its leaf. -/
def path : Option (List Nat) := pathFrom t row t.size 0

/-- The leaf that a row reaches. -/
def leafOf : Option Nat := do (← path t row).getLast?

/-- The value of the leaf that a row reaches. -/
def output : Option Single := do return (← t.nodes[← leafOf t row]?).value

end Walks

/-! ## Means -/

section Means

variable {α : Type} [OfNat α 0] [Add α] [Mul α] [Div α] [LT α] [DecidableLT α]
  (t : Tree) (read : Single → α)

/-- The mean output below a node, in as many levels as there is fuel. -/
def meanFrom : (fuel : Nat) → (i : Nat) → Option α
  | 0, _ => none
  | fuel + 1, i => do
    let n ← t.nodes[i]?
    match n.children with
    | none => return read n.value
    | some (left, right) =>
      let leftCover := read (← t.nodes[left]?).cover
      let rightCover := read (← t.nodes[right]?).cover
      let leftMean ← meanFrom fuel left
      let rightMean ← meanFrom fuel right
      let total := leftCover + rightCover
      return if 0 < total then (leftCover * leftMean + rightCover * rightMean) / total
        else read n.value

/-- The mean output below every node. -/
def means : Option (Array α) := do
  return (← (List.range t.size).mapM (meanFrom t read t.size)).toArray

end Means

/-! ## Sums and leaves -/

/-- The values of a row. -/
def rowOf (rows : Rows) (i : Nat) : Option (Array Single) :=
  slice rows.values (i * rows.columns) ((i + 1) * rows.columns)

/-- The leaves that a row reaches, tree by tree. -/
def leavesOf (trees : List OutputTree) (row : Array Single) : Option (List Nat) :=
  trees.mapM fun t => leafOf t.tree row

/-- Adds the outputs of trees for a row to the numbers that are there. -/
def addOutputs (trees : List OutputTree) (row sums : Array Single) : Option (Array Single) :=
  trees.foldlM (fun sums t => do
    let value ← output t.tree row
    modify sums t.output.toNat (· + value)) sums

/-- Adds the outputs of trees to the sums of the rows. -/
def addToRows (trees : List OutputTree) (rows : Rows) (outputs : Nat) (sums : Array Single) :
    Option (Array Single) := do
  let chunks ← (List.range (rowsNeeded outputs sums.size)).mapM fun i => do
    let row ← rowOf rows i
    return (← addOutputs trees row (sums.extract (i * outputs) ((i + 1) * outputs))).toList
  return chunks.flatten.toArray

/-- The sums of the outputs of trees for rows. -/
def sumsOf (trees : List OutputTree) (rows : Rows) (outputs : Nat) : Option (Array Single) := do
  addToRows trees rows outputs (Array.replicate (← entryCount rows.count outputs) 0)

/-! ## Contributions -/

section Contributions

variable {α : Type} [OfNat α 0] [Add α] [Sub α] [Mul α] [Div α] [LT α] [DecidableLT α]
  (read : Single → α)

/-- The trees with their mean outputs. -/
def explain (trees : List OutputTree) : Option (List (Explained α)) :=
  trees.mapM fun t => do return ⟨t.tree, t.output.toNat, ← means t.tree read⟩

/-- The features that the path of a row credits, each with its change. -/
def credits (e : Explained α) (row : Array Single) : Option (List (Nat × α)) := do
  let nodes ← path e.tree row
  (nodes.zip nodes.tail).mapM fun (i, next) => do
    let n ← e.tree.nodes[i]?
    return (n.feature.toNat, (← e.means[next]?) - (← e.means[i]?))

/-- Adds what one tree contributes for a row to the columns of its output. -/
def addTo (e : Explained α) (features : Nat) (row : Array Single) (columns : Array α) :
    Option (Array α) := do
  let start := e.output * (features + 1)
  let _ ← slice columns start (start + (features + 1))
  let mean ← e.means[0]?
  let columns ← modify columns (start + features) (· + mean)
  (← credits e row).foldlM (fun columns (feature, change) =>
    if feature < features then modify columns (start + feature) (· + change)
    else return columns) columns

/-- The contributions for a row. -/
def contributions (trees : List (Explained α)) (features outputs : Nat) (row : Array Single)
    (base : List α) : Option (Array α) := do
  let columns ← trees.foldlM (fun columns e => addTo e features row columns)
    (Array.replicate (outputs * (features + 1)) 0)
  base.zipIdx.foldlM (fun columns (margin, k) =>
    modify columns (k * (features + 1) + features) (· + margin)) columns

end Contributions

end Checked

/-! ## One tree -/

namespace Tree

variable {t : Tree} {features : UInt64} {order before after : List Nat} {i fuel : Nat}
  {row : Array Single}

theorem getElem?_nodes (h : i < t.size) : t.nodes[i]? = some (t.node i) := by
  have h : i < t.nodes.size := h
  simp [node, Array.getD_eq_getD_getElem?, h]

theorem Ordered.lt (h : t.Ordered features order) (horder : order = before ++ i :: after) :
    i < t.size := by
  refine (h.mem_iff i).mp ?_
  rw [horder]
  exact List.mem_append_right _ List.mem_cons_self

/-- A node that comes later in an order leaves fewer nodes after it. -/
theorem exists_split_of_mem {child : Nat} (horder : order = before ++ i :: after)
    (h : child ∈ after) : ∃ before' after', order = before' ++ child :: after' ∧
      after'.length < after.length := by
  obtain ⟨between, after', rfl⟩ := List.append_of_mem h
  refine ⟨before ++ i :: between, after', by simp [horder], ?_⟩
  rw [List.length_append, List.length_cons]
  omega

/-- The root leaves fewer nodes after it than there are. -/
theorem Ordered.exists_split (h : t.Ordered features order) (hi : i < t.size) :
    ∃ before after, order = before ++ i :: after ∧ after.length < t.size := by
  obtain ⟨before, after, horder⟩ := List.append_of_mem ((h.mem_iff i).mpr hi)
  refine ⟨before, after, horder, ?_⟩
  rw [← h.length_eq, horder, List.length_append, List.length_cons]
  omega

end Tree

theorem Node.childFor?_eq_none_iff {n : Node} {row : Array Single} :
    n.childFor? row = none ↔ n.children = none := by
  simp only [childFor?, missingChild?]
  split <;> simp

/-- A row goes on to one of the two children. -/
theorem Node.exists_of_childFor?_eq_some {n : Node} {row : Array Single} {child : Nat}
    (h : n.childFor? row = some child) :
    ∃ left right, n.children = some (left, right) ∧ (child = left ∨ child = right) := by
  simp only [childFor?, missingChild?] at h
  split at h
  · obtain ⟨⟨left, right⟩, hchildren, rfl⟩ := Option.map_eq_some_iff.mp h
    refine ⟨left, right, hchildren, ?_⟩
    cases n.defaultLeft <;> simp
  · obtain ⟨⟨left, right⟩, hchildren, rfl⟩ := Option.map_eq_some_iff.mp h
    refine ⟨left, right, hchildren, ?_⟩
    dsimp only
    split <;> simp

namespace Checked

open BoostedTrees.Tree (getElem?_nodes exists_split_of_mem)

variable {t : Tree} {features : UInt64} {order before after : List Nat} {i fuel : Nat}
  {row : Array Single}

/-- A walk from a node takes at most one step more than there are nodes after it. -/
theorem pathFrom_eq (h : t.Ordered features order) (horder : order = before ++ i :: after)
    (hfuel : after.length < fuel) :
    pathFrom t row fuel i = some (t.pathFrom row fuel i) := by
  induction fuel generalizing before i after with
  | zero => exact absurd hfuel (Nat.not_lt_zero _)
  | succ fuel ih =>
    rw [pathFrom, Tree.pathFrom, getElem?_nodes (h.lt horder)]
    cases hchild : (t.node i).childFor? row with
    | none => simp [hchild]
    | some child =>
      obtain ⟨left, right, hchildren, hside⟩ := Node.exists_of_childFor?_eq_some hchild
      obtain ⟨-, hleft, hright⟩ := h.children_later horder hchildren
      -- Whichever child it is comes later, so there are steps enough left for it.
      have hmem : child ∈ after := by
        rcases hside with rfl | rfl
        · exact hleft
        · exact hright
      obtain ⟨before', after', horder', hlater⟩ := exists_split_of_mem horder hmem
      simp [hchild, ih horder' (by omega)]

/-- What a walk that passes all checks has passed: nodes of the tree, as many as there was
fuel at most, and last a leaf. -/
theorem spec_of_pathFrom {nodes : List Nat} (h : pathFrom t row fuel i = some nodes) :
    (∀ j ∈ nodes, j < t.size) ∧ nodes.length ≤ fuel ∧
      ∃ leaf, nodes.getLast? = some leaf ∧ (t.node leaf).isLeaf := by
  induction fuel generalizing i nodes with
  | zero => cases h
  | succ fuel ih =>
    rw [pathFrom] at h
    obtain ⟨n, hn, h⟩ := Option.bind_eq_some_iff.mp h
    have hi : i < t.size := (Array.getElem?_eq_some_iff.mp hn).1
    have hnode : t.node i = n := by
      rw [getElem?_nodes hi] at hn
      exact Option.some.inj hn
    cases hchild : n.childFor? row with
    | none =>
      simp only [hchild] at h
      cases h
      refine ⟨by simpa using hi, by simp, i, rfl, ?_⟩
      rw [hnode, Node.isLeaf, Node.childFor?_eq_none_iff.mp hchild]
      rfl
    | some child =>
      simp only [hchild] at h
      obtain ⟨rest, hrest, h⟩ := Option.bind_eq_some_iff.mp h
      cases h
      obtain ⟨hlt, hlength, leaf, hlast, hleaf⟩ := ih hrest
      refine ⟨List.forall_mem_cons.mpr ⟨hi, hlt⟩, by simpa using hlength, leaf, ?_, hleaf⟩
      rw [List.getLast?_cons, hlast]
      rfl

/-- The walk of a row through a tree passes all checks. -/
theorem path_eq (h : t.Ordered features order) (row : Array Single) :
    path t row = some (t.path row) := by
  obtain ⟨before, after, horder, hlength⟩ := h.exists_split h.root_lt
  exact pathFrom_eq h horder hlength

/-- Without such an order the check of steps may fail: a split that is its own child is
never left. -/
example : path ⟨#[⟨0, 2, some (0, 0), true, 0, 8, 2⟩]⟩ #[1] = none := by decide +kernel

/-- A walk passes nodes of the tree, as many as there are at most, and ends at a leaf. -/
theorem spec_path (h : t.Ordered features order) (row : Array Single) :
    (∀ j ∈ t.path row, j < t.size) ∧ (t.path row).length ≤ t.size ∧
      (t.path row).getLast? = some (t.leafOf row) ∧ (t.node (t.leafOf row)).isLeaf := by
  obtain ⟨hlt, hlength, leaf, hlast, hleaf⟩ := spec_of_pathFrom (path_eq h row)
  have hsame : t.leafOf row = leaf := by
    rw [Tree.leafOf, List.getLastD_eq_getLast?, hlast]
    rfl
  rw [hsame]
  exact ⟨hlt, hlength, hlast, hleaf⟩

theorem leafOf_eq (h : t.Ordered features order) (row : Array Single) :
    leafOf t row = some (t.leafOf row) := by
  obtain ⟨-, -, hlast, -⟩ := spec_path h row
  rw [leafOf, path_eq h row]
  exact hlast

theorem output_eq (h : t.Ordered features order) (row : Array Single) :
    output t row = some (t.output row) := by
  obtain ⟨hlt, -, hlast, -⟩ := spec_path h row
  have hleaf : t.leafOf row < t.size := hlt _ (List.mem_of_getLast? hlast)
  simp [output, leafOf_eq h row, getElem?_nodes hleaf, Tree.output]

section Means

variable {α : Type} [OfNat α 0] [Add α] [Mul α] [Div α] [LT α] [DecidableLT α]
  {read : Single → α}

/-- The mean below a node takes at most one level more than there are nodes after it. -/
theorem meanFrom_eq (h : t.Ordered features order) (horder : order = before ++ i :: after)
    (hfuel : after.length < fuel) :
    meanFrom t read fuel i = some (t.meanFrom read fuel i) := by
  induction fuel generalizing before i after with
  | zero => exact absurd hfuel (Nat.not_lt_zero _)
  | succ fuel ih =>
    rw [meanFrom, Tree.meanFrom, getElem?_nodes (h.lt horder)]
    cases hchildren : (t.node i).children with
    | none => simp [hchildren]
    | some pair =>
      obtain ⟨left, right⟩ := pair
      obtain ⟨hchecked, hleft, hright⟩ := h.children_later horder hchildren
      obtain ⟨_, _, hleft, hlater⟩ := exists_split_of_mem horder hleft
      obtain ⟨_, _, hright, hlater'⟩ := exists_split_of_mem horder hright
      simp [hchildren, getElem?_nodes hchecked.left_lt, getElem?_nodes hchecked.right_lt,
        ih hleft (by omega), ih hright (by omega)]

/-- The means of a tree pass all checks. -/
theorem means_eq (h : t.Ordered features order) (read : Single → α) :
    means t read = some (t.means read) := by
  have hnodes : (List.range t.size).mapM (meanFrom t read t.size) =
      some ((List.range t.size).map (t.meanFrom read t.size)) := by
    refine List.mapM_eq_pure fun i hi => ?_
    obtain ⟨before, after, horder, hlength⟩ := h.exists_split (List.mem_range.mp hi)
    exact meanFrom_eq h horder hlength
  rw [means, hnodes, Tree.means, ← List.toArray_range, List.map_toArray]
  rfl

end Means

end Checked

/-! ## Kernels -/

/-- A tree whose nodes have an order in which parents come first, and which adds to one of
the outputs. -/
structure OutputTree.Safe (t : OutputTree) (outputs : Nat) : Prop where
  output_lt : t.output.toNat < outputs
  exists_ordered : ∃ features order, t.tree.Ordered features order

/-- Such a tree with as many means as it has nodes. -/
structure Explained.Safe {α : Type} (e : Explained α) (outputs : Nat) : Prop where
  output_lt : e.output < outputs
  exists_ordered : ∃ features order, e.tree.Ordered features order
  size_means : e.means.size = e.tree.size

/-- Rows whose values are all there. -/
def Rows.Filled (r : Rows) : Prop := r.values.size = r.count * r.columns

theorem List.foldlM_eq_some {α β : Type} {f : β → α → Option β} {g : β → α → β} {P : β → Prop}
    {l : List α} (hstep : ∀ b, P b → ∀ a ∈ l, f b a = some (g b a) ∧ P (g b a)) {b : β} (hb : P b) :
    l.foldlM f b = some (l.foldl g b) ∧ P (l.foldl g b) := by
  induction l generalizing b with
  | nil => exact ⟨rfl, hb⟩
  | cons a l ih =>
    obtain ⟨ha, hnext⟩ := hstep b hb a List.mem_cons_self
    obtain ⟨hrest, hend⟩ := ih (fun b hb a ha => hstep b hb a (List.mem_cons_of_mem _ ha)) hnext
    refine ⟨?_, hend⟩
    rw [List.foldlM_cons, ha]
    exact hrest

namespace Checked

open BoostedTrees.Tree (getElem?_nodes)

variable {trees : List OutputTree} {outputs : Nat} {rows : Rows}

/-- The values of all rows are there. -/
theorem rowOf_eq (h : rows.Filled) {i : Nat} (hi : i < rows.count) :
    rowOf rows i = some (rows.row i) := by
  refine slice_eq (Nat.mul_le_mul_right _ (Nat.le_succ i)) ?_
  rw [h]
  exact Nat.mul_le_mul_right _ hi

theorem leavesOf_eq (h : ∀ t ∈ trees, t.Safe outputs) (row : Array Single) :
    leavesOf trees row = some (BoostedTrees.leavesOf trees row) := by
  refine List.mapM_eq_pure fun t ht => ?_
  obtain ⟨_, _, hordered⟩ := (h t ht).exists_ordered
  exact leafOf_eq hordered row

/-- With a number for every output the trees add within these numbers. -/
theorem addOutputs_eq (h : ∀ t ∈ trees, t.Safe outputs) (row : Array Single) {sums : Array Single}
    (hsize : sums.size = outputs) :
    addOutputs trees row sums = some (BoostedTrees.addOutputs id trees row sums) := by
  refine (List.foldlM_eq_some (P := fun sums => sums.size = outputs) ?_ hsize).1
  intro sums hsize t ht
  obtain ⟨_, _, hordered⟩ := (h t ht).exists_ordered
  refine ⟨?_, by rw [Array.size_modify, hsize]⟩
  rw [output_eq hordered row]
  exact modify_eq (hsize ▸ (h t ht).output_lt) _

/-- With a number for every output of every row the trees add within these numbers. -/
theorem addToRows_eq (h : ∀ t ∈ trees, t.Safe outputs) (houtputs : 0 < outputs)
    (hrows : rows.Filled) {sums : Array Single} (hsize : sums.size = rows.count * outputs) :
    addToRows trees rows outputs sums = some (BoostedTrees.addToRows trees rows outputs sums) := by
  have hchunks : (List.range (rowsNeeded outputs sums.size)).mapM (fun i => do
        let row ← rowOf rows i
        return (← addOutputs trees row (sums.extract (i * outputs) ((i + 1) * outputs))).toList) =
      some ((List.range (rowsNeeded outputs sums.size)).map fun i =>
        (BoostedTrees.addOutputs id trees (rows.row i)
          (sums.extract (i * outputs) ((i + 1) * outputs))).toList) := by
    refine List.mapM_eq_pure fun i hi => ?_
    rw [hsize, rowsNeeded_mul houtputs, List.mem_range] at hi
    have hlast : (i + 1) * outputs ≤ rows.count * outputs := Nat.mul_le_mul_right _ hi
    have hchunk : (sums.extract (i * outputs) ((i + 1) * outputs)).size = outputs := by
      rw [Array.size_extract, hsize, Nat.min_eq_left hlast, Nat.succ_mul, Nat.add_sub_cancel_left]
    rw [rowOf_eq hrows hi]
    simp only [Option.bind_eq_bind, Option.bind_some, addOutputs_eq h _ hchunk]
  rw [addToRows, hchunks]
  rfl

/-- The sums for rows ask for room for them. -/
theorem runs_sumsOf (h : ∀ t ∈ trees, t.Safe outputs) (houtputs : 0 < outputs)
    (hrows : rows.Filled) : Runs (sumsOf trees rows outputs) (rows.count * outputs < roomBound)
      (BoostedTrees.sumsOf trees rows outputs) := by
  refine ((runs_entryCount rows.count outputs).bind fun hroom => .of_eq ?_ trivial).congr
    (iff_of_eq (and_true _))
  rw [BoostedTrees.sumsOf, BoostedTrees.entryCount_of_lt (lt_sizeBound hroom)]
  exact addToRows_eq h houtputs hrows Array.size_replicate

section Explanations

variable {α : Type} [OfNat α 0] [Add α] [Mul α] [Div α] [LT α] [DecidableLT α]

theorem explain_eq (h : ∀ t ∈ trees, t.Safe outputs) (read : Single → α) :
    explain read trees = some (BoostedTrees.explain read trees) := by
  refine List.mapM_eq_pure fun t ht => ?_
  obtain ⟨_, _, hordered⟩ := (h t ht).exists_ordered
  rw [means_eq hordered]
  rfl

theorem safe_explain (h : ∀ t ∈ trees, t.Safe outputs) (read : Single → α) :
    ∀ e ∈ BoostedTrees.explain read trees, e.Safe outputs := by
  intro e he
  obtain ⟨t, ht, rfl⟩ := List.mem_map.mp he
  exact ⟨(h t ht).output_lt, (h t ht).exists_ordered, by simp [Tree.means]⟩

end Explanations

section Contributions

variable {α : Type} [OfNat α 0] [Sub α] {e : Explained α}

/-- All nodes on a path have means. -/
theorem credits_eq (h : e.Safe outputs) (row : Array Single) :
    credits e row = some (e.credits row) := by
  obtain ⟨_, _, hordered⟩ := h.exists_ordered
  obtain ⟨hlt, -, -, -⟩ := spec_path hordered row
  rw [credits, path_eq hordered row, Explained.credits]
  refine List.mapM_eq_pure ?_
  rintro ⟨i, next⟩ hmem
  have hi : i < e.tree.size := hlt i (List.of_mem_zip hmem).1
  have hnext : next < e.tree.size := hlt next (List.mem_of_mem_tail (List.of_mem_zip hmem).2)
  have hmean : ∀ {j : Nat}, j < e.tree.size → e.means[j]? = some (e.means.getD j 0) := by
    intro j hj
    have hj : j < e.means.size := h.size_means ▸ hj
    simp [Array.getD_eq_getD_getElem?, hj]
  simp only [getElem?_nodes hi, hmean hi, hmean hnext, Option.bind_eq_bind, Option.bind_some]

variable [Add α] {explained : List (Explained α)} {features : Nat}

/-- With the columns of all outputs a tree contributes to columns that there are. -/
theorem addTo_eq (h : e.Safe outputs) (row : Array Single) {columns : Array α}
    (hsize : columns.size = outputs * (features + 1)) :
    addTo e features row columns = some (e.addTo features row columns) ∧
      (e.addTo features row columns).size = outputs * (features + 1) := by
  have hstop : e.output * (features + 1) + (features + 1) ≤ outputs * (features + 1) := by
    rw [← Nat.succ_mul]
    exact Nat.mul_le_mul_right _ h.output_lt
  have hroot : e.means[0]? = some (e.means.getD 0 0) := by
    obtain ⟨_, _, hordered⟩ := h.exists_ordered
    have hpos : 0 < e.means.size := h.size_means ▸ hordered.root_lt
    simp [Array.getD_eq_getD_getElem?, hpos]
  have hbias : (columns.modify (e.output * (features + 1) + features)
      (· + e.means.getD 0 0)).size = outputs * (features + 1) := by
    rw [Array.size_modify, hsize]
  -- Every credit goes to a column of the output, or nowhere.
  have hcredits := List.foldlM_eq_some (P := fun columns : Array α =>
      columns.size = outputs * (features + 1))
    (f := fun columns (credit : Nat × α) =>
      if credit.1 < features then
        modify columns (e.output * (features + 1) + credit.1) (· + credit.2)
      else some columns)
    (g := fun columns (credit : Nat × α) =>
      if credit.1 < features then
        columns.modify (e.output * (features + 1) + credit.1) (· + credit.2)
      else columns)
    (l := e.credits row) (by
      intro columns hsize credit _
      split
      · exact ⟨modify_eq (by omega) _, by rw [Array.size_modify, hsize]⟩
      · exact ⟨rfl, hsize⟩) hbias
  refine ⟨?_, hcredits.2⟩
  rw [addTo, slice_eq (Nat.le_add_right _ _) (by omega), hroot,
    credits_eq h row]
  simp only [Option.bind_eq_bind, Option.bind_some,
    modify_eq (show e.output * (features + 1) + features < columns.size by omega)]
  exact hcredits.1

/-- The contributions for a row pass all checks, and fill the columns of all outputs. -/
theorem contributions_eq (h : ∀ e ∈ explained, e.Safe outputs) (features : Nat)
    (row : Array Single) {base : List α} (hbase : base.length ≤ outputs) :
    contributions explained features outputs row base =
        some (BoostedTrees.contributions explained features outputs row base) ∧
      (BoostedTrees.contributions explained features outputs row base).size =
        outputs * (features + 1) := by
  obtain ⟨htrees, hsize⟩ := List.foldlM_eq_some
    (P := fun columns : Array α => columns.size = outputs * (features + 1))
    (g := fun columns e => e.addTo features row columns)
    (fun columns hcolumns e he => addTo_eq (h e he) row hcolumns)
    (b := Array.replicate (outputs * (features + 1)) 0) Array.size_replicate
  rw [contributions, htrees, BoostedTrees.contributions]
  refine List.foldlM_eq_some (P := fun columns : Array α =>
    columns.size = outputs * (features + 1)) ?_ hsize
  rintro columns hcolumns ⟨margin, k⟩ hmem
  refine ⟨modify_eq ?_ _, by rw [Array.size_modify, hcolumns]⟩
  -- The bias stands in the last column of its output.
  have hk : k < outputs := Nat.lt_of_lt_of_le (List.mem_zipIdx' hmem).1 hbase
  have hstop : k * (features + 1) + (features + 1) ≤ outputs * (features + 1) := by
    rw [← Nat.succ_mul]
    exact Nat.mul_le_mul_right _ hk
  omega

end Contributions

end Checked

end BoostedTrees
