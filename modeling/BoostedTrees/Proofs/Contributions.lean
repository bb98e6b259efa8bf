import BoostedTrees.Proofs.OrderedTrees
import BoostedTrees.Proofs.RowAnswers
import BoostedTrees.Proofs.SplitFeatures
import Mathlib.Algebra.BigOperators.Ring.List
import Mathlib.Algebra.BigOperators.Group.Finset.Piecewise
import Mathlib.Algebra.Order.Field.Basic
import Mathlib.Algebra.Order.Field.Rat

/-!
# What contributions account for

Every split on the path of a row credits its feature with the change of the mean output, so all
credits of a tree and its bias sum to the value of the leaf that is reached. There are only
columns for the features of the model, or for those of the matrix where the model does not know
its features, and a credit for a feature beyond them goes to no column. Without rounding, the
columns of an output thus sum to its margin less what was dropped.

Sums and contributions are computed in any type of numbers that values can be read into. Here
they are taken in a field, where addition, subtraction, multiplication and division are exact.

## Main definitions

* `columnSum`: the sum of the columns of an output
* `Explained.taken`, `Explained.dropped`: what a tree adds to the columns of an output, and what
  no column takes
* `droppedCredits`: the credits that no column takes
* `Learner.marginsIn`, `Learner.contributionsIn`: margins and contributions of a row, in any
  type of numbers

## Main results

* `Explained.sum_credits`: the credits of a tree telescope
* `columnSum_contributions_add`: the columns and what was dropped sum to the margin
* `Learner.columnSum_predict`: this holds of predictions after any history
-/

namespace BoostedTrees

open BoostedTrees.Matrix (lonelyRow numbered_lonelyRow)

/-! ## Columns -/

section Columns

variable {α β : Type} [AddCommMonoid α] {features outputs k : Nat} {columns : Array α}

/-- The sum of the columns of an output, its bias among them. -/
def columnSum (features k : Nat) (columns : Array α) : α :=
  ∑ c ∈ Finset.range (features + 1), columns.getD (k * (features + 1) + c) 0

theorem getD_modify_add {i j : Nat} (hj : j < columns.size) (x : α) :
    (columns.modify i (· + x)).getD j 0 = columns.getD j 0 + if i = j then x else 0 := by
  rw [Array.getD_eq_getD_getElem?, Array.getD_eq_getD_getElem?, Array.getElem?_modify,
    Array.getElem?_eq_getElem hj]
  by_cases hij : i = j
  · simp [hij]
  · simp [hij]

theorem getD_zipWith_add {a b : Array α} (ha : k < a.size) (hb : k < b.size) :
    (Array.zipWith (· + ·) a b).getD k 0 = a.getD k 0 + b.getD k 0 := by
  simp [Array.getD_eq_getD_getElem?, ha, hb]

/-- Columns of rows of one width are equal if the rows are and the places in them. -/
theorem column_eq_iff {width k k' c c' : Nat} (hc : c < width) (hc' : c' < width) :
    k' * width + c' = k * width + c ↔ k' = k ∧ c' = c := by
  have hpos : 0 < width := Nat.lt_of_le_of_lt (Nat.zero_le _) hc
  constructor
  · intro h
    have hrow := congrArg (· / width) h
    have hplace := congrArg (· % width) h
    simp only [Nat.mul_comm _ width, Nat.mul_add_div hpos, Nat.div_eq_of_lt hc,
      Nat.div_eq_of_lt hc', Nat.add_zero] at hrow
    simp only [Nat.mul_comm _ width, Nat.mul_add_mod, Nat.mod_eq_of_lt hc,
      Nat.mod_eq_of_lt hc'] at hplace
    exact ⟨hrow, hplace⟩
  · rintro ⟨rfl, rfl⟩
    rfl

/-- A number that is added to a column of an output is added to the sum of that output. -/
theorem columnSum_modify (hsize : (k + 1) * (features + 1) ≤ columns.size) {c : Nat}
    (hc : c ≤ features) (k' : Nat) (x : α) :
    columnSum features k (columns.modify (k' * (features + 1) + c) (· + x)) =
      columnSum features k columns + if k' = k then x else 0 := by
  have hterm : ∀ c' ∈ Finset.range (features + 1),
      (columns.modify (k' * (features + 1) + c) (· + x)).getD (k * (features + 1) + c') 0 =
        columns.getD (k * (features + 1) + c') 0 +
          if c = c' then if k' = k then x else 0 else 0 := by
    intro c' hc'
    have hlt : c' < features + 1 := Finset.mem_range.mp hc'
    have hplace : k * (features + 1) + c' < columns.size := by
      rw [Nat.succ_mul] at hsize
      omega
    rw [getD_modify_add hplace]
    simp only [column_eq_iff hlt (Nat.lt_succ_of_le hc)]
    by_cases hk : k' = k
    · simp [hk]
    · simp [hk]
  -- At most one of the columns changes, so the sum of the changes is this one.
  rw [columnSum, Finset.sum_congr rfl hterm, Finset.sum_add_distrib, Finset.sum_ite_eq,
    if_pos (Finset.mem_range.mpr (Nat.lt_succ_of_le hc))]
  rfl

/-- What the steps of a fold add to the columns of an output, the fold adds. -/
theorem columnSum_foldl {f : Array α → β → Array α} {g : β → α}
    (hsize : ∀ columns b, (f columns b).size = columns.size)
    (hstep : ∀ columns, (k + 1) * (features + 1) ≤ columns.size → ∀ b,
      columnSum features k (f columns b) = columnSum features k columns + g b)
    (l : List β) (hcolumns : (k + 1) * (features + 1) ≤ columns.size) :
    columnSum features k (l.foldl f columns) = columnSum features k columns + (l.map g).sum := by
  induction l generalizing columns with
  | nil => simp
  | cons b l ih =>
    rw [List.foldl_cons, ih (hcolumns.trans_eq (hsize columns b).symm), hstep columns hcolumns,
      List.map_cons, List.sum_cons, add_assoc]

theorem columnSum_replicate (n : Nat) : columnSum features k (Array.replicate n (0 : α)) = 0 := by
  refine Finset.sum_eq_zero fun c _ => ?_
  rw [Array.getD_eq_getD_getElem?, Array.getElem?_replicate]
  split <;> rfl

/-- Of numbered entries, just the one with a number counts for it. -/
theorem sum_zipIdx_ite (base : List α) (n : Nat) :
    ((base.zipIdx n).map fun p => if p.2 = n + k then p.1 else 0).sum = base.getD k 0 := by
  induction base generalizing n k with
  | nil => simp
  | cons x base ih =>
    rw [List.zipIdx_cons, List.map_cons, List.sum_cons]
    rcases k with _ | k
    · have hrest : ((base.zipIdx (n + 1)).map fun p => if p.2 = n then p.1 else 0).sum = 0 := by
        refine List.sum_eq_zero fun y hy => ?_
        obtain ⟨p, hp, rfl⟩ := List.mem_map.mp hy
        have hle := List.le_snd_of_mem_zipIdx hp
        exact if_neg (by omega)
      simp [hrest]
    · have hne : n ≠ n + (k + 1) := by omega
      have hih := ih (n + 1) (k := k)
      rw [show n + 1 + k = n + (k + 1) by omega] at hih
      simp [hih]

end Columns

/-! ## Credits -/

section Credits

variable {α : Type}

/-- The changes along a list sum to the change from its first entry to its last. -/
theorem sum_changes [AddCommGroup α] (f : Nat → α) (i : Nat) (rest : List Nat) :
    (((i :: rest).zip rest).map fun p => f p.2 - f p.1).sum =
      f ((i :: rest).getLastD 0) - f i := by
  induction rest generalizing i with
  | nil => simp
  | cons j rest ih =>
    rw [List.zip_cons_cons, List.map_cons, List.sum_cons, ih j]
    simp [List.getLastD_eq_getLast?, List.getLast?_cons_cons]

theorem Tree.exists_pathFrom_eq_cons (t : Tree) (row : Array Single) (fuel i : Nat) :
    ∃ rest, t.pathFrom row fuel i = i :: rest := by
  cases fuel with
  | zero => exact ⟨[], rfl⟩
  | succ fuel =>
    rw [pathFrom]
    split
    · exact ⟨[], rfl⟩
    · exact ⟨_, rfl⟩

/-- Of a walk, every step but the last goes on to a child. -/
theorem Tree.childFor?_of_mem_pathFrom {t : Tree} {row : Array Single} {fuel i : Nat}
    {p : Nat × Nat} (h : p ∈ (t.pathFrom row fuel i).zip (t.pathFrom row fuel i).tail) :
    (t.node p.1).childFor? row = some p.2 := by
  induction fuel generalizing i with
  | zero => simp [pathFrom] at h
  | succ fuel ih =>
    rw [pathFrom] at h
    cases hchild : (t.node i).childFor? row with
    | none => simp [hchild] at h
    | some child =>
      obtain ⟨rest, hrest⟩ := t.exists_pathFrom_eq_cons row fuel child
      simp only [hchild, List.tail_cons] at h
      rw [hrest, List.zip_cons_cons, ← hrest] at h
      rcases List.mem_cons.mp h with rfl | h
      · exact hchild
      · refine ih (i := child) ?_
        rwa [hrest, List.tail_cons, ← hrest]

variable [Field α] {features outputs k : Nat} {row : Array Single}

/-- What a tree adds to the columns of an output: its bias and the credits that have a column. -/
def Explained.taken (e : Explained α) (features k : Nat) (row : Array Single) : α :=
  if e.output = k then e.means.getD 0 0 +
    (((e.credits row).filter fun credit => credit.1 < features).map (·.2)).sum else 0

/-- What a tree credits to an output for features beyond the columns. -/
def Explained.dropped (e : Explained α) (features k : Nat) (row : Array Single) : α :=
  if e.output = k then
    (((e.credits row).filter fun credit => ¬credit.1 < features).map (·.2)).sum else 0

theorem columnSum_addTo {columns : Array α} (hsize : (k + 1) * (features + 1) ≤ columns.size)
    (e : Explained α) :
    columnSum features k (e.addTo features row columns) =
      columnSum features k columns + e.taken features k row := by
  have hcredit : ∀ columns : Array α, (k + 1) * (features + 1) ≤ columns.size → ∀ p : Nat × α,
      columnSum features k (if p.1 < features then
          columns.modify (e.output * (features + 1) + p.1) (· + p.2) else columns) =
        columnSum features k columns +
          if e.output = k then if p.1 < features then p.2 else 0 else 0 := by
    intro columns hsize p
    by_cases hp : p.1 < features
    · simp only [if_pos hp]
      exact columnSum_modify hsize hp.le _ _
    · simp [hp]
  have hkeep : ∀ (columns : Array α) (p : Nat × α), (if p.1 < features then
      columns.modify (e.output * (features + 1) + p.1) (· + p.2) else columns).size =
        columns.size := by
    intro columns p
    split
    · exact Array.size_modify
    · rfl
  have hbias : (k + 1) * (features + 1) ≤
      (columns.modify (e.output * (features + 1) + features) (· + e.means.getD 0 0)).size :=
    Array.size_modify.symm ▸ hsize
  rw [Explained.addTo, columnSum_foldl hkeep hcredit _ hbias,
    columnSum_modify hsize (Nat.le_refl _), add_assoc, Explained.taken]
  congr 1
  -- A tree of another output adds nothing, by its bias or by its credits.
  by_cases hk : e.output = k
  · simp only [if_pos hk]
    rw [List.sum_map_ite]
    simp
  · simp [hk]

/-- The columns of an output sum to its starting margin and what the trees add to them. -/
theorem columnSum_contributions (hk : k < outputs) (es : List (Explained α)) (base : List α) :
    columnSum features k (contributions es features outputs row base) =
      (es.map (·.taken features k row)).sum + base.getD k 0 := by
  have hzeros : (k + 1) * (features + 1) ≤
      (Array.replicate (outputs * (features + 1)) (0 : α)).size := by
    rw [Array.size_replicate]
    exact Nat.mul_le_mul_right _ hk
  have hsize (columns : Array α) (e : Explained α) :
      (e.addTo features row columns).size = columns.size :=
    e.size_addTo features row columns
  have hsums : (k + 1) * (features + 1) ≤ (es.foldl (fun columns e =>
      e.addTo features row columns) (Array.replicate (outputs * (features + 1)) (0 : α))).size :=
    hzeros.trans_eq (size_foldl hsize es _).symm
  have hmargin (columns : Array α) (p : α × Nat) :
      (columns.modify (p.2 * (features + 1) + features) (· + p.1)).size = columns.size :=
    Array.size_modify
  have hbase : (base.zipIdx.map fun p => if p.2 = k then p.1 else 0).sum = base.getD k 0 := by
    simpa only [Nat.zero_add] using sum_zipIdx_ite (k := k) base 0
  rw [contributions, columnSum_foldl hmargin
      (fun columns hcolumns p => columnSum_modify hcolumns (Nat.le_refl _) p.2 p.1) _ hsums,
    columnSum_foldl hsize (fun columns hcolumns e => columnSum_addTo hcolumns e) _ hzeros,
    columnSum_replicate, zero_add, hbase]

/-- The sums of the outputs of trees, output by output. -/
theorem getD_addOutputs (read : Single → α) (trees : List OutputTree) {sums : Array α}
    (hk : k < sums.size) :
    (addOutputs read trees row sums).getD k 0 = sums.getD k 0 +
      (trees.map fun t => if t.output.toNat = k then read (t.tree.output row) else 0).sum := by
  induction trees generalizing sums with
  | nil => simp [addOutputs]
  | cons t trees ih =>
    have hk' : k < (sums.modify t.output.toNat (· + read (t.tree.output row))).size :=
      Array.size_modify.symm ▸ hk
    rw [addOutputs, List.foldl_cons, ← addOutputs, ih hk', getD_modify_add hk, List.map_cons,
      List.sum_cons, add_assoc]

variable [LinearOrder α] (read : Single → α)

/-- The mean below a leaf is its value. -/
theorem Tree.getD_means_of_isLeaf {t : Tree} {i : Nat} (hi : i < t.size)
    (hleaf : (t.node i).isLeaf) : (t.means read).getD i 0 = read (t.node i).value := by
  have hchildren : (t.node i).children = none := Option.isNone_iff_eq_none.mp hleaf
  rw [means, Array.getD_eq_getD_getElem?, Array.getElem?_map, Array.getElem?_range, if_pos hi]
  show t.meanFrom read t.size i = _
  cases hsize : t.size with
  | zero => exact absurd (hsize ▸ hi) (Nat.not_lt_zero _)
  | succ fuel => rw [meanFrom, hchildren]

/-- The credits of a tree sum to the change from the mean of its root to the value of the leaf
that is reached. -/
theorem Explained.sum_credits {t : Tree} (h : ∃ features order, t.Ordered features order)
    (output : Nat) (row : Array Single) :
    (((⟨t, output, t.means read⟩ : Explained α).credits row).map (·.2)).sum =
      read (t.output row) - (t.means read).getD 0 0 := by
  obtain ⟨features, order, hordered⟩ := h
  obtain ⟨hlt, -, hlast, hleaf⟩ := Checked.spec_path hordered row
  obtain ⟨rest, hpath⟩ := t.exists_pathFrom_eq_cons row t.size 0
  have hpath : t.path row = 0 :: rest := hpath
  have hreached : (t.means read).getD (t.leafOf row) 0 = read (t.output row) :=
    Tree.getD_means_of_isLeaf read (hlt _ (List.mem_of_getLast? hlast)) hleaf
  rw [credits, List.map_map, hpath, List.tail_cons, ← hreached, Tree.leafOf, hpath]
  exact sum_changes (fun i => (t.means read).getD i 0) 0 rest

/-- The credits of the trees of an output that no column takes, because they are for features
beyond the columns. -/
def droppedCredits (trees : List OutputTree) (features k : Nat) (row : Array Single) :
    List (Nat × α) :=
  (explain read (trees.filter fun t => t.output.toNat = k)).flatMap fun e =>
    (e.credits row).filter fun credit => features ≤ credit.1

/-- The sum of what was dropped, tree by tree. -/
theorem sum_droppedCredits (trees : List OutputTree) :
    ((droppedCredits read trees features k row).map (·.2)).sum =
      ((explain read trees).map (·.dropped features k row)).sum := by
  induction trees with
  | nil => rfl
  | cons t trees ih =>
    rw [explain, List.map_cons, List.map_cons, List.sum_cons, ← explain, ← ih]
    by_cases hk : t.output.toNat = k
    · simp [droppedCredits, explain, Explained.dropped, hk]
    · simp [droppedCredits, explain, Explained.dropped, hk]

/-- A tree whose walks end at leaves adds the value of the leaf that is reached to its output,
in part to columns and in part dropped. -/
theorem Explained.taken_add_dropped {t : Tree} (h : ∃ features order, t.Ordered features order)
    (output : Nat) :
    (⟨t, output, t.means read⟩ : Explained α).taken features k row +
        (⟨t, output, t.means read⟩ : Explained α).dropped features k row =
      if output = k then read (t.output row) else 0 := by
  by_cases hk : output = k
  · simp only [taken, dropped, if_pos hk]
    rw [add_assoc, List.sum_map_filter_add_sum_map_filter_not, sum_credits read h, add_sub_cancel]
  · simp only [taken, dropped, if_neg hk, add_zero]

/-- The columns of an output and what was dropped of it sum to the starting margin and the
outputs of the trees. -/
theorem columnSum_contributions_add {trees : List OutputTree}
    (h : ∀ t ∈ trees, ∃ features order, t.tree.Ordered features order) (hk : k < outputs)
    (base : List α) :
    columnSum features k (contributions (explain read trees) features outputs row base) +
        ((droppedCredits read trees features k row).map (·.2)).sum =
      base.getD k 0 +
        (trees.map fun t => if t.output.toNat = k then read (t.tree.output row) else 0).sum := by
  -- Tree by tree, what goes to columns and what is dropped make up the leaf that is reached.
  have hsplit : ((explain read trees).map (·.taken features k row)).sum +
      ((explain read trees).map (·.dropped features k row)).sum =
        (trees.map fun t => if t.output.toNat = k then read (t.tree.output row) else 0).sum := by
    rw [← List.sum_map_add, explain, List.map_map]
    refine congrArg List.sum (List.map_congr_left fun t ht => ?_)
    exact Explained.taken_add_dropped read (h t ht) t.output.toNat
  rw [columnSum_contributions hk, sum_droppedCredits, add_right_comm, hsplit, add_comm]

/-- Where all splits are on features that have a column, no credit is dropped. -/
theorem droppedCredits_eq_nil {trees : List OutputTree}
    (h : ∀ t ∈ trees, t.tree.SplitsBelow features) :
    droppedCredits read trees features k row = [] := by
  refine List.flatMap_eq_nil_iff.mpr fun e he => ?_
  obtain ⟨t, ht, rfl⟩ := List.mem_map.mp he
  refine List.filter_eq_nil_iff.mpr fun credit hcredit => ?_
  obtain ⟨⟨i, next⟩, hstep, rfl⟩ := List.mem_map.mp hcredit
  -- A credit is for the feature of a split, since the walk goes on from there.
  obtain ⟨left, right, hchildren, -⟩ :=
    Node.exists_of_childFor?_eq_some (Tree.childFor?_of_mem_pathFrom hstep)
  have hlt := h t (List.mem_of_mem_filter ht) i _ hchildren
  simpa using hlt

end Credits

/-! ## Predictions -/

namespace Learner

variable {K : Matrix → Prop} {l : Learner}

section Rows

variable {α : Type} [OfNat α 0] [Add α] (l : Learner) (read : Single → α)
  (trees : List OutputTree)

/-- The margins of a row, in the numbers that values are read into. -/
def marginsIn (row base : Array Single) : Array α :=
  Array.zipWith (· + ·) (base.map read)
    (addOutputs read trees row (Array.replicate l.outputs 0))

/-- The contributions for a row, in the numbers that values are read into. -/
def contributionsIn [Sub α] [Mul α] [Div α] [LT α] [DecidableLT α] (features : Nat)
    (row base : Array Single) : Array α :=
  contributions (explain read trees) features l.outputs row (base.map read).toList

end Rows

/-- With values read as they are, these are the margins that are predicted. -/
theorem rowMargins_eq (l : Learner) (trees : List OutputTree) (row base : Array Single) :
    l.rowMargins trees row base = (l.marginsIn id trees row base).toList := by
  rw [rowMargins, marginsIn, addMargins, Array.map_id]

theorem rowAnswer_contributions (l : Learner) (trees : List OutputTree) (features : Nat)
    (row base : Array Single) :
    l.rowAnswer .contributions trees features row base =
      (l.contributionsIn id trees features row base).toList := by
  rw [rowAnswer, contributionsIn, Array.map_id]

/-- Without rounding, the columns of an output and what was dropped of it sum to its margin. -/
theorem columnSum_contributionsIn_add {α : Type} [Field α] [LinearOrder α] (read : Single → α)
    {trees : List OutputTree}
    (h : ∀ t ∈ trees, ∃ features order, t.tree.Ordered features order) (features : Nat)
    {k : Nat} (hk : k < l.outputs) (row : Array Single) {base : Array Single}
    (hbase : base.size = l.outputs) :
    columnSum features k (l.contributionsIn read trees features row base) +
        ((droppedCredits read trees features k row).map (·.2)).sum =
      (l.marginsIn read trees row base).getD k 0 := by
  have hmargin : k < (base.map read).size := by rwa [Array.size_map, hbase]
  have hsum : k < (Array.replicate l.outputs (0 : α)).size := by rwa [Array.size_replicate]
  have hsums : k < (addOutputs read trees row (Array.replicate l.outputs (0 : α))).size := by
    rwa [addOutputs, size_foldl fun _ _ => Array.size_modify, Array.size_replicate]
  have hzero : (Array.replicate l.outputs (0 : α)).getD k 0 = 0 := by
    rw [Array.getD_eq_getD_getElem?, Array.getElem?_replicate]
    split <;> rfl
  rw [contributionsIn, columnSum_contributions_add read h hk, marginsIn,
    getD_zipWith_add hmargin hsums, getD_addOutputs read trees hsum, hzero, zero_add]
  simp [List.getD_eq_getElem?_getD, Array.getD_eq_getD_getElem?]

/-- Take any history of a new learner and a matrix that it predicts margins for from some number of
rounds. It then predicts contributions too, and both are computed row by row. Computed without
rounding, the columns of an output, its bias among them, sum to its margin up to the credits that
were dropped because they are for features beyond the columns. There are none of these where
all splits are on features that have a column. -/
theorem columnSum_predict (hK : Matrix.Numbered K) (created : List Matrix) (os : List Occasion)
    (hos : ∀ o ∈ os, ∀ m ∈ o.request.matrices, K m) {m : Matrix} (hm : K m) {limit : UInt32}
    (hfits : ((create created).after os).PredictionFits .contributions 0 limit m.toRows)
    {margins : List Single}
    (hmargins : (predict m PredictionKind.margin.mask limit ((create created).after os)).1 =
      .ok margins) :
    let l := (create created).after os
    ∃ range start, l.forest.range? l.outputs 0 limit = some range ∧
      l.startingMargins m.rows m.baseMargin = .ok start ∧
      let trees := l.forest.within range
      let features := l.contributionColumns m.columns
      let base := fun i => start.toArray.extract (i * l.outputs) ((i + 1) * l.outputs)
      margins = ((List.range m.rows).flatMap fun i =>
        (l.marginsIn id trees (m.row i) (base i)).toList) ∧
      (predict m PredictionKind.contributions.mask limit l).1 =
        .ok ((List.range m.rows).flatMap fun i =>
          (l.contributionsIn id trees features (m.row i) (base i)).toList) ∧
      ∀ {α : Type} [Field α] [LinearOrder α] (read : Single → α), ∀ i < m.rows, ∀ k < l.outputs,
        columnSum features k (l.contributionsIn read trees features (m.row i) (base i)) +
            ((droppedCredits read trees features k (m.row i)).map (·.2)).sum =
          (l.marginsIn read trees (m.row i) (base i)).getD k 0 ∧
        ((∀ t ∈ trees, t.tree.SplitsBelow features) →
          droppedCredits read trees features k (m.row i) = []) := by
  intro l
  have hsound := sound_after hK (sound_create K created) hos
  rw [predict_fst hK hsound hm] at hmargins
  obtain ⟨_, hcolumns, hplain⟩ := Except.bind_eq_ok hmargins
  rw [PredictionKind.ofMask_mask] at hplain
  obtain ⟨range, start, hrange, hstart, rfl⟩ := plainRows_eq_ok.mp hplain
  have hordered : ∀ t ∈ l.forest.within range, ∃ features order, t.tree.Ordered features order :=
    fun t ht => exists_ordered_after created os t (Forest.mem_of_mem_within ht)
  have hmarginsFit : l.PredictionFits .margin 0 limit m.toRows :=
    ⟨hfits.margins, fun _ _ => hfits.margins⟩
  refine ⟨range, start, hrange, hstart, ?_, ?_, ?_⟩
  · rw [hmarginsFit.plainRange_eq hstart]
    exact List.flatMap_congr fun i _ => l.rowMargins_eq _ _ _
  · have hanswer := plainRows_eq_ok.mpr ⟨range, start, hrange, hstart,
      hfits.plainRange_eq hstart⟩
    rw [predict_fst hK hsound hm, plainMatrix, PredictionKind.ofMask_mask, hcolumns]
    refine hanswer.trans (congrArg Except.ok ?_)
    exact List.flatMap_congr fun i _ => l.rowAnswer_contributions _ _ _ _
  · intro α _ _ read i hi k hk
    exact ⟨columnSum_contributionsIn_add read hordered _ hk _
      (size_extract_piece (hfits.size_start hstart) hi), droppedCredits_eq_nil read⟩

/-- The split of a stump is on the only feature, so that nothing is dropped. -/
theorem columnSum_predict_stump :
    let l := (create []).after stumpHistory
    ∃ trees base, ∀ read : Single → ℚ,
      columnSum 1 0 (l.contributionsIn read trees 1 ((lonelyRow 7).row 0) base) =
        (l.marginsIn read trees ((lonelyRow 7).row 0) base).getD 0 0 := by
  intro l
  obtain ⟨given, hload⟩ := load_stump (create [])
  have hl : l = (create []).takenOver stump given stump.forest := congrArg Prod.snd hload
  have hfits : l.PredictionFits .contributions 0 0 (lonelyRow 7).toRows := by
    rw [hl]
    exact ⟨rfl, fun _ _ => rfl⟩
  obtain ⟨margins, hmargins⟩ :
      ∃ margins, (predict (lonelyRow 7) PredictionKind.margin.mask 0 l).1 = .ok margins := by
    have hsame : stump.SameModel l := hl ▸ sameModel_takenOver stump (create []) given
    have hempty : l.cache = .empty := hl ▸ rfl
    rw [predict_of_empty hempty, ← hsame.plainMatrix_eq]
    exact ⟨_, rfl⟩
  obtain ⟨range, start, -, -, -, -, hsum⟩ := columnSum_predict numbered_lonelyRow [] stumpHistory
    (by simp [stumpHistory, Request.matrices]) ⟨7, rfl⟩ hfits hmargins
  have hbelow : ∀ t ∈ l.forest.within range, t.tree.SplitsBelow 1 := by
    intro t ht
    have hmem : t ∈ stump.forest.trees := by
      have hmem := Forest.mem_of_mem_within ht
      rwa [hl] at hmem
    rw [List.mem_singleton.mp hmem]
    have hvalid : (stump.forest.trees.head (by decide)).tree.validate 1 = .ok () := by
      decide +kernel
    exact Tree.splitsBelow_of_validate hvalid (by decide)
  have hcolumns : l.contributionColumns 1 = 1 := by
    rw [hl]
    rfl
  refine ⟨l.forest.within range, start.toArray.extract (0 * l.outputs) ((0 + 1) * l.outputs),
    fun read => ?_⟩
  obtain ⟨heq, hnil⟩ := hsum read 0 (by decide) 0 l.outputs_pos
  rw [show (lonelyRow 7).columns = 1 from rfl, hcolumns] at heq hnil
  rwa [hnil hbelow, List.map_nil, List.sum_nil, add_zero] at heq

end Learner

end BoostedTrees
