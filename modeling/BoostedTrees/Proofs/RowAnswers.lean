import BoostedTrees.Proofs.FailedRequests
import BoostedTrees.Proofs.SafePrediction

/-!
# Predictions, row by row

A prediction is one flat list, computed from flat lists of values, margins and sums. It is made
of one piece for every row, and the piece of a row depends on the values of this row and
on the margins it starts from, and on no other row. All pieces are of the same length,
which is how many columns the answer has.

## Main definitions

* `Learner.rowAnswer`: what trees say of one row
* `Learner.answerColumns`: how many numbers that is
* `Learner.PredictionFits`: the size of a prediction is that of something in memory

## Main results

* `Learner.plainRange_eq_flatMap`: what trees say of rows is what they say of each, in order
* `Learner.length_rowAnswer`: the pieces are of the same length
-/

namespace BoostedTrees

/-! ## Pieces of one length -/

section Pieces

variable {α β γ ι : Type} {width : Nat}

/-- A piece of an array of pieces has their width. -/
theorem size_extract_piece {a : Array α} {count i : Nat} (h : a.size = count * width)
    (hi : i < count) : (a.extract (i * width) ((i + 1) * width)).size = width := by
  have hstop : (i + 1) * width ≤ a.size := h ▸ Nat.mul_le_mul_right _ hi
  rw [Array.size_extract, Nat.min_eq_left hstop, Nat.succ_mul, Nat.add_sub_cancel_left]

/-- Cut into pieces and put together again, an array is what it was. -/
theorem flatMap_extract (a : Array α) (width count : Nat) :
    ((List.range count).flatMap fun i => (a.extract (i * width) ((i + 1) * width)).toList) =
      (a.extract 0 (count * width)).toList := by
  induction count with
  | zero => simp
  | succ count ih =>
    have hle : count * width ≤ (count + 1) * width := Nat.mul_le_mul_right _ (Nat.le_succ _)
    rw [List.range_succ, List.flatMap_append, ih, List.flatMap_singleton, ← Array.toList_append,
      Array.extract_append_extract, Nat.min_eq_left (Nat.zero_le _), Nat.max_eq_right hle]

/-- Pieces that match each other are combined piece by piece. -/
theorem zipWith_flatMap (f : α → β → γ) {l : List ι} {a : ι → List α} {b : ι → List β}
    (h : ∀ i ∈ l, (a i).length = (b i).length) :
    List.zipWith f (l.flatMap a) (l.flatMap b) = l.flatMap fun i => List.zipWith f (a i) (b i) := by
  induction l with
  | nil => rfl
  | cons i l ih =>
    obtain ⟨hi, hl⟩ := List.forall_mem_cons.mp h
    rw [List.flatMap_cons, List.flatMap_cons, List.flatMap_cons, List.zipWith_append hi, ih hl]

theorem length_flatMap_of_forall {l : List ι} {c : ι → List α}
    (h : ∀ i ∈ l, (c i).length = width) : (l.flatMap c).length = l.length * width := by
  rw [List.length_flatMap, List.map_congr_left h, List.map_const', List.sum_replicate_nat]

/-- Pieces of a width are the rows of that width. -/
theorem Objective.rowsOf_flatMap (hwidth : 0 < width) {l : List ι} {c : ι → List α}
    (h : ∀ i ∈ l, (c i).length = width) : rowsOf width (l.flatMap c) = l.map c := by
  have htake : ∀ l : List ι, (∀ i ∈ l, (c i).length = width) →
      takeRows width l.length (l.flatMap c) = l.map c := by
    intro l hl
    induction l with
    | nil => rfl
    | cons i l ih =>
      obtain ⟨hi, hl⟩ := List.forall_mem_cons.mp hl
      rw [List.length_cons, takeRows, List.flatMap_cons, List.take_left' hi, List.drop_left' hi,
        ih hl, List.map_cons]
  have hcount : ((l.flatMap c).length + width - 1) / width = l.length := by
    rw [length_flatMap_of_forall h]
    exact rowsNeeded_mul hwidth l.length
  rw [rowsOf, hcount, htake l h]

end Pieces

/-! ## Transforms -/

namespace Objective

variable {ι : Type} {outputs : Nat} {o : Objective}

/-- As many numbers as a row has outputs are one row. -/
theorem rowsOf_row (houtputs : 0 < outputs) {row : List Single} (h : row.length = outputs) :
    rowsOf outputs row = [row] := by
  have hone := rowsOf_flatMap houtputs (c := id) (List.forall_mem_singleton.mpr h)
  rwa [List.flatMap_singleton] at hone

/-- The transform of an objective works row by row. -/
theorem outputTransform_flatMap (houtputs : 0 < outputs) (o : Objective) {l : List ι}
    {c : ι → List Single} (h : ∀ i ∈ l, (c i).length = outputs) :
    o.outputTransform outputs (l.flatMap c) =
      l.flatMap fun i => o.outputTransform outputs (c i) := by
  have hmax : max outputs 1 = outputs := Nat.max_eq_left houtputs
  cases o with
  | classProbabilities =>
    simp only [outputTransform, evalTransform, hmax, rowsOf_flatMap houtputs h, List.flatMap_map]
    refine List.flatMap_congr fun i hi => ?_
    rw [rowsOf_row houtputs (h i hi), List.flatMap_singleton]
  | mostLikelyClass =>
    simp only [outputTransform, hmax, rowsOf_flatMap houtputs h, List.map_map]
    rw [List.map_eq_flatMap]
    refine List.flatMap_congr fun i hi => ?_
    rw [rowsOf_row houtputs (h i hi)]
    rfl
  | logistic => simp only [outputTransform, evalTransform, List.map_flatMap]
  | binaryLogistic => simp only [outputTransform, evalTransform, List.map_flatMap]
  | _ => rfl

/-- The transform of one row gives one class, or as many numbers as there are outputs. -/
theorem length_outputTransform (houtputs : 0 < outputs) {row : List Single}
    (h : row.length = outputs) :
    (o.outputTransform outputs row).length = if o = .mostLikelyClass then 1 else outputs := by
  have hmax : max outputs 1 = outputs := Nat.max_eq_left houtputs
  have hrow := rowsOf_row houtputs h
  cases o with
  | classProbabilities =>
    simp only [outputTransform, evalTransform, hmax, hrow, List.flatMap_singleton]
    exact (length_softmax row).trans h
  | mostLikelyClass => simp only [outputTransform, hmax, hrow, List.map_singleton]; rfl
  | logistic => exact (List.length_map _).trans h
  | binaryLogistic => exact (List.length_map _).trans h
  | _ => exact h

end Objective

/-! ## Entries and sums -/

/-- Sides that fit a signed word together have a product that is a word. -/
theorem Matrix.mul_lt_of_sidesFit {rows columns : Nat} (h : sidesFit rows columns) :
    rows * columns < sizeBound := by
  simp only [sidesFit, decide_eq_true_eq] at h
  calc rows * columns ≤ max rows 1 * max columns 1 :=
        Nat.mul_le_mul (Nat.le_max_left _ _) (Nat.le_max_left _ _)
    _ < sizeBound := Nat.lt_trans h (by decide)

/-- Shorter sides fit where longer ones do. -/
theorem Matrix.sidesFit_mono {rows columns rows' columns' : Nat} (h : sidesFit rows columns)
    (hrows : rows' ≤ max rows 1) (hcolumns : columns' ≤ max columns 1) :
    sidesFit rows' columns' := by
  simp only [sidesFit, decide_eq_true_eq] at h ⊢
  exact Nat.lt_of_le_of_lt (Nat.mul_le_mul (by omega) (by omega)) h

namespace Rows

variable {rows : Rows} {width : Nat}

/-- Entries are the pieces of all rows. -/
theorem entries_eq_flatMap {α : Type} {piece : Nat → List α}
    (h : ∀ i < rows.count, (piece i).length = width) :
    rows.entries width piece = (List.range rows.count).flatMap piece := by
  rw [entries]
  split
  · next hwidth =>
    -- Pieces without numbers are no numbers, however many there are.
    have hlength := length_flatMap_range h
    rw [hwidth, Nat.mul_zero, List.length_eq_zero_iff] at hlength
    exact hlength.symm
  · rfl

end Rows

/-- The sums for rows are the sums for each of them. -/
theorem toList_sumsOf {rows : Rows} {outputs : Nat} (houtputs : 0 < outputs)
    (hfits : rows.count * outputs < sizeBound) (trees : List OutputTree) :
    (sumsOf trees rows outputs).toList = (List.range rows.count).flatMap fun i =>
      (addOutputs id trees (rows.row i) (Array.replicate outputs 0)).toList := by
  rw [sumsOf, toList_addToRows, Array.size_replicate, entryCount_of_lt hfits,
    rowsNeeded_mul houtputs]
  refine List.flatMap_congr fun i hi => ?_
  have hstop : (i + 1) * outputs ≤ rows.count * outputs :=
    Nat.mul_le_mul_right _ (List.mem_range.mp hi)
  have hwidth : min ((i + 1) * outputs) (rows.count * outputs) - i * outputs = outputs := by
    rw [Nat.min_eq_left hstop, Nat.succ_mul, Nat.add_sub_cancel_left]
  rw [addToRow, Array.extract_replicate, hwidth]

/-! ## The piece of a row -/

/-- Steps that keep the size of an array keep it together. -/
theorem size_foldl {α β : Type} {f : Array α → β → Array α} (h : ∀ a b, (f a b).size = a.size)
    (l : List β) (a : Array α) : (l.foldl f a).size = a.size := by
  induction l generalizing a with
  | nil => rfl
  | cons b l ih => rw [List.foldl_cons, ih, h]

section Contributions

variable {α : Type} [OfNat α 0] [Add α] [Sub α]

@[simp] theorem Explained.size_addTo (e : Explained α) (features : Nat) (row : Array Single)
    (columns : Array α) : (e.addTo features row columns).size = columns.size := by
  rw [addTo, size_foldl, Array.size_modify]
  rintro columns ⟨feature, change⟩
  dsimp only
  split
  · exact Array.size_modify
  · rfl

/-- Every output has a column for every feature and one for the bias. -/
@[simp] theorem size_contributions (explained : List (Explained α)) (features outputs : Nat)
    (row : Array Single) (base : List α) :
    (contributions explained features outputs row base).size = outputs * (features + 1) := by
  have hbase (columns : Array α) (m : α × Nat) :
      (columns.modify (m.2 * (features + 1) + features) (· + m.1)).size = columns.size :=
    Array.size_modify
  have hentry (columns : Array α) (e : Explained α) :
      (e.addTo features row columns).size = columns.size :=
    e.size_addTo features row columns
  rw [contributions, size_foldl hbase, size_foldl hentry, Array.size_replicate]

end Contributions

namespace Learner

variable {l : Learner} {kind : PredictionKind} {range : Forest.Range} {rows : Rows}

/-- The margins of one row, which starts from the given ones. -/
def rowMargins (l : Learner) (trees : List OutputTree) (row base : Array Single) : List Single :=
  (addMargins base (addOutputs id trees row (Array.replicate l.outputs 0))).toList

/-- What trees say of one row, where contributions are given for a number of features. -/
def rowAnswer (l : Learner) (kind : PredictionKind) (trees : List OutputTree) (features : Nat)
    (row base : Array Single) : List Single :=
  match kind with
  | .contributions =>
    (contributions (explain id trees) features l.outputs row base.toList).toList
  | .leaf => (leavesOf trees row).map Single.ofNat
  | .margin => l.rowMargins trees row base
  | .value => l.settings.objective.outputTransform l.outputs (l.rowMargins trees row base)

/-- How many numbers trees of a range say of one row with a number of columns. -/
def answerColumns (l : Learner) (kind : PredictionKind) (range : Forest.Range) (columns : Nat) :
    Nat :=
  if kind = .value ∧ l.settings.objective = .mostLikelyClass then 1
  else l.entriesPerRow kind range columns

/-- The margins of rows, and the numbers that are predicted for them, fit into memory. -/
structure PredictionFits (l : Learner) (kind : PredictionKind) (first last : UInt32)
    (rows : Rows) : Prop where
  margins : Matrix.sidesFit rows.count l.outputs
  entries : ∀ range, l.forest.range? l.outputs first last = some range →
    Matrix.sidesFit rows.count (l.entriesPerRow kind range rows.columns)

theorem length_rowMargins {base : Array Single} (hbase : base.size = l.outputs)
    (trees : List OutputTree) (row : Array Single) :
    (l.rowMargins trees row base).length = l.outputs := by
  rw [rowMargins, Array.length_toList, addMargins, Array.size_zipWith, size_addOutputs,
    Array.size_replicate, hbase, Nat.min_self]

/-- There are as many numbers for a row as the answer has columns. -/
theorem length_rowAnswer {base : Array Single} (hbase : base.size = l.outputs)
    (row : Array Single) (columns : Nat) :
    (l.rowAnswer kind (l.forest.within range) (l.contributionColumns columns) row base).length =
      l.answerColumns kind range columns := by
  have hmargins := length_rowMargins hbase (l.forest.within range) row
  cases kind with
  | contributions => rw [rowAnswer, Array.length_toList, size_contributions]; rfl
  | leaf => rw [rowAnswer, List.length_map, leavesOf, List.length_map]; rfl
  | margin => exact hmargins
  | value =>
    rw [answerColumns, rowAnswer, Objective.length_outputTransform l.outputs_pos hmargins]
    simp only [true_and]
    rfl

/-- What trees say of rows is what they say of each, in order. -/
theorem plainRange_eq_flatMap {start : StartingMargins}
    (hstart : start.toArray.size = rows.count * l.outputs)
    (hmargins : rows.count * l.outputs < sizeBound) :
    l.plainRange kind range rows start = (List.range rows.count).flatMap fun i =>
      l.rowAnswer kind (l.forest.within range) (l.contributionColumns rows.columns) (rows.row i)
        (start.toArray.extract (i * l.outputs) ((i + 1) * l.outputs)) := by
  have houtputs : 0 < l.outputs := l.outputs_pos
  have hpiece : ∀ i < rows.count,
      (start.toArray.extract (i * l.outputs) ((i + 1) * l.outputs)).size = l.outputs :=
    fun i hi => size_extract_piece hstart hi
  -- Margins are added to sums piece by piece.
  have hsum : (addMargins start.toArray (sumsOf (l.forest.within range) rows l.outputs)).toList =
      (List.range rows.count).flatMap fun i => l.rowMargins (l.forest.within range) (rows.row i)
        (start.toArray.extract (i * l.outputs) ((i + 1) * l.outputs)) := by
    have hwhole : start.toArray.toList = (List.range rows.count).flatMap fun i =>
        (start.toArray.extract (i * l.outputs) ((i + 1) * l.outputs)).toList := by
      rw [flatMap_extract, ← hstart, Array.extract_size]
    rw [addMargins, Array.toList_zipWith, toList_sumsOf houtputs hmargins, hwhole,
      zipWith_flatMap]
    · simp only [rowMargins, addMargins, Array.toList_zipWith]
    · intro i hi
      rw [Array.length_toList, Array.length_toList, hpiece i (List.mem_range.mp hi),
        size_addOutputs, Array.size_replicate]
  cases kind with
  | contributions =>
    refine Rows.entries_eq_flatMap fun i hi => ?_
    rw [Array.length_toList, size_contributions]
  | leaf =>
    refine Rows.entries_eq_flatMap fun i hi => ?_
    rw [List.length_map, leavesOf, List.length_map]
  | margin => exact hsum
  | value =>
    rw [plainRange, hsum]
    refine Objective.outputTransform_flatMap houtputs _ fun i hi => ?_
    exact length_rowMargins (hpiece i (List.mem_range.mp hi)) _ _

/-- There is an answer for rows if the rounds are there and the rows have starting margins. -/
theorem plainRows_eq_ok {first last : UInt32} {given : Array Single} {values : List Single} :
    l.plainRows kind first last rows given = .ok values ↔
      ∃ range start, l.forest.range? l.outputs first last = some range ∧
        l.startingMargins rows.count given = .ok start ∧
        l.plainRange kind range rows start = values := by
  unfold plainRows
  constructor
  · intro h
    cases hrange : l.forest.range? l.outputs first last with
    | none =>
      rw [hrange] at h
      cases h
    | some range =>
      rw [hrange] at h
      obtain ⟨start, hstart, hvalues⟩ := Except.bind_eq_ok h
      exact ⟨range, start, rfl, hstart, Except.ok.inj hvalues⟩
  · rintro ⟨range, start, hrange, hstart, rfl⟩
    rw [hrange, hstart]
    rfl

/-- The rows of a prediction that fits into memory start from as many margins as there are
outputs for all rows together. -/
theorem PredictionFits.size_start {first last : UInt32}
    (h : l.PredictionFits kind first last rows) {given : Array Single} {start : StartingMargins}
    (hstart : l.startingMargins rows.count given = .ok start) :
    start.toArray.size = rows.count * l.outputs := by
  rw [size_startingMargins hstart, outputCount,
    entryCount_of_lt (Matrix.mul_lt_of_sidesFit h.margins)]

/-- What is predicted for rows is what trees say of each of them, in order. -/
theorem PredictionFits.plainRange_eq {first last : UInt32}
    (h : l.PredictionFits kind first last rows) {given : Array Single}
    {start : StartingMargins} (hstart : l.startingMargins rows.count given = .ok start) :
    l.plainRange kind range rows start = (List.range rows.count).flatMap fun i =>
      l.rowAnswer kind (l.forest.within range) (l.contributionColumns rows.columns) (rows.row i)
        (start.toArray.extract (i * l.outputs) ((i + 1) * l.outputs)) :=
  plainRange_eq_flatMap (h.size_start hstart) (Matrix.mul_lt_of_sidesFit h.margins)

end Learner

end BoostedTrees
