import Mathlib
import BoostedTrees.Proofs.AppendedRounds
import BoostedTrees.Proofs.DensePrediction
import BoostedTrees.Proofs.LeaseOperations
import BoostedTrees.Proofs.Requests
import BoostedTrees.Proofs.RowAnswers

/-!
# Rows on top of other rows

Rows are predicted for one by one. So the prediction for two blocks of rows, one on top of the
other, is what is predicted for the one followed by what is predicted for the other, and
it is refused if and only if theirs are. Starting margins go with the rows: they are given for both
blocks, one for every output of every row, or for neither.

A prediction has the same number of columns for every row, so through a lease it comes back
as a grid with as many rows as the data has.

## Main definitions

* `Rows.Stacks`, `DenseRows.Stacks`, `MarginsStack`: two blocks, one on top of the other

## Main results

* `Learner.plainRows_stack`: predictions from the trees alone, for blocks of rows
* `Learner.predict_stacked`: predictions for blocks of rows, and the grids they come back as
-/

namespace BoostedTrees

open EngineM
open BoostedTrees.Matrix (lonelyRow numbered_lonelyRow)

/-! ## Blocks -/

/-- The rows `r` are those of `a` and then those of `b`, and both have some. -/
structure Rows.Stacks (r a b : Rows) : Prop where
  upper_pos : 0 < a.count
  lower_pos : 0 < b.count
  count : r.count = a.count + b.count
  upper_columns : a.columns = r.columns
  lower_columns : b.columns = r.columns
  values : r.values = a.values ++ b.values

namespace Rows.Stacks

variable {r a b : Rows} (h : r.Stacks a b)

include h

theorem row_upper (ha : a.Filled) {i : Nat} (hi : i < a.count) : r.row i = a.row i := by
  have hstop : (i + 1) * a.columns ≤ a.values.size := ha ▸ Nat.mul_le_mul_right _ hi
  rw [row, row, h.values, ← h.upper_columns, Array.extract_append_of_stop_le_size_left hstop]

theorem row_lower (ha : a.Filled) (i : Nat) : r.row (a.count + i) = b.row i := by
  have hsize : a.values.size = a.count * r.columns := h.upper_columns ▸ ha
  have hstart : a.values.size ≤ (a.count + i) * r.columns :=
    hsize ▸ Nat.mul_le_mul_right _ (Nat.le_add_right _ _)
  rw [row, row, h.values, h.lower_columns, Array.extract_append_of_size_left_le_start hstart, hsize,
    ← Nat.sub_mul, ← Nat.sub_mul, Nat.add_assoc, Nat.add_sub_cancel_left, Nat.add_sub_cancel_left]

end Rows.Stacks

/-- Rows without a matrix, of which those of `a` come first and then those of `b`. All of them
are there, and both blocks mark missing values alike. -/
structure DenseRows.Stacks (d a b : DenseRows) : Prop where
  upper_pos : 0 < a.rows
  lower_pos : 0 < b.rows
  rows : d.rows = a.rows + b.rows
  upper_columns : a.columns = d.columns
  lower_columns : b.columns = d.columns
  values : d.values = a.values ++ b.values
  upper_missing : a.missing = d.missing
  lower_missing : b.missing = d.missing
  upper_fits : a.fitsShape
  lower_fits : b.fitsShape
  fits : d.fitsShape

theorem DenseRows.Stacks.toRows {d a b : DenseRows} (h : d.Stacks a b) :
    d.toRows.Stacks a.toRows b.toRows where
  upper_pos := h.upper_pos
  lower_pos := h.lower_pos
  count := h.rows
  upper_columns := h.upper_columns
  lower_columns := h.lower_columns
  values := by
    simp only [DenseRows.toRows, h.upper_missing, h.lower_missing, h.values]
    split
    · rfl
    · exact Array.map_append

/-- Starting margins of two blocks of rows, one after the other: there is one for every
output of every row, or none at all. -/
structure MarginsStack (outputs upper lower : Nat) (margins ms ms' : Array Single) : Prop where
  margins : margins = ms ++ ms'
  given : ms = #[] ∧ ms' = #[] ∨ ms.size = upper * outputs ∧ ms'.size = lower * outputs

namespace Learner

variable {K : Matrix → Prop} {l : Learner} {kind : PredictionKind} {first last : UInt32}
  {range : Forest.Range} {r a b : Rows} {margins ms ms' : Array Single}

/-! ## Trees alone -/

/-- Rows get their starting margins as their blocks do, or are refused as they are. -/
theorem startingMargins_stack (h : MarginsStack l.outputs a.count b.count margins ms ms')
    (hupper : 0 < a.count) (hlower : 0 < b.count)
    (hfits : (a.count + b.count) * l.outputs < sizeBound) :
    (∃ e, l.startingMargins (a.count + b.count) margins = .error e ∧
      l.startingMargins a.count ms = .error e) ∨
    ∃ start start₁ start₂, l.startingMargins (a.count + b.count) margins = .ok start ∧
      l.startingMargins a.count ms = .ok start₁ ∧ l.startingMargins b.count ms' = .ok start₂ ∧
      start.toArray = start₁.toArray ++ start₂.toArray := by
  have hcounts : ∀ n ≤ a.count + b.count, l.outputCount n = n * l.outputs := fun n hn =>
    entryCount_of_lt (Nat.lt_of_le_of_lt (Nat.mul_le_mul_right _ hn) hfits)
  have hsum := hcounts _ (Nat.le_refl _)
  have hleft := hcounts a.count (Nat.le_add_right _ _)
  have hright := hcounts b.count (Nat.le_add_left _ _)
  obtain ⟨rfl, ⟨rfl, rfl⟩ | ⟨hms, hms'⟩⟩ := h
  · -- Without given margins all rows start from the base score.
    unfold startingMargins
    cases l.settings.objective.baseMargin l.settings.baseScore with
    | error e => exact .inl ⟨e, rfl, rfl⟩
    | ok margin =>
      refine .inr ⟨_, _, _, rfl, rfl, rfl, ?_⟩
      simp only [StartingMargins.toArray, hsum, hleft, hright, Nat.add_mul,
        Array.replicate_append_replicate]
  · have hgiven {n : Nat} {given : Array Single} (hn : 0 < n) (hsize : given.size = n * l.outputs)
        (hcount : l.outputCount n = n * l.outputs) :
        l.startingMargins n given = .ok (.given given) := by
      have hsome : ¬given.isEmpty := by
        rw [Array.isEmpty_iff_size_eq_zero, hsize]
        exact Nat.ne_of_gt (Nat.mul_pos hn l.outputs_pos)
      unfold startingMargins
      rw [if_neg hsome, if_neg (not_not.mpr (hsize.trans hcount.symm))]
    have hsize : (ms ++ ms').size = (a.count + b.count) * l.outputs := by
      rw [Array.size_append, hms, hms', Nat.add_mul]
    exact .inr ⟨_, _, _, hgiven (Nat.add_pos_left hupper _) hsize hsum, hgiven hupper hms hleft,
      hgiven hlower hms' hright, rfl⟩

/-- What trees say of two blocks of rows is what they say of the one and then of the other. -/
theorem plainRange_stack (h : r.Stacks a b) (ha : a.Filled)
    (hmargins : r.count * l.outputs < sizeBound) {start start₁ start₂ : StartingMargins}
    (hstart : start.toArray = start₁.toArray ++ start₂.toArray)
    (hstart₁ : start₁.toArray.size = a.count * l.outputs)
    (hstart₂ : start₂.toArray.size = b.count * l.outputs) :
    l.plainRange kind range r start =
      l.plainRange kind range a start₁ ++ l.plainRange kind range b start₂ := by
  have hupper : a.count ≤ r.count := h.count ▸ Nat.le_add_right _ _
  have hlower : b.count ≤ r.count := h.count ▸ Nat.le_add_left _ _
  have hsize : start.toArray.size = r.count * l.outputs := by
    rw [hstart, Array.size_append, hstart₁, hstart₂, h.count, Nat.add_mul]
  have hle {n : Nat} (hn : n ≤ r.count) : n * l.outputs < sizeBound :=
    Nat.lt_of_le_of_lt (Nat.mul_le_mul_right _ hn) hmargins
  rw [plainRange_eq_flatMap hsize hmargins, plainRange_eq_flatMap hstart₁ (hle hupper),
    plainRange_eq_flatMap hstart₂ (hle hlower), h.count, List.range_add, List.flatMap_append,
    List.flatMap_map, h.upper_columns, h.lower_columns]
  congr 1
  · refine List.flatMap_congr fun i hi => ?_
    have hi : i < a.count := List.mem_range.mp hi
    have hstop : (i + 1) * l.outputs ≤ start₁.toArray.size :=
      hstart₁ ▸ Nat.mul_le_mul_right _ hi
    rw [h.row_upper ha hi, hstart, Array.extract_append_of_stop_le_size_left hstop]
  · refine List.flatMap_congr fun i _ => ?_
    have hbegin : start₁.toArray.size ≤ (a.count + i) * l.outputs :=
      hstart₁ ▸ Nat.mul_le_mul_right _ (Nat.le_add_right _ _)
    rw [h.row_lower ha i, hstart, Array.extract_append_of_size_left_le_start hbegin, hstart₁,
      ← Nat.sub_mul, ← Nat.sub_mul, Nat.add_assoc, Nat.add_sub_cancel_left, Nat.add_sub_cancel_left]

theorem plainRows_stack (h : r.Stacks a b) (ha : a.Filled)
    (hmargins : MarginsStack l.outputs a.count b.count margins ms ms')
    (hfits : l.PredictionFits kind first last r) :
    l.plainRows kind first last r margins = (do
      return (← l.plainRows kind first last a ms) ++ (← l.plainRows kind first last b ms')) := by
  have hcount := Matrix.mul_lt_of_sidesFit hfits.margins
  unfold plainRows
  cases hrange : l.forest.range? l.outputs first last with
  | none => rfl
  | some range =>
    have hstarts := startingMargins_stack hmargins h.upper_pos h.lower_pos (h.count ▸ hcount)
    rw [← h.count] at hstarts
    rcases hstarts with ⟨e, he, he₁⟩ | ⟨start, start₁, start₂, hs, hs₁, hs₂, happend⟩
    · simp only [he, he₁]
      rfl
    · have hsize {n : Nat} {given : Array Single} {s : StartingMargins} (hn : n ≤ r.count)
          (h : l.startingMargins n given = .ok s) : s.toArray.size = n * l.outputs := by
        rw [size_startingMargins h, outputCount, entryCount_of_lt]
        exact Nat.lt_of_le_of_lt (Nat.mul_le_mul_right _ hn) hcount
      have hupper : a.count ≤ r.count := h.count ▸ Nat.le_add_right _ _
      have hlower : b.count ≤ r.count := h.count ▸ Nat.le_add_left _ _
      simp only [hs, hs₁, hs₂]
      exact congrArg Except.ok (plainRange_stack h ha hcount happend (hsize hupper hs₁)
        (hsize hlower hs₂))

theorem plainMatrix_stack {m a b : Matrix} (h : m.toRows.Stacks a.toRows b.toRows)
    (hmargins : MarginsStack l.outputs a.rows b.rows m.baseMargin a.baseMargin b.baseMargin)
    {mask : Int32} {limit : UInt32} (hfits : l.PredictionFits (.ofMask mask) 0 limit m.toRows) :
    l.plainMatrix m mask limit = (do
      return (← l.plainMatrix a mask limit) ++ (← l.plainMatrix b mask limit)) := by
  have hupper : a.columns = m.columns := h.upper_columns
  have hlower : b.columns = m.columns := h.lower_columns
  unfold plainMatrix
  rw [hupper, hlower]
  -- All three have the same columns, so they are refused together.
  cases l.checkColumns m.columns with
  | error e => rfl
  | ok _ => exact plainRows_stack h a.filled_toRows hmargins hfits

/-- What is predicted in place takes as many numbers for a row as there are outputs. -/
theorem predictionFits_of_kindOfCode {code : Int32} (hkind : kindOfCode code = .ok kind)
    (hfits : Matrix.sidesFit r.count l.outputs) : l.PredictionFits kind first last r := by
  rcases eq_of_kindOfCode hkind with rfl | rfl
  · exact ⟨hfits, fun _ _ => hfits⟩
  · exact ⟨hfits, fun _ _ => hfits⟩

theorem plainDense_stack {d a b : DenseRows} (h : d.Stacks a b)
    (hmargins : MarginsStack l.outputs a.rows b.rows margins ms ms')
    (hfits : Matrix.sidesFit d.rows l.outputs) (code : Int32) :
    l.plainDense d first last code margins = (do
      return (← l.plainDense a first last code ms) ++ (← l.plainDense b first last code ms')) := by
  unfold plainDense
  cases hkind : kindOfCode code with
  | error e => rfl
  | ok kind =>
    simp only [h.fits, h.upper_fits, h.lower_fits, h.upper_columns, h.lower_columns]
    cases l.checkColumns d.columns with
    | error e => rfl
    | ok _ =>
      exact plainRows_stack h.toRows (DenseRows.filled_toRows h.upper_fits) hmargins
        (predictionFits_of_kindOfCode hkind hfits)

/-! ## The shape of an answer -/

/-- An answer takes no more numbers for a row than are computed for it. -/
theorem answerColumns_le (l : Learner) (kind : PredictionKind) (range : Forest.Range)
    (columns : Nat) : l.answerColumns kind range columns ≤ l.entriesPerRow kind range columns := by
  unfold answerColumns
  split
  · next h => exact h.1 ▸ l.outputs_pos
  · exact Nat.le_refl _

/-- An answer has the same number of columns for every row, and its sides fit a signed word
together. -/
theorem shape_of_plainRows {values : List Single}
    (h : l.plainRows kind first last r margins = .ok values)
    (hfits : l.PredictionFits kind first last r) :
    ∃ range, l.forest.range? l.outputs first last = some range ∧
      values.length = r.count * l.answerColumns kind range r.columns ∧
      Matrix.sidesFit r.count (l.answerColumns kind range r.columns) := by
  obtain ⟨range, start, hrange, hstart, rfl⟩ := plainRows_eq_ok.mp h
  refine ⟨range, hrange, ?_, ?_⟩
  · rw [hfits.plainRange_eq hstart]
    exact length_flatMap_range fun i hi =>
      length_rowAnswer (size_extract_piece (hfits.size_start hstart) hi) _ _
  · have hle := answerColumns_le l kind range r.columns
    exact Matrix.sidesFit_mono (hfits.entries range hrange) (Nat.le_max_left _ _)
      (Nat.le_trans hle (Nat.le_max_left _ _))

/-- The same holds of rows without a matrix, which are asked about for values or margins. -/
theorem shape_of_plainDense {d : DenseRows} {kind : InPlaceKind} {values : List Single}
    (h : l.plainDense d first last kind.code margins = .ok values) (hd : d.fitsShape)
    (hfits : Matrix.sidesFit d.rows l.outputs) :
    ∃ columns, columns = (if kind = .value ∧ l.settings.objective = .mostLikelyClass then 1
        else l.outputs) ∧
      values.length = d.rows * columns ∧ Matrix.sidesFit d.rows columns := by
  unfold plainDense at h
  rw [hd] at h
  obtain ⟨kind', hkind, h⟩ := Except.bind_eq_ok h
  obtain ⟨_, -, h⟩ := Except.bind_eq_ok h
  obtain ⟨range, -, hlength, hsides⟩ :=
    shape_of_plainRows h (predictionFits_of_kindOfCode hkind hfits)
  refine ⟨l.answerColumns kind' range d.columns, ?_, hlength, hsides⟩
  cases kind with
  | value =>
    cases hkind
    simp only [answerColumns, true_and]
    rfl
  | margin =>
    cases hkind
    rfl

end Learner

/-! ## Grids -/

/-- Rows of a length that is not the number of the rows make a grid. -/
theorem Grid.ofFlat_of_length {rows columns : Nat} {values : List Single} (hrows : 0 < rows)
    (hlength : values.length = rows * columns) (hfits : Matrix.sidesFit rows columns) :
    Grid.ofFlat rows values = .ok ⟨rows, columns, values, hlength⟩ := by
  have hcolumns : values.length / rows = columns := by
    rw [hlength, Nat.mul_div_cancel_left _ hrows]
  have hwhole : values.length % rows = 0 := by rw [hlength, Nat.mul_mod_right]
  subst hcolumns
  unfold Grid.ofFlat
  rw [if_neg (Nat.ne_of_gt hrows), dif_pos hwhole, if_pos hfits]

namespace Lease

variable {w : Workshop} {h : Handle} {l : Learner} {version : Int32}

/-- What the learner of the handle predicts comes back as a grid. -/
theorem predictWith_apply (hl : w.learner? h = some l) (m : Matrix) (options : PredictOptions) :
    predictWith Workshop.engine ⟨some h, version⟩ m options w =
      (((Learner.predict m options.mask options.limit l).1 >>= Grid.ofFlat m.rows).mapError .native,
        w.setLearner h (Learner.predict m options.mask options.limit l).2) := by
  have hask : ask Workshop.engine ⟨some h, version⟩ (.predict m options.mask options.limit) w =
      ((Learner.predict m options.mask options.limit l).1.mapError .native,
        w.setLearner h (Learner.predict m options.mask options.limit l).2) := ask_apply hl rfl
  rw [predictWith, LeaseM.bind_apply, hask]
  cases (Learner.predict m options.mask options.limit l).1 with
  | error e => rfl
  | ok values => exact judge_apply _ _

theorem predictInPlace_apply (hl : w.learner? h = some l) {d : DenseRows} (hd : d.fitsShape)
    (first last : UInt32) (kind : InPlaceKind) (margins? : Option (Array Single)) :
    predictInPlace Workshop.engine ⟨some h, version⟩ d [first, last] kind margins? w =
      (((Learner.predictDense d first last kind.code (margins?.getD #[]) l).1 >>=
          Grid.ofFlat d.rows).mapError .native,
        w.setLearner h (Learner.predictDense d first last kind.code (margins?.getD #[]) l).2) := by
  have hask : ask Workshop.engine ⟨some h, version⟩
      (.predictDense d first last kind.code margins?) w =
        ((Learner.predictDense d first last kind.code (margins?.getD #[]) l).1.mapError .native,
          w.setLearner h (Learner.predictDense d first last kind.code (margins?.getD #[]) l).2) :=
    ask_apply hl rfl
  simp only [predictInPlace, hd, Bool.not_true, Bool.false_eq_true, if_false]
  rw [LeaseM.bind_apply, hask]
  cases (Learner.predictDense d first last kind.code (margins?.getD #[]) l).1 with
  | error e => rfl
  | ok values => exact judge_apply _ _

end Lease

namespace Learner

variable {K : Matrix → Prop}

/-- Take any history of a new learner. A matrix of two blocks of rows, one on top of the other, is
predicted for as its blocks are: the numbers for the one come first and then those for the other,
or there is the error that there is for a block. The same holds of rows without a matrix.
Through a lease, the numbers for data that has rows come back as a grid with as many rows, and
with a column for every number that trees say of one of them. -/
theorem predict_stacked (hK : Matrix.Numbered K) (created : List Matrix) (os : List Occasion)
    (hos : ∀ o ∈ os, ∀ m ∈ o.request.matrices, K m) :
    let l := (create created).after os
    (∀ m a b, K m → K a → K b → m.toRows.Stacks a.toRows b.toRows →
      MarginsStack l.outputs a.rows b.rows m.baseMargin a.baseMargin b.baseMargin →
        ∀ mask limit, l.PredictionFits (.ofMask mask) 0 limit m.toRows →
          (predict m mask limit l).1 = (do
            return (← (predict a mask limit l).1) ++ (← (predict b mask limit l).1))) ∧
    (∀ d a b, d.Stacks a b → Matrix.sidesFit d.rows l.outputs →
      ∀ margins ms ms', MarginsStack l.outputs a.rows b.rows margins ms ms' →
        ∀ first last code, (predictDense d first last code margins l).1 = (do
          return (← (predictDense a first last code ms l).1) ++
            (← (predictDense b first last code ms' l).1))) ∧
    ∀ w h version, Workshop.learner? w h = some l →
      (∀ m, K m → 0 < m.rows → ∀ options, l.PredictionFits options.kind 0 options.limit m.toRows →
        ∀ values, (predict m options.mask options.limit l).1 = .ok values →
          ∃ range g, l.forest.range? l.outputs 0 options.limit = some range ∧
            (Lease.predictWith Workshop.engine ⟨some h, version⟩ m options w).1 = .ok g ∧
            g.rows = m.rows ∧ g.columns = l.answerColumns options.kind range m.columns ∧
            g.values = values) ∧
      ∀ d, d.fitsShape → 0 < d.rows → Matrix.sidesFit d.rows l.outputs →
        ∀ first last kind margins? values,
          (predictDense d first last (InPlaceKind.code kind) (margins?.getD #[]) l).1 = .ok values →
            ∃ g, (Lease.predictInPlace Workshop.engine ⟨some h, version⟩ d [first, last] kind
                margins? w).1 = .ok g ∧
              g.rows = d.rows ∧
              g.columns = (if kind = .value ∧ l.settings.objective = .mostLikelyClass then 1
                else l.outputs) ∧
              g.values = values := by
  intro l
  have hsound := sound_after hK (sound_create K created) hos
  refine ⟨?_, ?_, ?_⟩
  · intro m a b hm ha hb hstack hmargins mask limit hfits
    rw [predict_fst hK hsound hm, predict_fst hK hsound ha, predict_fst hK hsound hb]
    exact plainMatrix_stack hstack hmargins hfits
  · intro d a b hstack hfits margins ms ms' hmargins first last code
    simp only [predictDense_eq]
    exact plainDense_stack hstack hmargins hfits code
  intro w h version hw
  constructor
  · intro m hm hrows options hfits values hvalues
    have hplain := hvalues
    rw [predict_fst hK hsound hm, PredictOptions.mask] at hplain
    obtain ⟨_, -, hplain⟩ := Except.bind_eq_ok hplain
    rw [PredictionKind.ofMask_mask] at hplain
    obtain ⟨range, hrange, hlength, hsides⟩ := shape_of_plainRows hplain hfits
    refine ⟨range, ⟨m.rows, _, values, hlength⟩, hrange, ?_, rfl, rfl, rfl⟩
    rw [Lease.predictWith_apply hw, hvalues]
    exact congrArg (Except.mapError LeaseError.native) (Grid.ofFlat_of_length hrows hlength hsides)
  · intro d hd hrows hfits first last kind margins? values hvalues
    have hplain := hvalues
    rw [predictDense_eq] at hplain
    obtain ⟨columns, hcolumns, hlength, hsides⟩ := shape_of_plainDense hplain hd hfits
    refine ⟨⟨d.rows, columns, values, hlength⟩, ?_, rfl, hcolumns, rfl⟩
    rw [Lease.predictInPlace_apply hw hd, hvalues]
    exact congrArg (Except.mapError LeaseError.native) (Grid.ofFlat_of_length hrows hlength hsides)

/-- Two equal rows, one on top of the other. -/
def lonelyPair : Matrix := ⟨9, 2, 1, #[1, 1], #[1, 1], #[], [], #[], by decide⟩

/-- An engine that holds one learner. -/
def soleWorkshop (l : Learner) : Workshop := ⟨2, [(⟨1, by decide⟩, l)], 1, 0, .empty⟩

theorem predict_stacked_lonelyPair :
    let l := (create [lonelyRow 7]).after [lonelyRound 0]
    (predict lonelyPair 1 0 l).1 = (do
      return (← (predict (lonelyRow 7) 1 0 l).1) ++ (← (predict (lonelyRow 8) 1 0 l).1)) ∧
    ∃ g, (Lease.predictWith Workshop.engine ⟨some ⟨1, by decide⟩, 0⟩ lonelyPair { margin := true }
        (soleWorkshop l)).1 = .ok g ∧ g.rows = 2 := by
  have hnumbered : Matrix.Numbered fun m => (∃ id, id ≠ 9 ∧ m = lonelyRow id) ∨ m = lonelyPair := by
    rintro m n (⟨i, hi, rfl⟩ | rfl) (⟨j, hj, rfl⟩ | rfl) hid
    · rfl
    · exact absurd hid hi
    · exact absurd hid.symm hj
    · rfl
  have htraining : ∀ o ∈ [lonelyRound 0], ∀ m ∈ o.request.matrices,
      (∃ id, id ≠ 9 ∧ m = lonelyRow id) ∨ m = lonelyPair := by
    intro o ho m hm
    rw [List.mem_singleton.mp ho] at hm
    exact .inl ⟨7, by decide, List.mem_singleton.mp hm⟩
  obtain ⟨hmatrices, -, hgrids⟩ := predict_stacked hnumbered [lonelyRow 7] [lonelyRound 0] htraining
  have hsides : Matrix.sidesFit 2 ((create [lonelyRow 7]).after [lonelyRound 0]).outputs := by
    decide +kernel
  have hfits : ((create [lonelyRow 7]).after [lonelyRound 0]).PredictionFits .margin 0 0
      lonelyPair.toRows := ⟨hsides, fun _ _ => hsides⟩
  constructor
  · have hstack : lonelyPair.toRows.Stacks (lonelyRow 7).toRows (lonelyRow 8).toRows :=
      ⟨by decide, by decide, rfl, rfl, rfl, rfl⟩
    exact hmatrices lonelyPair (lonelyRow 7) (lonelyRow 8) (.inr rfl) (.inl ⟨7, by decide, rfl⟩)
      (.inl ⟨8, by decide, rfl⟩) hstack ⟨rfl, .inl ⟨rfl, rfl⟩⟩ 1 0 hfits
  · obtain ⟨values, hvalues⟩ : ∃ values,
        (predict lonelyPair 1 0 ((create [lonelyRow 7]).after [lonelyRound 0])).1 = .ok values :=
      ⟨_, rfl⟩
    obtain ⟨hgrid, -⟩ := hgrids (soleWorkshop _) ⟨1, by decide⟩ 0 rfl
    obtain ⟨-, g, -, hg, hrows, -⟩ :=
      hgrid lonelyPair (.inr rfl) (by decide) { margin := true } hfits values hvalues
    exact ⟨g, hg, hrows⟩

end Learner

end BoostedTrees
