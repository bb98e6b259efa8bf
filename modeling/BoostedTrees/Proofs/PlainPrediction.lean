import BoostedTrees.Learner.Prediction
import BoostedTrees.Proofs.Agreement

/-!
# Predictions from the trees alone

A prediction may look at what a learner remembers. With a sound cache it answers what the
trees give when all sums are taken anew, and this answer depends on little of a learner:
its trees, the number of its features, and the three settings that a stored model fixes.

## Main definitions

* `Learner.plainRows`, `Learner.plainMatrix`, `Learner.plainDense`: what is predicted from
  the trees alone
* `Learner.SameModel`: two learners hold the same model

## Main results

* `Learner.predict_fst`, `Learner.predict_of_empty`, `Learner.predictDense_eq`: predictions
  answer this
* `Learner.SameModel.plainMatrix_eq`, `Learner.SameModel.plainDense_eq`: learners that hold
  the same model predict alike
-/

namespace BoostedTrees

open EngineM

namespace Learner

variable {K : Matrix → Prop} {l l' : Learner} {rows : Rows} {m? : Option Matrix}

/-! ## Answers -/

/-- What the trees of a range say of rows that start from the given margins. -/
def plainRange (l : Learner) (kind : PredictionKind) (range : Forest.Range) (rows : Rows)
    (start : StartingMargins) : List Single :=
  let trees := l.forest.within range
  match kind with
  | .contributions =>
    let base := start.toArray
    let features := l.contributionColumns rows.columns
    let explained := explain id trees
    rows.entries (l.outputs * (features + 1)) fun i =>
      (BoostedTrees.contributions explained features l.outputs (rows.row i)
        (base.extract (i * l.outputs) ((i + 1) * l.outputs)).toList).toList
  | .leaf => rows.entries trees.length fun i => (leavesOf trees (rows.row i)).map Single.ofNat
  | .margin => (addMargins start.toArray (sumsOf trees rows l.outputs)).toList
  | .value =>
    l.settings.objective.outputTransform l.outputs
      (addMargins start.toArray (sumsOf trees rows l.outputs)).toList

/-- What is predicted for rows. -/
def plainRows (l : Learner) (kind : PredictionKind) (first last : UInt32) (rows : Rows)
    (baseMargin : Array Single) : Except EngineError (List Single) :=
  match l.forest.range? l.outputs first last with
  | none => .error (.roundRange first last l.rounds)
  | some range => do
    let start ← l.startingMargins rows.count baseMargin
    return l.plainRange kind range rows start

/-- What is predicted for a matrix. -/
def plainMatrix (l : Learner) (m : Matrix) (mask : Int32) (limit : UInt32) :
    Except EngineError (List Single) := do
  l.checkColumns m.columns
  l.plainRows (.ofMask mask) 0 limit m.toRows m.baseMargin

/-- What is predicted for rows that are given without a matrix. -/
def plainDense (l : Learner) (d : DenseRows) (first last : UInt32) (code : Int32)
    (baseMargin : Array Single) : Except EngineError (List Single) := do
  let kind ← kindOfCode code
  if !d.fitsShape then throw (.denseSize d.values.size d.rows d.columns)
  l.checkColumns d.columns
  l.plainRows kind first last d.toRows baseMargin

/-- If all sums are those over the trees and leave a learner with some property, so does
the prediction, and it answers what the trees give. -/
theorem predictRows_spec {P : Learner → Prop} (hl : P l)
    (hsums : ∀ range, ∃ l', P l' ∧
      sumsWithin range rows m? l = (sumsOf (l.forest.within range) rows l.outputs, l'))
    (kind : PredictionKind) (first last : UInt32) (baseMargin : Array Single) :
    (predictRows kind first last rows m? baseMargin l).1 =
        l.plainRows kind first last rows baseMargin ∧
      P (predictRows kind first last rows m? baseMargin l).2 := by
  unfold predictRows plainRows
  rw [get_bind_apply]
  cases l.forest.range? l.outputs first last with
  | none => exact ⟨rfl, hl⟩
  | some range =>
    dsimp only
    rw [bind_apply, check_apply]
    cases l.startingMargins rows.count baseMargin with
    | error e => exact ⟨rfl, hl⟩
    | ok start =>
      obtain ⟨l', hl', heq⟩ := hsums range
      cases kind with
      | contributions => exact ⟨rfl, hl⟩
      | leaf => exact ⟨rfl, hl⟩
      | margin =>
        dsimp only
        rw [bind_apply, lift_apply, heq]
        exact ⟨rfl, hl'⟩
      | value =>
        dsimp only
        rw [bind_apply, lift_apply, heq]
        exact ⟨rfl, hl'⟩

theorem predict_spec {P : Learner → Prop} (hl : P l) {m : Matrix}
    (hsums : ∀ range, ∃ l', P l' ∧ sumsWithin range m.toRows (some m) l =
      (sumsOf (l.forest.within range) m.toRows l.outputs, l'))
    (mask : Int32) (limit : UInt32) :
    (predict m mask limit l).1 = l.plainMatrix m mask limit ∧ P (predict m mask limit l).2 := by
  unfold predict plainMatrix
  rw [bind_apply, check_apply]
  cases l.checkColumns m.columns with
  | error e => exact ⟨rfl, hl⟩
  | ok _ => exact predictRows_spec hl hsums _ _ _ _

/-- With a sound cache a prediction for a matrix is what the trees alone give. -/
theorem predict_fst (hK : Matrix.Numbered K) (hsound : l.cache.Sound K l.forest l.outputs)
    {m : Matrix} (hm : K m) (mask : Int32) (limit : UInt32) :
    (predict m mask limit l).1 = l.plainMatrix m mask limit := by
  refine (predict_spec (P := fun _ => True) trivial (fun range => ?_) mask limit).1
  obtain ⟨c, -, hc⟩ := sumsWithin_eq hK hm range hsound
  exact ⟨_, trivial, hc⟩

/-- With an empty cache a prediction changes nothing. -/
theorem predict_of_empty (h : l.cache = .empty) (m : Matrix) (mask : Int32) (limit : UInt32) :
    predict m mask limit l = (l.plainMatrix m mask limit, l) := by
  have hsums : ∀ range, sumsWithin range m.toRows (some m) l =
      (sumsOf (l.forest.within range) m.toRows l.outputs, l) := by
    intro range
    rw [sumsWithin_apply, h, if_neg]
    rintro ⟨-, hfound⟩
    cases hfound
  exact Prod.ext_iff.mpr
    (predict_spec (P := (· = l)) rfl (fun range => ⟨l, rfl, hsums range⟩) mask limit)

/-- Rows without a matrix are not remembered, so any cache will do for them. -/
theorem predictDense_eq (l : Learner) (d : DenseRows) (first last : UInt32) (code : Int32)
    (baseMargin : Array Single) :
    predictDense d first last code baseMargin l =
      (l.plainDense d first last code baseMargin, l) := by
  unfold predictDense plainDense
  rw [bind_apply, check_apply]
  cases kindOfCode code with
  | error e => rfl
  | ok kind =>
    by_cases hshape : d.fitsShape
    · simp only [hshape, Bool.not_true, Bool.false_eq_true, if_false]
      rw [bind_apply, check_apply]
      cases l.checkColumns d.columns with
      | error e => rfl
      | ok _ =>
        exact Prod.ext_iff.mpr
          (predictRows_spec (P := (· = l)) rfl (fun range => ⟨l, rfl, rfl⟩) _ _ _ _)
    · simp only [hshape, Bool.not_false, if_true]
      rfl

/-! ## Equal models -/

/-- Two learners hold the same model: all that is stored of them is the same. -/
structure SameModel (l l' : Learner) : Prop where
  attributes : l.attributes = l'.attributes
  featureNames : l.featureNames = l'.featureNames
  featureTypes : l.featureTypes = l'.featureTypes
  features : l.features = l'.features
  forest : l.forest = l'.forest
  objective : l.settings.objective = l'.settings.objective
  numClass : l.settings.numClass = l'.settings.numClass
  baseScore : l.settings.baseScore = l'.settings.baseScore

namespace SameModel

theorem outputs_eq (h : l.SameModel l') : l.outputs = l'.outputs := by
  simp only [outputs, Settings.outputs, h.objective, h.numClass]

theorem startingMargins_eq (h : l.SameModel l') (rows : Nat) (given : Array Single) :
    l.startingMargins rows given = l'.startingMargins rows given := by
  unfold startingMargins outputCount
  rw [h.outputs_eq, h.objective, h.baseScore]

theorem plainRange_eq (h : l.SameModel l') (kind : PredictionKind) (range : Forest.Range)
    (rows : Rows) (start : StartingMargins) :
    l.plainRange kind range rows start = l'.plainRange kind range rows start := by
  cases kind <;>
    simp only [plainRange, contributionColumns, h.outputs_eq, h.forest, h.features, h.objective]

theorem plainRows_eq (h : l.SameModel l') (kind : PredictionKind) (first last : UInt32)
    (rows : Rows) (baseMargin : Array Single) :
    l.plainRows kind first last rows baseMargin =
      l'.plainRows kind first last rows baseMargin := by
  simp only [plainRows, rounds, h.outputs_eq, h.forest, h.startingMargins_eq, h.plainRange_eq]

theorem plainMatrix_eq (h : l.SameModel l') (m : Matrix) (mask : Int32) (limit : UInt32) :
    l.plainMatrix m mask limit = l'.plainMatrix m mask limit := by
  simp only [plainMatrix, checkColumns, h.features, h.plainRows_eq]

theorem plainDense_eq (h : l.SameModel l') (d : DenseRows) (first last : UInt32) (code : Int32)
    (baseMargin : Array Single) :
    l.plainDense d first last code baseMargin = l'.plainDense d first last code baseMargin := by
  simp only [plainDense, checkColumns, h.features, h.plainRows_eq]

theorem toStored_eq (h : l.SameModel l') : l.toStored = l'.toStored := by
  simp only [toStored, h.attributes, h.featureNames, h.featureTypes, h.baseScore, h.numClass,
    h.features, h.objective, h.forest]

theorem save_eq (h : l.SameModel l') (format : String) : l.save format = l'.save format := by
  simp only [save, saveAs, h.toStored_eq]

end SameModel

end Learner

end BoostedTrees
