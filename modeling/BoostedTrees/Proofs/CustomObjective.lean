import BoostedTrees.Proofs.AppendedRounds
import BoostedTrees.Proofs.ScoredPredictions
import BoostedTrees.Proofs.StackedRows
import BoostedTrees.Proofs.UnitProduct

/-!
# Objectives of the caller

A round of training may take its gradient from the caller, who computes it from the current
margins. The engine computes margins and gradient in one call where the objective is its
own; a caller first asks for a prediction and then hands in a gradient. Where the gradients
are the same, both grow the same round.

Squared error that a caller computes, with the difference of margin and label and a second
derivative of one, has the gradient that the engine has for rows without weights. Still the two
ways part in one case. A model without trees that knows of fewer features than the matrix
has columns takes the matrix for a round of its own, which raises the number of features, but it
refuses to predict for it, so the caller gets no margins to start from.

## Main definitions

* `Learner.currentMargins`, `Learner.currentGradient`: margins and gradient over all trees
* `residualGradient`: squared error as a caller computes it

## Main results

* `Learner.grown_of_update`: a round of the engine is grown from the gradient at all trees
* `Lease.updateWith_of_trainable`: a round of the caller is grown from the caller's gradient
* `Lease.updateWith_squaredError`: after any history, both ways grow the same round, or the
  caller is refused for the number of columns
-/

namespace BoostedTrees

open EngineM
open BoostedTrees.Matrix (lonelyRow numbered_lonelyRow)

namespace Learner

variable {K : Matrix → Prop} {l : Learner} {m : Matrix} {iteration : Int32} {g : Gradient}

/-! ## Rounds -/

/-- The margins of a matrix over all trees. -/
def currentMargins (l : Learner) (m : Matrix) (start : StartingMargins) : Array Single :=
  addMargins start.toArray (sumsOf l.forest.trees m.toRows l.outputs)

/-- The gradient of the objective at the margins over all trees. -/
def currentGradient (l : Learner) (m : Matrix) (start : StartingMargins) : Gradient :=
  l.settings.objective.gradient l.outputs m (l.currentMargins m start)

/-- A round that the engine grows by itself is grown from the gradient at all trees. -/
theorem grown_of_update (hK : Matrix.Numbered K) (hsound : l.cache.Sound K l.forest l.outputs)
    (hm : K m) (h : (update iteration m l).1 = .ok ()) :
    ∃ start c, l.startingMargins m.rows m.baseMargin = .ok start ∧
      l.Trainable m (l.currentGradient m start) ∧
      (update iteration m l).2 = l.grown iteration m (l.currentGradient m start) c := by
  rcases update_cases iteration m l with ⟨e, hrefused⟩ | ⟨hdata, hn, hupdate⟩
  · rw [hrefused] at h
    cases h
  obtain ⟨-, start, hstart⟩ := exists_startingMargins hdata
  obtain ⟨_, -, hsums⟩ := treeSums_eq (l := { l with features := UInt64.ofNat m.columns }) hK hm
    true hsound
  obtain ⟨c, hround⟩ := objectiveRound_apply (l := { l with features := UInt64.ofNat m.columns })
    iteration hstart
  rw [hsums] at hround
  -- What the round looks at is the same with the features that were fixed.
  have hboost := boost_cases iteration m (l.currentGradient m start)
    { l with features := UInt64.ofNat m.columns, cache := c }
  rw [hupdate, hround] at h ⊢
  rcases hboost with ⟨-, e, hrefused⟩ | ⟨htrain, c', hgrown⟩
  · cases h.symm.trans (congrArg Prod.fst hrefused)
  · exact ⟨start, c', hstart, ⟨htrain.first, htrain.second, htrain.metadata, hn⟩,
      congrArg Prod.snd hgrown⟩

/-! ## Margins -/

/-- Where no trees are left over, margins are predicted from all trees. -/
theorem plainMatrix_margin (hall : l.rounds.toNat * l.outputs = l.forest.size)
    {start : StartingMargins} (hstart : l.startingMargins m.rows m.baseMargin = .ok start)
    (hcolumns : l.checkColumns m.columns = .ok ()) :
    l.plainMatrix m PredictionKind.margin.mask 0 = .ok (l.currentMargins m start).toList := by
  have htrees : l.forest.within ⟨0, l.rounds.toNat * l.outputs⟩ = l.forest.trees :=
    roundTrees_eq hall
  unfold plainMatrix
  rw [hcolumns, PredictionKind.ofMask_mask]
  refine plainRows_eq_ok.mpr ⟨_, start, l.forest.range?_all l.outputs, hstart, ?_⟩
  show (addMargins start.toArray (sumsOf (l.forest.within ⟨0, l.rounds.toNat * l.outputs⟩) m.toRows
    l.outputs)).toList = _
  rw [htrees]
  rfl

theorem size_currentMargins {start : StartingMargins}
    (hstart : l.startingMargins m.rows m.baseMargin = .ok start) :
    (l.currentMargins m start).size = l.outputCount m.rows := by
  rw [currentMargins, addMargins, Array.size_zipWith, size_startingMargins hstart,
    size_sumsOf l.outputs_pos, outputCount]
  exact Nat.min_self _

/-- Only a model without trees is trained on more columns than it has features. -/
theorem Trainable.trees_eq_nil (h : l.Trainable m g) (hknown : l.features ≠ 0)
    (hwide : l.features.toNat < m.columns) (hword : m.columns < 2 ^ 64) : l.forest.trees = [] := by
  rcases h.features with heq | hzero | ⟨hnil, -⟩
  · rw [← heq, UInt64.toNat_ofNat_of_lt' hword] at hwide
    exact absurd hwide (Nat.lt_irrefl _)
  · exact absurd hzero hknown
  · exact hnil

/-- A matrix with too many columns is refused before anything is looked at. -/
theorem predict_of_columns {e : EngineError} (h : l.checkColumns m.columns = .error e)
    (mask : Int32) (limit : UInt32) : predict m mask limit l = (.error e, l) := by
  unfold predict
  rw [bind_apply, check_apply, h]

end Learner

/-! ## Shapes -/

theorem Matrix.columns_lt_of_sidesFit {rows columns : Nat} (h : sidesFit rows columns) :
    columns < sizeBound := by
  have hrow : sidesFit 1 columns := sidesFit_mono h (Nat.le_max_right _ _) (Nat.le_max_left _ _)
  simpa only [Nat.one_mul] using mul_lt_of_sidesFit hrow

/-- Rows of a length make a grid, also if there are none. -/
theorem Grid.exists_ofFlat {rows columns : Nat} {values : List Single}
    (hlength : values.length = rows * columns) (hfits : Matrix.sidesFit rows columns) :
    ∃ g, Grid.ofFlat rows values = .ok g ∧ g.values = values := by
  rcases Nat.eq_zero_or_pos rows with rfl | hrows
  · rw [Nat.zero_mul, List.length_eq_zero_iff] at hlength
    subst hlength
    exact ⟨.empty, rfl, rfl⟩
  · exact ⟨_, Grid.ofFlat_of_length hrows hlength hfits, rfl⟩

/-! ## Objectives -/

/-- Squared error as a caller computes it: how far margins are from labels, and a second derivative
of one. -/
def residualGradient (margins : Grid) (m : Matrix) : Gradient where
  first := (margins.values.zipWith (· - ·) m.labels.toList).toArray
  second := Array.replicate margins.values.length 1

/-- Rows without weights weigh one each. -/
theorem Matrix.rowWeight_of_unweighted {m : Matrix} (h : m.weights = #[]) (i : Nat) :
    m.rowWeight i = 1 := by
  unfold rowWeight
  rw [h]
  split <;> rfl

theorem residualGradient_eq {margins : Grid} {m : Matrix} (hrows : margins.values.length = m.rows)
    (hlabels : m.labels.size = m.rows) (hweights : m.weights = #[]) (outputs : Nat) :
    residualGradient margins m =
      Objective.squaredError.gradient outputs m margins.values.toArray := by
  have hentry : ∀ i, Objective.squaredLoss (m.rowWeight i) (margins.values.toArray.getD i 0)
      (m.label i) = (margins.values.toArray.getD i 0 - m.label i, 1) := by
    intro i
    rw [Matrix.rowWeight_of_unweighted hweights, Objective.squaredLoss, Single.sub_mul_one]
  show _ = Gradient.ofList ((List.range m.rows).map fun i =>
    Objective.squaredLoss (m.rowWeight i) (margins.values.toArray.getD i 0) (m.label i))
  simp only [hentry, Gradient.ofList, List.map_map, residualGradient, Gradient.mk.injEq]
  have hlength : (margins.values.zipWith (· - ·) m.labels.toList).length = m.rows := by
    rw [List.length_zipWith, Array.length_toList, hrows, hlabels, Nat.min_self]
  constructor
  · refine congrArg List.toArray (List.ext_getElem ?_ fun i hi hi' => ?_)
    · rw [hlength, List.length_map, List.length_range]
    · have hmargin : i < margins.values.length := hrows ▸ hlength ▸ hi
      have hlabel : i < m.labels.size := hlabels ▸ hlength ▸ hi
      simp [Matrix.label, Array.getD_eq_getD_getElem?, hmargin, hlabel]
  · simp only [hrows, Function.comp_def, List.map_const', List.length_range, List.toArray_replicate]

namespace Lease

variable {w : Workshop} {h : Handle} {l : Learner} {version : Int32} {m : Matrix}

theorem boost_apply (hl : w.learner? h = some l) (iteration : Int32) {g : Gradient}
    (hg : g.first.size = g.second.size) :
    boost Workshop.engine ⟨some h, version⟩ iteration m g w =
      ((Learner.boost iteration m g l).1.mapError .native,
        w.setLearner h (Learner.boost iteration m g l).2) := by
  unfold boost
  rw [if_neg (not_not.mpr hg)]
  exact ask_apply hl rfl

/-- A caller whose gradient fits has a round grown from it. -/
theorem updateWith_of_trainable (hl : w.learner? h = some l) (iteration : Int32)
    {objective : Grid → Matrix → Gradient} {values : List Single} {margins : Grid}
    (hpredict : (Learner.predict m PredictionKind.margin.mask 0 l).1 = .ok values)
    (hgrid : Grid.ofFlat m.rows values = .ok margins)
    (htrain : l.Trainable m (objective margins m)) :
    (updateWith Workshop.engine ⟨some h, version⟩ objective iteration m w).1 = .ok () ∧
      ∃ c, (updateWith Workshop.engine ⟨some h, version⟩ objective iteration m w).2.learner? h =
        some (l.grown iteration m (objective margins m) c) := by
  -- The prediction changes the cache only, so the learner takes the gradient as it would before.
  obtain ⟨c, hlooked⟩ := Learner.Looks.predict m PredictionKind.margin.mask 0 l
  have hmargins : predictMargin Workshop.engine ⟨some h, version⟩ m w =
      (.ok margins, w.setLearner h { l with cache := c }) := by
    refine (predictWith_apply hl m { margin := true }).trans ?_
    show (((Learner.predict m PredictionKind.margin.mask 0 l).1 >>= Grid.ofFlat m.rows).mapError _,
      w.setLearner h (Learner.predict m PredictionKind.margin.mask 0 l).2) = _
    rw [hpredict, hlooked]
    exact congrArg (Except.mapError LeaseError.native · , _) hgrid
  have hhas := Workshop.learner?_setLearner hl { l with cache := c }
  have hsizes : (objective margins m).first.size = (objective margins m).second.size :=
    htrain.first.trans htrain.second.symm
  have htrain' : ({ l with cache := c } : Learner).Trainable m (objective margins m) :=
    ⟨htrain.first, htrain.second, htrain.metadata, htrain.features⟩
  rcases Learner.boost_cases iteration m (objective margins m) { l with cache := c } with
    ⟨hrefused, -⟩ | ⟨-, c', hgrown⟩
  · exact absurd htrain' hrefused
  rw [updateWith, LeaseM.bind_apply, hmargins]
  dsimp only
  rw [boost_apply hhas iteration hsizes, hgrown]
  exact ⟨rfl, c', Workshop.learner?_setLearner hhas _⟩

/-- A round with the objective of the model is asked for in one call. -/
theorem update_apply (hl : w.learner? h = some l) (iteration : Int32) :
    update Workshop.engine ⟨some h, version⟩ iteration m w =
      ((Learner.update iteration m l).1.mapError .native,
        w.setLearner h (Learner.update iteration m l).2) := ask_apply hl rfl

/-- A caller who is refused margins for too many columns gets no round. -/
theorem updateWith_of_columns (hl : w.learner? h = some l) (iteration : Int32)
    {objective : Grid → Matrix → Gradient} {e : EngineError}
    (hcolumns : l.checkColumns m.columns = .error e) :
    updateWith Workshop.engine ⟨some h, version⟩ objective iteration m w =
      (.error (.native e), w.setLearner h l) := by
  have hmargins : predictMargin Workshop.engine ⟨some h, version⟩ m w =
      (.error (.native e), w.setLearner h l) := by
    refine (predictWith_apply hl m { margin := true }).trans ?_
    rw [Learner.predict_of_columns hcolumns]
    rfl
  rw [updateWith, LeaseM.bind_apply, hmargins]

/-- Where the engine could add a round by itself and margins are predicted from all trees, a
caller who computes squared error has the round added that the gradient of the engine grows. -/
theorem updateWith_residuals {K : Matrix → Prop} (hK : Matrix.Numbered K)
    (hsound : l.cache.Sound K l.forest l.outputs) (hm : K m) (hl : w.learner? h = some l)
    (hobjective : l.settings.objective = .squaredError) (hweights : m.weights = #[])
    (hall : l.rounds.toNat * l.outputs = l.forest.size) (hsides : Matrix.sidesFit m.rows m.columns)
    (hcolumns : l.checkColumns m.columns = .ok ()) {start : StartingMargins}
    (hstart : l.startingMargins m.rows m.baseMargin = .ok start)
    (htrain : l.Trainable m (l.currentGradient m start)) (version iteration : Int32) :
    (updateWith Workshop.engine ⟨some h, version⟩ residualGradient iteration m w).1 = .ok () ∧
      ∃ c, (updateWith Workshop.engine ⟨some h, version⟩ residualGradient iteration m
        w).2.learner? h = some (l.grown iteration m (l.currentGradient m start) c) := by
  have houtputs : l.outputs = 1 := l.outputs_eq_one (by rw [hobjective]; rfl)
  have hone : Matrix.sidesFit m.rows 1 :=
    Matrix.sidesFit_mono hsides (Nat.le_max_left _ _) (Nat.le_max_right _ _)
  have hlength : (l.currentMargins m start).toList.length = m.rows * 1 := by
    rw [Array.length_toList, Learner.size_currentMargins hstart, Learner.outputCount, houtputs,
      entryCount_of_lt (Matrix.mul_lt_of_sidesFit hone)]
  obtain ⟨margins, hgrid, hvalues⟩ := Grid.exists_ofFlat hlength hone
  -- Rows without weights have the same gradient, whoever computes it.
  have hgradient : residualGradient margins m = l.currentGradient m start := by
    rw [residualGradient_eq (by rw [hvalues, hlength, Nat.mul_one])
      (Objective.sum_groupLengths htrain.metadata).2 hweights l.outputs, hvalues,
      Array.toArray_toList, Learner.currentGradient, hobjective]
  have hpredict : (Learner.predict m PredictionKind.margin.mask 0 l).1 =
      .ok (l.currentMargins m start).toList :=
    (Learner.predict_fst hK hsound hm _ _).trans (Learner.plainMatrix_margin hall hstart hcolumns)
  rw [← hgradient] at htrain ⊢
  exact updateWith_of_trainable hl iteration hpredict hgrid htrain

/-- Take any history of a new learner whose objective is squared error in the end, and a matrix
without weights for which the engine adds a round by itself. From the same state, a caller who
computes squared error adds the same round: the learners are equal, bit by bit, in everything but
what they remember. The one exception is a model without trees that knows of fewer features than
the matrix has columns. There the caller is refused, and the learner stays as it is. -/
theorem updateWith_squaredError {K : Matrix → Prop} (hK : Matrix.Numbered K)
    (created : List Matrix) (os : List Occasion) (hos : ∀ o ∈ os, ∀ m ∈ o.request.matrices, K m)
    (hobjective : ((Learner.create created).after os).settings.objective = .squaredError)
    (hcounted : ((Learner.create created).after os).forest.size < 2 ^ 32)
    (hm : K m) (hsides : Matrix.sidesFit m.rows m.columns) (hweights : m.weights = #[])
    (hw : w.learner? h = some ((Learner.create created).after os)) {iteration : Int32}
    (hupdate : (update Workshop.engine ⟨some h, version⟩ iteration m w).1 = .ok ()) :
    let l := (Learner.create created).after os
    let own := updateWith Workshop.engine ⟨some h, version⟩ residualGradient iteration m w
    if l.features ≠ 0 ∧ l.features.toNat < m.columns then
      l.forest.trees = [] ∧ own.1 = .error (.native (.tooManyColumns m.columns l.features)) ∧
        own.2.learner? h = some l
    else
      own.1 = .ok () ∧ ∃ (l' : Learner) (c : MarginCache),
        (update Workshop.engine ⟨some h, version⟩ iteration m w).2.learner? h = some l' ∧
        own.2.learner? h = some { l' with cache := c } := by
  intro l own
  have hsound := Learner.sound_after hK (Learner.sound_create K created) hos
  have hround : (Learner.update iteration m l).1 = .ok () := by
    rw [update_apply hw] at hupdate
    cases hresult : (Learner.update iteration m l).1 with
    | error e =>
      rw [hresult] at hupdate
      cases hupdate
    | ok _ => rfl
  obtain ⟨start, c, hstart, htrain, hgrown⟩ := Learner.grown_of_update hK hsound hm hround
  -- A caller needs margins first, so what refuses to predict decides.
  by_cases hwide : l.features ≠ 0 ∧ l.features.toNat < m.columns
  · rw [if_pos hwide]
    have hown : own = (.error (.native (.tooManyColumns m.columns l.features)), w.setLearner h l) :=
      updateWith_of_columns hw iteration (if_pos hwide)
    rw [hown]
    exact ⟨htrain.trees_eq_nil hwide.1 hwide.2 (Matrix.columns_lt_of_sidesFit hsides), rfl,
      Workshop.learner?_setLearner hw l⟩
  · rw [if_neg hwide]
    have houtputs : l.outputs = 1 := l.outputs_eq_one (by rw [hobjective]; rfl)
    -- With one output, every tree is a round, so none is left over.
    have hall : l.rounds.toNat * l.outputs = l.forest.size := by
      rw [Learner.rounds, houtputs, Forest.toNat_rounds Nat.one_pos (by rwa [Nat.div_one]),
        Nat.div_one, Nat.mul_one]
    obtain ⟨hdone, c', hown⟩ := updateWith_residuals hK hsound hm hw hobjective hweights hall hsides
      (if_neg hwide) hstart htrain version iteration
    refine ⟨hdone, l.grown iteration m (l.currentGradient m start) c, c', ?_, hown⟩
    rw [update_apply hw, hgrown]
    exact Workshop.learner?_setLearner hw _

/-- After a round on one row a caller adds the next one. Before any round, only the engine trains
on a row of two columns. -/
theorem updateWith_squaredError_lonelyRow :
    let lonely := Learner.create [lonelyRow 7]
    (∃ (l' : Learner) (c : MarginCache),
      (update Workshop.engine ⟨some ⟨1, by decide⟩, 0⟩ 1 (lonelyRow 7)
        (Learner.soleWorkshop (lonely.after [Learner.lonelyRound 0]))).2.learner? ⟨1, by decide⟩ =
          some l' ∧
      (updateWith Workshop.engine ⟨some ⟨1, by decide⟩, 0⟩ residualGradient 1 (lonelyRow 7)
        (Learner.soleWorkshop (lonely.after [Learner.lonelyRound 0]))).2.learner? ⟨1, by decide⟩ =
          some { l' with cache := c }) ∧
    (update Workshop.engine ⟨some ⟨1, by decide⟩, 0⟩ 0 Learner.pairRow
      (Learner.soleWorkshop lonely)).1 = .ok () ∧
    (updateWith Workshop.engine ⟨some ⟨1, by decide⟩, 0⟩ residualGradient 0 Learner.pairRow
      (Learner.soleWorkshop lonely)).1 = .error (.native (.tooManyColumns 2 1)) := by
  intro lonely
  constructor
  · have hlonely : ∀ o ∈ [Learner.lonelyRound 0], ∀ m ∈ o.request.matrices,
        ∃ id, m = lonelyRow id := by
      simp [Learner.lonelyRound, Request.matrices]
    have hround : (update Workshop.engine ⟨some ⟨1, by decide⟩, 0⟩ 1 (lonelyRow 7)
        (Learner.soleWorkshop (lonely.after [Learner.lonelyRound 0]))).1 = .ok () := rfl
    have hown := updateWith_squaredError numbered_lonelyRow [lonelyRow 7] [Learner.lonelyRound 0]
      hlonely rfl (by decide +kernel) ⟨7, rfl⟩ (by decide) rfl rfl hround
    rw [if_neg (by decide +kernel)] at hown
    exact hown.2
  · have hpair : Matrix.Numbered (· = Learner.pairRow) := fun n n' hn hn' _ => by rw [hn, hn']
    have hround : (update Workshop.engine ⟨some ⟨1, by decide⟩, 0⟩ 0 Learner.pairRow
        (Learner.soleWorkshop lonely)).1 = .ok () := rfl
    have hown := updateWith_squaredError hpair [lonelyRow 7] []
      (fun o ho => absurd ho List.not_mem_nil) rfl (by decide) rfl (by decide) rfl rfl hround
    rw [if_pos (by decide)] at hown
    exact ⟨hround, hown.2.1⟩

end Lease

end BoostedTrees
