import BoostedTrees.Learner.Evaluation
import BoostedTrees.Proofs.PlainPrediction
import BoostedTrees.Proofs.WholeRounds

/-!
# What evaluation scores

Evaluation hands metrics the scores of a matrix: its margins over all trees, under the
transform of the objective. Prediction gives values that are computed in the same way,
but it asks for more and looks at less. It refuses a matrix with more columns than there
are features, which evaluation scores without asking, the columns beyond the features
being looked at by no split. And it takes the trees of whole rounds only, so where the
number of outputs was changed under a forest, trees that are left over count in an
evaluation and in no prediction.

## Main definitions

* `Learner.scoresOver`: the scores of a matrix over a list of trees
* `Learner.plainReport`: the report on the scores over all trees
* `Learner.roundTrees`: the trees of whole rounds

## Main results

* `Learner.evaluate_eq`: evaluation reports on the scores over all trees
* `Learner.plainMatrix_eq_scores`: prediction gives the scores over the trees of whole rounds
* `Learner.predict_of_evaluate`: where evaluation succeeds, prediction gives what was
  scored exactly if the columns are few enough, and then over the trees of whole rounds
-/

namespace BoostedTrees

open EngineM
open BoostedTrees.Matrix (lonelyRow)

/-- Values are predicted under the transform that evaluation uses, unless it is the class
that is predicted, of which evaluation scores the probabilities. -/
theorem Objective.outputTransform_eq {o : Objective} (h : o ≠ .mostLikelyClass) (outputs : Nat)
    (margins : List Single) : o.outputTransform outputs margins = o.evalTransform outputs margins := by
  cases o with
  | mostLikelyClass => exact absurd rfl h
  | _ => rfl

namespace Learner

variable {K : Matrix → Prop} {l : Learner} {m : Matrix}

/-! ## Scores -/

/-- The scores of a matrix over a list of trees. -/
def scoresOver (l : Learner) (m : Matrix) (trees : List OutputTree) :
    Except EngineError (Array Single) := do
  let start ← l.startingMargins m.rows m.baseMargin
  let margins := addMargins start.toArray (sumsOf trees m.toRows l.outputs)
  return (l.settings.objective.evalTransform l.outputs margins.toList).toArray

/-- Whether there are scores is decided by the margins that rows start from, so there are
scores over all lists of trees or over none. -/
theorem exists_scoresOver {trees : List OutputTree} {scores : Array Single}
    (h : l.scoresOver m trees = .ok scores) (trees' : List OutputTree) :
    ∃ values, l.scoresOver m trees' = .ok values := by
  obtain ⟨start, hstart, -⟩ := Except.bind_eq_ok h
  unfold scoresOver
  rw [hstart]
  exact ⟨_, rfl⟩

/-- With a sound cache, the predictions that metrics are handed are the scores over all
trees, and only the cache changes. -/
theorem scoredPredictions_eq (hK : Matrix.Numbered K) (hm : K m)
    (h : l.cache.Sound K l.forest l.outputs) :
    ∃ c : MarginCache, c.Sound K l.forest l.outputs ∧
      scoredPredictions m l = (l.scoresOver m l.forest.trees, { l with cache := c }) := by
  unfold scoredPredictions margins scoresOver
  rw [bind_apply, bind_apply, check_apply]
  cases l.startingMargins m.rows m.baseMargin with
  | error e => exact ⟨l.cache, h, rfl⟩
  | ok start =>
    obtain ⟨c, hc, hsums⟩ := treeSums_eq hK hm false h
    refine ⟨c, hc, ?_⟩
    dsimp only
    rw [bind_apply, lift_apply, hsums]
    rfl

/-! ## Reports -/

/-- The entries for named matrices, whose scores are those over all trees. -/
def plainEntries (l : Learner) : List (Matrix × String) → Except EngineError (List Char)
  | [] => return []
  | (m, name) :: rest => do
    let scores ← l.scoresOver m l.forest.trees
    let entries ← scoreEntries l.outputs m name scores l.settings.reportedMetrics
    return entries ++ (← l.plainEntries rest)

/-- The report on the scores over all trees. -/
def plainReport (l : Learner) (iteration : Int32) (ms : List Matrix) (names : List String) :
    Except EngineError String := do
  if ms.length ≠ names.length then throw (.matrixNames ms.length names.length)
  ms.forM (·.checkMetadata l.outputs)
  return String.ofList (Report.opening iteration ++ (← l.plainEntries (ms.zip names)))

theorem plainEntries_withCache (l : Learner) (c : MarginCache) (ps : List (Matrix × String)) :
    ({ l with cache := c } : Learner).plainEntries ps = l.plainEntries ps := by
  induction ps with
  | nil => rfl
  | cons p rest ih =>
    rw [plainEntries, plainEntries, ih]
    rfl

/-- Where a matrix has scores, its entries come first. -/
theorem plainEntries_cons {name : String} {scores : Array Single}
    (h : l.scoresOver m l.forest.trees = .ok scores) (rest : List (Matrix × String)) :
    l.plainEntries ((m, name) :: rest) =
      (scoreEntries l.outputs m name scores l.settings.reportedMetrics >>= fun entries =>
        l.plainEntries rest >>= fun following => return entries ++ following) := by
  rw [plainEntries, h]
  rfl

/-- With a sound cache, matrix by matrix the scores over all trees are handed to metrics. -/
theorem evaluateEach_eq (hK : Matrix.Numbered K) {ps : List (Matrix × String)}
    (hps : ∀ p ∈ ps, K p.1) (h : l.cache.Sound K l.forest l.outputs) :
    ∃ c : MarginCache, c.Sound K l.forest l.outputs ∧
      evaluateEach ps l = (l.plainEntries ps, { l with cache := c }) := by
  induction ps generalizing l with
  | nil => exact ⟨l.cache, h, rfl⟩
  | cons p rest ih =>
    obtain ⟨m, name⟩ := p
    obtain ⟨hm, hrest⟩ := List.forall_mem_cons.mp hps
    obtain ⟨c, hc, hscored⟩ := scoredPredictions_eq hK hm h
    rw [evaluateEach, bind_apply, hscored]
    cases hscores : l.scoresOver m l.forest.trees with
    | error e =>
      refine ⟨c, hc, ?_⟩
      rw [plainEntries, hscores]
      rfl
    | ok scores =>
      -- The cache has no part in what the metrics make of the scores.
      have hentries : scoreEntries ({ l with cache := c } : Learner).outputs m name scores
          ({ l with cache := c } : Learner).settings.reportedMetrics =
            scoreEntries l.outputs m name scores l.settings.reportedMetrics := rfl
      rw [plainEntries_cons hscores]
      dsimp only
      rw [bind_apply, check_apply, hentries]
      cases scoreEntries l.outputs m name scores l.settings.reportedMetrics with
      | error e => exact ⟨c, hc, rfl⟩
      | ok entries =>
        obtain ⟨c', hc', heach⟩ := ih (l := { l with cache := c }) hrest hc
        refine ⟨c', hc', ?_⟩
        dsimp only
        rw [bind_apply, heach, plainEntries_withCache]
        cases l.plainEntries rest with
        | error e => rfl
        | ok following => rfl

/-- With a sound cache evaluation reports on the scores over all trees, and only the cache
changes. -/
theorem evaluate_eq (hK : Matrix.Numbered K) {ms : List Matrix} (hms : ∀ m ∈ ms, K m)
    (h : l.cache.Sound K l.forest l.outputs) (iteration : Int32) (names : List String) :
    ∃ c : MarginCache, c.Sound K l.forest l.outputs ∧
      evaluate iteration ms names l = (l.plainReport iteration ms names, { l with cache := c }) := by
  unfold evaluate plainReport
  by_cases hlength : ms.length ≠ names.length
  · simp only [if_pos hlength]
    exact ⟨l.cache, h, rfl⟩
  · simp only [if_neg hlength]
    rw [bind_apply, check_apply]
    cases ms.forM (·.checkMetadata l.outputs) with
    | error e => exact ⟨l.cache, h, rfl⟩
    | ok _ =>
      -- The metadata of all matrices has been checked by now.
      have hps : ∀ p ∈ ms.zip names, K p.1 := fun p hp => hms p.1 (List.of_mem_zip hp).1
      obtain ⟨c, hc, heach⟩ := evaluateEach_eq hK hps h
      refine ⟨c, hc, ?_⟩
      dsimp only
      rw [bind_apply, heach]
      cases l.plainEntries (ms.zip names) with
      | error e => rfl
      | ok entries => rfl

/-- Where there are entries, every matrix has scores. -/
theorem exists_scoresOver_of_plainEntries {ps : List (Matrix × String)} {entries : List Char}
    (h : l.plainEntries ps = .ok entries) :
    ∀ p ∈ ps, ∃ scores, l.scoresOver p.1 l.forest.trees = .ok scores := by
  induction ps generalizing entries with
  | nil => exact fun p hp => absurd hp List.not_mem_nil
  | cons p rest ih =>
    obtain ⟨m, name⟩ := p
    obtain ⟨scores, hscores, -⟩ := Except.bind_eq_ok h
    rw [plainEntries_cons hscores] at h
    obtain ⟨_, -, h⟩ := Except.bind_eq_ok h
    obtain ⟨following, hfollowing, -⟩ := Except.bind_eq_ok h
    intro q hq
    rcases List.mem_cons.mp hq with rfl | hq
    · exact ⟨scores, hscores⟩
    · exact ih hfollowing q hq

/-- Where there is a report, every matrix has scores. -/
theorem exists_scoresOver_of_plainReport {iteration : Int32} {ms : List Matrix}
    {names : List String} {report : String} (h : l.plainReport iteration ms names = .ok report)
    (hm : m ∈ ms) : ∃ scores, l.scoresOver m l.forest.trees = .ok scores := by
  unfold plainReport at h
  by_cases hlength : ms.length ≠ names.length
  · rw [if_pos hlength] at h
    cases h
  rw [if_neg hlength] at h
  obtain ⟨_, -, h⟩ := Except.bind_eq_ok h
  obtain ⟨entries, hentries, -⟩ := Except.bind_eq_ok h
  -- There are as many names, so no matrix is left without one.
  have hfst : (ms.zip names).map Prod.fst = ms :=
    List.map_fst_zip (Nat.le_of_eq (Decidable.not_not.mp hlength))
  obtain ⟨p, hp, rfl⟩ := List.mem_map.mp (hfst.symm ▸ hm)
  exact exists_scoresOver_of_plainEntries hentries p hp

/-! ## Predictions -/

/-- The trees of whole rounds, which are all that predictions look at. -/
def roundTrees (l : Learner) : List OutputTree := l.forest.trees.take (l.rounds.toNat * l.outputs)

/-- Where all trees are in rounds, the trees of whole rounds are all trees. -/
theorem roundTrees_eq (h : l.rounds.toNat * l.outputs = l.forest.size) :
    l.roundTrees = l.forest.trees := by
  rw [roundTrees, h]
  exact List.take_length

/-- Asked for values from all rounds, the trees of whole rounds give their scores. -/
theorem plainMatrix_eq_scores (h : l.settings.objective ≠ .mostLikelyClass) (m : Matrix) :
    l.plainMatrix m PredictionKind.value.mask 0 =
      (l.checkColumns m.columns >>= fun _ =>
        l.scoresOver m l.roundTrees >>= fun scores => return scores.toList) := by
  -- A limit of zero stands for the last round that is whole.
  have hrange : l.forest.range? l.outputs 0 0 = some ⟨0, l.rounds.toNat * l.outputs⟩ :=
    l.forest.range?_all l.outputs
  have htransform (margins : List Single) :=
    Objective.outputTransform_eq h l.outputs margins
  unfold plainMatrix plainRows scoresOver
  rw [PredictionKind.ofMask_mask, hrange]
  simp only [plainRange, Forest.within, List.drop_zero, htransform, bind_assoc, pure_bind]
  rfl

/-- What a learner predicts for a matrix that has scores. -/
theorem plainMatrix_of_scoresOver (h : l.settings.objective ≠ .mostLikelyClass)
    {values : Array Single} (hvalues : l.scoresOver m l.roundTrees = .ok values) :
    l.plainMatrix m PredictionKind.value.mask 0 =
      if l.features ≠ 0 ∧ l.features.toNat < m.columns then
        .error (.tooManyColumns m.columns l.features)
      else .ok values.toList := by
  rw [plainMatrix_eq_scores h, hvalues, checkColumns]
  split
  · rfl
  · rfl

/-- Take any history of a new learner in whose end the objective does not ask for the most
likely class, and matrices that it evaluates without an error. It has reported on their scores
over all trees. Asked for the values of one of them, from all rounds, it refuses the matrix if
it has more columns than there are features, and else gives the scores over the trees of whole
rounds. These are the scores that were reported on, bit by bit, where no trees are left over. -/
theorem predict_of_evaluate (hK : Matrix.Numbered K) (created : List Matrix) (os : List Occasion)
    (hos : ∀ o ∈ os, ∀ m ∈ o.request.matrices, K m) {ms : List Matrix} (hms : ∀ m ∈ ms, K m)
    {iteration : Int32} {names : List String} {report : String}
    (hobjective : ((create created).after os).settings.objective ≠ .mostLikelyClass)
    (hreport : (evaluate iteration ms names ((create created).after os)).1 = .ok report) :
    let l := (create created).after os
    l.plainReport iteration ms names = .ok report ∧
      ∀ m ∈ ms, ∃ scores values, l.scoresOver m l.forest.trees = .ok scores ∧
        l.scoresOver m l.roundTrees = .ok values ∧
        (predict m PredictionKind.value.mask 0 l).1 =
          (if l.features ≠ 0 ∧ l.features.toNat < m.columns then
            .error (.tooManyColumns m.columns l.features)
          else .ok values.toList) ∧
        (l.rounds.toNat * l.outputs = l.forest.size → values = scores) := by
  intro l
  -- No history leaves sums remembered that are wrong for the trees that there are.
  have hsound : l.cache.Sound K l.forest l.outputs :=
    ((agree_create K True created).run hK fun o ho => ⟨hos o ho, fun _ => trivial⟩).2.sound
  obtain ⟨c, -, heq⟩ := evaluate_eq hK hms hsound iteration names
  have hplain : l.plainReport iteration ms names = .ok report := by
    rw [← hreport, heq]
  refine ⟨hplain, ?_⟩
  intro m hm
  obtain ⟨scores, hscores⟩ := exists_scoresOver_of_plainReport hplain hm
  obtain ⟨values, hvalues⟩ := exists_scoresOver hscores l.roundTrees
  refine ⟨scores, values, hscores, hvalues, ?_, ?_⟩
  · rw [predict_fst hK hsound (hms m hm)]
    exact plainMatrix_of_scoresOver hobjective hvalues
  · intro hall
    rw [roundTrees_eq hall, hscores] at hvalues
    exact (Except.ok.inj hvalues).symm

/-- A row of two columns. -/
def pairRow : Matrix := ⟨8, 1, 2, #[1, 1], #[1], #[], [], #[], rfl⟩

theorem predict_of_evaluate_pairRow :
    let l := (create [lonelyRow 7]).after []
    (∃ report, (evaluate 0 [pairRow] ["pair"] l).1 = .ok report) ∧
      (predict pairRow PredictionKind.value.mask 0 l).1 = .error (.tooManyColumns 2 1) := by
  intro l
  obtain ⟨report, hreport⟩ : ∃ report, (evaluate 0 [pairRow] ["pair"] l).1 = .ok report :=
    ⟨_, rfl⟩
  have hnumbered : Matrix.Numbered fun n => n.toRows = pairRow.toRows :=
    fun n n' hn hn' _ => hn.trans hn'.symm
  have hpair : ∀ m ∈ [pairRow], m.toRows = pairRow.toRows := by
    intro m hm
    rw [List.mem_singleton.mp hm]
  obtain ⟨-, hall⟩ := predict_of_evaluate hnumbered [lonelyRow 7] []
    (fun o ho => absurd ho List.not_mem_nil) hpair (by decide) hreport
  obtain ⟨scores, values, -, -, hpredict, -⟩ := hall pairRow (List.mem_singleton.mpr rfl)
  exact ⟨⟨report, hreport⟩, hpredict.trans (if_pos (by decide))⟩

end Learner

end BoostedTrees
