import BoostedTrees.Proofs.Effects
import BoostedTrees.Proofs.RememberedSums

/-!
# Learners that answer alike

What a learner remembers never shows: as long as what two learners remember is right,
they answer alike if they agree otherwise, and agree again afterwards. The texts that
settings were given as show in a configuration only, so learners may differ in these
too where no configuration is asked for.

## Main definitions

* `Settings.Agree`: settings of one meaning, whose texts agree where they are shown
* `Learner.Agree`: learners that agree but for caches, which are both sound

## Main results

* `Learner.treeSums_eq`: with a sound cache the sums are those over all trees
* `Learner.respond_agree`: learners that agree answer every request alike
-/

namespace BoostedTrees

open EngineM

/-! ## Settings -/

namespace Settings

/-- The settings without the texts that they were given as. -/
def meaning (s : Settings) : Settings := { s with given := .empty }

/-- Settings mean the same, and they were given as the same texts if these are shown. -/
structure Agree (shown : Prop) (s s' : Settings) : Prop where
  meaning_eq : s.meaning = s'.meaning
  given_eq : shown → s.given = s'.given

variable {shown : Prop} {s s' : Settings}

theorem Agree.refl (shown : Prop) (s : Settings) : s.Agree shown s := ⟨rfl, fun _ => rfl⟩

theorem eq_of_meaning_eq (h : s.meaning = s'.meaning) : s = { s' with given := s.given } := by
  cases s
  cases s'
  simp only [meaning, Settings.mk.injEq] at h ⊢
  simp only [h, and_self]

namespace Agree

theorem congr {α : Type} (h : s.Agree shown s') (f : Settings → α)
    (hf : ∀ s : Settings, f s.meaning = f s) : f s = f s' := by
  rw [← hf s, ← hf s', h.meaning_eq]

theorem outputs_eq (h : s.Agree shown s') : s.outputs = s'.outputs := h.congr _ fun _ => rfl

theorem objective_eq (h : s.Agree shown s') : s.objective = s'.objective :=
  h.congr _ fun _ => rfl

theorem baseScore_eq (h : s.Agree shown s') : s.baseScore = s'.baseScore :=
  h.congr _ fun _ => rfl

/-- Assigning a text does not look at the texts before. -/
theorem assign (h : s.Agree shown s') (key value : String) :
    Alike (Agree shown) (s.assign key value) (s'.assign key value) := by
  have hs := eq_of_meaning_eq h.meaning_eq
  have hg := h.given_eq
  -- The settings are one record up to the texts `g`, which no assignment reads or writes.
  generalize s.given = g at hs hg
  subst hs
  unfold Settings.assign
  generalize keptName key = name
  split <;> first
    | exact .bind (alike_refl _) fun a b hab => hab ▸ ⟨rfl, hg⟩
    | exact ⟨rfl, hg⟩

theorem addMetric (h : s.Agree shown s') (metric : Metric) :
    (s.addMetric metric).Agree shown (s'.addMetric metric) := by
  have hm : s.metrics = s'.metrics := h.congr _ fun _ => rfl
  have hs := eq_of_meaning_eq h.meaning_eq
  unfold Settings.addMetric
  rw [← hm]
  split
  · exact h
  · refine ⟨?_, h.given_eq⟩
    rw [hs]
    rfl

theorem set (h : s.Agree shown s') (key value : String) :
    Alike (Agree shown) (s.set key value) (s'.set key value) := by
  unfold Settings.set
  split
  · exact h
  split
  · rfl
  split
  · exact .bind (alike_refl _) fun a b hab => hab ▸ h.addMetric a
  · refine .bind (h.assign key value) fun t t' ht => ⟨ht.meaning_eq, fun hshown => ?_⟩
    exact congrArg (·.insert (keptName key) value) (ht.given_eq hshown)

theorem setAll (h : s.Agree shown s') (pairs : List (String × String)) :
    Alike (Agree shown) (s.setAll pairs) (s'.setAll pairs) := by
  induction pairs generalizing s s' with
  | nil => exact h
  | cons pair rest ih => exact .bind (h.set pair.1 pair.2) fun _ _ ht => ih ht

theorem loadConfig (h : s.Agree shown s') (text : String) :
    Alike (Agree shown) (s.loadConfig text) (s'.loadConfig text) := by
  unfold Settings.loadConfig
  cases Config.ofText? text with
  | none => rfl
  | some c => exact h.setAll c.pairs

end Agree

end Settings

/-! ## Learners -/

namespace Learner

/-- Learners agree but for what they remember, and both remember right sums for the
matrices under consideration. -/
structure Agree (K : Matrix → Prop) (shown : Prop) (l l' : Learner) : Prop where
  settings : l.settings.Agree shown l'.settings
  attributes : l.attributes = l'.attributes
  featureNames : l.featureNames = l'.featureNames
  featureTypes : l.featureTypes = l'.featureTypes
  features : l.features = l'.features
  forest : l.forest = l'.forest
  sound : l.cache.Sound K l.forest l.outputs
  sound' : l'.cache.Sound K l'.forest l'.outputs

variable {K : Matrix → Prop} {shown : Prop} {l l' : Learner} {m : Matrix} {id : Nat}

theorem outputs_pos (l : Learner) : 0 < l.outputs := l.settings.outputs_pos

/-! ### Sums -/

/-- With a sound cache the sums are those over all trees, and only the cache changes. -/
theorem treeSums_eq (hK : Matrix.Numbered K) (hm : K m) (register : Bool)
    (h : l.cache.Sound K l.forest l.outputs) :
    ∃ c : MarginCache, c.Sound K l.forest l.outputs ∧
      treeSums m register l =
        (sumsOf l.forest.trees m.toRows l.outputs, { l with cache := c }) := by
  rw [treeSums_apply]
  cases hfind : l.cache.find? m.id with
  | some e =>
    -- The entry that is found goes back up to date.
    obtain ⟨hmem, hid⟩ := MarginCache.mem_of_find? hfind
    have he := h e hmem m hm hid.symm
    refine ⟨l.cache.put (e.brought l.forest l.outputs m), h.put fun n hn hnid => ?_, ?_⟩
    · refine he.sound_brought l.outputs_pos (hK hn hm ?_)
      rw [hnid, RememberedSums.matrix_brought hid]
    · simp only [he.brought l.outputs_pos]
  | none =>
    cases register with
    | false => exact ⟨l.cache, h, rfl⟩
    | true =>
      -- A new entry is made of the sums over all trees.
      exact ⟨_, h.withRoom.put (e := .taken l.forest l.outputs m) fun n hn hnid =>
        RememberedSums.sound_taken _ _ (hK hm hn hnid.symm), rfl⟩

/-- The same holds of the sums over a range of trees. -/
theorem sumsWithin_eq (hK : Matrix.Numbered K) (hm : K m) (range : Forest.Range)
    (h : l.cache.Sound K l.forest l.outputs) :
    ∃ c : MarginCache, c.Sound K l.forest l.outputs ∧
      sumsWithin range m.toRows (some m) l =
        (sumsOf (l.forest.within range) m.toRows l.outputs, { l with cache := c }) := by
  rw [sumsWithin_apply]
  split
  · next hall =>
    obtain ⟨c, hc, heq⟩ := treeSums_eq hK hm false h
    exact ⟨c, hc, by rw [heq, hall.1, Forest.within_all]⟩
  · exact ⟨l.cache, h, rfl⟩

namespace Agree

theorem outputs (h : l.Agree K shown l') : l.outputs = l'.outputs := h.settings.outputs_eq

/-- Sound caches may be put in the place of others. -/
theorem withCaches (h : l.Agree K shown l') {c c' : MarginCache}
    (hc : c.Sound K l.forest l.outputs) (hc' : c'.Sound K l'.forest l'.outputs) :
    ({ l with cache := c } : Learner).Agree K shown { l' with cache := c' } :=
  { h with sound := hc, sound' := hc' }

end Agree

theorem treeSums_related (hK : Matrix.Numbered K) (hm : K m) (hm' : K (m.withId id))
    (register : Bool) :
    Related (Agree K shown) Eq (liftM (treeSums m register) : LearnerM _)
      (liftM (treeSums (m.withId id) register) : LearnerM _) := by
  refine .lift fun l l' h => ?_
  obtain ⟨c, hc, heq⟩ := treeSums_eq hK hm register h.sound
  obtain ⟨c', hc', heq'⟩ := treeSums_eq hK hm' register h.sound'
  rw [heq, heq']
  refine ⟨?_, h.withCaches hc hc'⟩
  simp only [h.forest, h.outputs]
  rfl

/-- Sums over a range of trees are alike too, whether they are remembered or not. -/
theorem sumsWithin_related (hK : Matrix.Numbered K) (hm : K m) (hm' : K (m.withId id))
    (range : Forest.Range) :
    Related (Agree K shown) Eq (liftM (sumsWithin range m.toRows (some m)) : LearnerM _)
      (liftM (sumsWithin range (m.withId id).toRows (some (m.withId id))) : LearnerM _) := by
  refine .lift fun l l' h => ?_
  obtain ⟨c, hc, heq⟩ := sumsWithin_eq hK hm range h.sound
  obtain ⟨c', hc', heq'⟩ := sumsWithin_eq hK hm' range h.sound'
  rw [heq, heq']
  refine ⟨?_, h.withCaches hc hc'⟩
  simp only [h.forest, h.outputs]
  rfl

/-! ### Margins and predictions -/

namespace Agree

theorem outputCount (h : l.Agree K shown l') (rows : Nat) :
    l.outputCount rows = l'.outputCount rows := by
  simp only [Learner.outputCount, h.outputs]

theorem startingMargins (h : l.Agree K shown l') (rows : Nat) (given : Array Single) :
    l.startingMargins rows given = l'.startingMargins rows given := by
  unfold Learner.startingMargins
  rw [h.outputCount rows, h.settings.objective_eq, h.settings.baseScore_eq]

theorem checkColumns (h : l.Agree K shown l') (columns : Nat) :
    l.checkColumns columns = l'.checkColumns columns := by
  simp only [Learner.checkColumns, h.features]

end Agree

theorem margins_related (hK : Matrix.Numbered K) (hm : K m) (hm' : K (m.withId id))
    (register : Bool) :
    Related (Agree K shown) Eq (margins m register) (margins (m.withId id) register) := by
  unfold margins
  refine .bind (.check_of_eq fun l l' h => h.startingMargins _ _) fun start start' hs => ?_
  refine .bind (treeSums_related hK hm hm' register) fun sums sums' hsums => ?_
  exact .pure (by rw [hs, hsums])

/-- Predictions for rows are alike if the sums of the trees' outputs are. -/
theorem predictRows_related {rows : Rows} {m? m?' : Option Matrix}
    (hsums : ∀ range, Related (Agree K shown) Eq (liftM (sumsWithin range rows m?) : LearnerM _)
      (liftM (sumsWithin range rows m?') : LearnerM _))
    (kind : PredictionKind) (first last : UInt32) (baseMargin : Array Single) :
    Related (Agree K shown) Eq (predictRows kind first last rows m? baseMargin)
      (predictRows kind first last rows m?' baseMargin) := by
  unfold predictRows
  refine .bind .get fun l l' h => ?_
  simp only [h.forest, h.outputs, rounds, contributionColumns, h.features,
    h.settings.objective_eq]
  split
  · exact .throw _
  · refine .bind (.check_of_eq fun l l' h => h.startingMargins _ _) fun start start' hs => ?_
    subst hs
    cases kind with
    | contributions => exact .pure rfl
    | leaf => exact .pure rfl
    | margin => exact .bind (hsums _) fun sums sums' hsums => .pure (by rw [hsums])
    | value => exact .bind (hsums _) fun sums sums' hsums => .pure (by rw [hsums])

theorem predict_related (hK : Matrix.Numbered K) (hm : K m) (hm' : K (m.withId id))
    (mask : Int32) (limit : UInt32) :
    Related (Agree K shown) Eq (predict m mask limit) (predict (m.withId id) mask limit) := by
  unfold predict
  refine .bind (.check_of_eq fun l l' h => h.checkColumns _) fun _ _ _ => ?_
  exact predictRows_related (sumsWithin_related hK hm hm') _ _ _ _

/-- Rows without a matrix have no entry in a cache. -/
theorem predictDense_related (d : DenseRows) (first last : UInt32) (code : Int32)
    (baseMargin : Array Single) :
    Related (Agree K shown) Eq (predictDense d first last code baseMargin)
      (predictDense d first last code baseMargin) := by
  have hsums : ∀ range,
      Related (Agree K shown) Eq (liftM (sumsWithin range d.toRows none) : LearnerM _)
        (liftM (sumsWithin range d.toRows none) : LearnerM _) := fun range =>
    .lift fun l l' h => ⟨by
      change sumsOf (l.forest.within range) _ _ = sumsOf (l'.forest.within range) _ _
      rw [h.forest, h.outputs], h⟩
  unfold predictDense
  refine .bind (.check_of_eq fun _ _ _ => rfl) fun kind kind' hkind => ?_
  subst hkind
  dsimp only
  split
  · exact .throw _
  · refine .bind (.check_of_eq fun l l' h => h.checkColumns _) fun _ _ _ => ?_
    exact predictRows_related hsums _ _ _ _

/-! ### Evaluation -/

theorem scoreEntries_withId (outputs : Nat) (m : Matrix) (id : Nat) (name : String)
    (predictions : Array Single) (metrics : List Metric) :
    scoreEntries outputs (m.withId id) name predictions metrics =
      scoreEntries outputs m name predictions metrics := by
  induction metrics with
  | nil => rfl
  | cons metric rest ih =>
    have hscore : metric.score outputs (m.withId id) predictions =
        metric.score outputs m predictions := by cases metric <;> rfl
    simp only [scoreEntries, hscore, ih]

theorem scoredPredictions_related (hK : Matrix.Numbered K) (hm : K m) (hm' : K (m.withId id)) :
    Related (Agree K shown) Eq (scoredPredictions m) (scoredPredictions (m.withId id)) := by
  unfold scoredPredictions
  refine .bind (margins_related hK hm hm' false) fun margins margins' hmargins => ?_
  refine .bind .get fun l l' h => .pure ?_
  rw [hmargins, h.settings.objective_eq, h.outputs]

/-- The number of a matrix replaced by that of its clone. -/
def cloned (f : Matrix → Nat) (m : Matrix) : Matrix := m.withId (f m)

theorem evaluateEach_related (hK : Matrix.Numbered K) (f : Matrix → Nat)
    {ps : List (Matrix × String)} (hps : ∀ p ∈ ps, K p.1 ∧ K (cloned f p.1)) :
    Related (Agree K shown) Eq (evaluateEach ps)
      (evaluateEach (ps.map fun p => (cloned f p.1, p.2))) := by
  induction ps with
  | nil => exact .pure rfl
  | cons p ps ih =>
    obtain ⟨hm, hm'⟩ := hps p List.mem_cons_self
    have ih := ih fun q hq => hps q (List.mem_cons_of_mem _ hq)
    refine .bind (scoredPredictions_related hK hm hm') fun predictions predictions' hp => ?_
    refine .bind (.check_of_eq fun l l' h => ?_) fun entries entries' hentries => ?_
    · have hmetrics : l.settings.reportedMetrics = l'.settings.reportedMetrics :=
        h.settings.congr _ fun _ => rfl
      rw [hp, h.outputs, hmetrics]
      exact (scoreEntries_withId _ _ _ _ _ _).symm
    · exact .bind ih fun rest rest' hrest => .pure (by rw [hentries, hrest])

theorem forM_checkMetadata_cloned (f : Matrix → Nat) (ms : List Matrix) (outputs : Nat) :
    (ms.map (cloned f)).forM (·.checkMetadata outputs) = ms.forM (·.checkMetadata outputs) := by
  induction ms with
  | nil => rfl
  | cons m ms ih => exact congrArg (m.checkMetadata outputs >>= fun _ => ·) ih

theorem evaluate_related (hK : Matrix.Numbered K) (f : Matrix → Nat) {ms : List Matrix}
    (hms : ∀ m ∈ ms, K m ∧ K (cloned f m)) (iteration : Int32) (names : List String) :
    Related (Agree K shown) Eq (evaluate iteration ms names)
      (evaluate iteration (ms.map (cloned f)) names) := by
  unfold evaluate
  rw [List.length_map]
  split
  · exact .throw _
  · refine .bind (.check_of_eq fun l l' h => ?_) fun _ _ _ => ?_
    · rw [forM_checkMetadata_cloned, h.outputs]
    · rw [List.zip_map_left]
      refine .bind (evaluateEach_related hK f fun p hp => ?_) fun entries entries' he =>
        .pure (by rw [he])
      exact hms p.1 (List.of_mem_zip hp).1

/-! ### Training -/

theorem growAt_withId (rules : GrowthRules) (m : Matrix) (id : Nat) (g : Gradient) (levels : Nat)
    (t : Tree) (i : Nat) (rows : List Nat) :
    Growth.growAt rules (m.withId id) g levels t i rows =
      Growth.growAt rules m g levels t i rows := by
  induction levels generalizing t i rows with
  | zero => rfl
  | succ levels ih =>
    simp only [Growth.growAt, ih]
    rfl

theorem growOutputs_congr {s s' : Settings} (h : s.Agree shown s') (m : Matrix) (id : Nat)
    (g : Gradient) (ks : List Nat) (source : Random.Xoshiro) :
    growOutputs s' (m.withId id) g ks source = growOutputs s m g ks source := by
  have hrules : s.growthRules = s'.growthRules := h.congr _ fun _ => rfl
  have hshare : s.subsample = s'.subsample := h.congr _ fun _ => rfl
  have hrows : (m.withId id).rows = m.rows := rfl
  induction ks generalizing source with
  | nil => rfl
  | cons k ks ih =>
    simp only [growOutputs, ih, Growth.grow, growAt_withId, ← hrules, ← hshare, ← h.outputs_eq,
      hrows]

theorem growRound_congr {s s' : Settings} (h : s.Agree shown s') (iteration : Int32) (m : Matrix)
    (id : Nat) (g : Gradient) :
    growRound s' iteration (m.withId id) g = growRound s iteration m g := by
  have hseed : s.seed = s'.seed := h.congr _ fun _ => rfl
  simp only [growRound, ← hseed, ← h.outputs_eq, growOutputs_congr h]

theorem fixFeatures_related (m : Matrix) (id : Nat) :
    Related (Agree K shown) Eq (fixFeatures m) (fixFeatures (m.withId id)) := by
  unfold fixFeatures
  refine .bind .get fun l l' h => ?_
  have hcolumns : (m.withId id).columns = m.columns := rfl
  have htrees : l.forest.trees = l'.forest.trees := congrArg Forest.trees h.forest
  rw [hcolumns, h.features, htrees]
  dsimp only
  split
  · exact .set { h with features := rfl }
  split
  · exact .throw _
  · exact .pure rfl

theorem boost_related (hK : Matrix.Numbered K) (hm : K m) (hm' : K (m.withId id))
    (iteration : Int32) (g : Gradient) :
    Related (Agree K shown) Eq (boost iteration m g) (boost iteration (m.withId id) g) := by
  unfold boost
  refine .bind .get fun l l' h => ?_
  have hrows : (m.withId id).rows = m.rows := rfl
  rw [hrows, h.outputCount]
  dsimp only
  split
  · exact .throw _
  refine .bind (.check_of_eq fun l l' h => by rw [h.outputs]; rfl) fun _ _ _ => ?_
  refine .bind (fixFeatures_related m id) fun _ _ _ => ?_
  refine .bind (.modify fun l l' h => ?_) fun _ _ _ => ?_
  · have hround := growRound_congr h.settings iteration m id g
    refine { h with forest := ?_, sound := h.sound.addRound _, sound' := h.sound'.addRound _ }
    simp only [hround, h.forest]
  · exact .bind (treeSums_related hK hm hm' true) fun _ _ _ => .pure rfl

theorem update_related (hK : Matrix.Numbered K) (hm : K m) (hm' : K (m.withId id))
    (iteration : Int32) :
    Related (Agree K shown) Eq (update iteration m) (update iteration (m.withId id)) := by
  unfold update
  refine .bind (.check_of_eq fun l l' h => ?_) fun _ _ _ => ?_
  · simp only [checkTrainingData, h.outputs, h.settings.objective_eq, h.settings.baseScore_eq]
    rfl
  refine .bind (fixFeatures_related m id) fun _ _ _ => ?_
  refine .bind (margins_related hK hm hm' true) fun margins margins' hmargins => ?_
  refine .bind .get fun l l' h => ?_
  -- The gradient is that of the matrix's labels and weights, which a clone shares.
  have hgradient : ∀ o : Objective, o.gradient l'.outputs (m.withId id) margins' =
      o.gradient l.outputs m margins := by
    intro o
    rw [hmargins, h.outputs]
    cases o <;> rfl
  rw [hgradient, ← h.settings.objective_eq]
  exact boost_related hK hm hm' iteration _

/-! ### Settings, metadata and models -/

/-- New settings of the same meaning are taken over alike. -/
theorem Agree.withSettings (h : l.Agree K shown l') {s s' : Settings} (hs : s.Agree shown s') :
    (l.withSettings s).Agree K shown (l'.withSettings s') := by
  unfold Learner.withSettings
  rw [← hs.outputs_eq, ← h.outputs]
  -- Both learners keep what they remember, or both forget it.
  split
  · next houtputs =>
    have hs' : s'.outputs = l'.outputs := by rw [← hs.outputs_eq, houtputs, h.outputs]
    refine { h with settings := hs, sound := ?_, sound' := ?_ }
    · simpa only [Learner.outputs, houtputs] using h.sound
    · simpa only [Learner.outputs, hs'] using h.sound'
  · exact { h with
      settings := hs
      sound := MarginCache.sound_empty K _ _
      sound' := MarginCache.sound_empty K _ _ }

theorem setParameter_related (key value : String) :
    Related (Agree K shown) Eq (setParameter key value) (setParameter key value) :=
  .bind (.check fun _ _ h => h.settings.set key value) fun _ _ hs =>
    .modify fun _ _ h => h.withSettings hs

theorem loadConfig_related (text : String) :
    Related (Agree K shown) Eq (loadConfig text) (loadConfig text) :=
  .bind (.check fun _ _ h => h.settings.loadConfig text) fun _ _ hs =>
    .modify fun _ _ h => h.withSettings hs

theorem setAttribute_related (key : String) (value? : Option String) :
    Related (Agree K shown) Eq (setAttribute key value?) (setAttribute key value?) :=
  .modify fun l l' h => { h with attributes := by rw [h.attributes] }

theorem setFeatureInfo_related (field : String) (values : List String) :
    Related (Agree K shown) Eq (setFeatureInfo field values) (setFeatureInfo field values) := by
  unfold setFeatureInfo
  refine .bind .get fun l l' h => ?_
  rw [h.features]
  by_cases hlength : values ≠ [] ∧ l'.features ≠ 0 ∧ values.length ≠ l'.features.toNat
  · simp only [if_pos hlength]
    exact .throw _
  simp only [if_neg hlength]
  split
  · exact .set { h with featureNames := rfl, features := rfl }
  · split
    · exact .throw _
    · exact .set { h with featureTypes := rfl, features := rfl }
  · exact .throw _

theorem loadStored_related (m : StoredModel) :
    Related (Agree K shown) Eq (loadStored m) (loadStored m) := by
  unfold loadStored
  refine .bind (.check fun _ _ h => h.settings.setAll _) fun s s' hs => ?_
  refine .bind (.check_of_eq fun _ _ _ => by rw [hs.outputs_eq]) fun forest forest' hforest => ?_
  exact .set {
    settings := hs
    attributes := rfl
    featureNames := rfl
    featureTypes := rfl
    features := rfl
    forest := hforest
    sound := MarginCache.sound_empty K _ _
    sound' := MarginCache.sound_empty K _ _ }

theorem load_related (bytes : List UInt8) :
    Related (Agree K shown) Eq (load bytes) (load bytes) := by
  unfold load
  cases StoredModel.decode bytes with
  | error e => exact .throw _
  | ok m => exact loadStored_related m

/-- The stored form shows neither what is remembered nor how settings were given. -/
theorem Agree.toStored (h : l.Agree K shown l') : l.toStored = l'.toStored := by
  have hclasses : l.settings.numClass = l'.settings.numClass := h.settings.congr _ fun _ => rfl
  simp only [Learner.toStored, h.attributes, h.featureNames, h.featureTypes, h.features, h.forest,
    hclasses, h.settings.baseScore_eq, h.settings.objective_eq]

theorem Agree.saveAs (h : l.Agree K shown l') (format : ModelFormat) :
    l.saveAs format = l'.saveAs format := by
  simp only [Learner.saveAs, h.toStored]

/-! ### All requests -/

/-- Learners that agree answer a request alike and agree afterwards; where the texts of
the settings may differ, the request must not be one for the configuration. -/
theorem respond_agree (hK : Matrix.Numbered K) (files : Files) {r : Request}
    (hr : ∀ m ∈ r.matrices, K m) (hshown : r = .config → shown) :
    Related (Agree K shown) Eq (respond files r) (respond files r) := by
  cases r with
  | setParameter key value => exact setParameter_related key value
  | getAttribute key => exact .check_of_eq fun _ _ h => by rw [h.attributes]
  | setAttribute key value? => exact setAttribute_related key value?
  | attributeNames => exact .check_of_eq fun _ _ h => by rw [h.attributes]
  | setFeatureInfo field values => exact setFeatureInfo_related field values
  | featureInfo field =>
    exact .check_of_eq fun _ _ h => by
      simp only [Learner.featureInfo, h.featureNames, h.featureTypes]
  | featureCount => exact .check_of_eq fun _ _ h => by rw [h.features]
  | roundCount => exact .check_of_eq fun _ _ h => by simp only [rounds, h.forest, h.outputs]
  | update iteration m =>
    have hm : K m := hr m List.mem_cons_self
    -- Here and below a matrix is the clone of itself under its own number.
    have hself : K (m.withId m.id) := hm
    exact update_related hK hm hself iteration
  | boost iteration m g =>
    have hm : K m := hr m List.mem_cons_self
    have hself : K (m.withId m.id) := hm
    exact boost_related hK hm hself iteration g
  | evaluate iteration ms names =>
    have hms : ∀ m ∈ ms, K m ∧ K (cloned (·.id) m) := fun m hm => ⟨hr m hm, hr m hm⟩
    have hself : ms.map (cloned (·.id)) = ms := List.map_id' ms
    have h : Related (Agree K shown) Eq (evaluate iteration ms names)
        (evaluate iteration (ms.map (cloned (·.id))) names) :=
      evaluate_related hK (·.id) hms iteration names
    rwa [hself] at h
  | predict m mask limit =>
    have hm : K m := hr m List.mem_cons_self
    have hself : K (m.withId m.id) := hm
    exact predict_related hK hm hself mask limit
  | predictDense d first last code baseMargin =>
    exact predictDense_related d first last code _
  | loadFile path =>
    simp only [respond]
    cases files.read? path with
    | none => exact .throw _
    | some bytes => exact load_related bytes
  | saveFile path => exact .check_of_eq fun _ _ h => by rw [h.saveAs]
  | load bytes => exact load_related bytes
  | save format => exact .check_of_eq fun _ _ h => by simp only [Learner.save, h.saveAs]
  | dump mapPath? statistics format =>
    exact .check_of_eq fun _ _ h => by simp only [Learner.dump, h.forest]
  | dumpNamed names statistics format =>
    exact .check_of_eq fun _ _ h => by simp only [Learner.dump, h.forest]
  | config =>
    -- The one answer in which the texts that were given can be told apart.
    refine .check_of_eq fun l l' h => ?_
    have hs : l.settings = l'.settings := by
      rw [Settings.eq_of_meaning_eq h.settings.meaning_eq, h.settings.given_eq (hshown rfl)]
    rw [hs]
  | loadConfig text => exact loadConfig_related text

/-! ### Histories -/

/-- A learner that remembers the right sums agrees with itself. -/
theorem Agree.self (h : l.cache.Sound K l.forest l.outputs) (shown : Prop) : l.Agree K shown l where
  settings := .refl shown _
  attributes := rfl
  featureNames := rfl
  featureTypes := rfl
  features := rfl
  forest := rfl
  sound := h
  sound' := h

theorem sound_create (K : Matrix → Prop) (ms : List Matrix) :
    (create ms).cache.Sound K (create ms).forest (create ms).outputs :=
  MarginCache.sound_ofMatrices K ms _ (create ms).outputs_pos

/-- A new learner agrees with itself. -/
theorem agree_create (K : Matrix → Prop) (shown : Prop) (ms : List Matrix) :
    (create ms).Agree K shown (create ms) := .self (sound_create K ms) shown

/-- Learners that agree give the same answer on an occasion and agree again. -/
theorem Agree.answer (h : l.Agree K shown l') (hK : Matrix.Numbered K) {o : Occasion}
    (ho : ∀ m ∈ o.request.matrices, K m) (hshown : o.request = .config → shown) :
    (l.answer o).1 = (l'.answer o).1 ∧ (l.answer o).2.Agree K shown (l'.answer o).2 := by
  obtain ⟨hreply, hafter⟩ := respond_agree hK o.files ho hshown h
  refine ⟨?_, hafter⟩
  simp only [Learner.answer, EngineM.alike_eq_iff.mp hreply]

/-- The same holds of a whole history. -/
theorem Agree.run (h : l.Agree K shown l') (hK : Matrix.Numbered K) {os : List Occasion}
    (hos : ∀ o ∈ os, (∀ m ∈ o.request.matrices, K m) ∧ (o.request = .config → shown)) :
    (l.run os).1 = (l'.run os).1 ∧ (l.after os).Agree K shown (l'.after os) := by
  induction os generalizing l l' with
  | nil => exact ⟨rfl, h⟩
  | cons o os ih =>
    obtain ⟨hmatrices, hshown⟩ := hos o List.mem_cons_self
    obtain ⟨hanswer, hnext⟩ := h.answer hK hmatrices hshown
    obtain ⟨hrest, hend⟩ := ih hnext fun o ho => hos o (List.mem_cons_of_mem _ ho)
    refine ⟨?_, hend⟩
    simp only [Learner.run, hanswer, hrest]

/-- No history leaves sums remembered that are wrong for the trees that there are. -/
theorem sound_after (hK : Matrix.Numbered K) (h : l.cache.Sound K l.forest l.outputs)
    {os : List Occasion} (hos : ∀ o ∈ os, ∀ m ∈ o.request.matrices, K m) :
    (l.after os).cache.Sound K (l.after os).forest (l.after os).outputs :=
  ((Agree.self h True).run hK fun o ho => ⟨hos o ho, fun _ => trivial⟩).2.sound

end Learner

end BoostedTrees
