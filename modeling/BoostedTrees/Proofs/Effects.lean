import BoostedTrees.Proofs.Requests

/-!
# What a request does to a learner

Every request changes a learner in one of a few ways, which `Learner.Effect` lists: it
may do nothing but remember sums, give settings, change attributes or the metadata of
features, load a model, or train. A training request that fails may have fixed the
number of features before it failed; apart from that, requests that fail change nothing
but what is remembered.

## Main definitions

* `Learner.FeaturesFixed`: what training may make of the number of features
* `Learner.Trainable`, `Learner.grown`: what a round asks for, and what it makes of a learner
* `Learner.Effect`: the ways in which a request may change a learner
* `Learner.states`, `Learner.steps`: the learners that a history passes

## Main results

* `Learner.boost_cases`, `Learner.update_cases`: what a round of training does
* `Learner.effect_respond`: every request has one of these effects
* `Learner.forall_states_iff`: a property holds along a history if it holds at its
  start and no step breaks it
-/

namespace BoostedTrees

open EngineM

/-! ## Kinds of requests -/

namespace Request

/-- Whether a request gives settings. -/
def givesSettings : Request → Bool
  | setParameter .. => true
  | loadConfig _ => true
  | _ => false

/-- Whether a request is for a round of training. -/
def trains : Request → Bool
  | update .. => true
  | boost .. => true
  | _ => false

/-- Whether a request loads a model. -/
def loads : Request → Bool
  | loadFile _ => true
  | load _ => true
  | _ => false

theorem not_trains_of_loads {r : Request} (h : r.loads) : ¬r.trains := by
  cases r <;> simp_all [loads, trains]

theorem not_trains_of_givesSettings {r : Request} (h : r.givesSettings) : ¬r.trains := by
  cases r <;> simp_all [givesSettings, trains]

theorem not_givesSettings_of_loads {r : Request} (h : r.loads) : ¬r.givesSettings := by
  cases r <;> simp_all [loads, givesSettings]

end Request

namespace Learner

variable {l l' : Learner} {n n' : UInt64}

/-! ## Settings -/

@[simp] theorem withSettings_settings (l : Learner) (s : Settings) :
    (l.withSettings s).settings = s := by
  unfold withSettings
  split <;> rfl

@[simp] theorem withSettings_forest (l : Learner) (s : Settings) :
    (l.withSettings s).forest = l.forest := by
  unfold withSettings
  split <;> rfl

@[simp] theorem withSettings_features (l : Learner) (s : Settings) :
    (l.withSettings s).features = l.features := by
  unfold withSettings
  split <;> rfl

@[simp] theorem withSettings_featureNames (l : Learner) (s : Settings) :
    (l.withSettings s).featureNames = l.featureNames := by
  unfold withSettings
  split <;> rfl

@[simp] theorem withSettings_featureTypes (l : Learner) (s : Settings) :
    (l.withSettings s).featureTypes = l.featureTypes := by
  unfold withSettings
  split <;> rfl

/-! ## Metadata -/

/-- Metadata are refused, or a list that may be taken becomes that of the names or the types. -/
theorem setFeatureInfo_cases (field : String) (values : List String) (l : Learner) :
    (∃ e, setFeatureInfo field values l = (.error e, l)) ∨
      (values = [] ∨ l.features = 0 ∨ values.length = l.features.toNat) ∧
        (setFeatureInfo field values l = (.ok (), { l with featureNames := values }) ∨
          setFeatureInfo field values l = (.ok (), { l with featureTypes := values })) := by
  unfold setFeatureInfo
  rw [get_bind_apply]
  by_cases hlength : values ≠ [] ∧ l.features ≠ 0 ∧ values.length ≠ l.features.toNat
  · simp only [if_pos hlength]
    exact .inl ⟨_, rfl⟩
  have hvalues : values = [] ∨ l.features = 0 ∨ values.length = l.features.toNat := by
    simpa only [ne_eq, Decidable.not_and_iff_not_or_not, Decidable.not_not] using hlength
  simp only [if_neg hlength]
  split
  · exact .inr ⟨hvalues, .inl rfl⟩
  · cases values.find? fun t => !isFeatureType t with
    | some type => exact .inl ⟨_, rfl⟩
    | none => exact .inr ⟨hvalues, .inr rfl⟩
  · exact .inl ⟨_, rfl⟩

/-! ## Looking -/

theorem treeSums_apply (m : Matrix) (register : Bool) (l : Learner) :
    treeSums m register l =
      match l.cache.find? m.id with
      | some e =>
        ((e.brought l.forest l.outputs m).sums,
          { l with cache := l.cache.put (e.brought l.forest l.outputs m) })
      | none =>
        (sumsOf l.forest.trees m.toRows l.outputs,
          if register then
            { l with cache := l.cache.withRoom.put (.taken l.forest l.outputs m) }
          else l) := by
  change (treeSums m register).run l = _
  cases h : l.cache.find? m.id with
  | some e =>
    simp only [treeSums, StateT.run_bind, StateT.run_get, pure_bind, h]
    rfl
  | none =>
    simp only [treeSums, StateT.run_bind, StateT.run_get, pure_bind, h]
    cases register <;> rfl

theorem sumsWithin_apply (range : Forest.Range) (rows : Rows) (m : Matrix) (l : Learner) :
    sumsWithin range rows (some m) l =
      if range = l.forest.all ∧ l.cache.contains m.id then treeSums m false l
      else (sumsOf (l.forest.within range) rows l.outputs, l) := by
  change (sumsWithin range rows (some m)).run l = _
  by_cases h : range = l.forest.all ∧ l.cache.contains m.id
  · simp only [sumsWithin, StateT.run_bind, StateT.run_get, pure_bind, if_pos h]
    rfl
  · simp only [sumsWithin, StateT.run_bind, StateT.run_get, pure_bind, if_neg h]
    rfl

/-- A call that changes nothing but what is remembered. -/
def Looks {α : Type} (x : LearnerM α) : Prop := ∀ l, ∃ c, (x l).2 = { l with cache := c }

namespace Looks

variable {α β : Type}

theorem bind {x : LearnerM α} {f : α → LearnerM β} (hx : Looks x) (hf : ∀ a, Looks (f a)) :
    Looks (x >>= f) := by
  intro l
  obtain ⟨c, hc⟩ := hx l
  rw [bind_apply]
  generalize x l = p at hc
  obtain ⟨e | a, l₁⟩ := p
  · exact ⟨c, hc⟩
  · -- The second part starts from a learner that differs in its cache only.
    obtain rfl : l₁ = { l with cache := c } := hc
    exact hf a _

theorem pure (a : α) : Looks (pure a) := fun l => ⟨l.cache, rfl⟩

theorem throw (e : EngineError) : Looks (throw e : LearnerM α) := fun l => ⟨l.cache, rfl⟩

theorem get : Looks get := fun l => ⟨l.cache, rfl⟩

theorem check (f : Learner → Except EngineError α) : Looks (check f) :=
  fun l => ⟨l.cache, by rw [check_apply]⟩

theorem treeSums (m : Matrix) (register : Bool) :
    Looks (liftM (treeSums m register) : LearnerM (Array Single)) := by
  intro l
  rw [lift_apply, treeSums_apply]
  cases l.cache.find? m.id with
  | some e => exact ⟨_, rfl⟩
  | none =>
    cases register with
    | false => exact ⟨l.cache, rfl⟩
    | true => exact ⟨_, rfl⟩

theorem sumsWithin (range : Forest.Range) (rows : Rows) (m? : Option Matrix) :
    Looks (liftM (sumsWithin range rows m?) : LearnerM (Array Single)) := by
  cases m? with
  | none => exact fun l => ⟨l.cache, rfl⟩
  | some m =>
    intro l
    rw [lift_apply, sumsWithin_apply]
    split
    · exact treeSums m false l
    · exact ⟨l.cache, rfl⟩

theorem margins (m : Matrix) (register : Bool) : Looks (margins m register) :=
  .bind (.check _) fun _ => .bind (.treeSums m register) fun _ => .pure _

theorem predictRows (kind : PredictionKind) (first last : UInt32) (rows : Rows)
    (m? : Option Matrix) (baseMargin : Array Single) :
    Looks (predictRows kind first last rows m? baseMargin) := by
  refine .bind .get fun l => ?_
  split
  · exact .throw _
  · refine .bind (.check _) fun start => ?_
    cases kind with
    | contributions => exact .pure _
    | leaf => exact .pure _
    | margin => exact .bind (.sumsWithin _ _ _) fun _ => .pure _
    | value => exact .bind (.sumsWithin _ _ _) fun _ => .pure _

theorem predict (m : Matrix) (mask : Int32) (limit : UInt32) : Looks (predict m mask limit) :=
  .bind (.check _) fun _ => .predictRows _ _ _ _ _ _

theorem predictDense (d : DenseRows) (first last : UInt32) (code : Int32)
    (baseMargin : Array Single) : Looks (predictDense d first last code baseMargin) := by
  refine .bind (.check _) fun kind => ?_
  dsimp only
  split
  · exact .bind (.throw _) fun _ => .bind (.check _) fun _ => .predictRows _ _ _ _ _ _
  · exact .bind (.check _) fun _ => .predictRows _ _ _ _ _ _

theorem evaluateEach (ps : List (Matrix × String)) : Looks (evaluateEach ps) := by
  induction ps with
  | nil => exact .pure _
  | cons p ps ih =>
    have hscored : Looks (scoredPredictions p.1) :=
      .bind (.margins p.1 false) fun _ => .bind .get fun _ => .pure _
    exact .bind hscored fun _ => .bind (.check _) fun _ => .bind ih fun _ => .pure _

theorem evaluate (iteration : Int32) (ms : List Matrix) (names : List String) :
    Looks (evaluate iteration ms names) := by
  have hrest : Looks (Learner.check fun l => ms.forM (·.checkMetadata l.outputs)) := .check _
  unfold Learner.evaluate
  split
  · exact .bind (.throw _) fun _ =>
      .bind hrest fun _ => .bind (.evaluateEach _) fun _ => .pure _
  · exact .bind hrest fun _ => .bind (.evaluateEach _) fun _ => .pure _

end Looks

/-! ## Training -/

/-- Training may set the number of features while it is not known, and may raise it while
there are no trees. -/
def FeaturesFixed (l : Learner) (n : UInt64) : Prop :=
  n = l.features ∨ l.features = 0 ∨ (l.forest.trees = [] ∧ l.features < n)

theorem FeaturesFixed.trans (h : l.FeaturesFixed n)
    (h' : ({ l with features := n } : Learner).FeaturesFixed n') : l.FeaturesFixed n' := by
  rcases h with rfl | h0 | ⟨htrees, hlt⟩
  · exact h'
  · exact .inr (.inl h0)
  · rcases h' with rfl | h0 | ⟨-, hlt'⟩
    · exact .inr (.inr ⟨htrees, hlt⟩)
    · -- A number that was raised is not zero.
      have h0 : n = 0 := h0
      exact absurd (h0 ▸ hlt) UInt64.not_lt_zero
    · exact .inr (.inr ⟨htrees, UInt64.lt_trans hlt hlt'⟩)

/-- The number of features is fixed where it may be that of the columns, and else nothing happens. -/
theorem fixFeatures_cases (m : Matrix) (l : Learner) :
    (¬l.FeaturesFixed (UInt64.ofNat m.columns) ∧ ∃ e, fixFeatures m l = (.error e, l)) ∨
      l.FeaturesFixed (UInt64.ofNat m.columns) ∧
        fixFeatures m l = (.ok (), { l with features := UInt64.ofNat m.columns }) := by
  simp only [fixFeatures, bind_apply, get_apply]
  split
  · next h => exact .inr ⟨.inr h, rfl⟩
  next hopen =>
  split
  · next hcolumns => exact .inl ⟨fun h => h.elim hcolumns hopen, _, rfl⟩
  · next hcolumns =>
    have hcolumns : UInt64.ofNat m.columns = l.features := Decidable.not_not.mp hcolumns
    exact .inr ⟨.inl hcolumns, by rw [hcolumns]; rfl⟩

/-- What a round with a gradient asks for: the gradient has an entry for every output of every row,
what stands beside the features fits the rows, and there may be as many features as columns. -/
structure Trainable (l : Learner) (m : Matrix) (g : Gradient) : Prop where
  first : g.first.size = l.outputCount m.rows
  second : g.second.size = l.outputCount m.rows
  metadata : m.checkMetadata l.outputs = .ok ()
  features : l.FeaturesFixed (UInt64.ofNat m.columns)

/-- A learner to which a round was added that a gradient grows, up to what it remembers. -/
def grown (l : Learner) (iteration : Int32) (m : Matrix) (g : Gradient) (c : MarginCache) :
    Learner :=
  { l with
    features := UInt64.ofNat m.columns
    forest := l.forest.addRound (growRound l.settings iteration m g)
    cache := c }

/-- A gradient that fits grows a round, and another one is refused before anything changes. -/
theorem boost_cases (iteration : Int32) (m : Matrix) (g : Gradient) (l : Learner) :
    (¬l.Trainable m g ∧ ∃ e, boost iteration m g l = (.error e, l)) ∨
      l.Trainable m g ∧ ∃ c, boost iteration m g l = (.ok (), l.grown iteration m g c) := by
  unfold boost
  rw [get_bind_apply]
  dsimp only
  split
  · next hsize =>
    exact .inl ⟨fun h => hsize.elim (absurd h.first) (absurd h.second), _, rfl⟩
  next hsize =>
  obtain ⟨hfirst, hsecond⟩ := not_or.mp hsize
  rw [bind_apply, check_apply]
  cases hmeta : m.checkMetadata l.outputs with
  | error e =>
    refine .inl ⟨fun h => ?_, e, rfl⟩
    cases hmeta.symm.trans h.metadata
  | ok _ =>
    dsimp only
    rw [bind_apply]
    rcases fixFeatures_cases m l with ⟨hn, e, h⟩ | ⟨hn, h⟩
    · rw [h]
      exact .inl ⟨fun htrain => hn htrain.features, e, rfl⟩
    · rw [h]
      dsimp only
      rw [modify_bind_apply]
      -- Once the round is added, only the sums of its matrix are remembered.
      obtain ⟨c, hc⟩ := Looks.treeSums m true { l with
        features := UInt64.ofNat m.columns
        forest := l.forest.addRound (growRound l.settings iteration m g) }
      rw [lift_apply] at hc
      dsimp only at hc
      rw [bind_apply, lift_apply, hc]
      exact .inr ⟨⟨Decidable.not_not.mp hfirst, Decidable.not_not.mp hsecond, hmeta, hn⟩, c, rfl⟩

/-- A round with the gradient of the objective, once the number of features is fixed. -/
def objectiveRound (iteration : Int32) (m : Matrix) : LearnerM Unit := do
  let margins ← margins m true
  let l ← get
  boost iteration m (l.settings.objective.gradient l.outputs m margins)

/-- The engine grows a round by itself for data that it may train on, and else nothing happens. -/
theorem update_cases (iteration : Int32) (m : Matrix) (l : Learner) :
    (∃ e, update iteration m l = (.error e, l)) ∨
      l.checkTrainingData m = .ok () ∧ l.FeaturesFixed (UInt64.ofNat m.columns) ∧
        update iteration m l =
          objectiveRound iteration m { l with features := UInt64.ofNat m.columns } := by
  unfold update
  rw [bind_apply, check_apply]
  cases hdata : l.checkTrainingData m with
  | error e => exact .inl ⟨e, rfl⟩
  | ok _ =>
    dsimp only
    rw [bind_apply]
    rcases fixFeatures_cases m l with ⟨-, e, h⟩ | ⟨hn, h⟩
    · rw [h]
      exact .inl ⟨e, rfl⟩
    · rw [h]
      exact .inr ⟨rfl, hn, rfl⟩

/-- The two ends of a call for a round of training. -/
inductive Trained (l : Learner) (m : Matrix) (iteration : Int32) :
    Except EngineError Unit × Learner → Prop
  /-- The call failed; by then the number of features may be fixed. -/
  | refused {e : EngineError} {n : UInt64} (hn : l.FeaturesFixed n) (c : MarginCache) :
      Trained l m iteration (.error e, { l with features := n, cache := c })
  /-- A round was added, and there are as many features as columns. -/
  | done (hn : l.FeaturesFixed (UInt64.ofNat m.columns)) (g : Gradient) (c : MarginCache) :
      Trained l m iteration (.ok (), { l with
        features := UInt64.ofNat m.columns
        forest := l.forest.addRound (growRound l.settings iteration m g)
        cache := c })

/-- The number of features is looked at twice in a round; both looks together fix it as
one does. -/
theorem Trained.of_fixed {m : Matrix} {iteration : Int32} {c : MarginCache}
    {p : Except EngineError Unit × Learner} (hn : l.FeaturesFixed n)
    (h : Trained { l with features := n, cache := c } m iteration p) :
    Trained l m iteration p := by
  cases h with
  | refused hn' c' => exact .refused (hn.trans hn') c'
  | done hn' g c' => exact .done (hn.trans hn') g c'

theorem trained_boost (iteration : Int32) (m : Matrix) (g : Gradient) (l : Learner) :
    Trained l m iteration (boost iteration m g l) := by
  rcases boost_cases iteration m g l with ⟨-, e, h⟩ | ⟨htrain, c, h⟩
  · rw [h]
    exact .refused (.inl rfl) l.cache
  · rw [h]
    exact .done htrain.features g c

theorem trained_update (iteration : Int32) (m : Matrix) (l : Learner) :
    Trained l m iteration (update iteration m l) := by
  rcases update_cases iteration m l with ⟨e, h⟩ | ⟨-, hn, h⟩
  · rw [h]
    exact .refused (.inl rfl) l.cache
  rw [h, objectiveRound]
  -- The margins leave the learner with another cache, and boosting goes on from there.
  obtain ⟨c, hc⟩ := Looks.margins m true { l with features := UInt64.ofNat m.columns }
  refine bind_ends (fun e t ht => ?_) fun sums t ht => ?_
  · rw [ht] at hc
    rw [show t = { l with features := UInt64.ofNat m.columns, cache := c } from hc]
    exact .refused hn c
  · rw [ht] at hc
    rw [get_bind_apply,
      show t = { l with features := UInt64.ofNat m.columns, cache := c } from hc]
    exact .of_fixed hn (trained_boost iteration m _ _)

/-! ## All requests -/

/-- The ways in which a request may change a learner, beside what it is answered with. -/
inductive Effect (l : Learner) : (r : Request) → Except EngineError r.Reply × Learner → Prop
  /-- Nothing changed but what is remembered. -/
  | looked {r : Request} {reply} (hr : r.trains = false) (c : MarginCache) :
      Effect l r (reply, { l with cache := c })
  /-- Settings were given. -/
  | gaveSettings {r : Request} {reply} (hr : r.givesSettings) (s : Settings)
      {pairs : List (String × String)} (hs : l.settings.setAll pairs = .ok s) :
      Effect l r (reply, l.withSettings s)
  | setAttributes {key : String} {value? : Option String} {reply}
      (attributes : Dictionary String) :
      Effect l (.setAttribute key value?) (reply, { l with attributes })
  /-- Names of features were set, as many as there are features if that is known. -/
  | setNames {field : String} {values : List String} {reply}
      (hvalues : values = [] ∨ l.features = 0 ∨ values.length = l.features.toNat) :
      Effect l (.setFeatureInfo field values) (reply, { l with featureNames := values })
  /-- Types of features were set. -/
  | setTypes {field : String} {values : List String} {reply}
      (hvalues : values = [] ∨ l.features = 0 ∨ values.length = l.features.toNat) :
      Effect l (.setFeatureInfo field values) (reply, { l with featureTypes := values })
  /-- A model was loaded. -/
  | loaded {r : Request} (hr : r.loads) {a : r.Reply} {m : StoredModel} {s : Settings}
      (hs : storedSettings l.settings m = .ok s) {forest : Forest}
      (hforest : storedForest m s.outputs = .ok forest) :
      Effect l r (.ok a, {
        settings := s
        attributes := m.attributes
        featureNames := m.featureNames
        featureTypes := m.featureTypes
        features := m.parameters.numFeature
        forest
        cache := .empty })
  /-- Training failed; by then the number of features may be fixed. -/
  | refusedTraining {r : Request} (hr : r.trains) {e : EngineError} {n : UInt64}
      (hn : l.FeaturesFixed n) (c : MarginCache) :
      Effect l r (.error e, { l with features := n, cache := c })
  /-- A round of training was added, and there are as many features as columns. -/
  | trained {r : Request} (hr : r.trains) {a : r.Reply} {n : UInt64}
      (hn : l.FeaturesFixed n) (iteration : Int32) (m : Matrix) (g : Gradient) (c : MarginCache)
      (hcolumns : n = UInt64.ofNat m.columns) :
      Effect l r (.ok a, { l with
        features := n
        forest := l.forest.addRound (growRound l.settings iteration m g)
        cache := c })

theorem Looks.effect {r : Request} (hr : r.trains = false) {x : LearnerM r.Reply} (h : Looks x)
    (l : Learner) : Effect l r (x l) := by
  obtain ⟨c, hc⟩ := h l
  rw [← Prod.eta (x l), hc]
  exact .looked hr c

theorem effect_error {r : Request} (hr : r.trains = false) (e : EngineError) (l : Learner) :
    Effect l r (.error e, l) := .looked hr l.cache

theorem effect_check {r : Request} (hr : r.trains = false)
    (f : Learner → Except EngineError r.Reply) (l : Learner) : Effect l r (check f l) :=
  (Looks.check f).effect hr l

theorem effect_setFeatureInfo (field : String) (values : List String) (l : Learner) :
    Effect l (.setFeatureInfo field values) (setFeatureInfo field values l) := by
  rcases setFeatureInfo_cases field values l with ⟨e, h⟩ | ⟨hvalues, h | h⟩
  · rw [h]
    exact effect_error rfl e l
  · rw [h]
    exact .setNames hvalues
  · rw [h]
    exact .setTypes hvalues

/-- The two ends of a call that loads a model. -/
inductive Loaded (l : Learner) : Except EngineError Unit × Learner → Prop
  | refused (e : EngineError) : Loaded l (.error e, l)
  | done {m : StoredModel} {s : Settings} (hs : storedSettings l.settings m = .ok s)
      {forest : Forest} (hforest : storedForest m s.outputs = .ok forest) :
      Loaded l (.ok (), {
        settings := s
        attributes := m.attributes
        featureNames := m.featureNames
        featureTypes := m.featureTypes
        features := m.parameters.numFeature
        forest
        cache := .empty })

theorem loaded_load (bytes : List UInt8) (l : Learner) : Loaded l (load bytes l) := by
  unfold load
  cases StoredModel.decode bytes with
  | error e => exact .refused _
  | ok m =>
    refine check_bind_ends (fun e _ => .refused e) fun s hs => ?_
    refine check_bind_ends (fun e _ => .refused e) fun forest hforest => .done hs ?_
    cases h : storedForest m s.outputs with
    | error e =>
      rw [h] at hforest
      cases hforest
    | ok f =>
      rw [h] at hforest
      exact congrArg Except.ok (Except.ok.inj hforest)

theorem Loaded.effect_load {bytes : List UInt8} {p} (h : Loaded l p) :
    Effect l (.load bytes) p := by
  cases h with
  | refused e => exact effect_error rfl e l
  | done hs hforest => exact .loaded rfl hs hforest

theorem Loaded.effect_loadFile {path : String} {p} (h : Loaded l p) :
    Effect l (.loadFile path) p := by
  cases h with
  | refused e => exact effect_error rfl e l
  | done hs hforest => exact .loaded rfl hs hforest

theorem Trained.effect_update {iteration : Int32} {m : Matrix} {p}
    (h : Trained l m iteration p) : Effect l (.update iteration m) p := by
  cases h with
  | refused hn c => exact .refusedTraining rfl hn c
  | done hn g c => exact .trained rfl hn iteration m g c rfl

theorem Trained.effect_boost {iteration : Int32} {m : Matrix} {g : Gradient} {p}
    (h : Trained l m iteration p) : Effect l (.boost iteration m g) p := by
  cases h with
  | refused hn c => exact .refusedTraining rfl hn c
  | done hn g c => exact .trained rfl hn iteration m g c rfl

theorem effect_setParameter (key value : String) (l : Learner) :
    Effect l (.setParameter key value) (setParameter key value l) := by
  refine check_bind_ends (fun e _ => effect_error rfl e l) fun s hs => ?_
  have hpairs : l.settings.setAll [(key, value)] = .ok s := by
    simp only [Settings.setAll, hs]
    rfl
  exact .gaveSettings rfl s hpairs

theorem effect_loadConfig (text : String) (l : Learner) :
    Effect l (.loadConfig text) (loadConfig text l) := by
  refine check_bind_ends (fun e _ => effect_error rfl e l) fun s hs => ?_
  unfold Settings.loadConfig at hs
  cases hc : Config.ofText? text with
  | none => simp only [hc, reduceCtorEq] at hs
  | some c =>
    simp only [hc] at hs
    exact .gaveSettings rfl s hs

/-- Every request changes a learner in one of the listed ways. -/
theorem effect_respond (files : Files) (r : Request) (l : Learner) :
    Effect l r (respond files r l) := by
  cases r with
  | setParameter key value => exact effect_setParameter key value l
  | setAttribute key value? => exact .setAttributes _
  | setFeatureInfo field values => exact effect_setFeatureInfo field values l
  | update iteration m => exact (trained_update iteration m l).effect_update
  | boost iteration m g => exact (trained_boost iteration m g l).effect_boost
  | evaluate iteration ms names => exact (Looks.evaluate iteration ms names).effect rfl l
  | predict m mask limit => exact (Looks.predict m mask limit).effect rfl l
  | predictDense d first last code baseMargin =>
    exact (Looks.predictDense d first last code _).effect rfl l
  | load bytes => exact (loaded_load bytes l).effect_load
  | loadFile path =>
    simp only [respond]
    cases files.read? path with
    | none => exact effect_error rfl _ l
    | some bytes => exact (loaded_load bytes l).effect_loadFile
  | loadConfig text => exact effect_loadConfig text l
  | getAttribute key =>
    exact effect_check (r := .getAttribute key) rfl (fun l => .ok (l.attributes.get? key)) l
  | attributeNames =>
    exact effect_check (r := .attributeNames) rfl (fun l => .ok l.attributes.keys) l
  | featureCount => exact effect_check (r := .featureCount) rfl (fun l => .ok l.features) l
  | roundCount => exact effect_check (r := .roundCount) rfl (fun l => .ok l.rounds) l
  | config => exact effect_check (r := .config) rfl (fun l => .ok l.settings.config) l
  | _ => exact effect_check rfl _ l

/-! ## Histories -/

/-- The learners that a history passes, from the first one to the one it leaves. -/
def states (l : Learner) : List Occasion → List Learner
  | [] => [l]
  | o :: rest => l :: (l.answer o).2.states rest

/-- The occasions of a history, each with the learner that answers. -/
def steps (l : Learner) : List Occasion → List (Learner × Occasion)
  | [] => []
  | o :: rest => (l, o) :: (l.answer o).2.steps rest

theorem effect_answer (l : Learner) (o : Occasion) :
    Effect l o.request (respond o.files o.request l) := effect_respond o.files o.request l

/-- A property that holds at the start of a history holds along it if and only if no
step breaks it. -/
theorem forall_states_iff {P : Learner → Prop} {Q : Learner → Occasion → Prop}
    (hstep : ∀ l o, P l → (P (l.answer o).2 ↔ Q l o)) {l : Learner} (hl : P l)
    (os : List Occasion) :
    (∀ l' ∈ l.states os, P l') ↔ ∀ s ∈ l.steps os, Q s.1 s.2 := by
  induction os generalizing l with
  | nil => simp [states, steps, hl]
  | cons o os ih =>
    simp only [states, steps, List.forall_mem_cons, hl, true_and]
    constructor
    · intro h
      -- The learner after the first step is the first one of those that follow.
      have hnext : P (l.answer o).2 := h _ (by cases os <;> simp [states])
      exact ⟨(hstep l o hl).mp hnext, (ih hnext).mp h⟩
    · rintro ⟨hq, hrest⟩
      exact (ih ((hstep l o hl).mpr hq)).mpr hrest

end Learner

end BoostedTrees
