import BoostedTrees.Proofs.Agreement
import BoostedTrees.Proofs.StoredSettings
import BoostedTrees.Proofs.TreeStorage

/-!
# Checkpoints

A configuration and the stored form of a model hold all that a learner goes by. The
configuration gives the settings back, the stored form the forest and what is known of
the features, and what is remembered never shows. So a learner that was restored from
the two goes on as the one that was saved.

## Main definitions

* `Learner.Restorable`: settings stand for their texts, and trees are in bounds

## Main results

* `Learner.load_toStored`: what loading the stored form of a learner gives
* `Learner.run_restored`: the restored learner answers every later request alike
-/

namespace BoostedTrees

namespace Settings

/-- Settings with the objective, the number of classes and the base score of others, as a
stored model fixes them. -/
def withStored (s stored : Settings) (given : Dictionary String) : Settings :=
  { s with
    objective := stored.objective
    numClass := stored.numClass
    baseScore := stored.baseScore
    given }

theorem outputs_withStored (s stored : Settings) (given : Dictionary String) :
    (s.withStored stored given).outputs = stored.outputs := rfl

end Settings

namespace Learner

open EngineM
open BoostedTrees.Matrix (lonelyRow numbered_lonelyRow)

variable {K : Matrix → Prop} {shown : Prop} {l l' : Learner}

/-! ## Loading what was stored -/

/-- The settings that a stored learner fixes are taken over by any settings. -/
theorem storedSettings_toStored (h : l.settings.baseScore.isNaN = false) (s : Settings) :
    ∃ given, storedSettings s l.toStored = .ok (s.withStored l.settings given) := by
  refine ⟨(s.fixedBy l.toStored l.settings.objective).given, ?_⟩
  rw [storedSettings_eq, toStored, Objective.ofName_name]
  refine congrArg Except.ok ?_
  rw [Settings.fixedBy, Single.readBack_of_not_isNaN h]
  rfl

/-- The learner that has taken over what another one stored, with the given texts. -/
def takenOver (l stored : Learner) (given : Dictionary String) (forest : Forest) : Learner where
  settings := l.settings.withStored stored.settings given
  attributes := stored.attributes
  featureNames := stored.featureNames
  featureTypes := stored.featureTypes
  features := stored.features
  forest
  cache := .empty

/-- Loading what a learner stored succeeds if its lengths fit their fields and its trees
are accepted, whatever learner loads it. -/
theorem load_toStored (hscore : l.settings.baseScore.isNaN = false)
    (hfits : Wire.ModelFits l.toStored) {f : Forest}
    (hforest : storedForest l.toStored l.outputs = .ok f) (l' : Learner) :
    ∃ given, load l.toStored.toUbj l' = (.ok (), l'.takenOver l given f) := by
  obtain ⟨given, hgiven⟩ := storedSettings_toStored hscore l'.settings
  have hdecode : StoredModel.decode l.toStored.toUbj = .ok l.toStored :=
    StoredModel.decode_toUbj_eq_ok_iff.mpr ⟨hfits, rfl⟩
  refine ⟨given, ?_⟩
  rw [load, hdecode]
  simp only [loadStored, bind_apply, check_apply, hgiven, Settings.outputs_withStored]
  rw [show storedForest l.toStored l.settings.outputs = .ok f from hforest]
  rfl

/-- If what a learner stored is loaded, its lengths fit and its trees are accepted. -/
theorem fits_of_load_toStored (hscore : l.settings.baseScore.isNaN = false)
    (h : (load l.toStored.toUbj l').1 = .ok ()) :
    Wire.ModelFits l.toStored ∧ ∃ f, storedForest l.toStored l.outputs = .ok f := by
  obtain ⟨given, hgiven⟩ := storedSettings_toStored hscore l'.settings
  unfold load at h
  cases hm : StoredModel.decode l.toStored.toUbj with
  | error e =>
    rw [hm] at h
    cases h
  | ok m =>
    rw [hm] at h
    obtain ⟨hfits, rfl⟩ := StoredModel.decode_toUbj_eq_ok_iff.mp hm
    refine ⟨hfits, ?_⟩
    -- Settings that were stored are taken over, so it is the trees that may be refused.
    simp only [loadStored, bind_apply, check_apply, hgiven, Settings.outputs_withStored] at h
    rw [outputs]
    cases hforest : storedForest l.toStored l.settings.outputs with
    | error e =>
      rw [hforest] at h
      cases h
    | ok f => exact ⟨f, rfl⟩

/-! ## Learners that can be restored -/

/-- The settings of a learner stand for their texts, and the children of all nodes of its
trees are nodes. -/
structure Restorable (l : Learner) : Prop where
  settled : l.settings.Settled
  inBounds : l.forest.InBounds

theorem restorable_create (ms : List Matrix) : (create ms).Restorable where
  settled := Settings.settled_initial
  inBounds := Forest.inBounds_empty

theorem Effect.restorable {r : Request} {p : Except EngineError r.Reply × Learner}
    (h : Effect l r p) (hl : l.Restorable) : p.2.Restorable := by
  cases h with
  | looked _ c => exact ⟨hl.settled, hl.inBounds⟩
  | setAttributes a => exact ⟨hl.settled, hl.inBounds⟩
  | setNames _ => exact ⟨hl.settled, hl.inBounds⟩
  | setTypes _ => exact ⟨hl.settled, hl.inBounds⟩
  | refusedTraining _ _ c => exact ⟨hl.settled, hl.inBounds⟩
  | gaveSettings _ s hs =>
    refine ⟨?_, ?_⟩
    · rw [withSettings_settings]
      exact hl.settled.setAll hs
    · rw [withSettings_forest]
      exact hl.inBounds
  | loaded _ hs hforest => exact ⟨hl.settled.setAll hs, inBounds_storedForest hforest⟩
  | trained _ _ iteration m g c =>
    exact ⟨hl.settled, hl.inBounds.addRound (inBounds_growOutputs _ _ _ _ _)⟩

/-- Every learner that can be reached can be restored. -/
theorem Restorable.after (h : l.Restorable) (os : List Occasion) : (l.after os).Restorable :=
  after_induction h fun o _ l hl => (effect_answer l o).restorable hl

/-! ## Going on -/

/-- A new learner takes over all settings from their configuration. -/
theorem loadConfig_config_create (h : l.settings.Settled) (ms : List Matrix) :
    loadConfig l.settings.config (create ms) =
      (.ok (), (create ms).withSettings l.settings) := by
  have hload : (create ms).settings.loadConfig l.settings.config = .ok l.settings :=
    Settings.loadConfig_config_initial h
  simp only [loadConfig, bind_apply, check_apply, hload, modify_apply]

/-- With the settings of a learner and what it stored, another one agrees with it in all
but the texts of the settings. -/
theorem Agree.takenOver (h : l.Agree K shown l) (hsettings : l'.settings = l.settings)
    (given : Dictionary String) : l.Agree K False (l'.takenOver l given l.forest) where
  settings := ⟨by rw [Learner.takenOver, hsettings]; rfl, False.elim⟩
  attributes := rfl
  featureNames := rfl
  featureTypes := rfl
  features := rfl
  forest := rfl
  sound := h.sound
  sound' := MarginCache.sound_empty K _ _

theorem save_ubj (l : Learner) : l.save "ubj" = .ok l.toStored.toUbj := rfl

/-- A new learner takes over the configuration and the model of one that can be restored,
if the model is accepted at all, and agrees with it then. -/
theorem Agree.restored (h : l.Agree K True l) (hrestorable : l.Restorable)
    (hscore : l.settings.baseScore.isNaN = false) {bytes : List UInt8}
    (hsave : l.save "ubj" = .ok bytes) (haccepted : (load bytes l').1 = .ok ())
    (ms : List Matrix) :
    (loadConfig l.settings.config (create ms)).1 = .ok () ∧
      (load bytes (loadConfig l.settings.config (create ms)).2).1 = .ok () ∧
        l.Agree K False (load bytes (loadConfig l.settings.config (create ms)).2).2 := by
  rw [loadConfig_config_create hrestorable.settled ms]
  have hsettings := withSettings_settings (create ms) l.settings
  generalize (create ms).withSettings l.settings = configured at hsettings ⊢
  rw [save_ubj, Except.ok.injEq] at hsave
  subst hsave
  obtain ⟨hfits, f, hforest⟩ := fits_of_load_toStored hscore haccepted
  -- The forest that is accepted is the one that was stored.
  have hsame := eq_of_storedForest_toStored hrestorable.inBounds hforest
  subst hsame
  obtain ⟨given, hload⟩ := load_toStored hscore hfits hforest configured
  rw [hload]
  exact ⟨rfl, rfl, h.takenOver hsettings given⟩

/-- Take the configuration and the model that a learner saves after any history, and give
them to a new learner. If the base score is a number and the model is accepted at all, both
are taken over, and all requests that follow are answered as by the learner that was
saved, except for the texts of a configuration. Afterwards the trees are the same, and so
is what is saved of them. -/
theorem run_restored (hK : Matrix.Numbered K) (created fresh : List Matrix)
    (before : List Occasion) (hbefore : ∀ o ∈ before, ∀ m ∈ o.request.matrices, K m)
    (hscore : ((create created).after before).settings.baseScore.isNaN = false)
    {bytes : List UInt8} (hsave : ((create created).after before).save "ubj" = .ok bytes)
    {acceptor : Learner} (haccepted : (load bytes acceptor).1 = .ok ()) :
    let saved := (create created).after before
    let configured := loadConfig saved.settings.config (create fresh)
    let restored := load bytes configured.2
    configured.1 = .ok () ∧ restored.1 = .ok () ∧
      ∀ later, (∀ o ∈ later, (∀ m ∈ o.request.matrices, K m) ∧ o.request ≠ .config) →
        (restored.2.run later).1 = (saved.run later).1 ∧
          (restored.2.after later).forest = (saved.after later).forest ∧
            ∀ format, (restored.2.after later).save format = (saved.after later).save format := by
  have hrestorable := (restorable_create created).after before
  -- The learner agrees with itself: what it remembers is right.
  have hself := ((agree_create K True created).run hK fun o ho =>
    ⟨hbefore o ho, fun _ => trivial⟩).2
  obtain ⟨hconfigured, hrestored, hagree⟩ :=
    hself.restored hrestorable hscore hsave haccepted fresh
  refine ⟨hconfigured, hrestored, ?_⟩
  intro later hlater
  -- From here on the two learners differ in the texts of their settings and in their caches.
  obtain ⟨hanswers, hend⟩ := hagree.run hK fun o ho =>
    ⟨(hlater o ho).1, fun hconfig => (hlater o ho).2 hconfig⟩
  refine ⟨hanswers.symm, hend.forest.symm, ?_⟩
  intro format
  simp only [save, hend.saveAs]

/-- A learner with one tree, which splits on the only feature. -/
def stump : Learner where
  settings := .initial
  attributes := .empty
  featureNames := ["weight"]
  featureTypes := ["float"]
  features := 1
  forest := ⟨[⟨⟨#[⟨0, 2, some (1, 2), true, 0, 8, 2⟩, .leaf 1 1, .leaf 3 1]⟩, 0⟩]⟩
  cache := .empty

theorem isNaN_baseScore_stump : stump.settings.baseScore.isNaN = false := by
  decide

theorem load_stump (l : Learner) :
    ∃ given, load stump.toStored.toUbj l = (.ok (), l.takenOver stump given stump.forest) := by
  have hfits : Wire.ModelFits stump.toStored := by
    refine ⟨?_, ?_, ?_, ?_, ?_⟩ <;> decide +kernel
  have hforest : storedForest stump.toStored stump.outputs = .ok stump.forest := by
    decide +kernel
  exact load_toStored isNaN_baseScore_stump hfits hforest l

/-- The model of a stump is loaded. -/
def stumpHistory : List Occasion := [⟨.empty, .load stump.toStored.toUbj⟩]

/-- A round of training, and a prediction for the same matrix. -/
def lonelyOccasions : List Occasion :=
  [⟨.empty, .update 0 (lonelyRow 7)⟩, ⟨.empty, .predict (lonelyRow 7) 0 0⟩]

theorem run_restored_stump :
    (load stump.toStored.toUbj
        (loadConfig ((create []).after stumpHistory).settings.config (create [lonelyRow 5])).2).1 =
        .ok () ∧
      ((load stump.toStored.toUbj (loadConfig ((create []).after stumpHistory).settings.config
          (create [lonelyRow 5])).2).2.run lonelyOccasions).1 =
        (((create []).after stumpHistory).run lonelyOccasions).1 := by
  obtain ⟨given, hload⟩ := load_stump (create [])
  have hsaved : (create []).after stumpHistory = (create []).takenOver stump given stump.forest :=
    congrArg Prod.snd hload
  have hscore : ((create []).after stumpHistory).settings.baseScore.isNaN = false := by
    rw [hsaved]
    exact isNaN_baseScore_stump
  have hsave : ((create []).after stumpHistory).save "ubj" = .ok stump.toStored.toUbj := by
    rw [hsaved]
    rfl
  have h := run_restored numbered_lonelyRow [] [lonelyRow 5] stumpHistory
    (by simp [stumpHistory, Request.matrices]) hscore hsave (congrArg Prod.fst hload)
  exact ⟨h.2.1, (h.2.2 lonelyOccasions (by simp [lonelyOccasions, Request.matrices])).1⟩

end Learner

end BoostedTrees
