import BoostedTrees.Proofs.ChecksummedForm
import BoostedTrees.Proofs.Effects
import BoostedTrees.Proofs.Loading
import BoostedTrees.Proofs.ModelText
import BoostedTrees.Proofs.RememberedSums
import BoostedTrees.Proofs.StoredSettings

/-!
# Names and types of features

The names of the features, and their types, should be none or as many as there are features.
Loading a model sees to that, and so does setting a list once the number of features is
known. While it is not known, lists of any length are taken; and training, which fixes the
number or raises it, does not look at the lists that are there. So the law may be broken, and
then the loader refuses the model that is saved. A history keeps the law just as long as no
list is set before the number of features is known and no number is fixed under a list.

## Main definitions

* `Learner.FitsFeatures`: a list of metadata fits a number of features
* `Learner.MetadataFits`: the names and the types of a learner do
* `Learner.KeepsMetadata`: what an occasion must do for the law
* `Learner.RefusesMetadata`: the loader refuses bytes for a list of metadata

## Main results

* `Learner.answer_metadataFits_iff`: when one answer keeps the law
* `Learner.metadataFits_iff`: when a history keeps it, and what the loader says to the models
  that are saved on the way
-/

namespace BoostedTrees

open EngineM
open BoostedTrees.Matrix (lonelyRow)

namespace Learner

/-! ## The law -/

/-- A list of metadata is empty or as long as there are features. -/
def FitsFeatures (features : UInt64) (values : List String) : Prop :=
  values = [] ∨ values.length = features.toNat

/-- Names and types both fit the number of features. -/
structure MetadataFits (l : Learner) : Prop where
  names : FitsFeatures l.features l.featureNames
  types : FitsFeatures l.features l.featureTypes

/-- What a learner is asked on an occasion keeps its metadata fitting. -/
structure KeepsMetadata (l : Learner) (o : Occasion) : Prop where
  /-- No list with entries is taken before the number of features is known. -/
  set_known : ∀ field values, o.request = .setFeatureInfo field values →
    (l.answer o).1.Succeeded → l.features = 0 → values = []
  /-- Training fixes no other number of features under lists with entries. -/
  fixed_bare : o.request.trains → (l.answer o).2.features ≠ l.features →
    l.featureNames = [] ∧ l.featureTypes = []

variable {l : Learner} {features n : UInt64} {values : List String}

theorem metadataFits_create (created : List Matrix) : (create created).MetadataFits :=
  ⟨.inl rfl, .inl rfl⟩

/-- A list fits two numbers of features only if it is empty. -/
theorem FitsFeatures.eq_nil (h : FitsFeatures features values) (h' : FitsFeatures n values)
    (hne : n ≠ features) : values = [] := by
  rcases h with h | h
  · exact h
  · rcases h' with h' | h'
    · exact h'
    · exact absurd (UInt64.toNat_inj.mp (h'.symm.trans h)) hne

/-- A list that is taken fits if it was empty or the number of features was known. -/
theorem fitsFeatures_iff_of_taken
    (h : values = [] ∨ features = 0 ∨ values.length = features.toNat) :
    FitsFeatures features values ↔ (features = 0 → values = []) := by
  constructor
  · rintro (rfl | hlength) rfl
    · rfl
    · exact List.length_eq_zero_iff.mp hlength
  · intro hknown
    rcases h with h | h | h
    · exact .inl h
    · exact .inl (hknown h)
    · exact .inr h

theorem metadata_of_storedForest {m : StoredModel} {outputs : Nat} {f : Forest}
    (h : storedForest m outputs = .ok f) :
    FitsFeatures m.parameters.numFeature m.featureNames ∧
      FitsFeatures m.parameters.numFeature m.featureTypes := by
  obtain ⟨-, hnames, htypes, -⟩ := storedForest_eq_ok h
  exact ⟨checkFeatureInfo_ok_iff.mp hnames, checkFeatureInfo_ok_iff.mp htypes⟩

/-! ## One answer -/

/-- With another number of features a learner keeps the law just if it has no metadata. -/
theorem MetadataFits.of_features (hl : l.MetadataFits) {f : Forest} {c : MarginCache} :
    ({ l with features := n, forest := f, cache := c } : Learner).MetadataFits ↔
      (n ≠ l.features → l.featureNames = [] ∧ l.featureTypes = []) := by
  constructor
  · intro h hne
    exact ⟨hl.names.eq_nil h.names hne, hl.types.eq_nil h.types hne⟩
  · intro h
    by_cases hn : n = l.features
    · exact ⟨hn ▸ hl.names, hn ▸ hl.types⟩
    · exact ⟨.inl (h hn).1, .inl (h hn).2⟩

/-- A request that sets no metadata keeps the law, unless it trains and fixes another number
of features under lists with entries. -/
theorem Effect.keeps_metadataFits_iff {r : Request} {p} (h : Effect l r p) (hl : l.MetadataFits)
    (hr : ∀ field values, r ≠ .setFeatureInfo field values) :
    p.2.MetadataFits ↔
      (r.trains → p.2.features ≠ l.features → l.featureNames = [] ∧ l.featureTypes = []) := by
  -- Loading brings lists that were checked against the number it brings; only training, done
  -- or refused, changes the number under lists that are there.
  cases h with
  | looked _ c => exact iff_of_true ⟨hl.names, hl.types⟩ fun _ hne => absurd rfl hne
  | setAttributes a => exact iff_of_true ⟨hl.names, hl.types⟩ fun _ hne => absurd rfl hne
  | setNames _ => exact absurd rfl (hr _ _)
  | setTypes _ => exact absurd rfl (hr _ _)
  | gaveSettings hr s _ =>
    refine iff_of_true ⟨?_, ?_⟩ fun _ hne => absurd (withSettings_features l s) hne
    · simpa only [withSettings_features, withSettings_featureNames] using hl.names
    · simpa only [withSettings_features, withSettings_featureTypes] using hl.types
  | loaded hr _ hforest =>
    obtain ⟨hnames, htypes⟩ := metadata_of_storedForest hforest
    exact iff_of_true ⟨hnames, htypes⟩ fun htrains =>
      absurd htrains (Request.not_trains_of_loads hr)
  | refusedTraining hr hn c => exact hl.of_features.trans ⟨fun h _ => h, fun h => h hr⟩
  | trained hr hn iteration m g c => exact hl.of_features.trans ⟨fun h _ => h, fun h => h hr⟩

/-- Setting metadata keeps the law, unless a list with entries is taken before the number of
features is known. -/
theorem setFeatureInfo_metadataFits_iff (hl : l.MetadataFits) (field : String)
    (values : List String) :
    (setFeatureInfo field values l).2.MetadataFits ↔
      ((∃ v, (setFeatureInfo field values l).1 = .ok v) → l.features = 0 → values = []) := by
  rcases setFeatureInfo_cases field values l with ⟨e, h⟩ | ⟨hvalues, h | h⟩
  · rw [h]
    exact iff_of_true hl fun ⟨_, hok⟩ => nomatch hok
  · rw [h]
    have hfits := fitsFeatures_iff_of_taken hvalues
    exact ⟨fun h _ => hfits.mp h.names, fun h => ⟨hfits.mpr (h ⟨_, rfl⟩), hl.types⟩⟩
  · rw [h]
    have hfits := fitsFeatures_iff_of_taken hvalues
    exact ⟨fun h _ => hfits.mp h.types, fun h => ⟨hl.names, hfits.mpr (h ⟨_, rfl⟩)⟩⟩

/-- An answer of a learner that keeps the law leaves one that does just if it sets no list
too early, and fixes no number of features under a list. -/
theorem answer_metadataFits_iff (l : Learner) (o : Occasion) (hl : l.MetadataFits) :
    (l.answer o).2.MetadataFits ↔ l.KeepsMetadata o := by
  obtain ⟨files, r⟩ := o
  -- One half of the law is about setting a list, the other about training; no request is both.
  by_cases hr : ∃ field values, r = .setFeatureInfo field values
  · obtain ⟨field, values, rfl⟩ := hr
    refine (setFeatureInfo_metadataFits_iff hl field values).trans ⟨fun h => ⟨?_, nofun⟩, ?_⟩
    · rintro _ _ ⟨⟩
      exact h
    · exact fun h => h.set_known field values rfl
  · have hno : ∀ field values, r ≠ .setFeatureInfo field values :=
      fun field values h => hr ⟨field, values, h⟩
    refine ((effect_answer l ⟨files, r⟩).keeps_metadataFits_iff hl hno).trans ⟨fun h => ⟨?_, h⟩, ?_⟩
    · exact fun field values h => absurd h (hno field values)
    · exact KeepsMetadata.fixed_bare

/-! ## The loader -/

/-- Loading bytes is refused for the length of a list of metadata. -/
def RefusesMetadata (bytes : List UInt8) (l : Learner) : Prop :=
  ∃ field length features,
    (load bytes l).1 = .error (.invalidModel (.featureInfoLength field length features))

/-- Bytes are not refused for metadata if those of every model they are read as fit. -/
theorem not_refusesMetadata {bytes : List UInt8}
    (h : ∀ m, StoredModel.decode bytes = .ok m →
      FitsFeatures m.parameters.numFeature m.featureNames ∧
        FitsFeatures m.parameters.numFeature m.featureTypes) (l : Learner) :
    ¬RefusesMetadata bytes l := by
  rintro ⟨field, length, features, hrefused⟩
  obtain ⟨m, outputs, hm, hforest⟩ := exists_of_load_eq_invalidModel hrefused
  obtain ⟨hnames, htypes⟩ := h m hm
  -- Of the checks of a forest only the two of metadata can name a list.
  rcases storedForest_error_cases hforest with hrounds | hno | hno | ⟨s, -, k, e, -, hfault⟩
  · exact (checkRounds_eq_error hrounds).2 field length features rfl
  · exact (checkFeatureInfo_eq_error hno).1 hnames
  · exact (checkFeatureInfo_eq_error hno).1 htypes
  · cases hfault

/-- Bytes that are read as a model whose metadata do not fit are refused by every learner. -/
theorem exists_load_eq_error {bytes : List UInt8}
    (h : ∀ m, StoredModel.decode bytes = .ok m →
      ¬(FitsFeatures m.parameters.numFeature m.featureNames ∧
        FitsFeatures m.parameters.numFeature m.featureTypes)) (l : Learner) :
    ∃ e, load bytes l = (.error e, l) := by
  unfold load
  cases hm : StoredModel.decode bytes with
  | error e => exact ⟨_, rfl⟩
  | ok m =>
    dsimp only
    rw [loadStored_apply]
    cases storedSettings l.settings m with
    | error e => exact ⟨_, rfl⟩
    | ok s =>
      dsimp only
      cases hforest : storedForest m s.outputs with
      | error fault => exact ⟨_, rfl⟩
      | ok forest => exact absurd (metadata_of_storedForest hforest) (h m hm)

/-- Bytes hold the model of a learner with its metadata: they are its compact form, or its
text, as far as the numbers in the text are read back. -/
def Holds (bytes : List UInt8) (l : Learner) : Prop :=
  l.save "ubj" = .ok bytes ∨
    l.save "json" = .ok bytes ∧ ∀ x ∈ l.toStored.numbers, x.isFinite → x.ReadsBack

/-- Where such bytes are read as a model, it is the one that was saved. -/
theorem Holds.eq_toStored {bytes : List UInt8} {m : StoredModel} (h : Holds bytes l)
    (hm : StoredModel.decode bytes = .ok m) : m = l.toStored := by
  rcases h with hsave | ⟨hsave, hread⟩
  · cases hsave
    exact (StoredModel.decode_toUbj_eq_ok_iff.mp hm).2
  · cases hsave
    rw [StoredModel.decode_text hread] at hm
    split at hm
    · exact (Except.ok.inj hm).symm
    · cases hm

/-- The checksummed form has no metadata that could be refused. -/
theorem not_refusesMetadata_deprecated {bytes : List UInt8} (h : l.save "deprecated" = .ok bytes)
    (l' : Learner) : ¬RefusesMetadata bytes l' := by
  have hencode : l.toStored.encode .deprecated = .ok bytes := by
    change (l.toStored.encode .deprecated).mapError EngineError.unsavable = .ok bytes at h
    cases hbytes : l.toStored.encode .deprecated with
    | error e =>
      rw [hbytes] at h
      cases h
    | ok bytes' =>
      rw [hbytes] at h
      exact congrArg Except.ok (Except.ok.inj h)
  have hdecode := StoredModel.decode_append_of_deprecated hencode []
  rw [List.append_nil] at hdecode
  -- Whether or not the bytes are read, no model that is read has a list with entries.
  refine not_refusesMetadata (fun m hm => ?_) l'
  rw [hdecode] at hm
  split at hm
  · cases hm
    exact ⟨.inl rfl, .inl rfl⟩
  · cases hm

/-! ## Histories -/

/-- The law along any history of a new learner. Names and types are none or as many as there
are features in every state if and only if no list with entries is taken before the number of
features is known, and training fixes no other number under lists with entries. What is saved
with its metadata while the law holds is never refused for them, and what is saved while it is
broken is loaded by no learner; the checksummed form has no metadata. -/
theorem metadataFits_iff (created : List Matrix) (os : List Occasion) :
    ((∀ l ∈ (create created).states os, l.MetadataFits) ↔
      ∀ s ∈ (create created).steps os, s.1.KeepsMetadata s.2) ∧
    ∀ l ∈ (create created).states os, ∀ (bytes : List UInt8) (l' : Learner),
      (Holds bytes l →
        (l.MetadataFits → ¬RefusesMetadata bytes l') ∧
          (¬l.MetadataFits → ∃ e, load bytes l' = (.error e, l'))) ∧
      (l.save "deprecated" = .ok bytes → ¬RefusesMetadata bytes l') := by
  refine ⟨forall_states_iff answer_metadataFits_iff (metadataFits_create created) os, ?_⟩
  intro l _ bytes l'
  refine ⟨fun hholds => ⟨fun hfits => ?_, fun hbroken => ?_⟩, ?_⟩
  · refine not_refusesMetadata (fun m hm => ?_) l'
    obtain rfl := hholds.eq_toStored hm
    exact ⟨hfits.names, hfits.types⟩
  · refine exists_load_eq_error (fun m hm => ?_) l'
    obtain rfl := hholds.eq_toStored hm
    exact fun hfits => hbroken ⟨hfits.1, hfits.2⟩
  · exact fun hsave => not_refusesMetadata_deprecated hsave l'

/-- Three names are set before the number of features is known, and training on one column
fixes it. -/
def earlyNames : List Occasion :=
  [⟨.empty, .setFeatureInfo "feature_name" ["a", "b", "c"]⟩, ⟨.empty, .update 0 (lonelyRow 7)⟩]

/-- Both of these steps are answered and break the law, and the model that is saved then is
refused for its names. -/
theorem metadataFits_iff_earlyNames :
    let l := (create []).after earlyNames
    ¬(∀ s ∈ (create []).steps earlyNames, s.1.KeepsMetadata s.2) ∧
      l.rounds = 1 ∧ ¬l.MetadataFits ∧ ∃ bytes, l.save "ubj" = .ok bytes ∧
        (∀ l', ∃ e, load bytes l' = (.error e, l')) ∧
        (load bytes (create [])).1 =
          .error (.invalidModel (.featureInfoLength "feature_names" 3 1)) := by
  intro l
  obtain ⟨hlaw, hloader⟩ := metadataFits_iff [] earlyNames
  have hmem : l ∈ (create []).states earlyNames := by simp [l, earlyNames, states]
  -- There are three names for one feature.
  have hbroken : ¬l.MetadataFits := by
    intro h
    have hnames : l.featureNames = [] ∨ l.featureNames.length = l.features.toNat := h.names
    exact absurd hnames (by decide +kernel)
  refine ⟨fun hkeeps => hbroken (hlaw.mpr hkeeps l hmem), by decide +kernel, hbroken,
    l.toStored.toUbj, rfl, fun l' => ?_, by decide +kernel⟩
  exact ((hloader l hmem _ l').1 (.inl rfl)).2 hbroken

end Learner

end BoostedTrees
