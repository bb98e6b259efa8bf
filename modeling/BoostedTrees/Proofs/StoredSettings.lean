import BoostedTrees.Proofs.Loading
import BoostedTrees.Proofs.SettingsTexts

/-!
# The settings that a stored model fixes

A stored model fixes the objective, the number of classes and the base score. They are
given as texts like all settings, so a synonym of an objective becomes its name, and the
sign and the payload of a NaN are lost; nothing else is. Only an objective that is not
known is refused.

## Main definitions

* `Single.readBack`: the number that the text of a number is read back as
* `Settings.fixedBy`: settings with what a stored model fixes

## Main results

* `Learner.storedSettings_eq`: what a stored model does to settings
* `Learner.exists_of_load_eq_invalidModel`: an invalid model is refused for its forest
-/

namespace BoostedTrees

namespace Single

/-- The number that the text of a number is read back as; all NaNs have one text. -/
def readBack (x : Single) : Single := if x.isNaN then nan else x

theorem readBack_of_not_isNaN {x : Single} (h : x.isNaN = false) : x.readBack = x := by
  rw [readBack, h]
  rfl

/-- The exponent of a NaN is the highest, and its fraction is not zero. -/
theorem fields_of_isNaN {x : Single} (h : x.isNaN = true) :
    x.bits.toNat / 2 ^ 23 % 2 ^ 8 = 2 ^ 8 - 1 ∧ x.bits.toNat % 2 ^ 23 ≠ 0 := by
  have hmask : x.bits.toNat &&& 2 ^ 31 - 1 = x.bits.toNat % 2 ^ 31 :=
    Nat.and_two_pow_sub_one_eq_mod _ _
  simp only [isNaN, decide_eq_true_eq, UInt32.lt_iff_toNat_lt, UInt32.toNat_and] at h
  have hlt : 0x7f800000 < x.bits.toNat % 2 ^ 31 := Nat.lt_of_lt_of_eq h hmask
  omega

theorem exists_datum_eq_nan {x : Single} (h : x.isNaN = true) :
    ∃ negative, x.datum = .nan negative := by
  obtain ⟨hexponent, hfraction⟩ := fields_of_isNaN h
  refine ⟨x.bits.toNat / 2 ^ 31 % 2 == 1, ?_⟩
  rw [datum, Layout.read]
  exact (if_pos hexponent).trans (if_neg hfraction)

end Single

namespace Settings

/-- A number is read back as a setting, up to the sign and the payload of a NaN. -/
theorem readValue_text (key : String) (x : Single) :
    readValue Single.ofText? key x.text = .ok x.readBack := by
  cases h : x.isNaN with
  | false => rw [readValue_single key h, Single.readBack_of_not_isNaN h]
  | true =>
    obtain ⟨negative, hdatum⟩ := Single.exists_datum_eq_nan h
    have hnan : Single.ofText? (Text.trim ['N', 'a', 'N']) = some Single.nan := by decide +kernel
    rw [Single.readBack, h, readValue, Single.text, String.toList_ofList, Single.chars, hdatum]
    simp only [hnan, if_true]

/-- Settings with what a stored model fixes, for an objective that its name stands for. -/
def fixedBy (s : Settings) (m : StoredModel) (o : Objective) : Settings :=
  { s with
    objective := o
    numClass := m.parameters.numClass
    baseScore := m.parameters.baseScore.readBack
    given := ((s.given.insert "objective" m.objective).insert "num_class"
      (toString m.parameters.numClass.toNat)).insert "base_score" m.parameters.baseScore.text }

end Settings

namespace Learner

/-- All settings take over what a stored model fixes if its objective is known. -/
theorem storedSettings_eq (s : Settings) (m : StoredModel) :
    storedSettings s m = (Objective.ofName m.objective).map (s.fixedBy m) := by
  have hobjective : ∀ s : Settings, s.set "objective" m.objective =
      (Objective.ofName m.objective).map fun o => { s with
        objective := o
        given := s.given.insert "objective" m.objective } := by
    intro s
    rw [Settings.set_of_isKept (Settings.isKept_of_mem (by simp))]
    simp only [Settings.assign, Settings.keptName]
    cases Objective.ofName m.objective with
    | error e => rfl
    | ok o => rfl
  have hclasses : ∀ s : Settings, s.set "num_class" (toString m.parameters.numClass.toNat) =
      .ok { s with
        numClass := m.parameters.numClass
        given := s.given.insert "num_class" (toString m.parameters.numClass.toNat) } := by
    intro s
    rw [Settings.set_of_isKept (Settings.isKept_of_mem (by simp))]
    simp only [Settings.assign, Settings.keptName, Settings.readWord_toString]
    rfl
  have hscore : ∀ s : Settings, s.set "base_score" m.parameters.baseScore.text =
      .ok { s with
        baseScore := m.parameters.baseScore.readBack
        given := s.given.insert "base_score" m.parameters.baseScore.text } := by
    intro s
    rw [Settings.set_of_isKept (Settings.isKept_of_mem (by simp))]
    simp only [Settings.assign, Settings.keptName, Settings.readValue_text]
    rfl
  rw [storedSettings, Settings.setAll, hobjective]
  cases Objective.ofName m.objective with
  | error e => rfl
  | ok o =>
    simp only [Settings.setAll, hclasses, hscore, Except.map, bind, Except.bind]
    rfl

/-- Settings that a stored model was taken over by have the objective of its name. -/
theorem storedSettings_eq_ok {s t : Settings} {m : StoredModel}
    (h : storedSettings s m = .ok t) :
    ∃ o, Objective.ofName m.objective = .ok o ∧ t = s.fixedBy m o := by
  rw [storedSettings_eq] at h
  cases ho : Objective.ofName m.objective with
  | error e =>
    rw [ho] at h
    cases h
  | ok o =>
    rw [ho] at h
    cases h
    exact ⟨o, rfl, rfl⟩

theorem storedSettings_eq_error {s : Settings} {m : StoredModel} {e : EngineError}
    (h : storedSettings s m = .error e) : e = .unknownObjective m.objective := by
  rw [storedSettings_eq] at h
  unfold Objective.ofName at h
  split at h <;> cases h
  rfl

/-- Bytes that are refused as an invalid model are read as one whose forest is refused. -/
theorem exists_of_load_eq_invalidModel {bytes : List UInt8} {l : Learner} {fault : ModelFault}
    (h : (load bytes l).1 = .error (.invalidModel fault)) :
    ∃ m outputs, StoredModel.decode bytes = .ok m ∧ storedForest m outputs = .error fault := by
  unfold load at h
  cases hm : StoredModel.decode bytes with
  | error e =>
    rw [hm] at h
    cases h
  | ok m =>
    rw [hm] at h
    dsimp only at h
    rw [loadStored_apply] at h
    cases hs : storedSettings l.settings m with
    | error e =>
      rw [hs] at h
      cases h
      cases storedSettings_eq_error hs
    | ok s =>
      rw [hs] at h
      dsimp only at h
      cases hforest : storedForest m s.outputs with
      | error fault' =>
        rw [hforest] at h
        cases h
        exact ⟨m, s.outputs, rfl, hforest⟩
      | ok forest =>
        rw [hforest] at h
        cases h

end Learner

end BoostedTrees
