import BoostedTrees.Proofs.Checkpoint

/-!
# Configurations are complete

The settings of a learner are not written out themselves. What is written are the texts
that they were last given as, each under the one name that it is kept under, and the names
of the metrics. Whatever has happened to a learner, these texts stand for its settings
(`Settings.Settled`): a text that was refused is not among them, and a stored model that
was taken over has left texts of its own. So nothing is lost in a configuration, and
nothing is gained by giving a learner its own.

## Main results

* `Learner.loadConfig_config_self`: a learner that is given its own configuration does not
  change
* `Learner.config_restores`: after any history, a configuration holds all settings
-/

namespace BoostedTrees

namespace Learner

open EngineM

variable {l : Learner}

/-- Settings that are the same anyway can be taken over without any change, to what is
remembered either. -/
theorem withSettings_self (l : Learner) : l.withSettings l.settings = l := if_pos rfl

/-- A learner that is given its own configuration does not change. -/
theorem loadConfig_config_self (h : l.settings.Settled) :
    loadConfig l.settings.config l = (.ok (), l) := by
  simp only [loadConfig, bind_apply, check_apply, Settings.loadConfig_config_self h, modify_apply,
    withSettings_self]

/-- Take the configuration that a learner writes after any history, in which any requests were
accepted or refused. A new learner takes it over and then has the same settings, down to the
texts and the order of the metrics, so that it writes the same configuration; all else about
it is as it was, what it remembers aside where the number of outputs is another one. The
learner that has written it takes it over too and does not change at all. -/
theorem config_restores (created fresh : List Matrix) (os : List Occasion) (files : Files) :
    let l := (create created).after os
    let restored := (create fresh).withSettings l.settings
    ∃ text, respond files .config l = (.ok text, l) ∧
      respond files (.loadConfig text) (create fresh) = (.ok (), restored) ∧
      restored.settings = l.settings ∧
      respond files .config restored = (.ok text, restored) ∧
      respond files (.loadConfig text) l = (.ok (), l) := by
  intro l restored
  have hsettled := ((restorable_create created).after os).settled
  have hsettings : restored.settings = l.settings := withSettings_settings _ _
  refine ⟨l.settings.config, rfl, loadConfig_config_create hsettled fresh, hsettings, ?_,
    loadConfig_config_self hsettled⟩
  rw [respond, check_apply, hsettings]

end Learner

end BoostedTrees
