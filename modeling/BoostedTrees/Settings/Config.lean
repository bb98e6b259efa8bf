import BoostedTrees.Json.Decoder
import BoostedTrees.Json.Writer
import BoostedTrees.Model.Json
import BoostedTrees.Settings.Basic

/-!
# Configurations

A configuration is the text form of settings: every accepted text under its name and
the names of the metrics. Reading one gives its texts again to settings that are
there already.
-/

namespace BoostedTrees

/-- What a configuration holds. -/
structure Config where
  given : Dictionary String
  metrics : List String

namespace Config

open Json

/-- The configuration of settings. -/
def ofSettings (s : Settings) : Config := ⟨s.given, s.metrics.map Metric.name⟩

def toJson (c : Config) : List Char :=
  Writer.object [
    ("version", StoredModel.versionJson .current),
    ("learner", Writer.object [
      ("params", Writer.object (c.given.entries.map fun (k, v) => (k, Writer.string v))),
      ("eval_metrics", Writer.array (c.metrics.map Writer.string))])]

/-- The part beside the version. -/
def body : Decoder Config := fun depth j => do
  let r ← Record.ofJson? ["params", "eval_metrics"] depth j
  return ⟨← r.required "params" (Decoder.dictionary Decoder.text),
    ← r.required "eval_metrics" (Decoder.list Decoder.text)⟩

/-- A configuration may be of any version. -/
def decoder : Decoder Config := fun depth j => do
  let r ← Record.ofJson? ["version", "learner"] depth j
  let _ ← r.required "version" Decoder.version
  r.required "learner" body

/-- The configuration that a text is, if it is one. -/
def ofText? (text : String) : Option Config := Json.decode decoder (Text.utf8 text)

/-- The texts in the order in which they are given again: by name, then the metrics. -/
def pairs (c : Config) : List (String × String) :=
  c.given.entries ++ c.metrics.map fun m => (Settings.metricName, m)

end Config

namespace Settings

def config (s : Settings) : String := String.ofList (Config.ofSettings s).toJson

/-- The settings with those of a configuration given on top. -/
def loadConfig (s : Settings) (text : String) : Except EngineError Settings :=
  match Config.ofText? text with
  | none => .error .malformedConfig
  | some c => s.setAll c.pairs

end Settings

end BoostedTrees
