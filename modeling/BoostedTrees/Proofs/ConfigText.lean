import BoostedTrees.Proofs.JsonDecoding
import BoostedTrees.Settings.Config

/-!
# Configurations read back

The text of a configuration is read as that configuration, whatever names, texts and
metrics it holds.

## Main results

* `Config.ofText?_toJson`: a configuration is read back from its text
-/

namespace BoostedTrees

open Json

/-- The value that a version is written as. -/
def StoredVersion.shown (v : StoredVersion) : Json :=
  .array ([v.major, v.minor, v.patch].map fun n => .number (digitBytes n.toNat))

theorem StoredModel.shows_versionJson (v : StoredVersion) :
    Shows (bytesOf (versionJson v)) v.shown :=
  shows_array (fun n : UInt32 => Writer.nat n.toNat) (fun n => .number (digitBytes n.toNat)) _
    fun n _ => shows_nat n.toNat

theorem Json.Decoder.version_shown (depth : Nat) (v : StoredVersion) :
    version (depth + 1) v.shown = some v := by
  have hlist : list uint32 (depth + 1) v.shown = some [v.major, v.minor, v.patch] :=
    list_map uint32_digitBytes _
  rw [version, listOf, hlist]
  rfl

namespace Config

/-- The fields that the part beside the version is written as. -/
def bodyFields (c : Config) : List (String × Json) := [
  ("params", .object (c.given.entries.map fun e => (lexeme e.1, .string (lexeme e.2)))),
  ("eval_metrics", .array (c.metrics.map fun m => .string (lexeme m)))]

/-- The fields that a configuration is written as. -/
def fields (c : Config) : List (String × Json) := [
  ("version", StoredVersion.current.shown),
  ("learner", recordOf c.bodyFields)]

theorem shows_toJson (c : Config) : Shows (bytesOf c.toJson) (recordOf c.fields) := by
  have hgiven : Shows
      (bytesOf (Writer.object (c.given.entries.map fun e => (e.1, Writer.string e.2))))
      (.object (c.given.entries.map fun e => (lexeme e.1, .string (lexeme e.2)))) :=
    shows_object (fun e : String × String => Writer.string e.2) (fun e => .string (lexeme e.2))
      (fun e => e.1) _ fun e _ => shows_string e.2
  have hmetrics : Shows (bytesOf (Writer.array (c.metrics.map Writer.string)))
      (.array (c.metrics.map fun m => .string (lexeme m))) :=
    shows_array Writer.string (fun m => .string (lexeme m)) _ fun m _ => shows_string m
  have hbody := shows_recordOf [("params", _, _), ("eval_metrics", _, _)] (by
    intro m hm
    simp only [List.mem_cons, List.not_mem_nil, or_false] at hm
    rcases hm with rfl | rfl
    · exact hgiven
    · exact hmetrics)
  exact shows_recordOf [("version", _, _), ("learner", _, _)] (by
    intro m hm
    simp only [List.mem_cons, List.not_mem_nil, or_false] at hm
    rcases hm with rfl | rfl
    · exact StoredModel.shows_versionJson .current
    · exact hbody)

theorem body_recordOf (depth : Nat) (c : Config) :
    body (depth + 2) (recordOf c.bodyFields) = some c := by
  have hrecord : Record.ofJson? ["params", "eval_metrics"] (depth + 2) (recordOf c.bodyFields) =
      some ⟨depth + 1, c.bodyFields.reverse⟩ :=
    Record.ofJson?_recordOf (depth + 1) (by simp [bodyFields]) (by simp [bodyFields])
  have hparams : Record.required ⟨depth + 1, c.bodyFields.reverse⟩ "params"
      (Decoder.dictionary Decoder.text) = some c.given :=
    Decoder.dictionary_entries Decoder.text_lexeme c.given
  have hmetrics : Record.required ⟨depth + 1, c.bodyFields.reverse⟩ "eval_metrics"
      (Decoder.list Decoder.text) = some c.metrics :=
    Decoder.list_map Decoder.text_lexeme c.metrics
  rw [body, hrecord]
  simp only [Option.bind_eq_bind, Option.bind_some, hparams, hmetrics]
  rfl

theorem decoder_recordOf (depth : Nat) (c : Config) :
    decoder (depth + 3) (recordOf c.fields) = some c := by
  have hrecord : Record.ofJson? ["version", "learner"] (depth + 3) (recordOf c.fields) =
      some ⟨depth + 2, c.fields.reverse⟩ :=
    Record.ofJson?_recordOf (depth + 2) (by simp [fields]) (by simp [fields])
  have hversion : Record.required ⟨depth + 2, c.fields.reverse⟩ "version" Decoder.version =
      some .current :=
    Decoder.version_shown (depth + 1) .current
  have hlearner : Record.required ⟨depth + 2, c.fields.reverse⟩ "learner" body = some c :=
    body_recordOf depth c
  rw [decoder, hrecord]
  simp only [Option.bind_eq_bind, Option.bind_some, hversion, hlearner]

/-- A configuration is read back from its text. -/
theorem ofText?_toJson (c : Config) : ofText? (String.ofList c.toJson) = some c := by
  have hparse : parse (Text.utf8 (String.ofList c.toJson)) = some (recordOf c.fields) := by
    rw [Text.utf8_ofList]
    exact parse_of_shows c.shows_toJson
  rw [ofText?, decode, hparse, Option.bind_some]
  exact decoder_recordOf 124 c

end Config

end BoostedTrees
