import BoostedTrees.Proofs.ConfigText

/-!
# Models as text read back

The text of a model shows every field of it, and all of them are read back, except that a
number that is not finite is shown as null, which is no number. So text and compact
binary form carry the same model just if all of its numbers in single precision are
finite; a model with an infinite number can be written as text, but that text is refused.

That a finite number is read back from its own digits is taken as a condition on the
numbers of the model: the reader multiplies or divides them by a power of ten in double
precision, once, and only then rounds.

## Main definitions

* `StoredModel.numbers`: the numbers in single precision that a model holds
* `StoredModel.shown`: the value that the text of a model shows

## Main results

* `StoredModel.shows_toJson`: the text of a model is parsed as that value
* `StoredModel.decode_text`: it is read back just if all numbers are finite
* `StoredModel.decode_encode_json`: text and compact form carry the same model just then
-/

namespace BoostedTrees

open Json

/-! ## Values that lists show -/

namespace Json

def wordShown (n : UInt32) : Json := .number (digitBytes n.toNat)

theorem shows_words (l : List UInt32) :
    Shows (bytesOf (Writer.array (l.map fun n => Writer.nat n.toNat))) (.array (l.map wordShown)) :=
  shows_array (fun n : UInt32 => Writer.nat n.toNat) wordShown l fun n _ => shows_nat n.toNat

theorem shows_ints (l : List Int32) :
    Shows (bytesOf (Writer.array (l.map fun n => Writer.int n.toInt)))
      (.array (l.map fun n => .number (intBytes n.toInt))) :=
  shows_array (fun n : Int32 => Writer.int n.toInt) _ l fun n _ => shows_int n.toInt

theorem shows_bools (l : List Bool) :
    Shows (bytesOf (Writer.array (l.map Writer.bool))) (.array (l.map .bool)) :=
  shows_array Writer.bool .bool l fun b _ => shows_bool b

theorem shows_singles (l : List Single) :
    Shows (bytesOf (Writer.array (l.map Writer.single))) (.array (l.map singleShown)) :=
  shows_array Writer.single singleShown l fun x _ => shows_single x

theorem shows_texts (l : List String) :
    Shows (bytesOf (Writer.array (l.map Writer.string)))
      (.array (l.map fun t => .string (lexeme t))) :=
  shows_array Writer.string _ l fun t _ => shows_string t

theorem Decoder.gives_singles {depth : Nat} {l : List Single}
    (h : ∀ x ∈ l, x.isFinite → x.ReadsBack) :
    Gives (list single) (depth + 1) (.array (l.map singleShown)) l (∀ x ∈ l, x.isFinite) :=
  gives_list fun x hx => gives_single (h x hx)

end Json

/-! ## Trees -/

namespace StoredTree

/-- The numbers in single precision that a tree holds. -/
def numbers (t : StoredTree) : List Single :=
  t.splitConditions ++ t.baseWeights ++ t.lossChanges ++ t.sumHessian

/-- The fields that a tree is written as. -/
def fields (t : StoredTree) : List (String × Json) := [
  ("split_indices", .array (t.splitIndices.map wordShown)),
  ("split_conditions", .array (t.splitConditions.map singleShown)),
  ("left_children", .array (t.leftChildren.map fun n => .number (intBytes n.toInt))),
  ("right_children", .array (t.rightChildren.map fun n => .number (intBytes n.toInt))),
  ("default_left", .array (t.defaultLeft.map .bool)),
  ("base_weights", .array (t.baseWeights.map singleShown)),
  ("loss_changes", .array (t.lossChanges.map singleShown)),
  ("sum_hessian", .array (t.sumHessian.map singleShown))]

/-- The value that the text of a tree shows. -/
def shown (t : StoredTree) : Json := recordOf t.fields

theorem shows_toJson (t : StoredTree) : Shows (bytesOf t.toJson) t.shown :=
  shows_recordOf [("split_indices", _, _), ("split_conditions", _, _), ("left_children", _, _),
    ("right_children", _, _), ("default_left", _, _), ("base_weights", _, _),
    ("loss_changes", _, _), ("sum_hessian", _, _)] (by
    simp only [List.forall_mem_cons]
    exact ⟨shows_words _, shows_singles _, shows_ints _, shows_ints _, shows_bools _,
      shows_singles _, shows_singles _, shows_singles _, nofun⟩)

end StoredTree

namespace Json.Decoder

/-- A tree is read back just if its numbers are finite. -/
theorem gives_storedTree {depth : Nat} {t : StoredTree}
    (h : ∀ x ∈ t.numbers, x.isFinite → x.ReadsBack) :
    Gives storedTree (depth + 2) t.shown t (∀ x ∈ t.numbers, x.isFinite) := by
  simp only [StoredTree.numbers, List.forall_mem_append] at h ⊢
  obtain ⟨⟨⟨hconditions, hweights⟩, hchanges⟩, hhessian⟩ := h
  have hrecord : Record.ofJson? ["split_indices", "split_conditions", "left_children",
      "right_children", "default_left", "base_weights", "loss_changes", "sum_hessian"] (depth + 2)
      t.shown = some (Record.ofFields (depth + 1) t.fields) :=
    Record.ofJson?_recordOf (depth + 1) (by simp [StoredTree.fields]) (by simp [StoredTree.fields])
  have hindices : (Record.ofFields (depth + 1) t.fields).required "split_indices" (list uint32) =
      some t.splitIndices := list_map uint32_digitBytes _
  have hleft : (Record.ofFields (depth + 1) t.fields).required "left_children" (list int32) =
      some t.leftChildren := list_map int32_intBytes _
  have hright : (Record.ofFields (depth + 1) t.fields).required "right_children" (list int32) =
      some t.rightChildren := list_map int32_intBytes _
  have hdefault : (Record.ofFields (depth + 1) t.fields).required "default_left" (list bool) =
      some t.defaultLeft := list_map (fun _ => rfl) _
  have hconditions : ∀ b, (Record.ofFields (depth + 1) t.fields).required "split_conditions"
      (list single) = some b ↔ (∀ x ∈ t.splitConditions, x.isFinite) ∧ b = t.splitConditions :=
    gives_singles hconditions
  have hweights : ∀ b, (Record.ofFields (depth + 1) t.fields).required "base_weights"
      (list single) = some b ↔ (∀ x ∈ t.baseWeights, x.isFinite) ∧ b = t.baseWeights :=
    gives_singles hweights
  have hchanges : ∀ b, (Record.ofFields (depth + 1) t.fields).required "loss_changes"
      (list single) = some b ↔ (∀ x ∈ t.lossChanges, x.isFinite) ∧ b = t.lossChanges :=
    gives_singles hchanges
  have hhessian : ∀ b, (Record.ofFields (depth + 1) t.fields).required "sum_hessian"
      (list single) = some b ↔ (∀ x ∈ t.sumHessian, x.isFinite) ∧ b = t.sumHessian :=
    gives_singles hhessian
  intro b
  rw [storedTree, hrecord]
  simp only [Option.bind_eq_bind, Option.bind_some, hindices, hleft, hright, hdefault,
    Option.bind_eq_some_iff, hconditions, hweights, hchanges, hhessian, and_assoc,
    exists_and_left, exists_eq_left, Option.pure_def, Option.some.injEq]
  rw [eq_comm (a := b)]

end Json.Decoder

/-! ## Models -/

namespace StoredModel

/-- The numbers in single precision that a model holds. -/
def numbers (m : StoredModel) : List Single :=
  m.parameters.baseScore :: m.forest.trees.flatMap StoredTree.numbers

/-- The fields that the parameters are written as. -/
def parameterFields (p : StoredParameters) : List (String × Json) := [
  ("base_score", singleShown p.baseScore),
  ("num_class", wordShown p.numClass),
  ("num_feature", .number (digitBytes p.numFeature.toNat))]

/-- The fields that a forest is written as. -/
def forestFields (f : StoredForest) : List (String × Json) := [
  ("trees", .array (f.trees.map StoredTree.shown)),
  ("tree_info", .array (f.treeInfo.map wordShown))]

/-- The fields that the part beside the version is written as. -/
def learnerFields (m : StoredModel) : List (String × Json) := [
  ("attributes", .object (m.attributes.entries.map fun e => (lexeme e.1, .string (lexeme e.2)))),
  ("feature_names", .array (m.featureNames.map fun t => .string (lexeme t))),
  ("feature_types", .array (m.featureTypes.map fun t => .string (lexeme t))),
  ("model_param", recordOf (parameterFields m.parameters)),
  ("objective", .string (lexeme m.objective)),
  ("gradient_booster", recordOf (forestFields m.forest))]

/-- The fields that a model is written as. -/
def fields (m : StoredModel) : List (String × Json) := [
  ("version", m.version.shown),
  ("learner", recordOf m.learnerFields)]

/-- The value that the text of a model shows. -/
def shown (m : StoredModel) : Json := recordOf m.fields

theorem shows_parametersJson (p : StoredParameters) :
    Shows (bytesOf (parametersJson p)) (recordOf (parameterFields p)) :=
  shows_recordOf [("base_score", _, _), ("num_class", _, _), ("num_feature", _, _)] (by
    simp only [List.forall_mem_cons]
    exact ⟨shows_single _, shows_nat _, shows_nat _, nofun⟩)

theorem shows_forestJson (f : StoredForest) :
    Shows (bytesOf (forestJson f)) (recordOf (forestFields f)) := by
  have htrees : Shows (bytesOf (Writer.array (f.trees.map StoredTree.toJson)))
      (.array (f.trees.map StoredTree.shown)) :=
    shows_array StoredTree.toJson StoredTree.shown _ fun t _ => t.shows_toJson
  exact shows_recordOf [("trees", _, _), ("tree_info", _, _)] (by
    simp only [List.forall_mem_cons]
    exact ⟨htrees, shows_words _, nofun⟩)

/-- The text of a model is parsed as the value of its fields. -/
theorem shows_toJson (m : StoredModel) : Shows (bytesOf m.toJson) m.shown := by
  have hattributes : Shows
      (bytesOf (Writer.object (m.attributes.entries.map fun e => (e.1, Writer.string e.2))))
      (.object (m.attributes.entries.map fun e => (lexeme e.1, .string (lexeme e.2)))) :=
    shows_object (fun e : String × String => Writer.string e.2) (fun e => .string (lexeme e.2))
      (fun e => e.1) _ fun e _ => shows_string e.2
  have hlearner := shows_recordOf [("attributes", _, _), ("feature_names", _, _),
    ("feature_types", _, _), ("model_param", _, _), ("objective", _, _),
    ("gradient_booster", _, _)] (by
    simp only [List.forall_mem_cons]
    exact ⟨hattributes, shows_texts m.featureNames, shows_texts m.featureTypes,
      shows_parametersJson m.parameters, shows_string m.objective, shows_forestJson m.forest,
      nofun⟩)
  exact shows_recordOf [("version", _, _), ("learner", _, _)] (by
    simp only [List.forall_mem_cons]
    exact ⟨shows_versionJson m.version, hlearner, nofun⟩)

end StoredModel

namespace Json.Decoder

open StoredModel

theorem gives_storedParameters {depth : Nat} {p : StoredParameters}
    (h : p.baseScore.isFinite → p.baseScore.ReadsBack) :
    Gives storedParameters (depth + 1) (recordOf (parameterFields p)) p p.baseScore.isFinite := by
  have hrecord : Record.ofJson? ["base_score", "num_class", "num_feature"] (depth + 1)
      (recordOf (parameterFields p)) = some (Record.ofFields depth (parameterFields p)) :=
    Record.ofJson?_recordOf depth (by simp [parameterFields]) (by simp [parameterFields])
  have hscore : ∀ b, (Record.ofFields depth (parameterFields p)).required "base_score" single =
      some b ↔ p.baseScore.isFinite ∧ b = p.baseScore := gives_single h
  have hclass : (Record.ofFields depth (parameterFields p)).required "num_class" uint32 =
      some p.numClass := uint32_digitBytes _
  have hfeature : (Record.ofFields depth (parameterFields p)).required "num_feature" uint64 =
      some p.numFeature := uint64_digitBytes _
  intro b
  rw [storedParameters, hrecord]
  simp only [Option.bind_eq_bind, Option.bind_some, hclass, hfeature, Option.bind_eq_some_iff,
    hscore, and_assoc, exists_and_left, exists_eq_left, Option.pure_def, Option.some.injEq]
  rw [eq_comm (a := b)]

theorem gives_storedForest {depth : Nat} {f : StoredForest}
    (h : ∀ t ∈ f.trees, ∀ x ∈ t.numbers, x.isFinite → x.ReadsBack) :
    Gives storedForest (depth + 4) (recordOf (forestFields f)) f
      (∀ t ∈ f.trees, ∀ x ∈ t.numbers, x.isFinite) := by
  have hrecord : Record.ofJson? ["trees", "tree_info"] (depth + 4) (recordOf (forestFields f)) =
      some (Record.ofFields (depth + 3) (forestFields f)) :=
    Record.ofJson?_recordOf (depth + 3) (by simp [forestFields]) (by simp [forestFields])
  have htrees : ∀ b, (Record.ofFields (depth + 3) (forestFields f)).required "trees"
      (list storedTree) = some b ↔
        (∀ t ∈ f.trees, ∀ x ∈ t.numbers, x.isFinite) ∧ b = f.trees :=
    gives_list fun t ht => gives_storedTree (h t ht)
  have hinfo : (Record.ofFields (depth + 3) (forestFields f)).required "tree_info" (list uint32) =
      some f.treeInfo := list_map uint32_digitBytes _
  intro b
  rw [storedForest, hrecord]
  simp only [Option.bind_eq_bind, Option.bind_some, hinfo, Option.bind_eq_some_iff, htrees,
    and_assoc, exists_and_left, exists_eq_left, Option.pure_def, Option.some.injEq]
  rw [eq_comm (a := b)]

theorem gives_learner {depth : Nat} {m : StoredModel}
    (hscore : m.parameters.baseScore.isFinite → m.parameters.baseScore.ReadsBack)
    (htrees : ∀ t ∈ m.forest.trees, ∀ x ∈ t.numbers, x.isFinite → x.ReadsBack) :
    Gives (learner m.version) (depth + 5) (recordOf m.learnerFields) m
      (m.parameters.baseScore.isFinite ∧
        ∀ t ∈ m.forest.trees, ∀ x ∈ t.numbers, x.isFinite) := by
  have hrecord : Record.ofJson? ["attributes", "feature_names", "feature_types", "model_param",
      "objective", "gradient_booster"] (depth + 5) (recordOf m.learnerFields) =
      some (Record.ofFields (depth + 4) m.learnerFields) :=
    Record.ofJson?_recordOf (depth + 4) (by simp [learnerFields]) (by simp [learnerFields])
  have hattributes : (Record.ofFields (depth + 4) m.learnerFields).required "attributes"
      (dictionary text) = some m.attributes := dictionary_entries text_lexeme _
  have hnames : (Record.ofFields (depth + 4) m.learnerFields).required "feature_names"
      (list text) = some m.featureNames := list_map text_lexeme _
  have htypes : (Record.ofFields (depth + 4) m.learnerFields).required "feature_types"
      (list text) = some m.featureTypes := list_map text_lexeme _
  have hobjective : (Record.ofFields (depth + 4) m.learnerFields).required "objective" text =
      some m.objective := textOf?_lexeme _
  have hparameters : ∀ b, (Record.ofFields (depth + 4) m.learnerFields).required "model_param"
      storedParameters = some b ↔ m.parameters.baseScore.isFinite ∧ b = m.parameters :=
    gives_storedParameters hscore
  have hforest : ∀ b, (Record.ofFields (depth + 4) m.learnerFields).required "gradient_booster"
      storedForest = some b ↔
        (∀ t ∈ m.forest.trees, ∀ x ∈ t.numbers, x.isFinite) ∧ b = m.forest :=
    gives_storedForest htrees
  intro b
  rw [learner, hrecord]
  simp only [Option.bind_eq_bind, Option.bind_some, hattributes, hnames, htypes, hobjective,
    Option.bind_eq_some_iff, hparameters, hforest, and_assoc, exists_and_left, exists_eq_left,
    Option.pure_def, Option.some.injEq]
  rw [eq_comm (a := b)]

/-- A model is read back just if all of its numbers are finite. -/
theorem gives_storedModel {depth : Nat} {m : StoredModel}
    (h : ∀ x ∈ m.numbers, x.isFinite → x.ReadsBack) :
    Gives storedModel (depth + 6) m.shown m (∀ x ∈ m.numbers, x.isFinite) := by
  have hnumbers : ∀ P : Single → Prop, (∀ x ∈ m.numbers, P x) ↔
      P m.parameters.baseScore ∧ ∀ t ∈ m.forest.trees, ∀ x ∈ t.numbers, P x := by
    intro P
    simp only [numbers, List.forall_mem_cons, List.forall_mem_flatMap]
  rw [hnumbers fun x => x.isFinite → x.ReadsBack] at h
  rw [hnumbers]
  have hrecord : Record.ofJson? ["version", "learner"] (depth + 6) m.shown =
      some (Record.ofFields (depth + 5) m.fields) :=
    Record.ofJson?_recordOf (depth + 5) (by simp [fields]) (by simp [fields])
  have hversion : (Record.ofFields (depth + 5) m.fields).required "version" version =
      some m.version := version_shown (depth + 4) m.version
  have hlearner : (Record.ofFields (depth + 5) m.fields).required "learner"
      (learner m.version) = learner m.version (depth + 5) (recordOf m.learnerFields) := rfl
  intro b
  rw [storedModel, hrecord]
  simp only [Option.bind_eq_bind, Option.bind_some, hversion, hlearner]
  exact gives_learner h.1 h.2 b

end Json.Decoder

namespace StoredModel

variable {m : StoredModel}

theorem detect?_text (m : StoredModel) :
    ModelFormat.detect? (Text.utf8 (String.ofList m.toJson)) = some .json := by
  rw [Text.utf8_ofList]
  rfl

/-- The text of a model is read back as the model if all of its numbers are finite, and
refused otherwise. -/
theorem decode_text (h : ∀ x ∈ m.numbers, x.isFinite → x.ReadsBack) :
    decode (Text.utf8 (String.ofList m.toJson)) =
      if ∀ x ∈ m.numbers, x.isFinite then .ok m else .error .json := by
  have hparse : parse (Text.utf8 (String.ofList m.toJson)) = some m.shown := by
    rw [Text.utf8_ofList]
    exact parse_of_shows m.shows_toJson
  have hgives : Decoder.Gives Decoder.storedModel maxDepth m.shown m
      (∀ x ∈ m.numbers, x.isFinite) := Decoder.gives_storedModel h
  rw [decode, m.detect?_text]
  simp only [Json.decode, hparse, Option.bind_some]
  by_cases hfinite : ∀ x ∈ m.numbers, x.isFinite
  · rw [if_pos hfinite, hgives.eq hfinite]
  · rw [if_neg hfinite, hgives.eq_none hfinite]

/-- Every model is written as text and in the compact binary form. The binary form is read
back; the text is read back as the same model if all numbers of the model are finite, and
refused if one is not. -/
theorem decode_encode_json (hfits : Wire.ModelFits m)
    (hread : ∀ x ∈ m.numbers, x.isFinite → x.ReadsBack) :
    ∃ text bytes, m.encode .json = .ok text ∧ m.encode .ubj = .ok bytes ∧
      ModelFormat.detect? text = some .json ∧ decode bytes = .ok m ∧
      decode text = if ∀ x ∈ m.numbers, x.isFinite then decode bytes else .error .json := by
  have hbytes : decode m.toUbj = .ok m := decode_toUbj_eq_ok_iff.mpr ⟨hfits, rfl⟩
  refine ⟨_, _, rfl, rfl, m.detect?_text, hbytes, ?_⟩
  rw [decode_text hread, hbytes]

/-- A model of one split, whose numbers in single precision are of all magnitudes. -/
def ofScore (score : Single) : StoredModel where
  version := .current
  attributes := Dictionary.empty.insert "line\n" "\"π\""
  featureNames := ["a"]
  featureTypes := ["float"]
  parameters := ⟨score, 0, 1⟩
  objective := "reg:squarederror"
  forest := {
    trees := [{
      splitIndices := [0, 0, 0]
      splitConditions := [⟨0x3dcccccd⟩, ⟨0x7f7fffff⟩, ⟨0x80000000⟩]
      leftChildren := [1, -1, -1]
      rightChildren := [2, -1, -1]
      defaultLeft := [true, false, false]
      baseWeights := [⟨0x3f000000⟩, ⟨0xbf000000⟩, ⟨0x00000001⟩]
      lossChanges := [⟨0x4b800001⟩, 0, 0]
      sumHessian := [2, 1, 1] }]
    treeInfo := [0] }

/-- All finite numbers of such a model are read back. With a finite base score both forms
give the model back; with an infinite one the binary form does, and the text is refused. -/
theorem decode_encode_json_ofScore :
    (Wire.ModelFits (ofScore ⟨0x3e99999a⟩) ∧
      (∀ x ∈ (ofScore ⟨0x3e99999a⟩).numbers, x.isFinite → x.ReadsBack) ∧
      ∃ text bytes, (ofScore ⟨0x3e99999a⟩).encode .json = .ok text ∧
        (ofScore ⟨0x3e99999a⟩).encode .ubj = .ok bytes ∧
        decode bytes = .ok (ofScore ⟨0x3e99999a⟩) ∧ decode text = decode bytes) ∧
    Wire.ModelFits (ofScore Single.infinity) ∧
      (∀ x ∈ (ofScore Single.infinity).numbers, x.isFinite → x.ReadsBack) ∧
      ∃ text bytes, (ofScore Single.infinity).encode .json = .ok text ∧
        (ofScore Single.infinity).encode .ubj = .ok bytes ∧
        decode bytes = .ok (ofScore Single.infinity) ∧ decode text = .error .json := by
  have hfits : Wire.ModelFits (ofScore ⟨0x3e99999a⟩) := by
    refine ⟨?_, ?_, ?_, ?_, ?_⟩ <;> decide +kernel
  have hfits' : Wire.ModelFits (ofScore Single.infinity) :=
    ⟨hfits.attributes, hfits.featureNames, hfits.featureTypes, hfits.objective, hfits.forest⟩
  have hread : ∀ x ∈ (ofScore ⟨0x3e99999a⟩).numbers, x.isFinite → x.ReadsBack := by
    decide +kernel
  have hread' : ∀ x ∈ (ofScore Single.infinity).numbers, x.isFinite → x.ReadsBack := by
    decide +kernel
  obtain ⟨text, bytes, htext, hbytes, -, hok, hagree⟩ := decode_encode_json hfits hread
  obtain ⟨text', bytes', htext', hbytes', -, hok', hrefused⟩ := decode_encode_json hfits' hread'
  rw [if_pos (by decide +kernel)] at hagree
  rw [if_neg (by decide +kernel)] at hrefused
  exact ⟨⟨hfits, hread, text, bytes, htext, hbytes, hok, hagree⟩,
    hfits', hread', text', bytes', htext', hbytes', hok', hrefused⟩

end StoredModel

end BoostedTrees
