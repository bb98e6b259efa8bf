import BoostedTrees.Proofs.WireForm
import Mathlib.Algebra.BigOperators.Group.List.Basic

/-!
# The checksummed form read back

A payload that was written is shorter than its size field allows, and every length in it
counts parts that take at least one byte each, so all lengths in it fit their fields. The
header is read back field by field. What the header cannot hold is a number of features of
more than thirty-two bits: it is written without its upper half, and the reader compares
it with the whole number in the payload.

## Main definitions

* `StoredModel.withoutMetadata`: a model without what the checksummed form leaves out
* `StoredModel.plainHeader`: the header of the checksummed form of a model

## Main results

* `Header.ofBytes_append`: headers are read back
* `StoredModel.decode_append_of_deprecated`: what a buffer is read as, whatever follows it
* `StoredModel.decode_encode_deprecated`: a buffer is read back just if the number of
  features is a word of thirty-two bits
-/

namespace BoostedTrees

/-! ## Lengths of what was written -/

namespace Wire

variable {α : Type} {w : α → Bytes}

theorem length_varint_pos (n : Nat) : 0 < (varint n).length := by
  rw [varint]
  split <;> simp

theorem length_list_pos (items : List α) : 0 < (list w items).length := by
  have := length_varint_pos items.length
  rw [list, List.length_append]
  omega

/-- A list has no more items than bytes if every item takes a byte. -/
theorem length_le_list (hpos : ∀ a, 0 < (w a).length) (items : List α) :
    items.length ≤ (list w items).length := by
  have hitems := List.length_le_sum_of_one_le (items.map fun a => (w a).length) (by
    simp only [List.forall_mem_map]
    exact fun a _ => hpos a)
  rw [List.length_map, ← List.length_flatMap] at hitems
  rw [list, List.length_append]
  omega

/-- An item takes no more bytes than the list that it is in. -/
theorem length_item_le_list {a : α} {items : List α} (h : a ∈ items) :
    (w a).length ≤ (list w items).length := by
  have hitem := (List.sublist_flatten_of_mem (List.mem_map_of_mem (f := w) h)).length_le
  rw [← List.flatMap_def] at hitem
  rw [list, List.length_append]
  omega

/-- The length of a list fits its field, and so does what fits within every item, if the
list takes few enough bytes. -/
theorem list_fits {P : α → Prop} (hpos : ∀ a, 0 < (w a).length)
    (hitem : ∀ a, (w a).length < 2 ^ 64 → P a) {items : List α}
    (h : (list w items).length < 2 ^ 64) : items.length < 2 ^ 64 ∧ ∀ a ∈ items, P a :=
  ⟨Nat.lt_of_le_of_lt (length_le_list hpos items) h, fun a ha =>
    hitem a (Nat.lt_of_le_of_lt (length_item_le_list ha) h)⟩

theorem length_text_pos (t : String) : 0 < (text t).length := by
  have := length_varint_pos (Text.utf8 t).length
  rw [text, List.length_append]
  omega

theorem textFits_of_length {t : String} (h : (text t).length < 2 ^ 64) : TextFits t := by
  rw [text, List.length_append] at h
  rw [TextFits]
  omega

theorem length_storedTree_pos (t : StoredTree) : 0 < (storedTree t).length := by
  have := length_list_pos (w := uint32) t.splitIndices
  simp only [storedTree, List.length_append]
  omega

theorem treeFits_of_length {t : StoredTree} (h : (storedTree t).length < 2 ^ 64) :
    TreeFits t := by
  have huint32 : ∀ n, 0 < (uint32 n).length := fun n => length_varint_pos _
  have hint32 : ∀ n, 0 < (int32 n).length := fun n => length_varint_pos _
  have hsingle : ∀ x, 0 < (single x).length := fun x => Nat.zero_lt_succ _
  have hbool : ∀ b, 0 < (bool b).length := fun b => Nat.zero_lt_succ _
  simp only [storedTree, List.length_append] at h
  have hindices := length_le_list huint32 t.splitIndices
  have hconditions := length_le_list hsingle t.splitConditions
  have hleft := length_le_list hint32 t.leftChildren
  have hright := length_le_list hint32 t.rightChildren
  have hdefault := length_le_list hbool t.defaultLeft
  have hweights := length_le_list hsingle t.baseWeights
  have hchanges := length_le_list hsingle t.lossChanges
  have hhessian := length_le_list hsingle t.sumHessian
  refine ⟨?_, ?_, ?_, ?_, ?_, ?_, ?_, ?_⟩ <;> omega

theorem forestFits_of_length {f : StoredForest} (h : (storedForest f).length < 2 ^ 64) :
    ForestFits f := by
  rw [storedForest, List.length_append] at h
  have hinfo : f.treeInfo.length ≤ (list uint32 f.treeInfo).length :=
    length_le_list (fun n => length_varint_pos _) _
  exact ⟨list_fits length_storedTree_pos (fun t => treeFits_of_length) (by omega), by omega⟩

end Wire

/-! ## Payloads -/

namespace StoredModel

/-- A model without what the checksummed form leaves out: its version and its feature
metadata. -/
def withoutMetadata (m : StoredModel) : StoredModel :=
  { m with version := .current, featureNames := [], featureTypes := [] }

end StoredModel

namespace Wire

/-- All lengths in a payload fit their fields if it takes few enough bytes. -/
theorem modelFits_withoutMetadata {m : StoredModel} (h : (plainModel m).length < 2 ^ 64) :
    ModelFits m.withoutMetadata := by
  simp only [plainModel, List.length_append] at h
  have hentry : ∀ e : String × String, 0 < (text e.1 ++ text e.2).length := by
    intro e
    have := length_text_pos e.1
    rw [List.length_append]
    omega
  have hattributes : (dictionary text m.attributes).length < 2 ^ 64 := by omega
  have hobjective : (text m.objective).length < 2 ^ 64 := by omega
  have hforest : (storedForest m.forest).length < 2 ^ 64 := by omega
  refine ⟨?_, by simp [StoredModel.withoutMetadata], by simp [StoredModel.withoutMetadata],
    textFits_of_length hobjective, forestFits_of_length hforest⟩
  refine list_fits hentry (fun e he => ?_) hattributes
  rw [List.length_append] at he
  exact ⟨textFits_of_length (by omega), textFits_of_length (by omega)⟩

/-- A payload is read as the model without metadata, whatever follows it. -/
theorem read_plainModel {m : StoredModel} (h : ModelFits m.withoutMetadata) (rest : Bytes) :
    Reader.plainModel (plainModel m ++ rest) = some (m.withoutMetadata, rest) := by
  simp only [Reader.plainModel, plainModel, List.append_assoc, reads_storedParameters.bind,
    reads_text.bind, (reads_dictionary reads_text).bind, reads_storedForest.bind,
    pure_eq_some_iff, true_and]
  exact ⟨h.objective, h.attributes, h.forest, rfl⟩

end Wire

/-! ## Headers -/

namespace Header

variable (h : Header)

@[simp] theorem length_toBytes : h.toBytes.length = size := rfl

theorem wordAt_eq (bytes : List UInt8) (place : Nat) {w : UInt32} {rest : List UInt8}
    (hdrop : bytes.drop place = Wire.word w ++ rest) : wordAt bytes place = w := by
  rw [wordAt, hdrop, (Wire.reads_word w rest (w, rest)).mpr ⟨trivial, rfl⟩]

/-- A header of a version that is read is read back as it was written, whatever follows
it. -/
theorem ofBytes_append (hmajor : h.versionMajor ≤ currentMajor) (rest : List UInt8) :
    ofBytes (h.toBytes ++ rest) = .ok h := by
  have hlength : ¬(h.toBytes ++ rest).length < size := by
    rw [List.length_append, length_toBytes]
    omega
  have hmagic : ModelFormat.deprecatedMagic.isPrefixOf (h.toBytes ++ rest) = true := by
    simp only [toBytes, List.append_assoc, List.isPrefixOf_iff_prefix, List.prefix_append]
  have hsize : wordAt (h.toBytes ++ rest) 8 = h.payloadSize := wordAt_eq _ _ rfl
  have hchecksum : wordAt (h.toBytes ++ rest) 12 = h.checksum := wordAt_eq _ _ rfl
  have hfeatures : wordAt (h.toBytes ++ rest) 16 = h.numFeatures := wordAt_eq _ _ rfl
  have hgroups : wordAt (h.toBytes ++ rest) 20 = h.numGroups := wordAt_eq _ _ rfl
  rw [ofBytes, if_neg hlength, hmagic, hsize, hchecksum, hfeatures, hgroups]
  exact if_neg (UInt8.not_lt.mpr hmajor)

end Header

/-! ## Buffers -/

namespace StoredModel

variable {m : StoredModel} {bytes : List UInt8}

/-- The header of the checksummed form of a model. -/
def plainHeader (m : StoredModel) : Header where
  versionMajor := Header.currentMajor
  versionMinor := Header.currentMinor
  payloadSize := UInt32.ofNat (Wire.plainModel m).length
  checksum := Checksum.crc32 (Wire.plainModel m)
  numFeatures := m.parameters.numFeature.toUInt32
  numGroups := if m.parameters.numClass = 0 then 1 else m.parameters.numClass

/-- A model is written in the checksummed form just if the length of its payload is a word
of thirty-two bits. -/
theorem encode_deprecated_eq_ok_iff : m.encode .deprecated = .ok bytes ↔
    (Wire.plainModel m).length < 2 ^ 32 ∧ bytes = m.plainHeader.toBytes ++ Wire.plainModel m := by
  have hencode : m.encode .deprecated = if (Wire.plainModel m).length < 2 ^ 32 then
      .ok (m.plainHeader.toBytes ++ Wire.plainModel m) else .error (.corrupt .oversized) := rfl
  rw [hencode]
  split
  · next h => rw [Except.ok.injEq, eq_comm, and_iff_right h]
  · next h => exact iff_of_false nofun fun hok => h hok.1

/-- The size field holds the length of the payload. -/
theorem plainHeader_payloadSize (h : (Wire.plainModel m).length < 2 ^ 32) :
    m.plainHeader.payloadSize.toNat = (Wire.plainModel m).length :=
  UInt32.toNat_ofNat_of_lt' h

theorem detect?_plainHeader (m : StoredModel) (rest : List UInt8) :
    ModelFormat.detect? (m.plainHeader.toBytes ++ rest) = some .deprecated := rfl

/-- The number of features in the header is that of the payload just if its upper half is
zero. -/
theorem toUInt64_toUInt32_eq_iff (n : UInt64) : n.toUInt32.toUInt64 = n ↔ n.toNat < 2 ^ 32 := by
  rw [← UInt64.toNat_inj, UInt32.toNat_toUInt64, UInt64.toNat_toUInt32]
  omega

/-- The checks of the reader in their order, once the header is read. -/
theorem ofDeprecated_eq {header : Header} (h : Header.ofBytes bytes = .ok header) :
    ofDeprecated bytes =
      let payload := bytes.drop Header.size
      let size := header.payloadSize.toNat
      let actual := Checksum.crc32 (payload.take size)
      if payload.length < size then .error (.truncated size payload.length)
      else if actual ≠ header.checksum then .error (.checksumMismatch header.checksum actual)
      else match Wire.Reader.plainModel (payload.take size) with
        | none => .error .binary
        | some (m, _) =>
          if m.parameters.numFeature ≠ header.numFeatures.toUInt64 then
            .error (.corrupt (.featureCount header.numFeatures m.parameters.numFeature))
          else .ok m := by
  rw [ofDeprecated, h]
  rfl

/-- What a buffer in the checksummed form is read as, whatever follows it. -/
theorem decode_append_of_deprecated (h : m.encode .deprecated = .ok bytes) (rest : List UInt8) :
    decode (bytes ++ rest) = if m.parameters.numFeature.toNat < 2 ^ 32 then .ok m.withoutMetadata
      else .error (.corrupt (.featureCount m.parameters.numFeature.toUInt32
        m.parameters.numFeature)) := by
  obtain ⟨hlength, rfl⟩ := encode_deprecated_eq_ok_iff.mp h
  have hread := Wire.read_plainModel (Wire.modelFits_withoutMetadata (m := m) (by omega)) []
  have hheader : Header.ofBytes (m.plainHeader.toBytes ++ (Wire.plainModel m ++ rest)) =
      .ok m.plainHeader := Header.ofBytes_append _ (UInt8.le_refl _) _
  have hdrop : (m.plainHeader.toBytes ++ (Wire.plainModel m ++ rest)).drop Header.size =
      Wire.plainModel m ++ rest := rfl
  have htake : (Wire.plainModel m ++ rest).take (Wire.plainModel m).length =
      Wire.plainModel m := List.take_left
  have henough : ¬(Wire.plainModel m ++ rest).length < (Wire.plainModel m).length := by
    rw [List.length_append]
    omega
  have hchecksum : ¬Checksum.crc32 (Wire.plainModel m) ≠ m.plainHeader.checksum :=
    not_not_intro rfl
  have hcount : m.parameters.numFeature ≠ m.parameters.numFeature.toUInt32.toUInt64 ↔
      ¬m.parameters.numFeature.toNat < 2 ^ 32 := by
    rw [ne_comm, Ne, toUInt64_toUInt32_eq_iff]
  rw [List.append_nil] at hread
  rw [List.append_assoc, decode, detect?_plainHeader]
  dsimp only
  rw [ofDeprecated_eq hheader]
  dsimp only
  rw [hdrop, plainHeader_payloadSize hlength, if_neg henough, htake, if_neg hchecksum, hread]
  exact (if_congr hcount rfl rfl).trans (ite_not ..)

/-- A buffer in the checksummed form that ends within its payload is refused. -/
theorem ofDeprecated_of_short {payload : List UInt8} (hlength : (Wire.plainModel m).length < 2 ^ 32)
    (hshort : payload.length < (Wire.plainModel m).length) :
    ofDeprecated (m.plainHeader.toBytes ++ payload) =
      .error (.truncated (Wire.plainModel m).length payload.length) := by
  have hheader : Header.ofBytes (m.plainHeader.toBytes ++ payload) = .ok m.plainHeader :=
    Header.ofBytes_append _ (UInt8.le_refl _) _
  have hdrop : (m.plainHeader.toBytes ++ payload).drop Header.size = payload := rfl
  rw [ofDeprecated_eq hheader]
  dsimp only
  rw [hdrop, plainHeader_payloadSize hlength, if_pos hshort]

/-- Every buffer in the checksummed form is shown to be in that form by its first bytes. It
is read back as its model without version and feature metadata if the number of features is
a word of thirty-two bits; else it is refused, since the header holds another number. -/
theorem decode_encode_deprecated (h : m.encode .deprecated = .ok bytes) :
    ModelFormat.detect? bytes = some .deprecated ∧
      decode bytes = if m.parameters.numFeature.toNat < 2 ^ 32 then .ok m.withoutMetadata
        else .error (.corrupt (.featureCount m.parameters.numFeature.toUInt32
          m.parameters.numFeature)) := by
  have hdecode := decode_append_of_deprecated h []
  rw [List.append_nil] at hdecode
  obtain ⟨-, rfl⟩ := encode_deprecated_eq_ok_iff.mp h
  exact ⟨detect?_plainHeader m _, hdecode⟩

/-- A model with another number of features. -/
def withFeatures (m : StoredModel) (n : UInt64) : StoredModel :=
  { m with parameters := { m.parameters with numFeature := n } }

/-- The largest number of features that is read back, and the next one. -/
theorem decode_encode_deprecated_misshapen :
    (∃ bytes, (misshapen.withFeatures 0xffffffff).encode .deprecated = .ok bytes ∧
      decode bytes = .ok (misshapen.withFeatures 0xffffffff).withoutMetadata) ∧
    ∃ bytes, (misshapen.withFeatures 0x100000000).encode .deprecated = .ok bytes ∧
      decode bytes = .error (.corrupt (.featureCount 0 0x100000000)) := by
  have hread : (misshapen.withFeatures 0xffffffff).encode .deprecated = .ok _ :=
    encode_deprecated_eq_ok_iff.mpr ⟨by decide +kernel, rfl⟩
  have hrefused : (misshapen.withFeatures 0x100000000).encode .deprecated = .ok _ :=
    encode_deprecated_eq_ok_iff.mpr ⟨by decide +kernel, rfl⟩
  exact ⟨⟨_, hread, (decode_encode_deprecated hread).2⟩,
    _, hrefused, (decode_encode_deprecated hrefused).2⟩

end StoredModel

end BoostedTrees
