import BoostedTrees.Proofs.ChecksummedForm
import BoostedTrees.Proofs.LongerInput
import BoostedTrees.Proofs.ModelText
import BoostedTrees.Learner.Persistence

/-!
# Where a buffer ends

A buffer that lost bytes at its end is refused in every format. No reader looks at the end
of its input, so a part that is accepted would be accepted with the lost bytes as trailing
ones too; but the whole buffer is read to its end. In the checksummed form the size field
tells that bytes are missing.

A buffer with more bytes at its end is refused in the compact binary form only. In the
checksummed form bytes behind the payload are passed over, and the buffer is read as if
they were not there.

## Main results

* `StoredModel.decode_of_prefix`: no proper part of a buffer from its start is read, and
  loading it changes no learner
* `StoredModel.decode_append`: what a buffer with trailing bytes is read as
-/

namespace BoostedTrees

/-! ## The format of a longer buffer -/

namespace ModelFormat

variable {bytes : List UInt8}

/-- A text does not start like a binary form. -/
theorem isPrefixOf_eq_false_of_text {magic : List UInt8} (hmagic : magic.head? = some (ascii 'B'))
    (h : (bytes.dropWhile isBlankByte).head? = some (ascii '\x7b')) :
    magic.isPrefixOf bytes = false := by
  rw [Bool.eq_false_iff, Ne, List.isPrefixOf_iff_prefix]
  rintro ⟨rest, rfl⟩
  obtain ⟨more, rfl⟩ : ∃ more, magic = ascii 'B' :: more := List.head?_eq_some_iff.mp hmagic
  rw [List.cons_append, List.dropWhile_cons_of_neg (by decide), List.head?_cons,
    Option.some.injEq] at h
  exact absurd h (by decide)

/-- What the first bytes show does not depend on what follows them. -/
theorem detect?_append {format : ModelFormat} (h : detect? bytes = some format)
    (more : List UInt8) : detect? (bytes ++ more) = some format := by
  have hextend : ∀ {magic : List UInt8}, magic.isPrefixOf bytes = true →
      magic.isPrefixOf (bytes ++ more) = true := by
    intro magic hmagic
    rw [List.isPrefixOf_iff_prefix] at hmagic ⊢
    exact hmagic.trans (List.prefix_append bytes more)
  rw [detect?] at h ⊢
  split at h
  · next hubj => rwa [if_pos (hextend hubj)]
  split at h
  · next hdeprecated =>
    -- The two binary forms differ within the bytes that are there.
    have hubj : ubjMagic.isPrefixOf (bytes ++ more) = false := by
      obtain ⟨rest, rfl⟩ := List.isPrefixOf_iff_prefix.mp hdeprecated
      rfl
    rwa [hubj, if_neg Bool.false_ne_true, if_pos (hextend hdeprecated)]
  split at h
  · next htext =>
    have htext' : ((bytes ++ more).dropWhile isBlankByte).head? = some (ascii '\x7b') := by
      obtain ⟨rest, hrest⟩ := List.head?_eq_some_iff.mp htext
      rw [List.dropWhile_append, hrest]
      rfl
    rwa [isPrefixOf_eq_false_of_text rfl htext', isPrefixOf_eq_false_of_text rfl htext',
      if_neg Bool.false_ne_true, if_neg Bool.false_ne_true, if_pos htext']
  · cases h

end ModelFormat

namespace StoredModel

open Json

variable {m m' : StoredModel} {part more : List UInt8}

/-- A buffer shows the format that it was written in. -/
theorem detect?_encode {format : ModelFormat} {bytes : List UInt8}
    (h : m.encode format = .ok bytes) : ModelFormat.detect? bytes = some format := by
  cases format with
  | json =>
    cases h
    exact m.detect?_text
  | ubj =>
    cases h
    exact m.detect?_toUbj
  | deprecated =>
    obtain ⟨-, rfl⟩ := encode_deprecated_eq_ok_iff.mp h
    exact detect?_plainHeader m _

/-- Every buffer has a last byte. -/
theorem dropLast_ne_of_encode {format : ModelFormat} {bytes : List UInt8}
    (h : m.encode format = .ok bytes) : bytes.dropLast ≠ bytes := by
  intro heq
  have hlength := congrArg List.length heq
  rw [List.length_dropLast] at hlength
  have hnil : bytes = [] := List.eq_nil_of_length_eq_zero (by omega)
  have hdetect := detect?_encode h
  rw [hnil] at hdetect
  cases hdetect

/-! ## Parts of a buffer -/

/-- Bytes that are accepted in the compact binary form are a model to their end. -/
theorem ofUbj_eq_ok {bytes : List UInt8} (h : ofUbj bytes = .ok m) :
    ∃ payload, bytes.drop 4 = ubjVersion :: payload ∧
      Wire.Reader.storedModel payload = some (m, []) := by
  rw [ofUbj] at h
  split at h
  · cases h
  · next version payload hdrop =>
    split at h
    · cases h
    · next hversion =>
      split at h
      · cases h
      · next m' rest hread =>
        split at h
        · next hempty =>
          cases h
          rw [List.isEmpty_iff.mp hempty] at hread
          exact ⟨payload, by rw [hdrop, not_not.mp hversion], hread⟩
        · cases h

/-- A part that is accepted in the compact binary form is the whole buffer. -/
theorem eq_nil_of_ofUbj (hbytes : part ++ more = m.toUbj) (h : ofUbj part = .ok m') :
    more = [] := by
  obtain ⟨payload, hdrop, hread⟩ := ofUbj_eq_ok h
  have hlength : 4 ≤ part.length := by
    have := congrArg List.length hdrop
    rw [List.length_drop, List.length_cons] at this
    omega
  have hpayload : payload ++ more = Wire.storedModel m := by
    have := congrArg (List.drop 4) hbytes
    rw [List.drop_append_of_le_length hlength, hdrop] at this
    exact (List.cons.inj this).2
  -- Read to its end, the whole payload leaves nothing.
  have hlonger := Wire.extends_storedModel.append hread more
  have hwhole := (Wire.reads_storedModel m [] (m', more)).mp (by
    rw [List.append_nil, ← hpayload]
    exact hlonger)
  exact (Prod.mk.inj hwhole.2).2

/-- A part that is accepted as text is the whole text. -/
theorem eq_nil_of_json {text : List UInt8} {j : Json} (hbytes : part ++ more = text)
    (hshows : Shows text j) (h : Json.decode Json.Decoder.storedModel part = some m') :
    more = [] := by
  obtain ⟨v, hparse, hmodel⟩ := Option.bind_eq_some_iff.mp h
  rw [parse] at hparse
  split at hparse
  · next v' rest hfront =>
    split at hparse
    · cases hparse
      -- A number is no model, so the value does not change with more bytes.
      have hnumber : ∀ n, v ≠ .number n := by
        rintro n rfl
        cases hmodel
      have hlonger := parsePrefix_append hfront hnumber more
      rw [hbytes, parsePrefix_of_shows hshows] at hlonger
      have hrest := (Prod.mk.inj (Option.some.inj hlonger)).2
      exact (List.append_eq_nil_iff.mp hrest.symm).2
    · cases hparse
  · cases hparse

/-- A part of a buffer in the checksummed form that lacks bytes is refused. -/
theorem ofDeprecated_of_ne_nil (hbytes : part ++ more = m.plainHeader.toBytes ++ Wire.plainModel m)
    (hlength : (Wire.plainModel m).length < 2 ^ 32) (hmore : more ≠ []) :
    ∃ e, ofDeprecated part = .error e := by
  rcases Nat.lt_or_ge part.length Header.size with hshort | hlong
  · -- The header is not complete.
    refine ⟨.truncated Header.size part.length, ?_⟩
    rw [ofDeprecated, Header.ofBytes, if_pos hshort]
    rfl
  · obtain ⟨payload, rfl⟩ : m.plainHeader.toBytes <+: part :=
      List.prefix_of_prefix_length_le (List.prefix_append _ (Wire.plainModel m))
        ⟨more, hbytes⟩ hlong
    have hpayload : payload ++ more = Wire.plainModel m := by
      rwa [List.append_assoc, List.append_cancel_left_eq] at hbytes
    have hshort : payload.length < (Wire.plainModel m).length := by
      have := List.length_pos_of_ne_nil hmore
      rw [← hpayload, List.length_append]
      omega
    exact ⟨_, ofDeprecated_of_short hlength hshort⟩

/-- A part of a buffer from its start that lacks bytes is refused. -/
theorem decode_of_ne_nil {format : ModelFormat} (h : m.encode format = .ok (part ++ more))
    (hmore : more ≠ []) : ∃ e, decode part = .error e := by
  cases hdetect : ModelFormat.detect? part with
  | none => exact ⟨.notAModel, by rw [decode, hdetect]⟩
  | some format' =>
    -- A part that shows a format shows that of the whole buffer.
    have hformat := ModelFormat.detect?_append hdetect more
    rw [detect?_encode h, Option.some.injEq] at hformat
    subst hformat
    rw [decode, hdetect]
    cases format with
    | json =>
      have hshows : Shows (part ++ more) m.shown := by
        rw [← Except.ok.inj h, Text.utf8_ofList]
        exact m.shows_toJson
      dsimp only
      cases hread : Json.decode Json.Decoder.storedModel part with
      | none => exact ⟨.json, rfl⟩
      | some m' => exact absurd (eq_nil_of_json rfl hshows hread) hmore
    | ubj =>
      dsimp only
      cases hread : ofUbj part with
      | error e => exact ⟨e, rfl⟩
      | ok m' => exact absurd (eq_nil_of_ofUbj (Except.ok.inj h).symm hread) hmore
    | deprecated =>
      obtain ⟨hlength, hbytes⟩ := encode_deprecated_eq_ok_iff.mp h
      exact ofDeprecated_of_ne_nil hbytes hlength hmore

/-- Whatever the format, no part of a buffer from its start is read, the empty one included,
unless it is the whole buffer; loading such a part fails with that error, and leaves every
learner as it was. -/
theorem decode_of_prefix {format : ModelFormat} {bytes : List UInt8}
    (h : m.encode format = .ok bytes) (hfront : part <+: bytes) (hne : part ≠ bytes) :
    ∃ e, decode part = .error e ∧
      ∀ l : Learner, Learner.load part l = (.error (.unloadable e), l) := by
  obtain ⟨more, rfl⟩ := hfront
  have hmore : more ≠ [] := by
    rintro rfl
    exact hne (List.append_nil part).symm
  obtain ⟨e, he⟩ := decode_of_ne_nil h hmore
  refine ⟨e, he, fun l => ?_⟩
  rw [Learner.load, he]
  rfl

/-- The model that no loader takes, without its last byte in every format. -/
theorem decode_of_prefix_misshapen :
    (∃ bytes, misshapen.encode .json = .ok bytes ∧ ∃ e, decode bytes.dropLast = .error e ∧
      ∀ l : Learner, Learner.load bytes.dropLast l = (.error (.unloadable e), l)) ∧
    (∃ bytes, misshapen.encode .ubj = .ok bytes ∧ ∃ e, decode bytes.dropLast = .error e ∧
      ∀ l : Learner, Learner.load bytes.dropLast l = (.error (.unloadable e), l)) ∧
    ∃ bytes, misshapen.encode .deprecated = .ok bytes ∧ ∃ e, decode bytes.dropLast = .error e ∧
      ∀ l : Learner, Learner.load bytes.dropLast l = (.error (.unloadable e), l) := by
  have hjson : misshapen.encode .json = .ok _ := rfl
  have hubj : misshapen.encode .ubj = .ok _ := rfl
  have hdeprecated : misshapen.encode .deprecated = .ok _ :=
    encode_deprecated_eq_ok_iff.mpr ⟨by decide +kernel, rfl⟩
  have hfront : ∀ bytes : List UInt8, bytes.dropLast <+: bytes := List.dropLast_prefix
  exact ⟨⟨_, hjson, decode_of_prefix hjson (hfront _) (dropLast_ne_of_encode hjson)⟩,
    ⟨_, hubj, decode_of_prefix hubj (hfront _) (dropLast_ne_of_encode hubj)⟩,
    _, hdeprecated, decode_of_prefix hdeprecated (hfront _) (dropLast_ne_of_encode hdeprecated)⟩

/-! ## Trailing bytes -/

/-- The compact binary form with bytes behind it is refused; if the model could have been
read, the error says how many they are. -/
theorem decode_toUbj_of_ne_nil (m : StoredModel) (hmore : more ≠ []) :
    ∃ e, decode (m.toUbj ++ more) = .error e ∧
      (Wire.ModelFits m → e = .corrupt (.trailingBytes more.length)) := by
  have hread := Wire.reads_storedModel m more
  rw [decode_toUbj_append]
  cases hm : Wire.Reader.storedModel (Wire.storedModel m ++ more) with
  | none =>
    refine ⟨.binary, rfl, fun hfits => ?_⟩
    rw [(hread (m, more)).mpr ⟨hfits, rfl⟩] at hm
    cases hm
  | some b =>
    obtain ⟨-, rfl⟩ := (hread b).mp hm
    have hempty : more.isEmpty = false := by simpa using hmore
    dsimp only
    rw [hempty]
    exact ⟨_, rfl, fun _ => rfl⟩

/-- A buffer with trailing bytes is refused in the compact binary form. In the checksummed
form it is read as if it ended with its payload. -/
theorem decode_append (hmore : more ≠ []) :
    (∀ bytes, m.encode .ubj = .ok bytes → ∃ e, decode (bytes ++ more) = .error e ∧
      (Wire.ModelFits m → e = .corrupt (.trailingBytes more.length))) ∧
    ∀ bytes, m.encode .deprecated = .ok bytes →
      decode (bytes ++ more) = if m.parameters.numFeature.toNat < 2 ^ 32 then .ok m.withoutMetadata
        else .error (.corrupt (.featureCount m.parameters.numFeature.toUInt32
          m.parameters.numFeature)) := by
  constructor
  · intro bytes h
    cases h
    exact m.decode_toUbj_of_ne_nil hmore
  · intro bytes h
    exact decode_append_of_deprecated h more

/-- One zero behind the model that no loader takes. -/
theorem decode_append_misshapen :
    (∃ bytes, (misshapen.withFeatures 5).encode .ubj = .ok bytes ∧
      ∃ e, decode (bytes ++ [0]) = .error e) ∧
    ∃ bytes, (misshapen.withFeatures 5).encode .deprecated = .ok bytes ∧
      decode (bytes ++ [0]) = .ok (misshapen.withFeatures 5).withoutMetadata := by
  obtain ⟨hubj, hdeprecated⟩ :=
    decode_append (m := misshapen.withFeatures 5) (List.cons_ne_nil 0 [])
  have hbytes : (misshapen.withFeatures 5).encode .deprecated = .ok _ :=
    encode_deprecated_eq_ok_iff.mpr ⟨by decide +kernel, rfl⟩
  obtain ⟨e, he, -⟩ := hubj _ rfl
  exact ⟨⟨_, rfl, e, he⟩, _, hbytes, hdeprecated _ hbytes⟩

end StoredModel

end BoostedTrees
