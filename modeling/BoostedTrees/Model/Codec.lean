import BoostedTrees.Model.Json
import BoostedTrees.Model.Payload
import BoostedTrees.Model.Header
import BoostedTrees.Model.Checksum

/-!
# Writing and reading models

A model is written in the format that is asked for and read in the format that its
first bytes show. The compact binary form must end with the model; the checksummed
form says how long its payload is, and bytes after that, inside the payload or
behind it, are passed over.
-/

namespace BoostedTrees

namespace StoredModel

/-- The version byte of the compact binary form. -/
def ubjVersion : UInt8 := 1

def toUbj (m : StoredModel) : List UInt8 :=
  ModelFormat.ubjMagic ++ ubjVersion :: Wire.storedModel m

/-- Reads the compact binary form, of which the first four bytes were seen. -/
def ofUbj (bytes : List UInt8) : Except CodecError StoredModel :=
  match bytes.drop 4 with
  | [] => .error (.truncated 5 bytes.length)
  | version :: payload =>
    if version ≠ ubjVersion then .error (.unsupportedVersion version)
    else
      match Wire.Reader.storedModel payload with
      | none => .error .binary
      | some (m, rest) =>
        if rest.isEmpty then .ok m else .error (.corrupt (.trailingBytes rest.length))

/-- The checksummed form; a payload that its size field cannot hold is refused. -/
def toDeprecated (m : StoredModel) : Except CodecError (List UInt8) :=
  let payload := Wire.plainModel m
  if payload.length < 0x100000000 then
    let header : Header := {
      versionMajor := Header.currentMajor
      versionMinor := Header.currentMinor
      payloadSize := UInt32.ofNat payload.length
      checksum := Checksum.crc32 payload
      numFeatures := m.parameters.numFeature.toUInt32
      numGroups := if m.parameters.numClass = 0 then 1 else m.parameters.numClass }
    .ok (header.toBytes ++ payload)
  else .error (.corrupt .oversized)

/-- Reads the checksummed form: header, size, checksum, payload, and last the number
of features, which the header repeats. -/
def ofDeprecated (bytes : List UInt8) : Except CodecError StoredModel := do
  let header ← Header.ofBytes bytes
  let size := header.payloadSize.toNat
  let payload := bytes.drop Header.size
  if payload.length < size then throw (.truncated size payload.length)
  let payload := payload.take size
  let actual := Checksum.crc32 payload
  if actual ≠ header.checksum then throw (.checksumMismatch header.checksum actual)
  match Wire.Reader.plainModel payload with
  | none => throw .binary
  | some (m, _) =>
    if m.parameters.numFeature ≠ header.numFeatures.toUInt64 then
      throw (.corrupt (.featureCount header.numFeatures m.parameters.numFeature))
    return m

/-- The bytes of a model in a format. -/
def encode (m : StoredModel) : ModelFormat → Except CodecError (List UInt8)
  | .json => .ok (Text.utf8 (String.ofList m.toJson))
  | .ubj => .ok m.toUbj
  | .deprecated => m.toDeprecated

/-- The model that bytes are, in the format that they show. -/
def decode (bytes : List UInt8) : Except CodecError StoredModel :=
  match ModelFormat.detect? bytes with
  | none => .error .notAModel
  | some .json =>
    match Json.decode Json.Decoder.storedModel bytes with
    | some m => .ok m
    | none => .error .json
  | some .ubj => ofUbj bytes
  | some .deprecated => ofDeprecated bytes

end StoredModel

end BoostedTrees
