import BoostedTrees.Text.Ascii

/-!
# Why a model cannot be written or read
-/

namespace BoostedTrees

/-- What is wrong with a binary model that could be taken apart. -/
inductive Corruption where
  /-- Bytes are left after the model. -/
  | trailingBytes (count : Nat)
  /-- The header and the payload disagree on the number of features. -/
  | featureCount (header : UInt32) (payload : UInt64)
  /-- The payload does not fit the size field of the header. -/
  | oversized
deriving DecidableEq

def Corruption.message : Corruption → String
  | .trailingBytes count => s!"{count} trailing bytes after model"
  | .featureCount header payload => s!"header declares {header} features, payload {payload}"
  | .oversized => "payload exceeds 4 GiB"

inductive CodecError where
  /-- The bytes do not start like any format. -/
  | notAModel
  | unsupportedVersion (version : UInt8)
  | checksumMismatch (expected actual : UInt32)
  | truncated (expected actual : Nat)
  | corrupt (cause : Corruption)
  /-- The text is not JSON, or not that of a model. -/
  | json
  /-- The payload is not that of a model. -/
  | binary
deriving DecidableEq

/-- A word as eight hexadecimal digits. -/
def hexWord (w : UInt32) : String := "0x" ++ String.ofList (Text.hexDigits 8 w.toNat)

def CodecError.message : CodecError → String
  | .notAModel => "buffer is not a serialized model"
  | .unsupportedVersion version => s!"unsupported model format version {version}"
  | .checksumMismatch expected actual =>
    let e := hexWord expected
    let a := hexWord actual
    s!"checksum mismatch: expected {e}, got {a}"
  | .truncated expected actual => s!"model truncated: expected {expected} bytes, got {actual}"
  | .corrupt cause => "corrupt model: " ++ cause.message
  | .json => "JSON error: not the text of a model"
  | .binary => "binary encoding error: not the payload of a model"

end BoostedTrees
