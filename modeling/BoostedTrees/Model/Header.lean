import BoostedTrees.Model.Format
import BoostedTrees.Model.Error
import BoostedTrees.Model.Wire

/-!
# The header of the checksummed form

Thirty-two bytes: four that name the form, the version, the size and the checksum of
the payload, the number of features and of output groups, all words lowest byte
first, and zeros in between and at the end.
-/

namespace BoostedTrees

structure Header where
  versionMajor : UInt8
  versionMinor : UInt8
  payloadSize : UInt32
  checksum : UInt32
  numFeatures : UInt32
  numGroups : UInt32
deriving DecidableEq

namespace Header

/-- The size of a header in bytes. -/
def size : Nat := 32

/-- The highest major version that is read, and the one that is written. -/
def currentMajor : UInt8 := 1

def currentMinor : UInt8 := 0

def toBytes (h : Header) : List UInt8 :=
  ModelFormat.deprecatedMagic ++ [h.versionMajor, h.versionMinor, 0, 0] ++
    Wire.word h.payloadSize ++ Wire.word h.checksum ++ Wire.word h.numFeatures ++
    Wire.word h.numGroups ++ List.replicate 8 0

/-- The word at a place of the bytes. -/
def wordAt (bytes : List UInt8) (place : Nat) : UInt32 :=
  match Wire.Reader.word (bytes.drop place) with
  | some (w, _) => w
  | none => 0

/-- The header at the front of the bytes. -/
def ofBytes (bytes : List UInt8) : Except CodecError Header :=
  let major := bytes.getD 4 0
  if bytes.length < size then .error (.truncated size bytes.length)
  else if !ModelFormat.deprecatedMagic.isPrefixOf bytes then .error .notAModel
  else if currentMajor < major then .error (.unsupportedVersion major)
  else .ok {
    versionMajor := major
    versionMinor := bytes.getD 5 0
    payloadSize := wordAt bytes 8
    checksum := wordAt bytes 12
    numFeatures := wordAt bytes 16
    numGroups := wordAt bytes 20 }

end Header

end BoostedTrees
