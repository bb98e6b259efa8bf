import BoostedTrees.Json.Decoder
import BoostedTrees.Json.Writer
import BoostedTrees.Lease.Basic
import BoostedTrees.Model.Wire

/-!
# Leases in streams

A lease is written to a stream as a frame: its version and the length of the model,
four bytes each with the lowest first, and the model in its default format. As a
record in a text it has the same parts, the model as a list of bytes.
-/

namespace BoostedTrees

/-- What is written of a lease. -/
structure LeaseRecord where
  version : Int32
  model : List UInt8
deriving DecidableEq

namespace LeaseRecord

open Json

/-! ## Frames -/

/-- The frame of a record, whose model must be shorter than its length field allows. -/
def toFrame (r : LeaseRecord) : Except FrameError (List UInt8) :=
  if r.model.length < 0x100000000 then
    .ok (Wire.word r.version.toUInt32 ++ Wire.word (UInt32.ofNat r.model.length) ++ r.model)
  else .error (.oversized r.model.length)

/-- The record of the frame at the front of a stream, and what follows it. -/
def ofFrame (stream : List UInt8) : Except LeaseError (LeaseRecord × List UInt8) :=
  match Wire.Reader.word stream with
  | none => .error .streamEnded
  | some (version, stream) =>
    match Wire.Reader.word stream with
    | none => .error .streamEnded
    | some (length, stream) =>
      let model := stream.take length.toNat
      if model.length < length.toNat then
        .error (.serialization (.endsEarly model.length length.toNat))
      else .ok (⟨version.toInt32, model⟩, stream.drop length.toNat)

/-! ## Texts -/

def toJson (r : LeaseRecord) : List Char :=
  Writer.object [
    ("version", Writer.int r.version.toInt),
    ("model", Writer.array (r.model.map fun b => Writer.nat b.toNat))]

def decoder : Decoder LeaseRecord := fun depth j => do
  let r ← Record.ofJson? ["version", "model"] depth j
  return ⟨← r.required "version" Decoder.int32,
    ← r.required "model" (Decoder.list Decoder.uint8)⟩

/-- The record at the front of a text. What follows it does not matter. -/
def ofText? (text : String) : Option LeaseRecord := do
  let (j, _) ← parsePrefix (Text.utf8 text)
  decoder maxDepth j

end LeaseRecord

namespace Lease

variable {σ : Type} (e : Engine σ) (l : Lease)

/-- What is written of the lease. -/
def toRecord : LeaseM σ LeaseRecord := do
  return ⟨l.version, ← l.save e⟩

/-- A lease on a new model as it was recorded. -/
def ofRecord (r : LeaseRecord) : LeaseM σ Lease := do
  return { ← ofBytes e r.model with version := r.version }

/-- The lease as a frame. -/
def writeFrame : LeaseM σ (List UInt8) := do
  match (← l.toRecord e).toFrame with
  | .ok bytes => return bytes
  | .error err => throw (.serialization err)

/-- The lease of the frame at the front of a stream, and what follows it. -/
def readFrame (stream : List UInt8) : LeaseM σ (Lease × List UInt8) := do
  match LeaseRecord.ofFrame stream with
  | .error err => throw err
  | .ok (r, rest) => return (← ofRecord e r, rest)

end Lease

end BoostedTrees
