import BoostedTrees.ArgumentError
import BoostedTrees.Text.Ascii
import BoostedTrees.Text.Split

/-!
# Model formats

The formats a model is persisted in, their names, and how a format is told from a
file name or from the first bytes of a buffer.
-/

namespace BoostedTrees

inductive ModelFormat where
  /-- Text, with all metadata. -/
  | json
  /-- The compact binary form, with all metadata. -/
  | ubj
  /-- The binary form with a header and a checksum, without feature metadata. -/
  | deprecated
deriving DecidableEq

namespace ModelFormat

instance : Inhabited ModelFormat := ⟨ubj⟩

def name : ModelFormat → String
  | json => "json"
  | ubj => "ubj"
  | deprecated => "deprecated"

def ofName? : String → Option ModelFormat
  | "json" => some json
  | "ubj" => some ubj
  | "deprecated" => some deprecated
  | _ => none

/-- The format of a name that is given as an argument. -/
def ofName (name : String) : Except ArgumentError ModelFormat :=
  match ofName? name with
  | some format => .ok format
  | none => .error (.unknownModelFormat name)

/-- The last component of a path, unless it steps up; empty components and single
points are passed over. -/
def fileName? (path : String) : Option (List Char) :=
  let components := (Text.splitOn '/' path.toList).filter fun c => !c.isEmpty && c ≠ ['.']
  match components.getLast? with
  | some ['.', '.'] => none
  | last => last

/-- What follows the last point of a file name, unless the name starts with it. -/
def extension? (path : String) : Option (List Char) :=
  (fileName? path).bind fun file =>
    match Text.cutLast '.' file with
    | some ([], _) => none
    | some (_, after) => some after
    | none => none

/-- The format that a file name asks for by its extension, in any case. -/
def ofPath? (path : String) : Option ModelFormat :=
  match (extension? path).map fun e => String.ofList (e.map Char.toLower) with
  | some "json" => some json
  | some "ubj" => some ubj
  | some "deprecated" => some deprecated
  | some "bin" => some deprecated
  | _ => none

/-- The bytes that the compact binary form starts with. -/
def ubjMagic : List UInt8 := ['B', 'S', 'T', 'B'].map ascii

/-- The bytes that the form with a header starts with. -/
def deprecatedMagic : List UInt8 := ['B', 'S', 'T', 'R'].map ascii

/-- The bytes that may stand before a text model. -/
def isBlankByte (b : UInt8) : Bool :=
  b = 0x20 || b = 0x09 || b = 0x0a || b = 0x0c || b = 0x0d

/-- The format of a buffer, by its first bytes. -/
def detect? (bytes : List UInt8) : Option ModelFormat :=
  if ubjMagic.isPrefixOf bytes then some ubj
  else if deprecatedMagic.isPrefixOf bytes then some deprecated
  else if (bytes.dropWhile isBlankByte).head? = some (ascii '\x7b') then some json
  else none

end ModelFormat

end BoostedTrees
