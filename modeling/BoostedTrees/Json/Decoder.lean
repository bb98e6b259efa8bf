import BoostedTrees.Json.Scalar
import BoostedTrees.Dictionary

/-!
# Reading typed values from JSON

A decoder reads a value of some type. It carries how many more containers it may
enter: containers that are read may be nested up to a fixed depth, and those inside
a member that nobody asks for do not count.

A record is written either as an object of its fields, where unknown members are
passed over and a field given twice is refused, or as an array of its fields in
order.
-/

namespace BoostedTrees.Json

/-- Reads a value that may enter `depth` more nested containers. -/
abbrev Decoder (α : Type) := (depth : Nat) → Json → Option α

/-- How deep the containers that are read may be nested. -/
def maxDepth : Nat := 127

/-- The depth that is left inside one more container. -/
def enter : Nat → Option Nat
  | 0 => none
  | depth + 1 => some depth

namespace Decoder

def bool : Decoder Bool
  | _, .bool b => some b
  | _, _ => none

/-- A whole number below a bound. -/
def nat (bound : Nat) : Decoder Nat
  | _, .number lexeme =>
    match numberOf? lexeme with
    | some (.nat n) => if n < bound then some n else none
    | _ => none
  | _, _ => none

def uint32 : Decoder UInt32 := fun depth j => (nat 0x100000000 depth j).map UInt32.ofNat

def uint64 : Decoder UInt64 := fun depth j => (nat wordBound depth j).map UInt64.ofNat

def uint8 : Decoder UInt8 := fun depth j => (nat 0x100 depth j).map UInt8.ofNat

def int32 : Decoder Int32
  | _, .number lexeme =>
    match numberOf? lexeme with
    | some (.nat n) => if n < 0x80000000 then some (Int32.ofNat n) else none
    | some (.negative n) => if n ≤ 0x80000000 then some (Int32.ofInt (-n)) else none
    | _ => none
  | _, _ => none

/-- A number in double precision, rounded once if it is whole. -/
def double : Decoder Double
  | _, .number lexeme =>
    (numberOf? lexeme).map fun
      | .nat n => Double.ofNat n
      | .negative n => -Double.ofNat n
      | .double x => x
  | _, _ => none

/-- A number in single precision: a whole one is rounded once, any other from its
double. -/
def single : Decoder Single
  | _, .number lexeme =>
    (numberOf? lexeme).map fun
      | .nat n => Single.ofNat n
      | .negative n => -Single.ofNat n
      | .double x => x.toSingle
  | _, _ => none

def text : Decoder String
  | _, .string lexeme => textOf? lexeme
  | _, _ => none

variable {α : Type}

/-- A value, or none where it is null. -/
def optional (d : Decoder α) : Decoder (Option α)
  | _, .null => some none
  | depth, j => (d depth j).map some

def list (d : Decoder α) : Decoder (List α)
  | depth, .array items => (enter depth).bind fun depth => items.mapM (d depth)
  | _, _ => none

/-- A list of a given length. -/
def listOf (length : Nat) (d : Decoder α) : Decoder (List α) := fun depth j =>
  (list d depth j).bind fun items => if items.length = length then some items else none

/-- An object with any keys; of members with the same key the last one counts. -/
def dictionary (d : Decoder α) : Decoder (Dictionary α)
  | depth, .object members =>
    (enter depth).bind fun depth =>
      (members.mapM fun (key, value) => do return (← textOf? key, ← d depth value)).map
        Dictionary.ofList
  | _, _ => none

end Decoder

/-! ## Records -/

/-- The fields of a record that are present, and the depth that is left in them. -/
structure Record where
  depth : Nat
  fields : List (String × Json)

namespace Record

/-- The members that are fields; a field given twice is refused. -/
def ofMembers (names : List String) :
    List (Lexeme × Json) → List (String × Json) → Option (List (String × Json))
  | [], seen => some seen
  | (key, value) :: rest, seen => do
    let key ← textOf? key
    if !names.contains key then ofMembers names rest seen
    else if seen.any (·.1 = key) then none
    else ofMembers names rest ((key, value) :: seen)

/-- Reads the fields with the given names. -/
def ofJson? (names : List String) : Decoder Record
  | depth, .object members => do
    let depth ← enter depth
    return ⟨depth, ← ofMembers names members []⟩
  | depth, .array items => do
    let depth ← enter depth
    if items.length ≤ names.length then return ⟨depth, names.zip items⟩ else none
  | _, _ => none

variable {α : Type} (r : Record)

def field? (name : String) : Option Json := (r.fields.find? (·.1 = name)).map (·.2)

/-- A field that must be present. -/
def required (name : String) (d : Decoder α) : Option α :=
  (r.field? name).bind (d r.depth)

/-- A field that may be absent or null. -/
def optional (name : String) (d : Decoder α) : Option (Option α) :=
  match r.field? name with
  | none => some none
  | some j => d.optional r.depth j

end Record

/-- Reads a value from a whole text. -/
def decode {α : Type} (d : Decoder α) (bytes : List UInt8) : Option α :=
  (parse bytes).bind (d maxDepth)

end BoostedTrees.Json
