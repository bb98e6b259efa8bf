import BoostedTrees.Dictionary
import BoostedTrees.Text.Split

/-!
# Files

The files of one directory. A path names a file of the directory if one plain
component is left of it when empty components and single points are passed over;
every other path leads elsewhere, where there is nothing to read and no place to
write to. So does a path or a name that is too long.
-/

namespace BoostedTrees

structure Files where
  contents : Dictionary (List UInt8)

namespace Files

def empty : Files := ⟨.empty⟩

/-- The longest name of a file, in bytes. -/
def maxNameLength : Nat := 255

/-- The longest path, in bytes. -/
def maxPathLength : Nat := 4095

/-- Whether a file may have a name. -/
def isName (component : List Char) : Bool :=
  component ≠ ['.', '.'] && !component.contains '\x00' &&
    (String.ofList component).utf8ByteSize ≤ maxNameLength

/-- The file that a path names. A path that ends in a stroke or a point names a
directory, and one that starts with a stroke leads elsewhere. -/
def fileOf? (path : String) : Option String :=
  let components := Text.splitOn '/' path.toList
  let named := components.filter fun c => !c.isEmpty && c ≠ ['.']
  match named, components.head?, components.getLast? with
  | [name], some first, some last =>
    if path.utf8ByteSize ≤ maxPathLength && isName name && !first.isEmpty && last = name then
      some (String.ofList name)
    else none
  | _, _, _ => none

variable (files : Files)

/-- The bytes of the file that a path names. -/
def read? (path : String) : Option (List UInt8) := (fileOf? path).bind files.contents.get?

/-- The files after bytes are written to the one that a path names. -/
def write? (path : String) (bytes : List UInt8) : Option Files :=
  (fileOf? path).map fun name => ⟨files.contents.insert name bytes⟩

/-- What was written is read again. -/
theorem read?_of_write? {files after : Files} {path : String} {bytes : List UInt8}
    (h : files.write? path bytes = some after) : after.read? path = some bytes := by
  obtain ⟨name, hname, rfl⟩ := Option.map_eq_some_iff.mp h
  simp [read?, hname, Dictionary.get?_insert]

end Files

end BoostedTrees
