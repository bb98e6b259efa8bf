/-!
# ASCII bytes

Bytes by the character they stand for, decimal and hexadecimal digits, and text as
the bytes of its UTF-8 form.
-/

namespace BoostedTrees

/-- The byte of an ASCII character. -/
def ascii (c : Char) : UInt8 := c.toNat.toUInt8

namespace Text

def isDigitByte (b : UInt8) : Bool := ascii '0' ≤ b && b ≤ ascii '9'

/-- The number that a decimal digit stands for. -/
def digitValue (b : UInt8) : Nat := b.toNat - '0'.toNat

/-- The number that a hexadecimal digit stands for, in either case. -/
def hexValue? (b : UInt8) : Option Nat :=
  if isDigitByte b then some (digitValue b)
  else if ascii 'a' ≤ b && b ≤ ascii 'f' then some (b.toNat - 'a'.toNat + 10)
  else if ascii 'A' ≤ b && b ≤ ascii 'F' then some (b.toNat - 'A'.toNat + 10)
  else none

/-- The last `width` hexadecimal digits of a number, lower case. -/
def hexDigits : (width : Nat) → Nat → List Char
  | 0, _ => []
  | width + 1, n => hexDigits width (n / 16) ++ [Nat.digitChar (n % 16)]

/-- The UTF-8 bytes of a text. -/
def utf8 (text : String) : List UInt8 := text.toUTF8.data.toList

/-- The text that bytes are the UTF-8 form of, if they are one. -/
def ofUtf8? (bytes : List UInt8) : Option String := String.fromUTF8? ⟨bytes.toArray⟩

end Text

end BoostedTrees
