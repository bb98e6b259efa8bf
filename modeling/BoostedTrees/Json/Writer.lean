import BoostedTrees.Number.Text
import BoostedTrees.Text.Ascii

/-!
# Writing JSON

Compact text. Numbers have the fewest digits that read back, in positional notation
with at least one decimal place while the exponent of the leading digit stays in a
range, otherwise in scientific notation; a number that is not finite is written as
null. Strings escape quotes, backslashes and control characters only.
-/

namespace BoostedTrees.Json.Writer

/-- Exponents of the leading digit that are written positionally. -/
structure Positional where
  least : Int
  greatest : Int

def singlePositional : Positional := ⟨-6, 12⟩

def doublePositional : Positional := ⟨-5, 15⟩

/-- A shortest decimal: positional notation shows a fraction, be it zero. -/
def decimal (p : Positional) (d : Decimal) : List Char :=
  if p.least ≤ d.leadingExponent ∧ d.leadingExponent ≤ p.greatest then
    if 0 ≤ d.exponent then d.positional ++ ['.', '0'] else d.positional
  else d.scientific ['+']

def datum (L : Layout) (p : Positional) : Layout.Datum → List Char
  | .finite negative m e => withSign negative (decimal p (Decimal.shortest L .toEven m e))
  | _ => ['n', 'u', 'l', 'l']

def single (x : Single) : List Char := datum Layout.single singlePositional x.datum

def double (x : Double) : List Char := datum Layout.double doublePositional x.datum

/-- A character inside a string. -/
def char (c : Char) : List Char :=
  if c = '"' then ['\\', '"']
  else if c = '\\' then ['\\', '\\']
  else if c = '\x08' then ['\\', 'b']
  else if c = '\x0c' then ['\\', 'f']
  else if c = '\n' then ['\\', 'n']
  else if c = '\r' then ['\\', 'r']
  else if c = '\t' then ['\\', 't']
  else if c.toNat < 0x20 then '\\' :: 'u' :: Text.hexDigits 4 c.toNat
  else [c]

def string (text : String) : List Char := '"' :: (text.toList.flatMap char ++ ['"'])

def nat (n : Nat) : List Char := Nat.toDigits 10 n

def int (n : Int) : List Char := withSign (n < 0) (nat n.natAbs)

def bool (b : Bool) : List Char :=
  if b then ['t', 'r', 'u', 'e'] else ['f', 'a', 'l', 's', 'e']

/-- Parts with commas between them. -/
def commas (parts : List (List Char)) : List Char := [','].intercalate parts

def array (items : List (List Char)) : List Char := '[' :: (commas items ++ [']'])

/-- Members in the given order, without the braces around them. -/
def members (ms : List (String × List Char)) : List Char :=
  commas (ms.map fun (key, value) => string key ++ ':' :: value)

def object (ms : List (String × List Char)) : List Char := '\x7b' :: (members ms ++ ['\x7d'])

end BoostedTrees.Json.Writer
