import BoostedTrees.Json.Value
import BoostedTrees.Number.Double

/-!
# The meaning of JSON scalars

The text that the lexeme of a string stands for, and the number that the lexeme of
a number stands for.

A number without point and exponent that fits sixty-four bits is a whole number.
Any other is read in double precision by a short rule: its digits are collected into
a natural below `2 ^ 64`, digits that would carry it over that bound being dropped,
and that natural is multiplied or divided once by the power of ten that is left.
The result may be one last place away from the nearest double.
-/

namespace BoostedTrees.Json

/-! ## Strings -/

/-- The character that an escape letter stands for. -/
def escapedByte (b : UInt8) : UInt8 :=
  if b = ascii 'b' then 0x08
  else if b = ascii 'f' then 0x0c
  else if b = ascii 'n' then 0x0a
  else if b = ascii 'r' then 0x0d
  else if b = ascii 't' then 0x09
  else b

/-- The number that four hexadecimal digits stand for. -/
def codeUnit (h1 h2 h3 h4 : UInt8) : Nat :=
  [h1, h2, h3, h4].foldl (fun n h => 16 * n + (Text.hexValue? h).getD 0) 0

/-- The UTF-8 bytes of a code point. -/
def codePointBytes (n : Nat) : List UInt8 := String.utf8EncodeChar (Char.ofNat n)

/-- The bytes that a lexeme stands for. A high surrogate must be followed by a low
one, and a low surrogate by itself stands for nothing. -/
def unescape : Lexeme → Option (List UInt8)
  | [] => some []
  | b :: bytes =>
    if b = ascii '\\' then
      match bytes with
      | c :: bytes =>
        if c = ascii 'u' then
          match bytes with
          | h1 :: h2 :: h3 :: h4 :: bytes =>
            let high := codeUnit h1 h2 h3 h4
            if 0xdc00 ≤ high && high ≤ 0xdfff then none
            else if 0xd800 ≤ high && high ≤ 0xdbff then
              match bytes with
              | s :: u :: l1 :: l2 :: l3 :: l4 :: bytes =>
                let low := codeUnit l1 l2 l3 l4
                if s = ascii '\\' && u = ascii 'u' && 0xdc00 ≤ low && low ≤ 0xdfff then
                  -- The pair stands for one character beyond the first 65536.
                  let point := 0x10000 + (high - 0xd800) * 0x400 + (low - 0xdc00)
                  (unescape bytes).map (codePointBytes point ++ ·)
                else none
              | _ => none
            else (unescape bytes).map (codePointBytes high ++ ·)
          | _ => none
        else (unescape bytes).map (escapedByte c :: ·)
      | [] => none
    else (unescape bytes).map (b :: ·)

/-- The text that the lexeme of a string stands for. -/
def textOf? (lexeme : Lexeme) : Option String := (unescape lexeme).bind Text.ofUtf8?

/-! ## Numbers -/

/-- The naturals that a collected significand stays below. -/
def wordBound : Nat := 0x10000000000000000

/-- A significand with as many leading digits as fit, and how many were dropped. -/
def collect (significand : Nat) : Lexeme → Nat × Nat
  | [] => (significand, 0)
  | d :: ds =>
    -- After the first digit that does not fit, none of this part is taken.
    let next := 10 * significand + Text.digitValue d
    if next < wordBound then collect next ds else (significand, (d :: ds).length)

/-- The parts of the lexeme of a number. -/
structure Parts where
  negative : Bool
  whole : Lexeme
  fraction : Lexeme
  exponentNegative : Bool
  exponent : Lexeme

/-- The lexeme taken apart. -/
def parts (lexeme : Lexeme) : Parts :=
  let negative := lexeme.head? = some (ascii '-')
  let unsigned := if negative then lexeme.drop 1 else lexeme
  let whole := unsigned.takeWhile Text.isDigitByte
  let rest := unsigned.dropWhile Text.isDigitByte
  let point := rest.head? = some (ascii '.')
  let fraction := if point then (rest.drop 1).takeWhile Text.isDigitByte else []
  let rest := if point then (rest.drop 1).dropWhile Text.isDigitByte else rest
  let afterLetter := rest.drop 1
  let exponentNegative := afterLetter.head? = some (ascii '-')
  ⟨negative, whole, fraction, exponentNegative, afterLetter.dropWhile (!Text.isDigitByte ·)⟩

/-- The number that digits stand for. -/
def digitsValue (ds : Lexeme) : Nat := ds.foldl (fun n d => 10 * n + Text.digitValue d) 0

/-- Multiplies or divides by a power of ten, once where the power is a finite double
and in steps of `1e308` before that where it is not. A product that overflows is
refused. -/
def scaleByTen (x : Double) : (steps : Nat) → (exponent : Int) → Option Double
  | 0, _ => none
  | steps + 1, exponent =>
    if exponent.natAbs ≤ 308 then
      let power := Double.ofDecimal 1 exponent.natAbs
      if 0 ≤ exponent then
        let y := x * power
        if y.isFinite then some y else none
      else some (x / power)
    else if x.sameNumber 0 then some x
    else if 0 ≤ exponent then none
    else scaleByTen (x / Double.ofDecimal 1 308) steps (exponent + 308)

/-- The exponents that are written are read up to this bound; beyond it the value is
out of range or zero. -/
def exponentBound : Nat := 0x80000000

/-- The double that the lexeme of a number is read as; `none` where it overflows. -/
def doubleOf? (lexeme : Lexeme) : Option Double :=
  let p := parts lexeme
  let withSign (x : Double) : Double := if p.negative then -x else x
  let (significand, droppedWhole) := collect 0 p.whole
  let (significand, droppedFraction) := collect significand p.fraction
  let start : Int := droppedWhole - ((p.fraction.length : Int) - droppedFraction)
  let written := digitsValue p.exponent
  if exponentBound ≤ written then
    if significand ≠ 0 ∧ !p.exponentNegative then none else some (withSign 0)
  else
    let exponent := if p.exponentNegative then start - written else start + written
    (scaleByTen (Double.ofNat significand) (exponent.natAbs + 1) exponent).map withSign

/-- What the lexeme of a number is: a whole number that fits sixty-four bits, or a
double. -/
inductive Number where
  | nat (value : Nat)
  | negative (magnitude : Nat)
  | double (value : Double)

/-- The meaning of the lexeme of a number. A negative number that is zero, or does
not fit, is a double. -/
def numberOf? (lexeme : Lexeme) : Option Number :=
  let p := parts lexeme
  let isWhole := p.whole.length + (if p.negative then 1 else 0) = lexeme.length
  let n := digitsValue p.whole
  if isWhole ∧ n < wordBound then
    if !p.negative then some (.nat n)
    else if n = 0 ∨ 0x8000000000000000 < n then some (.double (-Double.ofNat n))
    else some (.negative n)
  else (doubleOf? lexeme).map .double

end BoostedTrees.Json
