import BoostedTrees.Number.Double

/-!
# Reading numbers

A numeral is an optional sign followed by digits with an optional point and an
optional exponent, or by the word `inf`, `infinity` or `nan` in any case. It is
read as an exact decimal first, so that rounding to either precision happens once.
Whole numbers are read by their own rule: an optional sign and digits alone.
-/

namespace BoostedTrees

/-- What a numeral without its sign says. -/
inductive Magnitude where
  | decimal (coefficient : Nat) (exponent : Int)
  | infinite
  | nan

namespace Magnitude

/-- The bit pattern, sign clear. -/
def bits (L : Layout) : Magnitude → Nat
  | .decimal coefficient exponent => L.nearestDecimal coefficient exponent
  | .infinite => L.infinityBits
  | .nan => L.infinityBits + Nat.pow 2 (L.fractionBits - 1)

end Magnitude

/-- A numeral that was read: its sign and the rest. -/
structure Numeral where
  negative : Bool
  magnitude : Magnitude

namespace Numeral

/-- The number that digits stand for, leading digit first. -/
def ofDigits (ds : List Char) : Nat := ds.foldl (fun n c => 10 * n + (c.toNat - '0'.toNat)) 0

/-- A leading sign, and what follows it. -/
def sign : List Char → Bool × List Char
  | '-' :: cs => (true, cs)
  | '+' :: cs => (false, cs)
  | cs => (false, cs)

/-- The exponent that the end of a numeral gives: none at all, or a letter, an
optional sign and at least one digit. -/
def exponent? : List Char → Option Int
  | [] => some 0
  | c :: cs =>
    if c = 'e' ∨ c = 'E' then
      let (negative, ds) := sign cs
      if ds.isEmpty || !ds.all Char.isDigit then none
      else some (if negative then -(ofDigits ds : Int) else ofDigits ds)
    else none

/-- Digits with an optional point among or beside them, and an optional exponent. -/
def decimal? (cs : List Char) : Option Magnitude :=
  let whole := cs.takeWhile Char.isDigit
  let rest := cs.dropWhile Char.isDigit
  let (fraction, rest) := match rest with
    | '.' :: more => (more.takeWhile Char.isDigit, more.dropWhile Char.isDigit)
    | _ => ([], rest)
  if whole.isEmpty && fraction.isEmpty then none
  else (exponent? rest).map fun e => .decimal (ofDigits (whole ++ fraction)) (e - fraction.length)

/-- The words for numbers without digits, in any case. -/
def word? (cs : List Char) : Option Magnitude :=
  match String.ofList (cs.map Char.toLower) with
  | "inf" => some .infinite
  | "infinity" => some .infinite
  | "nan" => some .nan
  | _ => none

/-- The numeral that a text is, if it is one. -/
def read? (cs : List Char) : Option Numeral :=
  let (negative, rest) := sign cs
  ((decimal? rest).orElse fun _ => word? rest).map fun m => ⟨negative, m⟩

def toSingle (n : Numeral) : Single :=
  let x : Single := ⟨UInt32.ofNat (n.magnitude.bits Layout.single)⟩
  if n.negative then -x else x

def toDouble (n : Numeral) : Double :=
  let x : Double := ⟨UInt64.ofNat (n.magnitude.bits Layout.double)⟩
  if n.negative then -x else x

end Numeral

namespace Single

/-- The single-precision number nearest to what a text says. -/
def ofText? (cs : List Char) : Option Single := (Numeral.read? cs).map Numeral.toSingle

end Single

namespace Double

/-- The double-precision number nearest to what a text says. -/
def ofText? (cs : List Char) : Option Double := (Numeral.read? cs).map Numeral.toDouble

end Double

/-- A whole number below a bound: digits after an optional plus sign. -/
def natOfText? (bound : Nat) (cs : List Char) : Option Nat :=
  let ds := match cs with
    | '+' :: ds => ds
    | ds => ds
  if ds.isEmpty || !ds.all Char.isDigit then none
  else
    let n := Numeral.ofDigits ds
    if n < bound then some n else none

/-- A whole number of at least `-bound` and below `bound`: digits after an optional
sign. -/
def intOfText? (bound : Nat) (cs : List Char) : Option Int :=
  let (negative, ds) := Numeral.sign cs
  if ds.isEmpty || !ds.all Char.isDigit then none
  else
    let n := Numeral.ofDigits ds
    if negative then if n ≤ bound then some (-(n : Int)) else none
    else if n < bound then some n else none

end BoostedTrees
