import BoostedTrees.Number.Shortest

/-!
# Numbers as text

Single-precision numbers are shown by their shortest digits in positional notation,
a half on the last digit going up. Metric values are shown with six decimal places,
rounded from their exact value with halves going to the even neighbour.
-/

namespace BoostedTrees

/-- A sign before a text, where there is one. -/
def withSign (negative : Bool) (text : List Char) : List Char :=
  if negative then '-' :: text else text

namespace Single

/-- The shortest digits that read back, without an exponent. -/
def chars (x : Single) : List Char :=
  match x.datum with
  | .finite negative m e =>
    withSign negative (Decimal.shortest Layout.single .up m e).positional
  | .infinite negative => withSign negative ['i', 'n', 'f']
  | .nan _ => ['N', 'a', 'N']

/-- The shortest digits that read back, without an exponent. -/
def text (x : Single) : String := String.ofList x.chars

end Single

namespace Double

/-- `m · 2 ^ e` rounded to a whole number of millionths. -/
def millionths (m : Nat) (e : Int) : Nat :=
  Layout.roundHalfEven (m * Nat.pow 2 e.toNat * 1000000) (Nat.pow 2 (-e).toNat)

/-- A number of millionths with six decimal places. -/
def sixPlaces (n : Nat) : List Char :=
  let fraction := Nat.toDigits 10 (n % 1000000)
  Nat.toDigits 10 (n / 1000000) ++ '.' :: (List.replicate (6 - fraction.length) '0' ++ fraction)

/-- The number with six decimal places; a NaN shows no sign. -/
def fixedChars (x : Double) : List Char :=
  match x.datum with
  | .finite negative m e => withSign negative (sixPlaces (millionths m e))
  | .infinite negative => withSign negative ['i', 'n', 'f']
  | .nan _ => ['n', 'a', 'n']

end Double

end BoostedTrees
