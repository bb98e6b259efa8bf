import BoostedTrees.Number.Double

/-!
# Shortest decimals

The shortest decimal of a binary number is the one on the coarsest decimal grid
among those that read back as that number, and the nearest such point of that
grid. The numbers that read back form an interval around the value, whose ends
belong to it when the significand is even; a grid has a point in the interval only
if one of the two neighbours of the value on that grid is in it, so only those are
tried. All comparisons are between naturals.
-/

namespace BoostedTrees

/-- The non-negative number `coefficient · 10 ^ exponent`. -/
structure Decimal where
  coefficient : Nat
  exponent : Int
deriving DecidableEq

/-- Where a value halfway between two points of a decimal grid goes. -/
inductive Tie where
  /-- To the larger point. -/
  | up
  /-- To the point with the even last digit. -/
  | toEven

namespace Decimal

def zero : Decimal := ⟨0, 0⟩

/-- A positive binary value between the ends of the interval that reads back as it,
all three over one unit. -/
structure Interval where
  low : Nat
  value : Nat
  high : Nat
  closed : Bool

/-- The interval of `m · 2 ^ e` in quarters of its last place. Below a power of two
the neighbour is half as far away, unless it is subnormal. -/
def Interval.around (L : Layout) (m : Nat) (e : Int) : Interval where
  low := if m = Nat.pow 2 L.fractionBits ∧ L.minExponent < e then 4 * m - 1 else 4 * m - 2
  value := 4 * m
  high := 4 * m + 2
  closed := m % 2 == 0

/-- The interval with all three numbers multiplied. -/
def Interval.scale (i : Interval) (factor : Nat) : Interval :=
  ⟨i.low * factor, i.value * factor, i.high * factor, i.closed⟩

def Interval.contains (i : Interval) (n : Nat) : Bool :=
  if i.closed then i.low ≤ n && n ≤ i.high else i.low < n && n < i.high

/-- The point of the grid of multiples of `step` that lies in the interval and
nearest to its value. -/
def Interval.gridPoint? (tie : Tie) (i : Interval) (step : Nat) : Option Nat :=
  -- The value lies between `below` steps and one more.
  let below := i.value / step
  let rest := i.value % step
  let preferUp : Bool := match tie with
    | .up => step ≤ 2 * rest
    | .toEven => step < 2 * rest || step == 2 * rest && below % 2 == 1
  match i.contains (below * step), i.contains ((below + 1) * step) with
  | true, false => some below
  | false, true => some (below + 1)
  | true, true => some (if preferUp then below + 1 else below)
  | false, false => none

/-- Tries the grids `10 ^ k`, `10 ^ (k - 1)`, … in turn, at most `steps` of them, on
an interval whose unit is `2 ^ unit`. -/
def search (tie : Tie) (i : Interval) (unit : Int) : (steps : Nat) → (k : Int) → Decimal
  | 0, _ => zero
  | steps + 1, k =>
    let scaled := i.scale (Nat.pow 2 unit.toNat * Nat.pow 10 (-k).toNat)
    match scaled.gridPoint? tie (Nat.pow 2 (-unit).toNat * Nat.pow 10 k.toNat) with
    | some n => ⟨n, k⟩
    | none => search tie i unit steps (k - 1)

/-- The shortest decimal that reads back as `m · 2 ^ e`. The first grid tried is
coarser than the value, and seventeen digits always suffice. -/
def shortest (L : Layout) (tie : Tie) (m : Nat) (e : Int) : Decimal :=
  if m = 0 then zero
  else
    let start : Int := ((m.log2 : Int) + e) * 30103 / 100000 + 2
    search tie (Interval.around L m e) (e - 2) 22 start

/-- The digits of the coefficient. -/
def digits (d : Decimal) : List Char := Nat.toDigits 10 d.coefficient

/-- The exponent of the leading digit. -/
def leadingExponent (d : Decimal) : Int := d.exponent + d.digits.length - 1

/-- Positional notation: no exponent, and a point only where there is a fraction. -/
def positional (d : Decimal) : List Char :=
  let ds := d.digits
  if 0 ≤ d.exponent then
    if d.coefficient = 0 then ds else ds ++ List.replicate d.exponent.toNat '0'
  else
    let places := (-d.exponent).toNat
    if ds.length ≤ places then
      '0' :: '.' :: (List.replicate (places - ds.length) '0' ++ ds)
    else ds.take (ds.length - places) ++ '.' :: ds.drop (ds.length - places)

/-- Scientific notation: one digit before the point, the point only before further
digits, and a sign on a negative exponent alone. -/
def scientific (d : Decimal) (plus : List Char) : List Char :=
  let ds := d.digits
  let e := d.leadingExponent
  let mantissa := ds.take 1 ++ if ds.length ≤ 1 then [] else '.' :: ds.drop 1
  let sign := if e < 0 then ['-'] else plus
  mantissa ++ 'e' :: (sign ++ Nat.toDigits 10 e.natAbs)

end Decimal

end BoostedTrees
