import BoostedTrees.Number.Layout

/-!
# Single-precision numbers

A `Single` is the thirty-two bits of a number, so two of them are equal exactly
when their bits are: `0` and `-0` differ, and a NaN equals itself. Comparison as
numbers is `a < b`, `a ≤ b` and `Single.sameNumber a b`.

Arithmetic rounds to nearest. A NaN operand is passed on with its sign and payload,
the first operand's before the second's, and an operation that has no value gives
`Single.indefinite`.
-/

namespace BoostedTrees

/-- A single-precision number, as the bits it is stored in. -/
structure Single where
  bits : UInt32
deriving DecidableEq

namespace Single

/-- The NaN that text and missing values stand for. -/
def nan : Single := ⟨0x7fc00000⟩

/-- The NaN that an operation without a value produces. -/
def indefinite : Single := ⟨0xffc00000⟩

def infinity : Single := ⟨0x7f800000⟩

def negInfinity : Single := ⟨0xff800000⟩

/-- The largest finite number. -/
def largest : Single := ⟨0x7f7fffff⟩

/-- The distance from one to the next larger number. -/
def epsilon : Single := ⟨0x34000000⟩

instance : Inhabited Single := ⟨⟨0⟩⟩

/-- The exact value. -/
def datum (x : Single) : Layout.Datum := Layout.single.read x.bits.toNat

def isNaN (x : Single) : Bool := 0x7f800000 < (x.bits &&& 0x7fffffff)

/-- Whether the sign bit is set, which it may be in a zero or a NaN too. -/
def isNegative (x : Single) : Bool := 0x80000000 ≤ x.bits

def isFinite (x : Single) : Bool := (x.bits &&& 0x7fffffff) < 0x7f800000

/-- A NaN with the bit set that arithmetic sets in every NaN it passes on. -/
def quieted (x : Single) : Single := ⟨x.bits ||| 0x00400000⟩

def toFloat32 (x : Single) : Float32 := Float32.ofBits x.bits

def ofFloat32 (x : Float32) : Single := if x.isNaN then indefinite else ⟨x.toBits⟩

/-- A one-place operation, which passes a NaN on. -/
def map (op : Float32 → Float32) (x : Single) : Single :=
  if x.isNaN then x.quieted else ofFloat32 (op x.toFloat32)

/-- A two-place operation, which passes a NaN on. -/
def zipWith (op : Float32 → Float32 → Float32) (x y : Single) : Single :=
  if x.isNaN then x.quieted
  else if y.isNaN then y.quieted
  else ofFloat32 (op x.toFloat32 y.toFloat32)

instance : Add Single := ⟨zipWith (· + ·)⟩
instance : Sub Single := ⟨zipWith (· - ·)⟩
instance : Mul Single := ⟨zipWith (· * ·)⟩
instance : Div Single := ⟨zipWith (· / ·)⟩

/-- Negation flips the sign bit, of a NaN too. -/
instance : Neg Single := ⟨fun x => ⟨x.bits ^^^ 0x80000000⟩⟩

/-- The number nearest to a natural. -/
def ofNat (n : Nat) : Single := ⟨UInt32.ofNat (Layout.single.nearest n 1)⟩

/-- The number nearest to an integer. -/
def ofInt (n : Int) : Single := if n < 0 then -ofNat n.natAbs else ofNat n.natAbs

/-- The number nearest to `coefficient · 10 ^ exponent`. -/
def ofDecimal (coefficient : Nat) (exponent : Int) : Single :=
  ⟨UInt32.ofNat (Layout.single.nearestDecimal coefficient exponent)⟩

instance (n : Nat) : OfNat Single n := ⟨ofNat n⟩

instance : LT Single := ⟨fun x y => x.toFloat32 < y.toFloat32⟩
instance : LE Single := ⟨fun x y => x.toFloat32 ≤ y.toFloat32⟩

instance (x y : Single) : Decidable (x < y) := inferInstanceAs (Decidable (x.toFloat32 < y.toFloat32))
instance (x y : Single) : Decidable (x ≤ y) := inferInstanceAs (Decidable (x.toFloat32 ≤ y.toFloat32))

/-- Equality as numbers: `0` is `-0`, and a NaN is equal to nothing. -/
def sameNumber (x y : Single) : Bool := x.toFloat32 == y.toFloat32

/-- The larger of two numbers; a NaN loses to any number. -/
def larger (x y : Single) : Single :=
  if x.isNaN then y
  else if y.isNaN then x
  else if x < y then y else x

def exp (x : Single) : Single := x.map Float32.exp

def log (x : Single) : Single := x.map Float32.log

/-- The place of a number in the total order of bit patterns: negative NaNs,
negative numbers, `-0`, `0`, positive numbers, positive NaNs. -/
def rank (x : Single) : Int :=
  let magnitude : Int := (x.bits &&& 0x7fffffff).toNat
  if x.isNegative then -magnitude - 1 else magnitude

/-- The whole part of `m · 2 ^ e`. -/
def wholePart (m : Nat) (e : Int) : Nat := m * Nat.pow 2 e.toNat / Nat.pow 2 (-e).toNat

/-- Whether `m · 2 ^ e` is whole. -/
def isWholeProduct (m : Nat) (e : Int) : Bool := m * Nat.pow 2 e.toNat % Nat.pow 2 (-e).toNat == 0

/-- The number cut to a whole one, kept within sixty-four bits; a negative number
and a NaN give zero. -/
def toNatSaturating (x : Single) : Nat :=
  match x.datum with
  | .finite false m e => min 0xffffffffffffffff (wholePart m e)
  | .infinite false => 0xffffffffffffffff
  | _ => 0

/-- The least whole number that is not below, kept within the signed sixty-four
bit range; a NaN gives zero. -/
def ceilSaturating (x : Single) : Int :=
  match x.datum with
  | .finite false m e =>
    min 0x7fffffffffffffff (wholePart m e + if isWholeProduct m e then 0 else 1 : Nat)
  | .finite true m e => max (-0x8000000000000000) (-(wholePart m e : Int))
  | .infinite false => 0x7fffffffffffffff
  | .infinite true => -0x8000000000000000
  | .nan _ => 0

/-- Whether the number is a finite whole one. -/
def isWhole (x : Single) : Bool :=
  match x.datum with
  | .finite _ m e => isWholeProduct m e
  | _ => false

end Single

end BoostedTrees
