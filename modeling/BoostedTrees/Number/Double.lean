import BoostedTrees.Number.Single

/-!
# Double-precision numbers

A `Double` is the sixty-four bits of a number. Sums of gradients, metrics and
importance scores are kept in this precision. The conventions are those of
`Single`: equality is equality of bits, comparison as numbers is separate, and a
NaN operand is passed on.
-/

namespace BoostedTrees

/-- A double-precision number, as the bits it is stored in. -/
structure Double where
  bits : UInt64
deriving DecidableEq

namespace Double

def nan : Double := ⟨0x7ff8000000000000⟩

/-- The NaN that an operation without a value produces. -/
def indefinite : Double := ⟨0xfff8000000000000⟩

instance : Inhabited Double := ⟨⟨0⟩⟩

/-- The exact value. -/
def datum (x : Double) : Layout.Datum := Layout.double.read x.bits.toNat

def isNaN (x : Double) : Bool := 0x7ff0000000000000 < (x.bits &&& 0x7fffffffffffffff)

def isNegative (x : Double) : Bool := 0x8000000000000000 ≤ x.bits

def isFinite (x : Double) : Bool := (x.bits &&& 0x7fffffffffffffff) < 0x7ff0000000000000

def quieted (x : Double) : Double := ⟨x.bits ||| 0x0008000000000000⟩

def toFloat (x : Double) : Float := Float.ofBits x.bits

def ofFloat (x : Float) : Double := if x.isNaN then indefinite else ⟨x.toBits⟩

/-- A one-place operation, which passes a NaN on. -/
def map (op : Float → Float) (x : Double) : Double :=
  if x.isNaN then x.quieted else ofFloat (op x.toFloat)

/-- A two-place operation, which passes a NaN on. -/
def zipWith (op : Float → Float → Float) (x y : Double) : Double :=
  if x.isNaN then x.quieted
  else if y.isNaN then y.quieted
  else ofFloat (op x.toFloat y.toFloat)

instance : Add Double := ⟨zipWith (· + ·)⟩
instance : Sub Double := ⟨zipWith (· - ·)⟩
instance : Mul Double := ⟨zipWith (· * ·)⟩
instance : Div Double := ⟨zipWith (· / ·)⟩
instance : Neg Double := ⟨fun x => ⟨x.bits ^^^ 0x8000000000000000⟩⟩

/-- The number nearest to a natural. -/
def ofNat (n : Nat) : Double := ⟨UInt64.ofNat (Layout.double.nearest n 1)⟩

/-- The number nearest to an integer. -/
def ofInt (n : Int) : Double := if n < 0 then -ofNat n.natAbs else ofNat n.natAbs

/-- The number nearest to `coefficient · 10 ^ exponent`. -/
def ofDecimal (coefficient : Nat) (exponent : Int) : Double :=
  ⟨UInt64.ofNat (Layout.double.nearestDecimal coefficient exponent)⟩

instance (n : Nat) : OfNat Double n := ⟨ofNat n⟩

instance : LT Double := ⟨fun x y => x.toFloat < y.toFloat⟩
instance : LE Double := ⟨fun x y => x.toFloat ≤ y.toFloat⟩

instance (x y : Double) : Decidable (x < y) := inferInstanceAs (Decidable (x.toFloat < y.toFloat))
instance (x y : Double) : Decidable (x ≤ y) := inferInstanceAs (Decidable (x.toFloat ≤ y.toFloat))

/-- Equality as numbers: `0` is `-0`, and a NaN is equal to nothing. -/
def sameNumber (x y : Double) : Bool := x.toFloat == y.toFloat

/-- The larger of two numbers; a NaN loses to any number. -/
def larger (x y : Double) : Double :=
  if x.isNaN then y
  else if y.isNaN then x
  else if x < y then y else x

/-- The number itself within `low` and `high`, otherwise the bound it passes; a NaN
passes none. -/
def clamp (low high x : Double) : Double :=
  if x < low then low else if high < x then high else x

def log (x : Double) : Double := x.map Float.log

def sqrt (x : Double) : Double := x.map Float.sqrt

/-- The number without its sign. -/
def magnitude (x : Double) : Double := ⟨x.bits &&& 0x7fffffffffffffff⟩

end Double

namespace Single

/-- The same number in double precision; a NaN keeps its sign and payload. -/
def toDouble (x : Single) : Double :=
  let sign : UInt64 := if x.isNegative then 0x8000000000000000 else 0
  match x.datum with
  | .finite _ m e => ⟨sign ||| UInt64.ofNat (Layout.double.nearestBinary m e)⟩
  | .infinite _ => ⟨sign ||| UInt64.ofNat Layout.double.infinityBits⟩
  | .nan _ =>
    let payload : UInt64 := (x.bits &&& 0x003fffff).toUInt64 <<< 29
    ⟨sign ||| payload ||| Double.nan.bits⟩

end Single

namespace Double

/-- The nearest single-precision number; a NaN keeps its sign and the leading part
of its payload. -/
def toSingle (x : Double) : Single :=
  let sign : UInt32 := if x.isNegative then 0x80000000 else 0
  match x.datum with
  | .finite _ m e => ⟨sign ||| UInt32.ofNat (Layout.single.nearestBinary m e)⟩
  | .infinite _ => ⟨sign ||| UInt32.ofNat Layout.single.infinityBits⟩
  | .nan _ =>
    let payload : UInt32 := ((x.bits &&& 0x000fffffffffffff) >>> 29).toUInt32
    ⟨sign ||| payload ||| Single.nan.bits⟩

end Double

end BoostedTrees
