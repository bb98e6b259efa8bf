/-!
# Binary floating-point layouts

A layout says how many fraction and exponent bits follow the sign bit. Reading a
bit pattern gives its exact value, an integer significand times a power of two;
rounding goes the other way, from an exact ratio of naturals to the nearest bit
pattern, halves to the even neighbour and too large values to infinity. Both are
stated over naturals and integers, so no arithmetic here is itself rounded.
-/

namespace BoostedTrees

/-- A binary interchange layout, by the widths of its fraction and exponent. -/
structure Layout where
  fractionBits : Nat
  exponentBits : Nat

namespace Layout

/-- Thirty-two bits: one sign, eight exponent and twenty-three fraction bits. -/
def single : Layout := ⟨23, 8⟩

/-- Sixty-four bits: one sign, eleven exponent and fifty-two fraction bits. -/
def double : Layout := ⟨52, 11⟩

/-- What a bit pattern stands for: `finite negative m e` is `± m · 2 ^ e`. -/
inductive Datum where
  | finite (negative : Bool) (significand : Nat) (exponent : Int)
  | infinite (negative : Bool)
  | nan (negative : Bool)

variable (L : Layout)

/-- The all-ones exponent field, which marks infinities and NaNs. -/
def topExponent : Nat := Nat.pow 2 L.exponentBits - 1

/-- The power of two that the last place of a subnormal stands for. -/
def minExponent : Int := 2 - (Nat.pow 2 (L.exponentBits - 1) + L.fractionBits : Nat)

/-- The bit pattern of positive infinity, above that of every finite magnitude. -/
def infinityBits : Nat := L.topExponent * Nat.pow 2 L.fractionBits

/-- The value of a bit pattern. -/
def read (bits : Nat) : Datum :=
  let fraction := bits % Nat.pow 2 L.fractionBits
  let biased := bits / Nat.pow 2 L.fractionBits % Nat.pow 2 L.exponentBits
  let negative := bits / Nat.pow 2 (L.fractionBits + L.exponentBits) % 2 == 1
  if biased = L.topExponent then
    if fraction = 0 then .infinite negative else .nan negative
  else if biased = 0 then .finite negative fraction L.minExponent
  else .finite negative (Nat.pow 2 L.fractionBits + fraction) (L.minExponent + (biased - 1 : Nat))

/-- The natural nearest to `num / den`, a half going to the even neighbour. -/
def roundHalfEven (num den : Nat) : Nat :=
  let q := num / den
  let r := num % den
  if 2 * r < den then q
  else if den < 2 * r then q + 1
  else q + q % 2

/-- The rounded quotient is at most half a unit away. -/
theorem roundHalfEven_near (num : Nat) {den : Nat} (h : 0 < den) :
    2 * (den * roundHalfEven num den) ≤ 2 * num + den ∧
      2 * num ≤ 2 * (den * roundHalfEven num den) + den := by
  have hnum := Nat.div_add_mod num den
  have hrest := Nat.mod_lt num h
  simp only [roundHalfEven]
  split
  · omega
  · split
    · rw [Nat.mul_add]; omega
    · rcases Nat.mod_two_eq_zero_or_one (num / den) with he | ho
      · rw [he, Nat.add_zero]; omega
      · rw [ho, Nat.mul_add]; omega

/-- `num / den / 2 ^ e` as a numerator and a denominator. -/
def scaleBy (num den : Nat) (e : Int) : Nat × Nat :=
  (num * Nat.pow 2 (-e).toNat, den * Nat.pow 2 e.toNat)

/-- The exponent of the last place that a value near `num / den` is rounded to:
the significand then has one bit more than the fraction, unless the value is
subnormal. -/
def lastPlace (num den : Nat) : Int :=
  -- The logarithms settle the place up to one; the comparison decides.
  let low : Int := (num.log2 : Int) - den.log2 - 1 - L.fractionBits
  let (n, d) := scaleBy num den low
  max L.minExponent (if d * Nat.pow 2 (L.fractionBits + 1) ≤ n then low + 1 else low)

/-- The bit pattern, sign clear, of the value nearest to `num / den`. The
exponent field and the significand are added, so that a significand rounded up to
the next power of two carries into the exponent by itself. -/
def nearest (num den : Nat) : Nat :=
  if num = 0 then 0
  else
    let e := L.lastPlace num den
    let (n, d) := scaleBy num den e
    min L.infinityBits ((e - L.minExponent).toNat * Nat.pow 2 L.fractionBits + roundHalfEven n d)

/-- The bit pattern, sign clear, of the value nearest to `significand · 2 ^ exponent`. -/
def nearestBinary (significand : Nat) (exponent : Int) : Nat :=
  L.nearest (significand * Nat.pow 2 exponent.toNat) (Nat.pow 2 (-exponent).toNat)

/-- Decimal exponents beyond which every layout here is at infinity or at zero. -/
def decimalReach : Int := 400

/-- The bit pattern, sign clear, of the value nearest to `coefficient · 10 ^ exponent`.
A value whose leading digit lies out of reach is settled without forming the
power. -/
def nearestDecimal (coefficient : Nat) (exponent : Int) : Nat :=
  let leading : Int := exponent + (Nat.toDigits 10 coefficient).length
  if coefficient = 0 ∨ leading < -decimalReach then 0
  else if decimalReach < leading then L.infinityBits
  else L.nearest (coefficient * Nat.pow 10 exponent.toNat) (Nat.pow 10 (-exponent).toNat)

end Layout

end BoostedTrees
