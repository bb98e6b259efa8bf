import Mathlib
import BoostedTrees.Proofs.DensePrediction

/-!
# Comparing numbers

Numbers are compared after they have been unpacked: by sign, then by exponent, then by
significand. So every number that is not a NaN has a place in a linear order, the same for the two
zeros, and comparison as numbers is comparison of places.

## Main definitions

* `Place`, `placeOf`: the places of unpacked numbers
* `Double.place`: the place of a double-precision number

## Main results

* `compare_eq`: unpacked numbers are compared by their places
* `Double.lt_iff`, `Double.le_iff`, `Double.sameNumber_iff`: so are double-precision numbers
-/

namespace BoostedTrees

open Float.Model (Format UnpackedFloat)
open Float.Model.UnpackedFloat

/-! ## Unpacked numbers -/

theorem compare_natCast (a b : ℕ) : compare (a : ℤ) b = compare a b := by
  rw [← cmp_eq_compare, ← cmp_eq_compare]
  exact Nat.strictMono_cast.cmp_map_eq a b

theorem compare_neg (a b : ℤ) : compare (-a) (-b) = (compare a b).swap := by
  rw [← cmp_eq_compare, ← cmp_eq_compare, cmp_swap]
  exact StrictAnti.cmp_map_eq (fun _ _ => neg_lt_neg) a b

/-- A place among all numbers. -/
structure Place where
  sign : ℤ
  exponent : ℤ
  significand : ℤ

namespace Place

/-- Places are ordered by their signs first, then by their exponents, then by their significands. -/
def key (p : Place) : ℤ ×ₗ ℤ ×ₗ ℤ := toLex (p.sign, toLex (p.exponent, p.significand))

theorem key_injective : Function.Injective key := by
  rintro ⟨s, e, m⟩ ⟨s', e', m'⟩ h
  cases h
  rfl

instance : LinearOrder Place := LinearOrder.lift' key key_injective

theorem compare_mk (s s' e e' m m' : ℤ) : compare (mk s e m) (mk s' e' m') =
    (compare s s').then ((compare e e').then (compare m m')) := by
  show compare (key _) (key _) = _
  simp only [key, Prod.Lex.compare_def, compareLex, compareOn, ofLex_toLex]

end Place

/-- The place of an unpacked number. -/
def placeOf : UnpackedFloat → Place
  | .infinity .positive => ⟨2, 0, 0⟩
  | .finite .positive m e _ => ⟨1, e, m⟩
  | .finite .negative m e _ => ⟨-1, -e, -m⟩
  | .infinity .negative => ⟨-2, 0, 0⟩
  | _ => ⟨0, 0, 0⟩

/-- Numbers are compared by their places. -/
theorem compare_eq {u v : UnpackedFloat} (hu : u ≠ .notANumber) (hv : v ≠ .notANumber) :
    u.compare v = some (compare (placeOf u) (placeOf v)) := by
  rcases u with s | _ | s | ⟨s, m, e⟩ <;> rcases v with s' | _ | s' | ⟨s', m', e'⟩ <;>
    first | exact absurd rfl hu | exact absurd rfl hv | skip
  all_goals cases s <;> cases s' <;>
    simp only [UnpackedFloat.compare, placeOf, Place.compare_mk, compare_neg, compare_natCast,
      Ordering.swap_then] <;> rfl

section Compare

variable {u v : UnpackedFloat} (hu : u ≠ .notANumber) (hv : v ≠ .notANumber)
include hu hv

theorem unpacked_lt_iff : u.lt v ↔ placeOf u < placeOf v := by
  rw [UnpackedFloat.lt, compare_eq hu hv, beq_iff_eq, Option.some.injEq, compare_lt_iff_lt]

theorem unpacked_le_iff : u.le v ↔ placeOf u ≤ placeOf v := by
  rw [UnpackedFloat.le, compare_eq hu hv, Option.any_some, Ordering.isLE_iff_ne_gt]
  exact compare_le_iff_le

theorem unpacked_beq_iff : u.beq v ↔ placeOf u = placeOf v := by
  rw [UnpackedFloat.beq, compare_eq hu hv, beq_iff_eq, Option.some.injEq, compare_eq_iff_eq]

end Compare

/-- Nothing is less than what is no number, nor greater. -/
theorem ne_notANumber_of_lt {u v : UnpackedFloat} (h : u.lt v) :
    u ≠ .notANumber ∧ v ≠ .notANumber := by
  constructor
  · rintro rfl
    cases v <;> cases h
  · rintro rfl
    cases u <;> cases h

/-- Bits that are not those of a NaN are unpacked to a number. -/
theorem unpack_ne {spec : Format} {b : BitVec spec.numBits} (h : isNaNBits b = false) :
    unpack spec b ≠ .notANumber := by
  rw [isNaNBits, decide_eq_false_iff_not] at h
  unfold unpack
  dsimp only
  split
  · next hexponent =>
    split
    · exact nofun
    · next hfraction => exact absurd ⟨hexponent, hfraction⟩ h
  split
  · split <;> exact nofun
  · exact nofun

/-- The bits of a NaN are unpacked to no number. -/
theorem unpack_of_isNaNBits {spec : Format} {b : BitVec spec.numBits} (h : isNaNBits b = true) :
    unpack spec b = .notANumber := by
  rw [isNaNBits, decide_eq_true_iff] at h
  unfold unpack
  exact (if_pos h.1).trans (if_neg h.2)

/-! ## Double-precision numbers -/

namespace Double

/-- A number, unpacked. -/
def unpacked (x : Double) : UnpackedFloat := x.toFloat.toModel.unpack

/-- The place of a number among all numbers. -/
def place (x : Double) : Place := placeOf x.unpacked

variable {x y : Double}

theorem isNaNBits_eq_false (h : x.isNaN = false) :
    @isNaNBits Format.binary64 x.bits.toBitVec = false := by
  rw [isNaNBits, decide_eq_false_iff_not]
  rintro ⟨hexponent, hfraction⟩
  have hhighest : x.bits.toNat >>> 52 % 2 ^ 11 = 2047 := congrArg BitVec.toNat hexponent
  have hsome : x.bits.toNat % 2 ^ 52 ≠ 0 := fun hzero => hfraction (BitVec.eq_of_toNat_eq hzero)
  have hmask : x.bits.toNat &&& 2 ^ 63 - 1 = x.bits.toNat % 2 ^ 63 :=
    Nat.and_two_pow_sub_one_eq_mod _ _
  have hlt : 0x7ff0000000000000 < x.bits.toNat % 2 ^ 63 := by omega
  simp only [isNaN, decide_eq_false_iff_not, UInt64.lt_iff_toNat_lt, UInt64.toNat_and] at h
  exact h (Nat.lt_of_lt_of_eq hlt hmask.symm)

/-- What is no NaN is unpacked to a number. -/
theorem unpacked_ne (h : x.isNaN = false) : x.unpacked ≠ .notANumber := by
  have hbits := isNaNBits_eq_false h
  show unpack Format.binary64 (pack Format.binary64 (unpack Format.binary64 x.bits.toBitVec)) ≠ _
  rw [pack_unpack, hbits, if_neg Bool.false_ne_true]
  exact unpack_ne hbits

theorem unpacked_of_isNaN (h : x.isNaN = true) : x.unpacked = .notANumber := by
  have hbits : @isNaNBits Format.binary64 x.bits.toBitVec = true := by
    have hmask : x.bits.toNat &&& 2 ^ 63 - 1 = x.bits.toNat % 2 ^ 63 :=
      Nat.and_two_pow_sub_one_eq_mod _ _
    simp only [isNaN, decide_eq_true_iff, UInt64.lt_iff_toNat_lt, UInt64.toNat_and] at h
    have hlt : 0x7ff0000000000000 < x.bits.toNat % 2 ^ 63 := Nat.lt_of_lt_of_eq h hmask
    rw [isNaNBits, decide_eq_true_iff]
    refine ⟨BitVec.eq_of_toNat_eq ?_, fun hzero => ?_⟩
    · show x.bits.toNat >>> 52 % 2 ^ 11 = 2047
      omega
    · have hfraction : x.bits.toNat % 2 ^ 52 = 0 := congrArg BitVec.toNat hzero
      omega
  show unpack Format.binary64 (pack Format.binary64 (unpack Format.binary64 x.bits.toBitVec)) = _
  rw [unpack_of_isNaNBits hbits]
  rfl

theorem lt_iff_unpacked : x < y ↔ x.unpacked.lt y.unpacked := decide_eq_true_iff

theorem le_iff_unpacked : x ≤ y ↔ x.unpacked.le y.unpacked := decide_eq_true_iff

theorem unpacked_ne_of_lt (h : x < y) : x.unpacked ≠ .notANumber ∧ y.unpacked ≠ .notANumber :=
  ne_notANumber_of_lt (lt_iff_unpacked.mp h)

/-- Nothing is less than a NaN, and a NaN is less than nothing. -/
theorem not_isNaN_of_lt (h : x < y) : x.isNaN = false ∧ y.isNaN = false := by
  obtain ⟨hx, hy⟩ := unpacked_ne_of_lt h
  exact ⟨Bool.eq_false_iff.mpr (mt unpacked_of_isNaN hx),
    Bool.eq_false_iff.mpr (mt unpacked_of_isNaN hy)⟩

section Numbers

variable (hx : x.unpacked ≠ .notANumber) (hy : y.unpacked ≠ .notANumber)
include hx hy

theorem lt_iff : x < y ↔ x.place < y.place :=
  lt_iff_unpacked.trans (unpacked_lt_iff hx hy)

theorem le_iff : x ≤ y ↔ x.place ≤ y.place :=
  le_iff_unpacked.trans (unpacked_le_iff hx hy)

theorem sameNumber_iff : x.sameNumber y ↔ x.place = y.place := unpacked_beq_iff hx hy

end Numbers

theorem lt_of_lt_of_place_le {z : Double} (h : x < y) (hz : z.unpacked ≠ .notANumber)
    (hle : y.place ≤ z.place) : x < z := by
  obtain ⟨hx, hy⟩ := unpacked_ne_of_lt h
  exact (lt_iff hx hz).mpr (((lt_iff hx hy).mp h).trans_le hle)

protected theorem lt_trans {z : Double} (h : x < y) (h' : y < z) : x < z := by
  obtain ⟨hy, hz⟩ := unpacked_ne_of_lt h'
  exact lt_of_lt_of_place_le h hz ((lt_iff hy hz).mp h').le

/-- Numbers are in a linear order, so what is less than one of two is less than the other, or the
other is not less than it. -/
theorem lt_of_lt_of_not_lt {z : Double} (h : x < z) (hy : y.isNaN = false) (h' : ¬x < y) :
    y < z := by
  obtain ⟨hx, hz⟩ := unpacked_ne_of_lt h
  have hle := not_lt.mp (mt (lt_iff hx (unpacked_ne hy)).mpr h')
  exact (lt_iff (unpacked_ne hy) hz).mpr (hle.trans_lt ((lt_iff hx hz).mp h))

end Double

end BoostedTrees
