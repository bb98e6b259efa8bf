import Mathlib
import BoostedTrees.Proofs.Rounding

/-!
# Products that stay finite

The bit pattern that a ratio is rounded to lies between those of the powers of two around the
ratio. A product of two finite numbers has at most the sum of their exponents and the bits of
both significands, so it does not overflow while this stays below the greatest exponent.

## Main definitions

* `Double.exponentField`: the exponent as it is stored

## Main results

* `Layout.le_nearest`, `Layout.nearest_le`: rounding between powers of two
* `Double.isFinite_mul`: a product of numbers with moderate exponents is finite
* `Double.isFinite_ofNat_mul_ofNat`: so is a product of naturals that are not too long
-/

namespace BoostedTrees

/-! ## Rounding between powers of two -/

namespace Layout

theorem roundHalfEven_le {num den bound : Nat} (h : num < den * bound) :
    roundHalfEven num den ≤ bound := by
  have hquotient : num / den < bound := Nat.div_lt_of_lt_mul h
  have hone : num / den % 2 ≤ 1 := by omega
  unfold roundHalfEven
  dsimp only
  split
  · omega
  · split <;> omega

theorem le_roundHalfEven {num den bound : Nat} (hden : 0 < den) (h : den * bound ≤ num) :
    bound ≤ roundHalfEven num den := by
  have hquotient : bound ≤ num / den :=
    (Nat.le_div_iff_mul_le hden).mpr (by rwa [Nat.mul_comm])
  unfold roundHalfEven
  dsimp only
  split
  · exact hquotient
  · split <;> omega

variable {L : Layout} {num den : Nat} {p : Int}

/-- A ratio below a power of two is rounded to at most the bit pattern of that power. -/
theorem nearest_le (hden : 0 < den) (h : (num : ℚ) / den < 2 ^ p) :
    L.nearest num den ≤
      ((p - L.fractionBits - 1 - L.minExponent).toNat + 2) * 2 ^ L.fractionBits := by
  rcases Nat.eq_zero_or_pos num with rfl | hnum
  · exact Nat.zero_le _
  obtain ⟨hleast, hlt, hle⟩ := lastPlace_spec L hnum hden
  have hscaled := not_congr (mul_pow_le_scaleBy_iff num hden (L.lastPlace num den)
    (L.fractionBits + 1))
  rw [not_le, not_le, Nat.cast_add, Nat.cast_one, ← add_assoc] at hscaled
  have hround := roundHalfEven_le (hscaled.mpr hlt)
  rw [nearest_eq hnum rfl]
  generalize L.lastPlace num den = e at *
  have hplace : (e - L.minExponent).toNat ≤ (p - L.fractionBits - 1 - L.minExponent).toNat := by
    rcases hleast.eq_or_lt with heq | hmore
    · rw [← heq, sub_self]
      exact Nat.zero_le _
    · have hpower : (2 : ℚ) ^ (e + L.fractionBits) < 2 ^ p := (hle hmore).trans_lt h
      have := (zpow_lt_zpow_iff_right₀ one_lt_two).mp hpower
      omega
  calc _ ≤ (e - L.minExponent).toNat * 2 ^ L.fractionBits +
        roundHalfEven (scaleBy num den e).1 (scaleBy num den e).2 := min_le_right _ _
    _ ≤ (p - L.fractionBits - 1 - L.minExponent).toNat * 2 ^ L.fractionBits +
        2 ^ (L.fractionBits + 1) := Nat.add_le_add (Nat.mul_le_mul_right _ hplace) hround
    _ = _ := by rw [Nat.pow_succ, Nat.add_mul, Nat.mul_comm 2]

/-- A ratio from a power of two on is rounded to at least the bit pattern of that power, unless
that is already infinity. -/
theorem le_nearest (hden : 0 < den) (hleast : L.minExponent ≤ p - L.fractionBits)
    (h : (2 : ℚ) ^ p ≤ num / den) :
    min L.infinityBits (((p - L.fractionBits - L.minExponent).toNat + 1) * 2 ^ L.fractionBits) ≤
      L.nearest num den := by
  have hnum : 0 < num := by
    rcases Nat.eq_zero_or_pos num with rfl | hnum
    · rw [Nat.cast_zero, zero_div] at h
      exact absurd h (not_le.mpr (by positivity))
    · exact hnum
  obtain ⟨-, hlt, hle⟩ := lastPlace_spec L hnum hden
  rw [nearest_eq hnum rfl]
  have hscaled := mul_pow_le_scaleBy_iff num hden (L.lastPlace num den) L.fractionBits
  have hpos := scaleBy_pos hden num (L.lastPlace num den)
  generalize L.lastPlace num den = e at *
  have hpower : p < e + L.fractionBits + 1 :=
    (zpow_lt_zpow_iff_right₀ one_lt_two).mp (h.trans_lt hlt)
  -- The leading bit is the first of the significand, also where the exponent is the least one.
  have hlow : (2 : ℚ) ^ (e + L.fractionBits) ≤ num / den := by
    rcases lt_or_ge L.minExponent e with hmore | hmost
    · exact hle hmore
    · have heq : e + L.fractionBits = p := by omega
      rwa [heq]
  have hround := le_roundHalfEven hpos (hscaled.mpr hlow)
  have hplace : (p - L.fractionBits - L.minExponent).toNat ≤ (e - L.minExponent).toNat := by omega
  refine min_le_min_left _ ?_
  rw [Nat.succ_mul]
  exact Nat.add_le_add (Nat.mul_le_mul_right _ hplace) hround

end Layout

namespace Double

open Float.Model (Format UnpackedFloat totalExponent)
open Float.Model.UnpackedFloat

/-! ## Exponents -/

/-- The exponent as it is stored. -/
def exponentField (x : Double) : Nat := x.bits.toNat / 2 ^ 52 % 2 ^ 11

theorem isFinite_iff_lt {x : Double} :
    x.isFinite ↔ x.bits.toNat % 2 ^ 63 < Layout.double.infinityBits := by
  have hmask : x.bits.toNat &&& 2 ^ 63 - 1 = x.bits.toNat % 2 ^ 63 :=
    Nat.and_two_pow_sub_one_eq_mod _ _
  rw [isFinite, decide_eq_true_iff, UInt64.lt_iff_toNat_lt, UInt64.toNat_and, ← hmask]
  rfl

theorem isFinite_iff_exponentField {x : Double} : x.isFinite ↔ x.exponentField < 2047 := by
  have hinfinity : Layout.double.infinityBits = 2047 * 2 ^ 52 := rfl
  rw [isFinite_iff_lt, hinfinity, exponentField]
  omega

/-- A number is finite if its bit pattern is read as a significand and an exponent. -/
theorem isFinite_iff (x : Double) : x.isFinite ↔ ∃ negative m e, x.datum = .finite negative m e := by
  rw [isFinite_iff_lt]
  exact (@Layout.exists_read_eq_finite_iff Layout.double x.bits.toNat).symm

theorem isNaN_of_isFinite {x : Double} (h : x.isFinite) : x.isNaN = false := by
  rw [isFinite, decide_eq_true_iff] at h
  rw [isNaN, decide_eq_false_iff_not]
  exact UInt64.not_lt.mpr (UInt64.le_of_lt h)

/-- A number, unpacked, is zero or has a significand and an exponent within bounds. -/
def Within (bits : Nat) (limit : Int) : UnpackedFloat → Prop
  | .zero _ => True
  | .finite _ m e _ => m < 2 ^ bits ∧ e ≤ limit
  | _ => False

theorem Within.mono {bits : Nat} {limit limit' : Int} {u : UnpackedFloat} (h : Within bits limit u)
    (hle : limit ≤ limit') : Within bits limit' u := by
  cases u with
  | finite s m e hpos => exact ⟨h.1, h.2.trans hle⟩
  | _ => exact h

theorem toNat_unpackExponent (x : Double) :
    (@unpackExponent Format.binary64 x.bits.toBitVec).toNat = x.exponentField := by
  show x.bits.toNat >>> 52 % 2 ^ 11 = _
  rw [Nat.shiftRight_eq_div_pow, exponentField]

theorem within_unpack (x : Double) (h : x.isFinite) :
    Within 53 (x.exponentField - 1074) (unpack Format.binary64 x.bits.toBitVec) := by
  rw [isFinite_iff_exponentField] at h
  have hfield := x.toNat_unpackExponent
  have hfraction : (@unpackMantissa Format.binary64 x.bits.toBitVec).toNat < 2 ^ 52 :=
    BitVec.isLt _
  unfold unpack
  dsimp only
  split
  · next htop =>
    have htop : x.exponentField = 2047 := hfield.symm.trans (congrArg BitVec.toNat htop)
    omega
  split
  · next hzero =>
    have hzero : x.exponentField = 0 := hfield.symm.trans (congrArg BitVec.toNat hzero)
    split
    · trivial
    · refine ⟨by omega, ?_⟩
      rw [hfield, hzero]
      decide
  · refine ⟨?_, ?_⟩
    · rw [BitVec.toNat_append, ← Nat.shiftLeft_add_eq_or_of_lt hfraction]
      show 2 ^ 52 + _ < _
      omega
    · rw [hfield]
      show (x.exponentField : Int) - (1023 + 52) ≤ _
      omega

/-! ## Rounding a product -/

theorem mantissa_shiftRight_le (m : ExtendedMantissa) (n : Nat) :
    (m >>> n).mantissa ≤ m.mantissa := by
  show (Nat.repeat ExtendedMantissa.shiftRightOne n m).mantissa ≤ m.mantissa
  induction n with
  | zero => exact le_rfl
  | succ n ih => exact (Nat.div_le_self _ 2).trans ih

theorem roundedMantissa_le (m : ExtendedMantissa) : m.roundedMantissa ≤ m.mantissa + 1 := by
  obtain ⟨m, roundBit, stickyBit⟩ := m
  have hone : m % 2 ≤ 1 := by omega
  cases roundBit <;> cases stickyBit <;>
    simp only [ExtendedMantissa.roundedMantissa, ExtendedMantissa.accuracy,
      Accuracy.roundToNearestEven] <;> omega

/-- A significand with at most so many bits is shifted until its exponent has grown by those
beyond fifty-three, or to the least exponent. -/
theorem shiftToTargetExponent_spec {m bits : Nat} (hbits : 53 ≤ bits) (h : m < 2 ^ bits) (e : Int) :
    (shiftToTargetExponent Format.binary64 m e .exact).1.mantissa ≤ m ∧
      (shiftToTargetExponent Format.binary64 m e .exact).2 ≤ max (e + (bits - 53)) (-1074) := by
  have htarget : Format.binary64.targetExponent (totalExponent m e) =
      max (m.log2 + 1 + e - 53) (-1074) := rfl
  have hlog : m.log2 < bits := by
    rcases Nat.eq_zero_or_pos m with rfl | hpos
    · exact Nat.lt_of_lt_of_le (by decide) hbits
    · exact (Nat.log2_lt hpos.ne').mpr h
  refine ⟨mantissa_shiftRight_le _ _, ?_⟩
  rw [shiftToTargetExponent, shiftToExponent, htarget]
  dsimp only
  omega

/-- A product of significands is rounded to an exponent that has not grown by more than the
bits that went. -/
theorem within_roundWithAccuracy (s : Sign) {m : Nat} (h : m < 2 ^ 106) (e : Int) :
    Within 107 (max (e + 107) (-1020)) (roundWithAccuracy Format.binary64 s m e .exact) := by
  obtain ⟨hmantissa, hexponent⟩ := shiftToTargetExponent_spec (by decide) h e
  unfold roundWithAccuracy
  generalize shiftToTargetExponent Format.binary64 m e .exact = first at *
  obtain ⟨em, e₁⟩ := first
  dsimp only at *
  -- Rounding up may take one bit more, and then there is a second shift.
  have hrounded : em.roundedMantissa < 2 ^ 107 := by
    have := roundedMantissa_le em
    omega
  obtain ⟨hmantissa', hexponent'⟩ := shiftToTargetExponent_spec (by decide) hrounded e₁
  generalize shiftToTargetExponent Format.binary64 em.roundedMantissa e₁ .exact = second at *
  split
  · trivial
  · exact ⟨hmantissa'.trans_lt hrounded, by omega⟩

theorem within_mul {a b : Int} {u v : UnpackedFloat} (hu : Within 53 a u) (hv : Within 53 b v) :
    Within 107 (max (a + b + 107) (-1020)) (mul Format.binary64 u v) := by
  cases u with
  | infinity => exact hu.elim
  | notANumber => exact hu.elim
  | zero s => cases v <;> first | exact hv.elim | trivial
  | finite s m e hpos =>
    cases v with
    | infinity => exact hv.elim
    | notANumber => exact hv.elim
    | zero s' => trivial
    | finite s' m' e' hpos' =>
      have hproduct : m * m' < 2 ^ 106 :=
        calc m * m' < 2 ^ 53 * 2 ^ 53 := Nat.mul_lt_mul'' hu.1 hv.1
          _ = 2 ^ 106 := by rw [← Nat.pow_add]
      have hu := hu.2
      have hv := hv.2
      exact (within_roundWithAccuracy (s * s') hproduct (e + e')).mono (by omega)

/-- What has an exponent within the range of the format does not overflow when it is packed. -/
theorem unpackExponent_pack {bits : Nat} {u : UnpackedFloat} (h : Within bits 971 u) :
    @unpackExponent Format.binary64 (pack Format.binary64 u) ≠ -1#11 := by
  cases u with
  | infinity => exact h.elim
  | notANumber => exact h.elim
  | zero s =>
    rw [pack, packedZero, unpackExponent_packComponents]
    decide
  | finite s m e hpos =>
    have hbias : Format.binary64.exponentBias = 1023 := rfl
    have hexponent := h.2
    rw [pack, hbias]
    dsimp only
    rw [if_neg (by omega)]
    split <;> rw [unpackExponent_packComponents]
    · intro htop
      have htop := congrArg BitVec.toNat htop
      have hvalue : (-1#11).toNat = 2047 := rfl
      rw [BitVec.toNat_ofNat, Nat.mod_eq_of_lt (by omega), hvalue] at htop
      omega
    · decide

/-- A product of finite numbers is finite if their exponents are moderate. -/
theorem isFinite_mul {x y : Double} (hx : x.isFinite) (hy : y.isFinite)
    (h : x.exponentField + y.exponentField ≤ 3012) : (x * y).isFinite := by
  -- Operands are packed once more before they are multiplied, which changes none of their bits.
  have hpacked : ∀ z : Double, z.isFinite →
      pack Format.binary64 (unpack Format.binary64 z.bits.toBitVec) = z.bits.toBitVec := by
    intro z hz
    have hbits : @isNaNBits Format.binary64 z.bits.toBitVec = false := by
      rw [isNaNBits, decide_eq_false_iff_not]
      rintro ⟨htop, -⟩
      have htop : z.exponentField = 2047 :=
        z.toNat_unpackExponent.symm.trans (congrArg BitVec.toNat htop)
      have := isFinite_iff_exponentField.mp hz
      omega
    rw [pack_unpack, hbits, if_neg Bool.false_ne_true]
  have hwithin := within_mul (within_unpack x hx) (within_unpack y hy)
  generalize hproduct : mul Format.binary64 (unpack Format.binary64 x.bits.toBitVec)
    (unpack Format.binary64 y.bits.toBitVec) = u at hwithin
  have hfloat : x.toFloat * y.toFloat = .ofModel (.pack u) := by
    show Float.ofModel (.pack (mul Format.binary64
      (unpack Format.binary64 (pack Format.binary64 (unpack Format.binary64 x.bits.toBitVec)))
      (unpack Format.binary64 (pack Format.binary64 (unpack Format.binary64 y.bits.toBitVec))))) = _
    rw [hpacked x hx, hpacked y hy, hproduct]
  have htop := unpackExponent_pack (hwithin.mono (by omega))
  have hnumber : (Float.ofModel (.pack u)).isNaN = false := by
    show UnpackedFloat.isNaN (unpack Format.binary64 (pack Format.binary64 u)) = false
    unfold unpack
    dsimp only
    rw [if_neg htop]
    split
    · split <;> rfl
    · rfl
  show (zipWith (· * ·) x y).isFinite
  simp only [zipWith, isNaN_of_isFinite hx, isNaN_of_isFinite hy, hfloat, ofFloat, hnumber,
    Bool.false_eq_true, if_false]
  rw [isFinite_iff_exponentField, ← toNat_unpackExponent]
  refine lt_of_le_of_ne (Nat.le_of_lt_succ (BitVec.isLt _)) fun heq => htop ?_
  exact BitVec.eq_of_toNat_eq heq

/-! ## Products of naturals -/

/-- A natural below a power of two has at most the exponent of that power. -/
theorem exponentField_ofNat {n p : Nat} (h : n < 2 ^ p) (hp : p ≤ 1022) :
    (ofNat n).isFinite ∧ (ofNat n).exponentField ≤ p + 1023 := by
  have hratio : (n : ℚ) / (1 : Nat) < 2 ^ (p : Int) := by
    rw [Nat.cast_one, div_one, zpow_natCast]
    exact_mod_cast h
  have hnearest := Layout.double.nearest_le Nat.one_pos hratio
  have hplace : ((p : Int) - Layout.double.fractionBits - 1 - Layout.double.minExponent).toNat =
      p + 1021 := by
    show ((p : Int) - (52 : Nat) - 1 - -1074).toNat = _
    omega
  have hbits : Layout.double.nearest n 1 ≤ (p + 1023) * 2 ^ 52 := by
    rwa [hplace] at hnearest
  have hword : (ofNat n).bits.toNat = Layout.double.nearest n 1 :=
    UInt64.toNat_ofNat_of_lt (by rw [UInt64.size]; omega)
  have hfield : (ofNat n).exponentField ≤ p + 1023 := by
    rw [exponentField, hword]
    omega
  exact ⟨isFinite_iff_exponentField.mpr (by omega), hfield⟩

/-- A product of two naturals is finite if they are not too long together. -/
theorem isFinite_ofNat_mul_ofNat {m n p q : Nat} (hm : m < 2 ^ p) (hn : n < 2 ^ q)
    (h : p + q ≤ 966) : (ofNat m * ofNat n).isFinite := by
  obtain ⟨hfinite, hfield⟩ := exponentField_ofNat hm (by omega)
  obtain ⟨hfinite', hfield'⟩ := exponentField_ofNat hn (by omega)
  exact isFinite_mul hfinite hfinite' (by omega)

end Double

end BoostedTrees
