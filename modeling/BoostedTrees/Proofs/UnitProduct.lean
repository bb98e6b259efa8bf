import Mathlib
import BoostedTrees.Proofs.DensePrediction

/-!
# Products with one

Arithmetic unpacks its operands, computes with significands and exponents, rounds, and
packs the result. What bits are unpacked to has the exponent that rounding gives it, so
rounding leaves it as it is. A number times one is therefore this number, bit by bit, the
sign of a zero included. A NaN comes back with the bit set that arithmetic sets in every
NaN, which the result of an operation has set already.

## Main definitions

* `Single.Unpacks`: the ways in which bits are unpacked, by their fields

## Main results

* `Single.mul_unit`: a number times one, unpacked
* `Single.mul_one_of_not_isNaN`: a number times one is the number
* `Single.sub_mul_one`: a difference times one is the difference
-/

namespace BoostedTrees

namespace Single

open Float.Model (Format UnpackedFloat totalExponent)
open Float.Model.UnpackedFloat

/-! ## Unpacking -/

abbrev signField (b : BitVec 32) : Sign := Sign.ofBitVec (@unpackSign Format.binary32 b)

abbrev exponentField (b : BitVec 32) : BitVec 8 := @unpackExponent Format.binary32 b

abbrev fractionField (b : BitVec 32) : BitVec 23 := @unpackMantissa Format.binary32 b

/-- The ways in which bits are unpacked. A normal number has a leading one that is not stored. -/
inductive Unpacks (b : BitVec 32) : UnpackedFloat → Prop
  | notANumber (hexponent : exponentField b = -1#8) (hfraction : fractionField b ≠ 0#23) :
      Unpacks b .notANumber
  | infinity (hexponent : exponentField b = -1#8) (hfraction : fractionField b = 0#23) :
      Unpacks b (.infinity (signField b))
  | zero (hexponent : exponentField b = 0#8) (hfraction : fractionField b = 0#23) :
      Unpacks b (.zero (signField b))
  | subnormal (hexponent : exponentField b = 0#8) {m : Nat} (hm : m = (fractionField b).toNat)
      (hpos : 0 < m) : Unpacks b (.finite (signField b) m (-149) hpos)
  | normal (hlow : exponentField b ≠ 0#8) (hhigh : exponentField b ≠ -1#8) {m : Nat}
      (hm : m = 2 ^ 23 + (fractionField b).toNat) {e : Int}
      (he : e = (exponentField b).toNat - 150) (hpos : 0 < m) :
      Unpacks b (.finite (signField b) m e hpos)

theorem toNat_one_append (fraction : BitVec 23) :
    (1#1 ++ fraction).toNat = 2 ^ 23 + fraction.toNat := by
  rw [BitVec.toNat_append, ← Nat.shiftLeft_add_eq_or_of_lt fraction.isLt]
  rfl

theorem unpacks_unpack (b : BitVec 32) : Unpacks b (unpack Format.binary32 b) := by
  unfold unpack
  dsimp only
  split
  · next hexponent =>
    split
    · next hfraction => exact .infinity hexponent hfraction
    · next hfraction => exact .notANumber hexponent hfraction
  next hhigh =>
  split
  · next hexponent =>
    split
    · next hfraction => exact .zero hexponent hfraction
    · rw [hexponent]
      exact .subnormal hexponent rfl _
  · next hlow => exact .normal hlow hhigh (toNat_one_append _) rfl _

/-! ## Multiplying -/

/-- Shifting out zeros loses nothing. -/
theorem shiftRight_mul_two_pow (m n : Nat) :
    (⟨m * 2 ^ n, false, false⟩ : ExtendedMantissa) >>> n = ⟨m, false, false⟩ := by
  show Nat.repeat ExtendedMantissa.shiftRightOne n ⟨m * 2 ^ n, false, false⟩ = _
  induction n generalizing m with
  | zero => rw [Nat.pow_zero, Nat.mul_one]; rfl
  | succ n ih =>
    rw [Nat.pow_succ', ← Nat.mul_assoc, Nat.repeat, ih (m * 2), ExtendedMantissa.shiftRightOne]
    simp

theorem log2_mul_two_pow {m : Nat} (hpos : 0 < m) (n : Nat) : (m * 2 ^ n).log2 = m.log2 + n := by
  rw [Nat.log2_eq_iff (Nat.mul_pos hpos (Nat.two_pow_pos n)).ne', Nat.add_right_comm,
    Nat.pow_add, Nat.pow_add]
  exact ⟨Nat.mul_le_mul_right _ (Nat.log2_self_le hpos.ne'),
    Nat.mul_lt_mul_of_pos_right Nat.lt_log2_self (Nat.two_pow_pos n)⟩

/-- Rounding takes zeros off a significand that has the right exponent without them. -/
theorem roundWithAccuracy_mul_two_pow (s : Sign) {m : Nat} (hpos : 0 < m) {e : Int} (n : Nat)
    (htarget : Format.binary32.targetExponent (totalExponent m e) = e) :
    roundWithAccuracy Format.binary32 s (m * 2 ^ n) (e + -n) .exact = .finite s m e hpos := by
  have htotal : totalExponent (m * 2 ^ n) (e + -n) = totalExponent m e := by
    rw [totalExponent, totalExponent, log2_mul_two_pow hpos]
    omega
  -- The first of the two shifts takes the zeros off, and the second has nothing left to do.
  have hfirst : shiftToTargetExponent Format.binary32 (m * 2 ^ n) (e + -n) .exact =
      (⟨m, false, false⟩, e) := by
    have hamount : (e - (e + -n)).toNat = n := by omega
    rw [shiftToTargetExponent, htotal, htarget, shiftToExponent, hamount, Int.neg_add_cancel_right]
    exact congrArg (·, e) (shiftRight_mul_two_pow m n)
  have hsecond : shiftToTargetExponent Format.binary32 m e .exact = (⟨m, false, false⟩, e) := by
    have hamount : (e - e).toNat = 0 := by omega
    rw [shiftToTargetExponent, htarget, shiftToExponent, hamount]
    exact congrArg (_, ·) (Int.add_zero e)
  have hexact : (⟨m, false, false⟩ : ExtendedMantissa).roundedMantissa = m := rfl
  unfold roundWithAccuracy
  simp only [hfirst, hexact, hsecond]
  exact dif_neg hpos.ne'

/-- One, unpacked. -/
def unit : UnpackedFloat := .finite .positive (2 ^ 23) (-(23 : Nat)) (by decide)

/-- A number times one, unpacked. -/
theorem mul_unit {b : BitVec 32} {u : UnpackedFloat} (h : Unpacks b u) :
    mul Format.binary32 u unit = u := by
  have hsign : ∀ s : Sign, s * .positive = s := fun s => by cases s <;> rfl
  have hfraction : (fractionField b).toNat < 2 ^ 23 := BitVec.isLt _
  have htarget : ∀ m e, Format.binary32.targetExponent (totalExponent m e) =
      max (m.log2 + 1 + e - 24) (-149) := fun _ _ => rfl
  cases h with
  | notANumber => rfl
  | infinity => exact congrArg UnpackedFloat.infinity (hsign _)
  | zero => exact congrArg UnpackedFloat.zero (hsign _)
  | @subnormal hexponent m hm hpos =>
    have hlog : m.log2 < 23 := (Nat.log2_lt hpos.ne').mpr (hm ▸ hfraction)
    rw [unit, mul, hsign]
    exact roundWithAccuracy_mul_two_pow _ hpos 23 (by rw [htarget]; omega)
  | normal hlow hhigh hm he hpos =>
    have hlog : (2 ^ 23 + (fractionField b).toNat).log2 = 23 :=
      (Nat.log2_eq_iff (by omega)).mpr ⟨by omega, by omega⟩
    have hexponent : (exponentField b).toNat ≠ 0 := fun h => hlow (BitVec.eq_of_toNat_eq h)
    rw [unit, mul, hsign]
    exact roundWithAccuracy_mul_two_pow _ hpos 23 (by rw [htarget, hm, hlog]; omega)

/-! ## Numbers -/

theorem unpack_one : (1 : Single).toFloat32.toModel.unpack = unit := rfl

theorem isNaNBits_eq_false {x : Single} (h : x.isNaN = false) :
    @isNaNBits Format.binary32 x.bits.toBitVec = false := by
  rw [isNaNBits, decide_eq_false_iff_not]
  rintro ⟨hexponent, hfraction⟩
  have hhighest : x.bits.toNat >>> 23 % 2 ^ 8 = 255 := congrArg BitVec.toNat hexponent
  have hsome : x.bits.toNat % 2 ^ 23 ≠ 0 := fun hzero =>
    hfraction (BitVec.eq_of_toNat_eq hzero)
  have hmask : x.bits.toNat &&& 2 ^ 31 - 1 = x.bits.toNat % 2 ^ 31 :=
    Nat.and_two_pow_sub_one_eq_mod _ _
  have hlt : 0x7f800000 < x.bits.toNat % 2 ^ 31 := by omega
  simp only [isNaN, decide_eq_false_iff_not, UInt32.lt_iff_toNat_lt, UInt32.toNat_and] at h
  exact h (Nat.lt_of_lt_of_eq hlt hmask.symm)

/-- A NaN is all that is unpacked to no number. -/
theorem isNaN_unpack {b : BitVec 32} (h : @isNaNBits Format.binary32 b = false) :
    (unpack Format.binary32 b).isNaN = false := by
  have hunpacks := unpacks_unpack b
  revert hunpacks
  generalize unpack Format.binary32 b = u
  rintro (⟨hexponent, hfraction⟩ | _ | _ | _ | _)
  · exact absurd ⟨hexponent, hfraction⟩ (of_decide_eq_false h)
  all_goals rfl

/-- A number times one is the number. -/
theorem mul_one_of_not_isNaN {x : Single} (h : x.isNaN = false) : x * 1 = x := by
  have hbits := isNaNBits_eq_false h
  have hpacked : pack Format.binary32 (unpack Format.binary32 x.bits.toBitVec) =
      x.bits.toBitVec := by
    rw [pack_unpack, hbits, if_neg Bool.false_ne_true]
  -- Operands are packed once more before they are multiplied, which changes none of their bits.
  have hproduct : x.toFloat32 * (1 : Single).toFloat32 = x.toFloat32 := by
    show Float32.ofModel (.pack (mul Format.binary32 (unpack Format.binary32
      (pack Format.binary32 (unpack Format.binary32 x.bits.toBitVec)))
        (1 : Single).toFloat32.toModel.unpack)) =
      .ofModel (.pack (unpack Format.binary32 x.bits.toBitVec))
    rw [hpacked, unpack_one, mul_unit (unpacks_unpack _)]
  have hnumber : x.toFloat32.isNaN = false := by
    show UnpackedFloat.isNaN (unpack Format.binary32
      (pack Format.binary32 (unpack Format.binary32 x.bits.toBitVec))) = false
    rw [hpacked, isNaN_unpack hbits]
  show zipWith (· * ·) x 1 = x
  have hone : (1 : Single).isNaN = false := by decide
  simp only [zipWith, h, hone, hproduct, ofFloat32, hnumber, Bool.false_eq_true, if_false]
  exact congrArg Single.mk (congrArg UInt32.ofBitVec hpacked)

/-- What a NaN becomes in arithmetic stays as it is in further arithmetic. -/
theorem quieted_zipWith {op : Float32 → Float32 → Float32} {x y : Single}
    (h : (zipWith op x y).isNaN = true) : (zipWith op x y).quieted = zipWith op x y := by
  have hquieted : ∀ z : Single, z.quieted.quieted = z.quieted := fun z =>
    congrArg Single.mk (by rw [quieted, UInt32.or_assoc, UInt32.or_self])
  revert h
  unfold zipWith ofFloat32
  split
  · exact fun _ => hquieted x
  split
  · exact fun _ => hquieted y
  generalize op x.toFloat32 y.toFloat32 = z
  split
  · exact fun _ => rfl
  · next hnumber =>
    -- The bits of a result that is a number are not those of a NaN.
    intro h
    obtain ⟨hexponent, hfraction⟩ := fields_of_isNaN h
    refine absurd ?_ hnumber
    show UnpackedFloat.isNaN (unpack Format.binary32 z.toBits.toBitVec) = true
    rw [unpack_eq_notANumber hexponent hfraction]
    rfl

/-- A difference times one is the difference. -/
theorem sub_mul_one (x y : Single) : (x - y) * 1 = x - y := by
  cases h : (x - y).isNaN with
  | false => exact mul_one_of_not_isNaN h
  | true =>
    have hquieted : (x - y) * 1 = (x - y).quieted := if_pos h
    rw [hquieted]
    exact quieted_zipWith h

end Single

end BoostedTrees
