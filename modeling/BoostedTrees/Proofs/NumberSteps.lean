import BoostedTrees.Proofs.ComparedNumbers
import BoostedTrees.Proofs.RoundedSums

/-!
# Numbers as integers

A single-precision number that is not a NaN counts some halves of the least positive number. These
counts say everything about the number but the sign of a zero: numbers are compared as their
counts, the order of bit patterns is their order, and the infinities count more than all others.

## Main definitions

* `Single.steps`: a number in halves of the least positive one

## Main results

* `Single.lt_iff`, `Single.le_iff`, `Single.sameNumber_iff`: numbers are compared as their counts
* `Single.steps_le_of_rank_le`: the order of bit patterns is the order of the counts
* `Single.eq_of_steps_eq`: numbers that are not zero are equal if they count the same
* `Single.isFinite_iff_steps`: a number is finite if it counts less than an infinity
-/

namespace BoostedTrees

namespace Single

open Float.Model (Format UnpackedFloat totalExponent)
open Float.Model.UnpackedFloat

/-! ## Unpacking what was packed -/

theorem unpack_normal (s : Sign) {exponent : BitVec 8} {fraction : BitVec 23}
    (hlow : exponent ≠ 0#8) (hhigh : exponent ≠ -1#8) {m : ℕ} {e : ℤ} {hpos : 0 < m} (hm : 2 ^ 23 + fraction.toNat = m)
    (he : exponent.toNat - 150 = e) :
    unpack Format.binary32 (packComponents Format.binary32 s exponent fraction) =
      .finite s m e hpos := by
  subst hm he
  unfold unpack
  simp only [unpackMantissa_packComponents, unpackExponent_packComponents,
    unpackSign_packComponents, Sign.ofBitVec_toBitVec, toNat_one_append, if_neg hlow, if_neg hhigh]
  rfl

theorem unpack_subnormal (s : Sign) {fraction : BitVec 23} {m : ℕ} {hpos : 0 < m}
    (hm : fraction.toNat = m) :
    unpack Format.binary32 (packComponents Format.binary32 s 0#8 fraction) =
      .finite s m (-149) hpos := by
  subst hm
  have hfraction : fraction ≠ 0#23 := by
    rintro rfl
    exact absurd hpos (lt_irrefl 0)
  have hexponent : (0#8 : BitVec 8) ≠ -1#8 := by decide
  unfold unpack
  simp only [unpackMantissa_packComponents, unpackExponent_packComponents,
    unpackSign_packComponents, Sign.ofBitVec_toBitVec, if_neg hexponent, if_true, dif_neg hfraction]
  rfl

/-- A number that bits can stand for. -/
def Proper : UnpackedFloat → Prop
  | .notANumber => False
  | .infinity _ => True
  | .zero _ => True
  | .finite _ m e _ => Layout.single.Canonical m e ∧ e ≤ 104

/-- Such a number is unpacked from the bits that it is packed to. -/
theorem unpack_pack {u : UnpackedFloat} (h : Proper u) :
    unpack Format.binary32 (pack Format.binary32 u) = u := by
  rcases u with s | _ | s | ⟨s, m, e, hpos⟩
  · cases s <;> rfl
  · exact h.elim
  · exact unpack_packedZero
  · obtain ⟨hcanonical, hhigh⟩ := h
    have hleast : -149 ≤ e := hcanonical.le_exponent
    have hlt : m < 2 ^ 24 := hcanonical.lt
    have hbias : Format.binary32.exponentBias = 127 := rfl
    rw [pack, hbias]
    dsimp only
    obtain ⟨biased, hbiased⟩ : ∃ n, (e + (127 : Nat) + (23 : Nat)).toNat = n := ⟨_, rfl⟩
    have hfield : (BitVec.ofNat 8 biased).toNat = biased := by
      rw [BitVec.toNat_ofNat]
      omega
    rw [hbiased, if_neg (by omega)]
    split
    · next hlog =>
      have hlog : m.log2 = 23 := Nat.succ.inj hlog
      have hlow : 2 ^ 23 ≤ m := hlog ▸ Nat.log2_self_le hpos.ne'
      refine unpack_normal s (fun h => ?_) (fun h => ?_) ?_ ?_
      · have hzero : biased = 0 := hfield.symm.trans (congrArg BitVec.toNat h)
        omega
      · have htop : biased = 255 := hfield.symm.trans (congrArg BitVec.toNat h)
        omega
      · rw [BitVec.toNat_ofNat]
        omega
      · omega
    · next hlog =>
      have hlow : m < 2 ^ 23 := by
        refine (Nat.log2_lt hpos.ne').mp (lt_of_le_of_ne ?_ fun h => hlog (congrArg (· + 1) h))
        exact Nat.le_of_lt_succ ((Nat.log2_lt hpos.ne').mpr hlt)
      obtain rfl : e = -149 := by
        by_contra hne
        have hlarge := hcanonical.le_of_lt (lt_of_le_of_ne hleast (Ne.symm hne))
        exact absurd hlow (Nat.not_lt.mpr hlarge)
      refine unpack_subnormal s ?_
      rw [BitVec.toNat_ofNat]
      omega

/-! ## Comparing -/

/-- Significands at exponents count as they are ordered, the exponent before the significand. -/
theorem mul_stepsAt_lt {m m' : ℕ} {e e' : ℤ} (h : Layout.single.Canonical m e)
    (h' : Layout.single.Canonical m' e') (hlt : e < e') : m * stepsAt e < m' * stepsAt e' := by
  have hleast : -149 ≤ e := h.le_exponent
  have hm' : 2 ^ 23 ≤ m' := h'.le_of_lt (h.le_exponent.trans_lt hlt)
  calc m * stepsAt e < 2 ^ 24 * stepsAt e := Nat.mul_lt_mul_of_pos_right h.lt (stepsAt_pos e)
    _ = 2 ^ 23 * stepsAt (e + (1 : ℕ)) := by rw [stepsAt_add (by omega)]; ring
    _ ≤ m' * stepsAt e' := Nat.mul_le_mul hm' (stepsAt_mono (by omega))

theorem compare_mul_stepsAt {m m' : ℕ} {e e' : ℤ} (h : Layout.single.Canonical m e)
    (h' : Layout.single.Canonical m' e') :
    compare (m * stepsAt e) (m' * stepsAt e') = (compare e e').then (compare m m') := by
  rcases lt_trichotomy e e' with hlt | rfl | hgt
  · rw [compare_lt_iff_lt.mpr hlt, compare_lt_iff_lt.mpr (mul_stepsAt_lt h h' hlt)]
    rfl
  · rw [compare_eq_iff_eq.mpr rfl]
    rcases lt_trichotomy m m' with hlt | rfl | hgt
    · rw [compare_lt_iff_lt.mpr hlt,
        compare_lt_iff_lt.mpr (Nat.mul_lt_mul_of_pos_right hlt (stepsAt_pos e))]
      rfl
    · rw [compare_eq_iff_eq.mpr rfl, compare_eq_iff_eq.mpr rfl]
      rfl
    · rw [compare_gt_iff_gt.mpr hgt,
        compare_gt_iff_gt.mpr (Nat.mul_lt_mul_of_pos_right hgt (stepsAt_pos e))]
      rfl
  · rw [compare_gt_iff_gt.mpr hgt, compare_gt_iff_gt.mpr (mul_stepsAt_lt h' h hgt)]
    rfl

/-- A finite number counts less than an infinity. -/
theorem mul_stepsAt_lt_stepsAt {m : ℕ} {e : ℤ} (h : Layout.single.Canonical m e) (he : e ≤ 104) :
    m * stepsAt e < stepsAt 128 := by
  have hlarge : stepsAt 128 = 2 ^ 24 * stepsAt 104 := stepsAt_add (e := 104) (by decide) 24
  rw [hlarge]
  exact (Nat.mul_lt_mul_of_pos_right h.lt (stepsAt_pos e)).trans_le
    (Nat.mul_le_mul_left _ (stepsAt_mono he))

/-- Numbers are compared as they count. -/
theorem compare_steps {u v : UnpackedFloat} (hu : Proper u) (hv : Proper v) :
    u.compare v = some (compare (stepsOf u) (stepsOf v)) := by
  have hlarge := stepsAt_pos 128
  have hlt : ∀ {a b : ℤ}, a < b → some Ordering.lt = some (compare a b) := fun h =>
    congrArg some (compare_lt_iff_lt.mpr h).symm
  have hgt : ∀ {a b : ℤ}, b < a → some Ordering.gt = some (compare a b) := fun h =>
    congrArg some (compare_gt_iff_gt.mpr h).symm
  have heq : ∀ a : ℤ, some Ordering.eq = some (compare a a) := fun a =>
    congrArg some (compare_eq_iff_eq.mpr rfl).symm
  have hfinite : ∀ {m : ℕ} {e : ℤ}, 0 < m → Layout.single.Canonical m e → e ≤ 104 →
      0 < m * stepsAt e ∧ m * stepsAt e < stepsAt 128 := fun hpos h he =>
    ⟨Nat.mul_pos hpos (stepsAt_pos _), mul_stepsAt_lt_stepsAt h he⟩
  rcases u with s | _ | s | ⟨s, m, e, hpos⟩ <;> rcases v with s' | _ | s' | ⟨s', m', e', hpos'⟩ <;>
    first | exact hu.elim | exact hv.elim | skip
  -- Numbers of different kinds or signs are compared by these.
  all_goals try have hbounds := hfinite hpos hu.1 hu.2
  all_goals try have hbounds' := hfinite hpos' hv.1 hv.2
  all_goals cases s <;> cases s' <;> first
    | exact heq _
    | exact hlt (by simp only [stepsOf, Sign.apply]; omega)
    | exact hgt (by simp only [stepsOf, Sign.apply]; omega)
    | skip
  · simp only [UnpackedFloat.compare, stepsOf, Sign.apply, compare_neg, compare_natCast,
      compare_mul_stepsAt hu.1 hv.1]
  · simp only [UnpackedFloat.compare, stepsOf, Sign.apply, compare_natCast,
      compare_mul_stepsAt hu.1 hv.1]

/-! ## Numbers -/

/-- A number, unpacked. -/
def unpacked (x : Single) : UnpackedFloat := x.toFloat32.toModel.unpack

/-- A number in halves of the least positive one. -/
def steps (x : Single) : ℤ := stepsOf x.unpacked

variable {x y : Single}

theorem unpacked_eq (h : x.isNaN = false) :
    x.unpacked = unpack Format.binary32 x.bits.toBitVec := by
  show unpack Format.binary32 (pack Format.binary32 (unpack Format.binary32 x.bits.toBitVec)) = _
  rw [pack_unpack, isNaNBits_eq_false h, if_neg Bool.false_ne_true]

/-- What is no NaN is unpacked to a number. -/
theorem proper_unpacked (h : x.isNaN = false) : Proper x.unpacked := by
  have hne := unpack_ne (isNaNBits_eq_false h)
  rw [unpacked_eq h]
  have hunpacks := unpacks_unpack x.bits.toBitVec
  revert hunpacks hne
  generalize unpack Format.binary32 x.bits.toBitVec = u
  have hfraction : (fractionField x.bits.toBitVec).toNat < 2 ^ 23 := BitVec.isLt _
  have hexponent : (exponentField x.bits.toBitVec).toNat < 2 ^ 8 := BitVec.isLt _
  intro hne hunpacks
  cases hunpacks with
  | notANumber => exact hne rfl
  | infinity => trivial
  | zero => trivial
  | subnormal _ hm hpos =>
    refine ⟨⟨?_, le_rfl, fun hlt => absurd hlt (lt_irrefl _)⟩, by decide⟩
    show _ < 2 ^ 24
    omega
  | normal hlow hhigh hm he hpos =>
    have hzero : (exponentField x.bits.toBitVec).toNat ≠ 0 := fun h =>
      hlow (BitVec.eq_of_toNat_eq h)
    have htop : (exponentField x.bits.toBitVec).toNat ≠ 255 := fun h =>
      hhigh (BitVec.eq_of_toNat_eq h)
    refine ⟨⟨?_, ?_, fun _ => ?_⟩, by omega⟩
    · show _ < 2 ^ 24
      omega
    · show -149 ≤ _
      omega
    · show 2 ^ 23 ≤ _
      omega

theorem unpacked_of_isNaN (h : x.isNaN = true) : x.unpacked = .notANumber := unpack_of_isNaN h

theorem lt_iff_unpacked : x < y ↔ x.unpacked.lt y.unpacked := decide_eq_true_iff

theorem le_iff_unpacked : x ≤ y ↔ x.unpacked.le y.unpacked := decide_eq_true_iff

/-- Nothing is less than a NaN. -/
theorem not_lt_of_isNaN (x : Single) (h : y.isNaN = true) : ¬x < y := fun hlt =>
  (ne_notANumber_of_lt (lt_iff_unpacked.mp hlt)).2 (unpacked_of_isNaN h)

section Compare

variable (hx : x.isNaN = false) (hy : y.isNaN = false)
include hx hy

theorem lt_iff : x < y ↔ x.steps < y.steps := by
  rw [lt_iff_unpacked, UnpackedFloat.lt, compare_steps (proper_unpacked hx) (proper_unpacked hy),
    beq_iff_eq, Option.some.injEq, compare_lt_iff_lt]
  rfl

theorem le_iff : x ≤ y ↔ x.steps ≤ y.steps := by
  rw [le_iff_unpacked, UnpackedFloat.le, compare_steps (proper_unpacked hx) (proper_unpacked hy),
    Option.any_some, Ordering.isLE_iff_ne_gt]
  exact compare_le_iff_le

theorem sameNumber_iff : x.sameNumber y ↔ x.steps = y.steps := by
  show x.unpacked.beq y.unpacked ↔ _
  rw [UnpackedFloat.beq, compare_steps (proper_unpacked hx) (proper_unpacked hy), beq_iff_eq,
    Option.some.injEq, compare_eq_iff_eq]
  rfl

end Compare

/-! ## The order of bit patterns -/

/-- What a bit pattern without a sign counts. -/
def stepsOfBits (n : ℕ) : ℕ :=
  if n < 2 ^ 23 then 2 * n else (2 ^ 23 + n % 2 ^ 23) * 2 ^ (n / 2 ^ 23)

theorem stepsOfBits_strictMono : StrictMono stepsOfBits := by
  refine strictMono_nat_of_lt_succ fun n => ?_
  unfold stepsOfBits
  split
  · split
    · omega
    · obtain rfl : n = 2 ^ 23 - 1 := by omega
      decide
  · next hlarge =>
    rw [if_neg (by omega)]
    by_cases hcarry : n % 2 ^ 23 + 1 < 2 ^ 23
    · have hfraction : (n + 1) % 2 ^ 23 = n % 2 ^ 23 + 1 := by omega
      have hexponent : (n + 1) / 2 ^ 23 = n / 2 ^ 23 := by omega
      rw [hfraction, hexponent]
      exact Nat.mul_lt_mul_of_pos_right (by omega) (Nat.two_pow_pos _)
    · -- The fraction starts again, at the next exponent.
      have hfraction : (n + 1) % 2 ^ 23 = 0 := by omega
      have hexponent : (n + 1) / 2 ^ 23 = n / 2 ^ 23 + 1 := by omega
      have hfull : 2 ^ 23 + n % 2 ^ 23 < (2 ^ 23 + 0) * 2 := by omega
      rw [hfraction, hexponent]
      generalize n / 2 ^ 23 = exponent
      calc _ < (2 ^ 23 + 0) * 2 * 2 ^ exponent :=
            Nat.mul_lt_mul_of_pos_right hfull (Nat.two_pow_pos exponent)
        _ = (2 ^ 23 + 0) * 2 ^ (exponent + 1) := by ring

/-- The bits of an infinity without its sign. -/
theorem stepsOfBits_infinity {n : ℕ} (h : n = 255 * 2 ^ 23) : stepsOfBits n = stepsAt 128 := by
  have hlast : 2 ^ 255 = stepsAt 105 := rfl
  have hexponent : n / 2 ^ 23 = 255 := by omega
  have hfraction : n % 2 ^ 23 = 0 := by omega
  rw [stepsOfBits, if_neg (by omega), hexponent, hfraction, Nat.add_zero, hlast,
    ← stepsAt_add (by decide)]
  rfl

/-- What a number counts can be read off its bits. -/
theorem steps_eq (h : x.isNaN = false) :
    x.steps = (signField x.bits.toBitVec).apply (stepsOfBits (x.bits.toNat % 2 ^ 31)) := by
  have hexponent : (exponentField x.bits.toBitVec).toNat = x.bits.toNat % 2 ^ 31 / 2 ^ 23 := by
    show x.bits.toNat >>> 23 % 2 ^ 8 = _
    omega
  have hfraction : (fractionField x.bits.toBitVec).toNat = x.bits.toNat % 2 ^ 31 % 2 ^ 23 := by
    show x.bits.toNat >>> 0 % 2 ^ 23 = _
    omega
  have hunpacks := unpacks_unpack x.bits.toBitVec
  have hne := unpack_ne (isNaNBits_eq_false h)
  rw [steps, unpacked_eq h]
  revert hunpacks hne
  generalize unpack Format.binary32 x.bits.toBitVec = u
  generalize x.bits.toNat % 2 ^ 31 = n at *
  intro hunpacks hne
  cases hunpacks with
  | notANumber => exact absurd rfl hne
  | infinity htop hzero =>
    have htop : n / 2 ^ 23 = 255 := hexponent.symm.trans (congrArg BitVec.toNat htop)
    have hzero : n % 2 ^ 23 = 0 := hfraction.symm.trans (congrArg BitVec.toNat hzero)
    rw [stepsOfBits_infinity (by omega)]
    rfl
  | zero hzero hzero' =>
    have hzero : n / 2 ^ 23 = 0 := hexponent.symm.trans (congrArg BitVec.toNat hzero)
    have hzero' : n % 2 ^ 23 = 0 := hfraction.symm.trans (congrArg BitVec.toNat hzero')
    obtain rfl : n = 0 := by omega
    cases signField x.bits.toBitVec <;> rfl
  | subnormal hzero hm hpos =>
    have hzero : n / 2 ^ 23 = 0 := hexponent.symm.trans (congrArg BitVec.toNat hzero)
    have hcount : stepsAt (-149) = 2 := rfl
    have hvalue : 2 * n = (fractionField x.bits.toBitVec).toNat * stepsAt (-149) := by
      rw [hfraction, hcount]
      omega
    rw [stepsOfBits, if_pos (by omega), hvalue, ← hm]
    rfl
  | @normal hlow hhigh m hm e he hpos =>
    have hlow : n / 2 ^ 23 ≠ 0 := fun h => hlow (BitVec.eq_of_toNat_eq (hexponent.trans h))
    have hcount : stepsAt e = 2 ^ (n / 2 ^ 23) := by
      rw [stepsAt]
      congr 1
      omega
    rw [stepsOfBits, if_neg (by omega), ← hcount, ← hfraction, ← hm]
    rfl

theorem signField_eq (x : Single) :
    signField x.bits.toBitVec = if x.isNegative then .negative else .positive := by
  have hsign : (@unpackSign Format.binary32 x.bits.toBitVec).toNat = x.bits.toNat / 2 ^ 31 % 2 := by
    show x.bits.toNat >>> 31 % 2 ^ 1 = _
    rw [Nat.shiftRight_eq_div_pow]
  have hword := x.bits.toNat_lt
  have hnegative : x.isNegative = decide (2 ^ 31 ≤ x.bits.toNat) := rfl
  rw [signField, Sign.ofBitVec, hnegative]
  by_cases h : 2 ^ 31 ≤ x.bits.toNat
  · rw [if_pos (decide_eq_true h), if_neg]
    intro hzero
    have := hsign.symm.trans (congrArg BitVec.toNat hzero)
    have hvalue : (0#1).toNat = 0 := rfl
    omega
  · have hzero : @unpackSign Format.binary32 x.bits.toBitVec = 0#1 := by
      refine BitVec.eq_of_toNat_eq (hsign.trans ?_)
      show _ = 0
      omega
    rw [if_pos hzero, if_neg (by simpa using h)]

theorem toNat_magnitude (x : Single) : (x.bits &&& 0x7fffffff).toNat = x.bits.toNat % 2 ^ 31 := by
  rw [UInt32.toNat_and]
  exact Nat.and_two_pow_sub_one_eq_mod _ 31

section Bits

variable (hx : x.isNaN = false)
include hx

theorem natAbs_steps : x.steps.natAbs = stepsOfBits (x.bits.toNat % 2 ^ 31) := by
  rw [steps_eq hx]
  cases signField x.bits.toBitVec with
  | negative => exact Int.natAbs_neg _
  | positive => rfl

/-- Bits without a sign, of a number. -/
theorem bits_mod_le : x.bits.toNat % 2 ^ 31 ≤ 255 * 2 ^ 23 := by
  rw [isNaN, decide_eq_false_iff_not, UInt32.lt_iff_toNat_lt, toNat_magnitude] at hx
  exact Nat.le_of_not_lt hx

end Bits
/-- Numbers that stand in the order of their bit patterns stand in their order as numbers. -/
theorem steps_le_of_rank_le (hx : x.isNaN = false) (hy : y.isNaN = false) (h : x.rank ≤ y.rank) :
    x.steps ≤ y.steps := by
  rw [rank, rank, toNat_magnitude, toNat_magnitude] at h
  rw [steps_eq hx, steps_eq hy, signField_eq, signField_eq]
  generalize x.bits.toNat % 2 ^ 31 = m at *
  generalize y.bits.toNat % 2 ^ 31 = n at *
  generalize x.isNegative = negative at *
  generalize y.isNegative = negative' at *
  cases negative <;> cases negative' <;>
    simp only [Bool.false_eq_true, if_true, if_false, Sign.apply] at h ⊢
  · have hle := stepsOfBits_strictMono.monotone (Int.ofNat_le.mp h)
    omega
  · omega
  · omega
  · have hle : stepsOfBits n ≤ stepsOfBits m := stepsOfBits_strictMono.monotone (by omega)
    omega

section Bits

variable (hx : x.isNaN = false)
include hx

/-- No number counts more than an infinity. -/
theorem natAbs_steps_le : x.steps.natAbs ≤ stepsAt 128 := by
  rw [natAbs_steps hx, ← stepsOfBits_infinity rfl]
  exact stepsOfBits_strictMono.monotone (bits_mod_le hx)

/-- A number counts what can be represented. -/
theorem representable_steps : Representable x.steps := by
  obtain ⟨n, hn⟩ : ∃ n, x.bits.toNat % 2 ^ 31 = n := ⟨_, rfl⟩
  rw [Representable, natAbs_steps hx, hn, stepsOfBits]
  split
  · exact ⟨n, 0, by omega, Nat.mul_comm 2 n⟩
  · refine ⟨2 ^ 23 + n % 2 ^ 23, n / 2 ^ 23 - 1, by omega, ?_⟩
    rw [Nat.sub_add_cancel (by omega)]

theorem even_steps : ∃ k, 2 * k = x.steps := by
  obtain ⟨k, n, -, hk⟩ := representable_steps hx
  rw [pow_succ, ← mul_assoc] at hk
  exact ⟨x.steps / 2, by omega⟩

end Bits

/-- The counts say everything about numbers but the sign of a zero. -/
theorem eq_of_steps_eq (hx : x.isNaN = false) (hy : y.isNaN = false) (h : x.steps = y.steps)
    (hne : x.steps ≠ 0) : x = y := by
  have hbits : x.bits.toNat % 2 ^ 31 = y.bits.toNat % 2 ^ 31 := by
    refine stepsOfBits_strictMono.injective ?_
    rw [← natAbs_steps hx, ← natAbs_steps hy, h]
  have hsign : x.isNegative = y.isNegative := by
    rw [steps_eq hx] at hne
    rw [steps_eq hx, steps_eq hy, hbits] at h
    rw [signField_eq] at h hne
    rw [signField_eq] at h
    rw [hbits] at hne
    generalize x.isNegative = negative at *
    generalize y.isNegative = negative' at *
    cases negative <;> cases negative' <;> first | rfl | skip
    all_goals
      simp only [Bool.false_eq_true, if_true, if_false, Sign.apply] at h hne
      omega
  rw [isNegative, isNegative, decide_eq_decide, UInt32.le_iff_toNat_le, UInt32.le_iff_toNat_le]
    at hsign
  have hsign : 2 ^ 31 ≤ x.bits.toNat ↔ 2 ^ 31 ≤ y.bits.toNat := hsign
  have hword := x.bits.toNat_lt
  have hword' := y.bits.toNat_lt
  obtain ⟨bits⟩ := x
  obtain ⟨bits'⟩ := y
  refine congrArg Single.mk (UInt32.toNat_inj.mp ?_)
  dsimp only at *
  omega

theorem steps_infinity : infinity.steps = stepsAt 128 := rfl

theorem steps_negInfinity : negInfinity.steps = -stepsAt 128 := rfl

/-- A number is finite if it counts less than an infinity. -/
theorem isFinite_iff_steps : x.isFinite ↔ x.isNaN = false ∧ x.steps.natAbs < stepsAt 128 := by
  rw [isFinite, decide_eq_true_iff, UInt32.lt_iff_toNat_lt, toNat_magnitude]
  constructor
  · intro h
    have h : x.bits.toNat % 2 ^ 31 < 255 * 2 ^ 23 := h
    have hx : x.isNaN = false := by
      rw [isNaN, decide_eq_false_iff_not, UInt32.lt_iff_toNat_lt, toNat_magnitude]
      exact Nat.not_lt_of_lt h
    rw [natAbs_steps hx, ← stepsOfBits_infinity rfl]
    exact ⟨hx, stepsOfBits_strictMono h⟩
  · rintro ⟨hx, h⟩
    rw [natAbs_steps hx, ← stepsOfBits_infinity rfl] at h
    exact stepsOfBits_strictMono.lt_iff_lt.mp h

end Single

end BoostedTrees
