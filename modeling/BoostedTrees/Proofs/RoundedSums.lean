import BoostedTrees.Proofs.FiniteProducts
import BoostedTrees.Proofs.UnitProduct

/-!
# Rounded sums

The result of an operation is the exact result, rounded. Rounding does not pass a number that can
be represented: an exact result that is at most such a number is rounded to one that is at most
this number, and the same holds the other way round. This is all that is needed to say where sums,
differences and halves of numbers lie.

Numbers are measured in halves of the least positive one, so that halves are integers too.

## Main definitions

* `Single.stepsOf`: an unpacked number in halves of the least positive one
* `Single.Rounds`: an integer is rounded to another
* `Single.IsRounded`: an unpacked number is the rounded one to an integer

## Main results

* `Single.roundWithAccuracy_spec`: what is rounded with an accuracy is the rounded exact value
* `Single.add_spec`, `Single.sub_spec`, `Single.half_spec`: sums, differences and halves
-/

namespace BoostedTrees

namespace Single

open Float.Model (Format UnpackedFloat totalExponent)
open Float.Model.UnpackedFloat

/-! ## Integers that can be represented -/

/-- An integer, in halves of the least positive number, has a significand of twenty-four bits. -/
def Representable (y : ℤ) : Prop := ∃ k n : ℕ, k < 2 ^ 24 ∧ y.natAbs = k * 2 ^ (n + 1)

/-- An integer is rounded to another one, which does not pass what can be represented. -/
def Rounds (x r : ℤ) : Prop := ∀ y, Representable y → (x ≤ y → r ≤ y) ∧ (y ≤ x → y ≤ r)

theorem Representable.neg {y : ℤ} (h : Representable y) : Representable (-y) := by
  obtain ⟨k, n, hk, hy⟩ := h
  exact ⟨k, n, hk, by rwa [Int.natAbs_neg]⟩

theorem representable_zero : Representable 0 := ⟨0, 0, by decide, rfl⟩

theorem representable_two_pow (n : ℕ) : Representable (2 ^ (n + 1) : ℕ) :=
  ⟨1, n, by decide, by rw [Int.natAbs_natCast, Nat.one_mul]⟩

theorem rounds_self (x : ℤ) : Rounds x x := fun _ _ => ⟨id, id⟩

theorem Rounds.neg {x r : ℤ} (h : Rounds x r) : Rounds (-x) (-r) := by
  intro y hy
  obtain ⟨hle, hge⟩ := h (-y) hy.neg
  exact ⟨fun hxy => by have := hge (by omega); omega, fun hyx => by have := hle (by omega); omega⟩

theorem Rounds.apply {x r : ℕ} (h : Rounds x r) (s : Sign) : Rounds (s.apply x) (s.apply r) := by
  cases s with
  | negative => exact h.neg
  | positive => exact h

/-- Multiples of a power of two next to a natural that is not less than the twenty-three bits
above the power are what the natural is rounded to. -/
theorem rounds_of_grid {n r x : ℕ} (hlarge : n = 0 ∨ 2 ^ 23 * 2 ^ (n + 1) ≤ x)
    (hlt : x < (r + 1) * 2 ^ (n + 1)) (hgt : r * 2 ^ (n + 1) < x + 2 ^ (n + 1)) :
    Rounds x (r * 2 ^ (n + 1) : ℕ) := by
  rintro y ⟨k, n', hk, hy⟩
  have hpos : 0 < 2 ^ (n + 1) := Nat.two_pow_pos _
  rcases Int.natAbs_eq y with hsign | hsign <;> rw [hy] at hsign <;> subst hsign
  · rw [Nat.cast_le, Nat.cast_le, Nat.cast_le, Nat.cast_le]
    rcases Nat.lt_or_ge n' n with hless | hmore
    · -- What has a smaller last place is below all that has the last place of the grid.
      have hsmall : k * 2 ^ (n' + 1) < 2 ^ 23 * 2 ^ (n + 1) := by
        calc k * 2 ^ (n' + 1) < 2 ^ 24 * 2 ^ (n' + 1) :=
              Nat.mul_lt_mul_of_pos_right hk (Nat.two_pow_pos _)
          _ ≤ 2 ^ 24 * 2 ^ n := Nat.mul_le_mul_left _ (Nat.pow_le_pow_right Nat.two_pos hless)
          _ = 2 ^ 23 * 2 ^ (n + 1) := by ring
      have hlarge := hlarge.resolve_left (Nat.ne_of_gt (Nat.zero_lt_of_lt hless))
      refine ⟨fun h => absurd (hlarge.trans h) (Nat.not_le_of_lt hsmall), fun _ => ?_⟩
      have hr : 2 ^ 23 < r + 1 := lt_of_mul_lt_mul_right (hlarge.trans_lt hlt) (Nat.zero_le _)
      exact hsmall.le.trans (Nat.mul_le_mul_right _ (Nat.le_of_lt_succ hr))
    · obtain ⟨d, rfl⟩ := Nat.exists_eq_add_of_le hmore
      have hmultiple : k * 2 ^ (n + d + 1) = k * 2 ^ d * 2 ^ (n + 1) := by ring
      rw [hmultiple]
      constructor
      · intro h
        have hr : r * 2 ^ (n + 1) < (k * 2 ^ d + 1) * 2 ^ (n + 1) := by
          rw [Nat.succ_mul]
          omega
        exact Nat.mul_le_mul_right _ (Nat.le_of_lt_succ (lt_of_mul_lt_mul_right hr (Nat.zero_le _)))
      · intro h
        have hq := lt_of_mul_lt_mul_right (h.trans_lt hlt) (Nat.zero_le _)
        exact Nat.mul_le_mul_right _ (Nat.le_of_lt_succ hq)
  · -- No natural is below a negative number.
    constructor
    · intro h
      obtain ⟨rfl, hzero⟩ : x = 0 ∧ k * 2 ^ (n' + 1) = 0 := by omega
      have hr : r = 0 := Nat.lt_one_iff.mp (lt_of_mul_lt_mul_right
        (hgt.trans_eq (by rw [Nat.zero_add, Nat.one_mul])) (Nat.zero_le _))
      rw [hr, hzero, Nat.zero_mul]
      exact le_rfl
    · intro _
      exact (Int.neg_nonpos_of_nonneg (Int.natCast_nonneg _)).trans (Int.natCast_nonneg _)

/-! ## Residual bits -/

/-- A significand with residual bits stands for a natural, in units of its last place: it is what
is left of the natural when it is cut, and no bit is set if nothing was cut off. -/
structure Brackets (em : ExtendedMantissa) (unit x : ℕ) : Prop where
  le : em.mantissa * unit ≤ x
  lt : x < (em.mantissa + 1) * unit
  more : em.roundBit = true ∨ em.stickyBit = true → em.mantissa * unit < x

namespace Brackets

variable {em : ExtendedMantissa} {unit x : ℕ}

theorem shiftRightOne (h : Brackets em unit x) : Brackets em.shiftRightOne (2 * unit) x := by
  obtain ⟨m, roundBit, stickyBit⟩ := em
  obtain ⟨hle, hlt, hmore⟩ := h
  dsimp only at hle hlt hmore
  have hunit : 0 < unit := Nat.pos_of_ne_zero fun hzero => by simp [hzero] at hlt
  have hcut : m / 2 * (2 * unit) ≤ m * unit := by
    rw [← Nat.mul_assoc]
    exact Nat.mul_le_mul_right _ (Nat.div_mul_le_self m 2)
  refine ⟨hcut.trans hle, hlt.trans_le ?_, fun hbits => ?_⟩
  · rw [← Nat.mul_assoc]
    exact Nat.mul_le_mul_right _ (by dsimp only [ExtendedMantissa.shiftRightOne]; omega)
  · rcases hbits with hodd | hcutOff
    · -- The bit that is cut off now was not zero.
      have hodd : m % 2 ≠ 0 := by simpa [ExtendedMantissa.shiftRightOne] using hodd
      refine lt_of_lt_of_le ?_ hle
      rw [← Nat.mul_assoc]
      refine Nat.mul_lt_mul_of_pos_right ?_ hunit
      dsimp only [ExtendedMantissa.shiftRightOne]
      omega
    · exact hcut.trans_lt (hmore (by simpa [ExtendedMantissa.shiftRightOne] using hcutOff))

theorem shiftRight (h : Brackets em unit x) (n : ℕ) : Brackets (em >>> n) (2 ^ n * unit) x := by
  show Brackets (Nat.repeat ExtendedMantissa.shiftRightOne n em) _ _
  induction n with
  | zero =>
    rw [Nat.pow_zero, Nat.one_mul]
    exact h
  | succ n ih =>
    rw [Nat.pow_succ', Nat.mul_assoc]
    exact ih.shiftRightOne

/-- A significand is rounded to itself, or to the next one if a bit is set. -/
theorem roundedMantissa_cases (em : ExtendedMantissa) : em.roundedMantissa = em.mantissa ∨
    em.roundedMantissa = em.mantissa + 1 ∧ (em.roundBit = true ∨ em.stickyBit = true) := by
  obtain ⟨m, roundBit, stickyBit⟩ := em
  have hparity := Nat.mod_two_eq_zero_or_one m
  cases roundBit <;> cases stickyBit <;>
    simp only [ExtendedMantissa.roundedMantissa, ExtendedMantissa.accuracy,
      Accuracy.roundToNearestEven] <;> simp
  exact hparity

/-- The rounded significand is next to what it stands for. -/
theorem roundedMantissa (h : Brackets em unit x) :
    x < (em.roundedMantissa + 1) * unit ∧ em.roundedMantissa * unit < x + unit := by
  have hlt := h.lt
  rcases roundedMantissa_cases em with hsame | ⟨hnext, hbits⟩
  · rw [hsame]
    have hle := h.le
    have hunit : 0 < unit := Nat.pos_of_ne_zero fun hzero => by simp [hzero] at hlt
    exact ⟨hlt, by omega⟩
  · rw [hnext]
    have hmore := h.more hbits
    rw [Nat.succ_mul] at hlt ⊢
    rw [Nat.succ_mul]
    omega

end Brackets

/-! ## Unpacked numbers -/

/-- How much a unit at an exponent counts. -/
def stepsAt (e : ℤ) : ℕ := 2 ^ (e + 150).toNat

/-- An unpacked number in halves of the least positive one. An infinity counts as the first number
that is too large. -/
def stepsOf : UnpackedFloat → ℤ
  | .infinity s => s.apply (stepsAt 128)
  | .finite s m e _ => s.apply (m * stepsAt e : ℕ)
  | _ => 0

/-- A number has a significand and an exponent as they are read from bits, except that the
exponent may be too large. -/
def Regular : UnpackedFloat → Prop
  | .zero _ => True
  | .finite _ m e _ => Layout.single.Canonical m e
  | _ => False

/-- A number is the rounded one to an integer. -/
structure IsRounded (x : ℤ) (u : UnpackedFloat) : Prop where
  regular : Regular u
  rounds : Rounds x (stepsOf u)

theorem stepsAt_pos (e : ℤ) : 0 < stepsAt e := Nat.two_pow_pos _

theorem representable_stepsAt {e : ℤ} (h : -149 ≤ e) : Representable (stepsAt e) := by
  have hcount : stepsAt e = 2 ^ ((e + 149).toNat + 1) := by
    rw [stepsAt]
    congr 1
    omega
  rw [hcount]
  exact representable_two_pow _

theorem stepsAt_add {e : ℤ} (h : -150 ≤ e) (n : ℕ) : stepsAt (e + n) = 2 ^ n * stepsAt e := by
  rw [stepsAt, stepsAt, ← Nat.pow_add]
  congr 1
  omega

theorem stepsAt_mono {e e' : ℤ} (h : e ≤ e') : stepsAt e ≤ stepsAt e' :=
  Nat.pow_le_pow_right Nat.two_pos (by omega)

/-! ## Rounding -/

theorem targetExponent_eq (m : ℕ) (e : ℤ) :
    Format.binary32.targetExponent (totalExponent m e) = max (m.log2 + 1 + e - 24) (-149) := rfl

/-- The significand at the exponent that rounding chooses has twenty-four bits, or the exponent is
the least one. -/
theorem bounds_of_targetExponent {m x : ℕ} {e t : ℤ} (he : -149 ≤ e)
    (ht : Format.binary32.targetExponent (totalExponent m e) = t) (hle : e ≤ t)
    (hx : m * stepsAt e ≤ x) (hx' : x < (m + 1) * stepsAt e) :
    x < 2 ^ 24 * stepsAt t ∧ (t = -149 ∨ 2 ^ 23 * stepsAt t ≤ x) := by
  rw [targetExponent_eq] at ht
  obtain ⟨n, rfl⟩ : ∃ n : ℕ, t = e + n := ⟨(t - e).toNat, by omega⟩
  rw [stepsAt_add (by omega), ← Nat.mul_assoc, ← Nat.mul_assoc, ← Nat.pow_add, ← Nat.pow_add]
  constructor
  · have hm : m + 1 ≤ 2 ^ (24 + n) :=
      Nat.lt_log2_self.trans_le (Nat.pow_le_pow_right Nat.two_pos (by omega))
    exact hx'.trans_le (Nat.mul_le_mul_right _ hm)
  · refine or_iff_not_imp_left.mpr fun hnot => ?_
    have hlog : m.log2 = 23 + n := by omega
    have hpos : m ≠ 0 := by
      rintro rfl
      rw [Nat.log2_zero] at hlog
      omega
    have hm : 2 ^ (23 + n) ≤ m := hlog ▸ Nat.log2_self_le hpos
    exact (Nat.mul_le_mul_right _ hm).trans hx

/-- A rounded significand has at most one bit too many, and that is a zero. -/
theorem shift_rounded {k : ℕ} {t : ℤ} (hk : k ≤ 2 ^ 24) (ht : -149 ≤ t)
    (hnormal : t = -149 ∨ 2 ^ 23 ≤ k) {em : ExtendedMantissa} {e : ℤ}
    (h : shiftToTargetExponent Format.binary32 k t .exact = (em, e)) :
    em.mantissa * stepsAt e = k * stepsAt t ∧ Layout.single.Canonical em.mantissa e := by
  rw [shiftToTargetExponent, targetExponent_eq, shiftToExponent] at h
  obtain ⟨rfl, rfl⟩ := Prod.mk.inj h
  rcases hk.eq_or_lt with rfl | hk
  · have hlog : (2 ^ 24).log2 = 24 := Nat.log2_two_pow
    have hamount : (max (((2 ^ 24).log2 : ℕ) + 1 + t - 24) (-149) - t).toNat = 1 := by omega
    have hmantissa : (ExtendedMantissa.ofMantissaAndAccuracy (2 ^ 24) .exact >>> 1).mantissa =
        2 ^ 23 := rfl
    rw [hamount, hmantissa, stepsAt_add (by omega)]
    exact ⟨by ring, ⟨by decide, by show -149 ≤ _; omega, fun _ => le_rfl⟩⟩
  · have hlog : k.log2 < 24 := by
      rcases Nat.eq_zero_or_pos k with rfl | hpos
      · decide
      · exact (Nat.log2_lt hpos.ne').mpr hk
    have hamount : (max ((k.log2 : ℕ) + 1 + t - 24) (-149) - t).toNat = 0 := by omega
    have hmantissa : (ExtendedMantissa.ofMantissaAndAccuracy k .exact >>> 0).mantissa = k := rfl
    rw [hamount, hmantissa, Nat.cast_zero, Int.add_zero]
    exact ⟨rfl, ⟨hk, ht, fun hlt => hnormal.resolve_left (Int.ne_of_gt hlt)⟩⟩

/-- A significand at the exponent that rounding chooses is rounded to a neighbour on the grid. -/
theorem roundedMantissa_spec {em : ExtendedMantissa} {t : ℤ} {x : ℕ} (ht : -149 ≤ t)
    (h : Brackets em (stepsAt t) x) (hbits : x < 2 ^ 24 * stepsAt t)
    (hleading : t = -149 ∨ 2 ^ 23 * stepsAt t ≤ x) :
    em.roundedMantissa ≤ 2 ^ 24 ∧ (t = -149 ∨ 2 ^ 23 ≤ em.roundedMantissa) ∧
      Rounds x (em.roundedMantissa * stepsAt t : ℕ) := by
  obtain ⟨hbelow, habove⟩ := h.roundedMantissa
  refine ⟨?_, hleading.imp_right fun hlarge => ?_, ?_⟩
  · refine Nat.le_of_lt_succ (lt_of_mul_lt_mul_right (habove.trans ?_) (Nat.zero_le (stepsAt t)))
    rw [Nat.succ_mul]
    omega
  · exact Nat.le_of_lt_succ
      (lt_of_mul_lt_mul_right (hlarge.trans_lt hbelow) (Nat.zero_le (stepsAt t)))
  · have hgrid : stepsAt t = 2 ^ ((t + 149).toNat + 1) := by
      rw [stepsAt]
      congr 1
      omega
    rw [hgrid] at hbelow habove hleading ⊢
    exact rounds_of_grid (hleading.imp_left fun h => by omega) hbelow habove

/-- What is rounded with an accuracy is the rounded value that the significand is cut from. -/
theorem roundWithAccuracy_spec (s : Sign) {m x : ℕ} {e : ℤ} {accuracy : Accuracy}
    (h : Brackets (.ofMantissaAndAccuracy m accuracy) (stepsAt e) x) (he : -149 ≤ e)
    (htarget : e ≤ Format.binary32.targetExponent (totalExponent m e)) :
    IsRounded (s.apply x) (roundWithAccuracy Format.binary32 s m e accuracy) := by
  have hmantissa : (ExtendedMantissa.ofMantissaAndAccuracy m accuracy).mantissa = m := by
    rcases accuracy with _ | (_ | _ | _) <;> rfl
  have hle := h.le
  have hlt := h.lt
  rw [hmantissa] at hle hlt
  obtain ⟨t, ht⟩ : ∃ t, Format.binary32.targetExponent (totalExponent m e) = t := ⟨_, rfl⟩
  rw [ht] at htarget
  obtain ⟨hbits, hleading⟩ := bounds_of_targetExponent he ht htarget hle hlt
  -- The first shift cuts the significand, which is rounded then.
  have hamount : (stepsAt t) = 2 ^ (t - e).toNat * stepsAt e := by
    rw [← stepsAt_add (by omega)]
    congr 1
    omega
  have hexponent : e + (t - e).toNat = t := by omega
  have hfirst := h.shiftRight (t - e).toNat
  rw [← hamount] at hfirst
  have hshift : shiftToTargetExponent Format.binary32 m e accuracy =
      (ExtendedMantissa.ofMantissaAndAccuracy m accuracy >>> (t - e).toNat, t) := by
    rw [shiftToTargetExponent, ht, shiftToExponent, hexponent]
  generalize ExtendedMantissa.ofMantissaAndAccuracy m accuracy >>> (t - e).toNat = em at *
  obtain ⟨hmax, hmin, hrounds⟩ := roundedMantissa_spec (by omega) hfirst hbits hleading
  -- The second shift changes nothing but the form of the result.
  obtain ⟨⟨em', e'⟩, hsecond⟩ :
      ∃ p, shiftToTargetExponent Format.binary32 em.roundedMantissa t .exact = p := ⟨_, rfl⟩
  obtain ⟨hvalue, hcanonical⟩ := shift_rounded hmax (by omega) hmin hsecond
  rw [← hvalue] at hrounds
  unfold roundWithAccuracy
  simp only [hshift, hsecond]
  split
  · next hzero =>
    rw [hzero, Nat.zero_mul] at hrounds
    refine ⟨trivial, ?_⟩
    cases s with
    | negative => exact hrounds.neg
    | positive => exact hrounds
  · exact ⟨hcanonical, hrounds.apply s⟩

theorem brackets_exact {m unit : ℕ} (hunit : 0 < unit) :
    Brackets (.ofMantissaAndAccuracy m .exact) unit (m * unit) where
  le := le_rfl
  lt := Nat.mul_lt_mul_of_pos_right (Nat.lt_succ_self m) hunit
  more := by rintro (h | h) <;> cases h

/-- A significand that is lengthened at the expense of its exponent counts as much. -/
theorem decreaseExponent_spec {m : ℕ} {e t : ℤ} (he : -149 ≤ e) (ht : -149 ≤ t) :
    (decreaseExponent m e t).1 * stepsAt (decreaseExponent m e t).2 = m * stepsAt e ∧
      (decreaseExponent m e t).2 = min e t ∧
      (0 < m → totalExponent (decreaseExponent m e t).1 (decreaseExponent m e t).2 =
        totalExponent m e) := by
  obtain ⟨n, hn⟩ : ∃ n : ℕ, (e - t).toNat = n := ⟨_, rfl⟩
  rw [decreaseExponent, hn, Nat.shiftLeft_eq]
  dsimp only
  refine ⟨?_, by omega, fun hpos => ?_⟩
  · have hsum : e - n + n = e := by omega
    rw [Nat.mul_assoc, ← stepsAt_add (by omega), hsum]
  · rw [totalExponent, totalExponent, log2_mul_two_pow hpos]
    omega

theorem round_spec (s : Sign) {m : ℕ} (hpos : 0 < m) {e : ℤ} (he : -149 ≤ e) :
    IsRounded (s.apply (m * stepsAt e : ℕ)) (round Format.binary32 s m e) := by
  have htarget := targetExponent_eq m e
  have hleast : -149 ≤ Format.binary32.targetExponent (totalExponent m e) := by omega
  obtain ⟨hvalue, hexponent, htotal⟩ := decreaseExponent_spec (m := m) he hleast
  have hexact := brackets_exact (m := (decreaseExponent m e
    (Format.binary32.targetExponent (totalExponent m e))).1) (stepsAt_pos (decreaseExponent m e
    (Format.binary32.targetExponent (totalExponent m e))).2)
  rw [hvalue] at hexact
  have hspec := roundWithAccuracy_spec s hexact (by omega) (by rw [htotal hpos]; omega)
  exact hspec

theorem normalize_spec (n : ℤ) {e : ℤ} (he : -149 ≤ e) (s : Sign) :
    IsRounded (n * stepsAt e) (UnpackedFloat.normalize Format.binary32 n e s) := by
  unfold UnpackedFloat.normalize
  split
  · next hlt =>
    obtain ⟨k, rfl⟩ : ∃ k : ℕ, n = -k := ⟨n.natAbs, by have := compare_lt_iff_lt.mp hlt; omega⟩
    have hpos : 0 < k := by have := compare_lt_iff_lt.mp hlt; omega
    have hspec := round_spec .negative hpos he
    rw [neg_neg, Int.toNat_natCast, neg_mul, ← Nat.cast_mul]
    exact hspec
  · next heq =>
    rw [compare_eq_iff_eq.mp heq, zero_mul]
    exact ⟨trivial, rounds_self 0⟩
  · next hgt =>
    obtain ⟨k, rfl⟩ : ∃ k : ℕ, n = k := ⟨n.toNat, by have := compare_gt_iff_gt.mp hgt; omega⟩
    have hpos : 0 < k := by have := compare_gt_iff_gt.mp hgt; omega
    have hspec := round_spec .positive hpos he
    rw [Int.toNat_natCast, ← Nat.cast_mul]
    exact hspec

/-! ## Sums, differences and halves -/

theorem stepsOf_finite (s : Sign) {m : ℕ} (e : ℤ) (hpos : 0 < m) :
    stepsOf (.finite s m e hpos) = s.apply m * stepsAt e := by
  cases s with
  | negative => show -((m * stepsAt e : ℕ) : ℤ) = -(m : ℤ) * _; rw [Nat.cast_mul, neg_mul]
  | positive => exact Nat.cast_mul _ _

/-- A significand that is aligned to a smaller exponent counts as much. -/
theorem apply_decreaseExponent (s : Sign) {m : ℕ} {e t : ℤ} (hle : t ≤ e) (ht : -149 ≤ t) :
    s.apply (decreaseExponent m e t).1 * stepsAt t = s.apply m * stepsAt e := by
  obtain ⟨hvalue, hexponent, -⟩ := decreaseExponent_spec (m := m) (ht.trans hle) ht
  rw [hexponent, min_eq_right hle] at hvalue
  have hvalue : ((decreaseExponent m e t).1 : ℤ) * stepsAt t = m * stepsAt e := by
    exact_mod_cast hvalue
  cases s with
  | negative => rw [Sign.apply, Sign.apply, neg_mul, neg_mul, hvalue]
  | positive => exact hvalue

theorem IsRounded.self {u : UnpackedFloat} (hu : Regular u) : IsRounded (stepsOf u) u :=
  ⟨hu, rounds_self _⟩

/-- A sum is rounded from the exact sum. -/
theorem add_spec {u v : UnpackedFloat} (hu : Regular u) (hv : Regular v) :
    IsRounded (stepsOf u + stepsOf v) (add Format.binary32 u v) := by
  rcases u with _ | _ | s | ⟨s, m, e, hpos⟩
  · exact hu.elim
  · exact hu.elim
  · have hzero : stepsOf (.zero s) + stepsOf v = stepsOf v := zero_add _
    rw [hzero]
    rcases v with _ | _ | s' | _
    · exact hv.elim
    · exact hv.elim
    · rw [add]
      split <;> exact ⟨trivial, rounds_self _⟩
    · exact .self hv
  · rcases v with _ | _ | s' | ⟨s', m', e', hpos'⟩
    · exact hv.elim
    · exact hv.elim
    · have hzero : stepsOf (.finite s m e hpos) + stepsOf (.zero s') =
          stepsOf (.finite s m e hpos) := add_zero _
      rw [hzero]
      exact .self hu
    · have hle : -149 ≤ min e e' := le_min hu.le_exponent hv.le_exponent
      have hspec := normalize_spec (s.apply (decreaseExponent m e (min e e')).1 +
        s'.apply (decreaseExponent m' e' (min e e')).1) hle .positive
      rw [add_mul, apply_decreaseExponent s (min_le_left e e') hle,
        apply_decreaseExponent s' (min_le_right e e') hle, ← stepsOf_finite s e hpos,
        ← stepsOf_finite s' e' hpos'] at hspec
      exact hspec

theorem stepsOf_neg (u : UnpackedFloat) : stepsOf u.neg = -stepsOf u := by
  rcases u with s | _ | s | ⟨s, m, e, hpos⟩
  · cases s with
    | negative => exact (neg_neg _).symm
    | positive => rfl
  · rfl
  · rfl
  · cases s with
    | negative => exact (neg_neg _).symm
    | positive => rfl

theorem sub_eq_add_neg (u v : UnpackedFloat) :
    sub Format.binary32 u v = add Format.binary32 u v.neg := by
  rcases u with _ | _ | _ | _ <;> rcases v with _ | _ | _ | ⟨s, m, e, hpos⟩ <;> first | rfl | skip
  cases s with
  | negative => simp only [sub, add, neg, Sign.apply, sub_neg_eq_add]
  | positive => rfl

/-- A difference is rounded from the exact difference. -/
theorem sub_spec {u v : UnpackedFloat} (hu : Regular u) (hv : Regular v) :
    IsRounded (stepsOf u - stepsOf v) (sub Format.binary32 u v) := by
  have hneg : Regular v.neg := by cases v <;> exact hv
  rw [sub_eq_add_neg, Int.sub_eq_add_neg, ← stepsOf_neg]
  exact add_spec hu hneg

/-- A quotient stands for a natural if the dividend counts as much as the divisor times it. -/
theorem brackets_div {n d unit x : ℕ} (hd : 0 < d) (hunit : 0 < unit) (h : n * unit = d * x) :
    Brackets (.ofMantissaAndAccuracy (n / d) (accuracyOfFraction (n % d) d)) unit x := by
  have hmantissa : (ExtendedMantissa.ofMantissaAndAccuracy (n / d)
      (accuracyOfFraction (n % d) d)).mantissa = n / d := by
    generalize accuracyOfFraction (n % d) d = accuracy
    rcases accuracy with _ | (_ | _ | _) <;> rfl
  have hdivision := Nat.div_add_mod n d
  have hmod := Nat.mod_lt n hd
  refine ⟨?_, ?_, fun hbits => ?_⟩ <;> rw [hmantissa]
  · refine Nat.le_of_mul_le_mul_left ?_ hd
    rw [← Nat.mul_assoc, ← h]
    exact Nat.mul_le_mul_right _ (by omega)
  · refine Nat.lt_of_mul_lt_mul_left (a := d) ?_
    rw [← Nat.mul_assoc, ← h, Nat.mul_succ]
    exact Nat.mul_lt_mul_of_pos_right (by omega) hunit
  · -- No bit is set without a remainder.
    have hrest : n % d ≠ 0 := by
      intro hzero
      rw [accuracyOfFraction, if_pos hzero] at hbits
      rcases hbits with hbit | hbit <;> cases hbit
    refine Nat.lt_of_mul_lt_mul_left (a := d) ?_
    rw [← Nat.mul_assoc, ← h]
    exact Nat.mul_lt_mul_of_pos_right (by omega) hunit

/-- Two, unpacked. -/
def two : UnpackedFloat := .finite .positive 0x800000 (-(22 : Nat)) (by decide)

/-- The quotient of a lengthened significand has one bit more than rounding keeps, unless its
exponent is the least one. -/
theorem le_targetExponent_quotient {m n : ℕ} {t : ℤ} (hpos : 0 < m)
    (h : t ≠ -149 → m.log2 + n = 47) :
    t ≤ Format.binary32.targetExponent (totalExponent (m * 2 ^ n / 2 ^ 23) t) := by
  rw [targetExponent_eq]
  by_cases hlow : t = -149
  · rw [hlow]
    exact le_max_right _ _
  · have hpower : 2 ^ 47 ≤ m * 2 ^ n := by
      calc 2 ^ 47 = 2 ^ m.log2 * 2 ^ n := by rw [← Nat.pow_add, h hlow]
        _ ≤ m * 2 ^ n := Nat.mul_le_mul_right _ (Nat.log2_self_le hpos.ne')
    have hquotient : 2 ^ 24 ≤ m * 2 ^ n / 2 ^ 23 :=
      (Nat.le_div_iff_mul_le (by decide)).mpr hpower
    have hlong := (Nat.le_log2 (by omega)).mpr hquotient
    omega

/-- A half is rounded from the exact half. -/
theorem half_spec {u : UnpackedFloat} (hu : Regular u) {x : ℤ} (hx : 2 * x = stepsOf u) :
    IsRounded x (div Format.binary32 u two) := by
  rcases u with _ | _ | s | ⟨s, m, e, hpos⟩
  · exact hu.elim
  · exact hu.elim
  · have hzero : x = 0 := by
      have hx : 2 * x = 0 := hx
      omega
    rw [hzero]
    exact ⟨trivial, rounds_self 0⟩
  · obtain ⟨k, hk, rfl⟩ : ∃ k : ℕ, 2 * k = m * stepsAt e ∧ x = s.apply k := by
      refine ⟨x.natAbs, ?_⟩
      cases s with
      | negative =>
        have hx : 2 * x = -(m * stepsAt e : ℕ) := hx
        exact ⟨by omega, by show x = -(x.natAbs : ℤ); omega⟩
      | positive =>
        have hx : 2 * x = (m * stepsAt e : ℕ) := hx
        exact ⟨by omega, by show x = (x.natAbs : ℤ); omega⟩
    obtain ⟨t, ht⟩ : ∃ t, min (e - -(22 : Nat)) (Format.binary32.targetExponent
      (totalExponent m e - totalExponent (2 ^ 23) (-(22 : Nat)))) = t := ⟨_, rfl⟩
    obtain ⟨n, hn⟩ : ∃ n, (e - -(22 : Nat) - t).toNat = n := ⟨_, rfl⟩
    have hlog : m.log2 < 24 := (Nat.log2_lt hpos.ne').mpr hu.lt
    have hleast : -149 ≤ e := hu.le_exponent
    have htarget : t = max (m.log2 + 1 + e - 26) (-149) := by
      have hmax : Format.binary32.targetExponent (totalExponent m e -
          totalExponent (2 ^ 23) (-(22 : Nat))) = max (m.log2 + 1 + e - (((2 ^ 23 : Nat).log2 : ℕ) +
            1 + -(22 : Nat)) - 24) (-149) := rfl
      rw [hmax, Nat.log2_two_pow] at ht
      omega
    have hcount : m * 2 ^ n * stepsAt t = 2 ^ 23 * k := by
      have hsum : t + n = e + (22 : ℕ) := by omega
      calc m * 2 ^ n * stepsAt t = m * stepsAt (t + n) := by rw [stepsAt_add (by omega)]; ring
        _ = 2 ^ 22 * (m * stepsAt e) := by rw [hsum, stepsAt_add (by omega)]; ring
        _ = 2 ^ 23 * k := by rw [← hk]; ring
    have henough := le_targetExponent_quotient hpos (t := t) (n := n) fun hlow => by omega
    have hspec := roundWithAccuracy_spec s (brackets_div (Nat.two_pow_pos 23) (stepsAt_pos t)
      hcount) (by omega) henough
    have hsign : s / .positive = s := by cases s <;> rfl
    have htwo : two = .finite .positive (2 ^ 23) (-(22 : Nat)) (Nat.two_pow_pos 23) := rfl
    rw [htwo, div, divCore, ht, hsign, hn, Nat.shiftLeft_eq]
    exact hspec

end Single

end BoostedTrees
