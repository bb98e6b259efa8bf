import BoostedTrees.Growth.Split
import BoostedTrees.Proofs.NumberSteps

/-!
# Thresholds of splits

The threshold of a split is meant to lie between two values, above the lower one and not above the
upper one. It is the lower value plus half the difference of the two. Half of the rounded
difference is rounded to no more than the exact difference, so the sum does not leave the interval,
and where it is rounded to the lower value the upper one is taken.

This goes wrong in two cases only. The difference of two finite values may be too large for a
number, and then the threshold is the positive infinity. And nothing can be added to the negative
infinity: if it is the lower value, the threshold is a NaN.

## Main definitions

* `Split.Boundary.HasMiddle`: neither of the two cases

## Main results

* `Single.rounded_add`, `Single.rounded_sub`, `Single.rounded_half`: arithmetic on finite numbers
* `Split.Boundary.threshold_between`: where the threshold lies
* `Split.Boundary.threshold_of_negInfinity`, `Split.Boundary.threshold_of_overflow`: the two cases
-/

namespace BoostedTrees

namespace Single

open Float.Model (Format UnpackedFloat)
open Float.Model.UnpackedFloat

/-! ## Results of operations -/

/-- The number that an unpacked one is packed to. -/
def ofUnpacked (u : UnpackedFloat) : Single := ofFloat32 (.ofModel (.pack u))

/-- A number is the rounded one to an integer. It may be infinite, so it is compared with what is
not below or above the infinities. -/
structure IsRoundedTo (x : ℤ) (z : Single) : Prop where
  isNaN : z.isNaN = false
  le : ∀ y, Representable y → -stepsAt 128 ≤ y → x ≤ y → z.steps ≤ y
  ge : ∀ y, Representable y → y ≤ stepsAt 128 → y ≤ x → y ≤ z.steps

@[simp] theorem natAbs_apply (s : Sign) (n : ℕ) : (s.apply n).natAbs = n := by
  cases s with
  | negative => exact Int.natAbs_neg n
  | positive => rfl

section Packed

variable {u : UnpackedFloat} (h : Proper u)
include h

theorem ofUnpacked_eq : ofUnpacked u = ⟨⟨pack Format.binary32 u⟩⟩ := by
  have hnumber : (Float32.ofModel (.pack u)).isNaN = false := by
    show (unpack Format.binary32 (pack Format.binary32 u)).isNaN = false
    rw [unpack_pack h]
    cases u with
    | notANumber => exact h.elim
    | _ => rfl
  rw [ofUnpacked, ofFloat32, hnumber, if_neg Bool.false_ne_true]
  rfl

theorem isNaN_ofUnpacked : (ofUnpacked u).isNaN = false := by
  rw [ofUnpacked_eq h, ← Bool.not_eq_true]
  intro hnan
  obtain ⟨hexponent, hfraction⟩ := fields_of_isNaN hnan
  have hnone : unpack Format.binary32 (pack Format.binary32 u) = .notANumber :=
    unpack_eq_notANumber hexponent hfraction
  rw [unpack_pack h] at hnone
  rw [hnone] at h
  exact h

theorem unpacked_ofUnpacked : (ofUnpacked u).unpacked = u := by
  rw [unpacked_eq (isNaN_ofUnpacked h), ofUnpacked_eq h]
  exact unpack_pack h

end Packed

/-- A number that counts less than an infinity can be packed. -/
theorem Regular.proper {u : UnpackedFloat} (hu : Regular u) (h : (stepsOf u).natAbs < stepsAt 128) :
    Proper u := by
  rcases u with _ | _ | s | ⟨s, m, e, hpos⟩
  · exact hu.elim
  · exact hu.elim
  · trivial
  · refine ⟨hu, not_lt.mp fun hlarge => absurd h (not_lt.mpr ?_)⟩
    have hnormal : 2 ^ 23 ≤ m := hu.le_of_lt (by show -149 < e; omega)
    calc stepsAt 128 = 2 ^ 23 * stepsAt 105 := stepsAt_add (e := 105) (by decide) 23
      _ ≤ m * stepsAt e := Nat.mul_le_mul hnormal (stepsAt_mono hlarge)
      _ = (stepsOf (.finite s m e hpos)).natAbs := (natAbs_apply s _).symm

/-- What counts as much as an infinity, or more, is packed to the infinity. -/
theorem Regular.pack_eq {u : UnpackedFloat} (hu : Regular u)
    (h : stepsAt 128 ≤ (stepsOf u).natAbs) : ∃ s : Sign,
      pack Format.binary32 u = pack Format.binary32 (.infinity s) ∧
        stepsOf u = s.apply (stepsOf u).natAbs := by
  rcases u with _ | _ | s | ⟨s, m, e, hpos⟩
  · exact hu.elim
  · exact hu.elim
  · exact absurd h (not_le.mpr (stepsAt_pos 128))
  · have hcount : (stepsOf (.finite s m e hpos)).natAbs = m * stepsAt e := natAbs_apply s _
    have he : 104 < e := by
      by_contra hsmall
      have := mul_stepsAt_lt_stepsAt hu (not_lt.mp hsmall)
      omega
    refine ⟨s, if_pos ?_, by rw [hcount]; rfl⟩
    show 2 ^ 8 ≤ (e + (127 : ℕ) + (23 : ℕ)).toNat + 1
    omega

/-- What an operation on unpacked numbers gives is packed to the rounded number. -/
theorem IsRounded.ofUnpacked {x : ℤ} {u : UnpackedFloat} (h : IsRounded x u) :
    IsRoundedTo x (ofUnpacked u) := by
  rcases Nat.lt_or_ge (stepsOf u).natAbs (stepsAt 128) with hsmall | hlarge
  · have hproper := h.regular.proper hsmall
    have hsteps : (Single.ofUnpacked u).steps = stepsOf u :=
      congrArg stepsOf (unpacked_ofUnpacked hproper)
    refine ⟨isNaN_ofUnpacked hproper, ?_, ?_⟩ <;> rw [hsteps] <;> intro y hy _
    · exact (h.rounds y hy).1
    · exact (h.rounds y hy).2
  · obtain ⟨s, hpack, hsign⟩ := h.regular.pack_eq hlarge
    have hinfinite : Single.ofUnpacked u = Single.ofUnpacked (.infinity s) := by
      unfold Single.ofUnpacked Float32.Model.pack
      simp only [hpack]
    have hsteps : (Single.ofUnpacked u).steps = s.apply (stepsAt 128) := by
      rw [hinfinite]
      exact congrArg stepsOf (unpacked_ofUnpacked (u := .infinity s) trivial)
    have hnan : (Single.ofUnpacked u).isNaN = false := by
      rw [hinfinite]
      exact isNaN_ofUnpacked (u := .infinity s) trivial
    refine ⟨hnan, ?_, ?_⟩ <;> rw [hsteps] <;> intro y hy hbound hxy
    · have hle := (h.rounds y hy).1 hxy
      cases s <;> simp only [Sign.apply] at hsign ⊢ <;> omega
    · have hge := (h.rounds y hy).2 hxy
      cases s <;> simp only [Sign.apply] at hsign ⊢ <;> omega

/-! ## Arithmetic -/

section Arithmetic

variable {x y : Single}

theorem zipWith_eq {op : Float32 → Float32 → Float32} (hx : x.isNaN = false)
    (hy : y.isNaN = false) : zipWith op x y = ofFloat32 (op x.toFloat32 y.toFloat32) := by
  rw [zipWith, hx, hy, if_neg Bool.false_ne_true, if_neg Bool.false_ne_true]

theorem add_eq (hx : x.isNaN = false) (hy : y.isNaN = false) :
    x + y = ofUnpacked (add Format.binary32 x.unpacked y.unpacked) := zipWith_eq hx hy

theorem sub_eq (hx : x.isNaN = false) (hy : y.isNaN = false) :
    x - y = ofUnpacked (sub Format.binary32 x.unpacked y.unpacked) := zipWith_eq hx hy

theorem half_eq (hx : x.isNaN = false) :
    x / 2 = ofUnpacked (div Format.binary32 x.unpacked two) := zipWith_eq hx (by decide)

/-- A finite number has a significand and an exponent. -/
theorem regular_unpacked (h : x.isFinite) : Regular x.unpacked := by
  obtain ⟨hx, hlt⟩ := isFinite_iff_steps.mp h
  have hproper := proper_unpacked hx
  rw [steps] at hlt
  revert hproper hlt
  rcases x.unpacked with s | _ | s | ⟨s, m, e, hpos⟩ <;> intro hlt hproper
  · exact absurd (natAbs_apply s (stepsAt 128)) (Nat.ne_of_lt hlt)
  · exact hproper.elim
  · trivial
  · exact hproper.1

theorem rounded_add (hx : x.isFinite) (hy : y.isFinite) :
    IsRoundedTo (x.steps + y.steps) (x + y) := by
  rw [add_eq (isFinite_iff_steps.mp hx).1 (isFinite_iff_steps.mp hy).1]
  exact (add_spec (regular_unpacked hx) (regular_unpacked hy)).ofUnpacked

theorem rounded_sub (hx : x.isFinite) (hy : y.isFinite) :
    IsRoundedTo (x.steps - y.steps) (x - y) := by
  rw [sub_eq (isFinite_iff_steps.mp hx).1 (isFinite_iff_steps.mp hy).1]
  exact (sub_spec (regular_unpacked hx) (regular_unpacked hy)).ofUnpacked

theorem rounded_half (hx : x.isFinite) {k : ℤ} (hk : 2 * k = x.steps) : IsRoundedTo k (x / 2) := by
  rw [half_eq (isFinite_iff_steps.mp hx).1]
  exact (half_spec (regular_unpacked hx) hk).ofUnpacked

theorem unpacked_infinity : infinity.unpacked = .infinity .positive := rfl

theorem unpacked_negInfinity : negInfinity.unpacked = .infinity .negative := rfl

/-- The positive infinity less what counts less is the positive infinity. -/
theorem infinity_sub (hx : x.isNaN = false) (h : x.steps < stepsAt 128) :
    infinity - x = infinity := by
  have hresult : ∀ u, Proper u → stepsOf u < stepsAt 128 →
      sub Format.binary32 (.infinity .positive) u = .infinity .positive := by
    rintro ((_ | _) | _ | _ | _) hu h
    · rfl
    · exact absurd h (lt_irrefl _)
    · exact hu.elim
    · rfl
    · rfl
  rw [sub_eq (by decide) hx, unpacked_infinity, hresult _ (proper_unpacked hx) h]
  rfl

theorem add_unpacked_infinity {u : UnpackedFloat} (hu : Proper u) (h : -stepsAt 128 < stepsOf u) :
    add Format.binary32 u (.infinity .positive) = .infinity .positive := by
  rcases u with (_ | _) | _ | _ | _
  · exact absurd h (lt_irrefl _)
  · rfl
  · exact hu.elim
  · rfl
  · rfl

/-- The positive infinity is the sum of itself and what counts more than the negative infinity. -/
theorem add_infinity (hx : x.isNaN = false) (h : -stepsAt 128 < x.steps) :
    x + infinity = infinity := by
  rw [add_eq hx (by decide), unpacked_infinity, add_unpacked_infinity (proper_unpacked hx) h]
  rfl

/-- What counts more than the negative infinity, less that, is the positive infinity. -/
theorem sub_negInfinity (hx : x.isNaN = false) (h : -stepsAt 128 < x.steps) :
    x - negInfinity = infinity := by
  have hneg : (UnpackedFloat.infinity .negative).neg = .infinity .positive := rfl
  rw [sub_eq hx (by decide), unpacked_negInfinity, sub_eq_add_neg, hneg,
    add_unpacked_infinity (proper_unpacked hx) h]
  rfl

theorem infinity_half : infinity / 2 = infinity := by
  rw [half_eq (by decide), unpacked_infinity]
  rfl

end Arithmetic

end Single

/-! ## Thresholds -/

namespace Split.Boundary

open Single (stepsAt stepsAt_pos stepsAt_add Representable representable_zero representable_two_pow
  representable_stepsAt)

/-- The lower value can be added to, and the difference is not too large for a number, unless the
upper value is infinite itself. -/
structure HasMiddle (b : Boundary) : Prop where
  last : b.last ≠ Single.negInfinity
  difference : b.next = Single.infinity ∨ (b.next - b.last).isFinite

instance (b : Boundary) : Decidable b.HasMiddle :=
  decidable_of_iff (b.last ≠ Single.negInfinity ∧
    (b.next = Single.infinity ∨ (b.next - b.last).isFinite)) ⟨fun h => ⟨h.1, h.2⟩,
      fun h => ⟨h.1, h.2⟩⟩

variable {b : Boundary}

section

variable (hlast : b.last.isNaN = false) (hnext : b.next.isNaN = false)
  (hlt : b.last.steps < b.next.steps)
include hlast hnext hlt

/-- Half of the rounded difference is rounded to no more than the exact difference. -/
theorem half_difference (hlast' : b.last.isFinite) (hnext' : b.next.isFinite)
    (hdifference : (b.next - b.last).isFinite) :
    ((b.next - b.last) / 2).isFinite ∧ 0 ≤ ((b.next - b.last) / 2).steps ∧
      ((b.next - b.last) / 2).steps ≤ b.next.steps - b.last.steps := by
  have hrounded := Single.rounded_sub hnext' hlast'
  obtain ⟨k, hk⟩ := Single.even_steps hrounded.isNaN
  have hhalf := Single.rounded_half hdifference hk
  obtain ⟨D, hD⟩ : ∃ D : ℕ, b.next.steps - b.last.steps = D :=
    ⟨_, (Int.toNat_of_nonneg (by omega)).symm⟩
  have hlarge := stepsAt_pos 128
  rw [hD] at hrounded ⊢
  -- The difference is between two powers of two, and the upper one bounds the rounded difference.
  obtain ⟨n, hle, hlt'⟩ : ∃ n : ℕ, 2 ^ (n + 1) ≤ D ∧ D < 2 ^ (n + 1 + 1) := by
    obtain ⟨i, hi⟩ := Single.even_steps hlast
    obtain ⟨j, hj⟩ := Single.even_steps hnext
    have hlog : 1 ≤ D.log2 := (Nat.le_log2 (by omega)).mpr (by omega)
    refine ⟨D.log2 - 1, ?_⟩
    rw [Nat.sub_add_cancel hlog]
    exact ⟨Nat.log2_self_le (by omega), Nat.lt_log2_self⟩
  have hnonneg : 0 ≤ k := by
    have := hrounded.ge 0 representable_zero (by omega) (by omega)
    omega
  have hupper : k ≤ (2 ^ (n + 1) : ℕ) := by
    have := hrounded.le (2 ^ (n + 1 + 1) : ℕ) (representable_two_pow _) (by omega) (by omega)
    omega
  have hdouble : stepsAt 128 = 2 ^ 1 * stepsAt 127 := stepsAt_add (e := 127) (by decide) 1
  have hsmall : k ≤ stepsAt 127 := by
    have hfinite := (Single.isFinite_iff_steps.mp hdifference).2
    omega
  have hsteps := hhalf.ge 0 representable_zero (by omega) hnonneg
  have hsteps' := hhalf.le (2 ^ (n + 1) : ℕ) (representable_two_pow n) (by omega) hupper
  have hsteps'' := hhalf.le (stepsAt 127) (representable_stepsAt (by decide)) (by omega) hsmall
  refine ⟨Single.isFinite_iff_steps.mpr ⟨hhalf.isNaN, ?_⟩, hsteps, by omega⟩
  have := stepsAt_pos 127
  omega

/-- Only an infinite number at a boundary counts as much as an infinity. -/
theorem isFinite_last (h : b.last ≠ Single.negInfinity) : b.last.isFinite := by
  have hbound := Single.natAbs_steps_le hlast
  have hbound' := Single.natAbs_steps_le hnext
  refine Single.isFinite_iff_steps.mpr ⟨hlast, lt_of_le_of_ne hbound fun heq => h ?_⟩
  have hlarge := stepsAt_pos 128
  have hsteps : b.last.steps = -stepsAt 128 := by omega
  exact Single.eq_of_steps_eq hlast (by decide) hsteps (by omega)

theorem isFinite_next (h : b.next ≠ Single.infinity) : b.next.isFinite := by
  have hbound := Single.natAbs_steps_le hlast
  have hbound' := Single.natAbs_steps_le hnext
  refine Single.isFinite_iff_steps.mpr ⟨hnext, lt_of_le_of_ne hbound' fun heq => h ?_⟩
  have hlarge := stepsAt_pos 128
  have hsteps : b.next.steps = stepsAt 128 := by omega
  exact Single.eq_of_steps_eq hnext (by decide) hsteps (by omega)

/-- Where there is a middle, the sum is not beyond the values. -/
theorem middle_le (h : b.HasMiddle) : (b.last + (b.next - b.last) / 2).isNaN = false ∧
    (b.last + (b.next - b.last) / 2).steps ≤ b.next.steps := by
  have hfinite := isFinite_last hlast hnext hlt h.last
  have hsteps := (Single.isFinite_iff_steps.mp hfinite).2
  have hbound := Single.natAbs_steps_le hnext
  by_cases hinfinite : b.next = Single.infinity
  · rw [hinfinite, Single.infinity_sub hlast (by omega), Single.infinity_half,
      Single.add_infinity hlast (by omega)]
    exact ⟨by decide, le_rfl⟩
  · have hdifference := h.difference.resolve_left hinfinite
    obtain ⟨hhalf, hle, hle'⟩ := half_difference hlast hnext hlt hfinite
      (isFinite_next hlast hnext hlt hinfinite) hdifference
    have hsum := Single.rounded_add hfinite hhalf
    exact ⟨hsum.isNaN, hsum.le _ (Single.representable_steps hnext) (by omega) (by omega)⟩

/-- Where there is a middle, the threshold is above the lower value and not above the upper one. -/
theorem threshold_between (h : b.HasMiddle) : b.threshold.isNaN = false ∧
    b.last.steps < b.threshold.steps ∧ b.threshold.steps ≤ b.next.steps := by
  obtain ⟨hnumber, hle⟩ := middle_le hlast hnext hlt h
  unfold threshold
  dsimp only
  split
  · exact ⟨hnext, hlt, le_rfl⟩
  · next habove => exact ⟨hnumber, not_le.mp (mt (Single.le_iff hnumber hlast).mpr habove), hle⟩

omit hlast in
/-- If the lower value is the negative infinity, the threshold is no number. -/
theorem threshold_of_negInfinity (h : b.last = Single.negInfinity) :
    b.threshold = Single.indefinite := by
  have hsum : Single.negInfinity + Single.infinity = Single.indefinite := by decide
  have hnone : ¬Single.indefinite ≤ Single.negInfinity := by decide
  rw [h, Single.steps_negInfinity] at hlt
  rw [threshold, h, Single.sub_negInfinity hnext hlt, Single.infinity_half, hsum]
  exact if_neg hnone

/-- A difference that is too large makes the threshold infinite. -/
theorem threshold_of_overflow (h : b.last ≠ Single.negInfinity) (h' : ¬b.HasMiddle) :
    b.threshold = Single.infinity := by
  have hfinite := isFinite_last hlast hnext hlt h
  have hsteps := (Single.isFinite_iff_steps.mp hfinite).2
  obtain ⟨hinfinite, hoverflow⟩ := not_or.mp fun hdifference => h' ⟨h, hdifference⟩
  have hrounded := Single.rounded_sub (isFinite_next hlast hnext hlt hinfinite) hfinite
  have hdifference : b.next - b.last = Single.infinity := by
    have hbound := Single.natAbs_steps_le hrounded.isNaN
    have hlarge := not_lt.mp fun hless =>
      hoverflow (Single.isFinite_iff_steps.mpr ⟨hrounded.isNaN, hless⟩)
    have hnonneg := hrounded.ge 0 representable_zero (by omega) (by omega)
    have hpos := stepsAt_pos 128
    have hcount : (b.next - b.last).steps = stepsAt 128 := by omega
    exact Single.eq_of_steps_eq hrounded.isNaN (by decide) hcount (by omega)
  have habove : ¬Single.infinity ≤ b.last := by
    rw [Single.le_iff (by decide) hlast, Single.steps_infinity]
    omega
  rw [threshold, hdifference, Single.infinity_half, Single.add_infinity hlast (by omega)]
  exact if_neg habove

end

end Split.Boundary

end BoostedTrees
