import BoostedTrees.Proofs.Rounding

/-!
# The shortest decimal of a number

The search for the shortest decimal of a single-precision number ends on a grid that is
finer than the interval around the number, so it finds a decimal there. Whatever
notation shows that decimal, it is rounded to the number again.

## Main definitions

* `Decimal.toRat`: the number that a decimal is

## Main results

* `Decimal.shortest_holds`: the shortest decimal lies in the interval around the number
* `Layout.nearestDecimal_shortest`: it is rounded to the bit pattern of the number
-/

namespace BoostedTrees

/-! ## The search for the shortest decimal -/

namespace Decimal

/-- The number that a decimal is. -/
def toRat (d : Decimal) : ℚ := d.coefficient * (10 : ℚ) ^ d.exponent

theorem ten_zpow_toNat (k : Int) : (10 : ℚ) ^ k.toNat / 10 ^ (-k).toNat = (10 : ℚ) ^ k := by
  obtain ⟨n, rfl | rfl⟩ := k.eq_nat_or_neg
  · simp
  · simp

/-- An interval is scaled so that powers of ten and its unit are both whole. -/
def scaleFor (unit k : Int) : Nat := 2 ^ unit.toNat * 10 ^ (-k).toNat

/-- The step of the decimal grid on that scale. -/
def stepFor (unit k : Int) : Nat := 2 ^ (-unit).toNat * 10 ^ k.toNat

theorem scaleFor_pos (unit k : Int) : 0 < scaleFor unit k :=
  Nat.mul_pos (Nat.pow_pos (by omega)) (Nat.pow_pos (by omega))

theorem stepFor_pos (unit k : Int) : 0 < stepFor unit k :=
  Nat.mul_pos (Nat.pow_pos (by omega)) (Nat.pow_pos (by omega))

theorem scaleFor_mul (unit k : Int) :
    (scaleFor unit k : ℚ) * 10 ^ k = stepFor unit k * 2 ^ unit := by
  rw [← Layout.zpow_toNat, ← ten_zpow_toNat]
  simp only [scaleFor, stepFor]
  push_cast
  field_simp

/-- Multiples of two naturals are compared as multiples of two numbers in their ratio. -/
theorem mul_le_mul_iff_of_ratio {a b : Nat} {x y : ℚ} (hb : 0 < b) (hx : 0 < x)
    (h : (a : ℚ) * x = b * y) (m n : Nat) : m * a ≤ n * b ↔ (m : ℚ) * y ≤ n * x := by
  have hb : (0 : ℚ) < b := by exact_mod_cast hb
  calc m * a ≤ n * b ↔ (m : ℚ) * a ≤ n * b := by exact_mod_cast Iff.rfl
    _ ↔ (m : ℚ) * a * x ≤ n * b * x := (mul_le_mul_iff_left₀ hx).symm
    _ ↔ (m : ℚ) * y * b ≤ n * x * b := by rw [mul_assoc, h, mul_left_comm, mul_comm (b : ℚ),
        mul_right_comm (n : ℚ)]
    _ ↔ (m : ℚ) * y ≤ n * x := mul_le_mul_iff_left₀ hb

theorem mul_scaleFor_le_iff (unit k : Int) (low n : Nat) :
    low * scaleFor unit k ≤ n * stepFor unit k ↔ (low : ℚ) * 2 ^ unit ≤ n * 10 ^ k :=
  mul_le_mul_iff_of_ratio (stepFor_pos unit k) (by positivity) (scaleFor_mul unit k) low n

theorem mul_stepFor_le_iff (unit k : Int) (high n : Nat) :
    n * stepFor unit k ≤ high * scaleFor unit k ↔ (n : ℚ) * 10 ^ k ≤ high * 2 ^ unit :=
  mul_le_mul_iff_of_ratio (scaleFor_pos unit k) (by positivity) (scaleFor_mul unit k).symm n high

/-- The scaled interval contains the points of the grid that lie in the interval. -/
theorem contains_scale_iff (i : Interval) (unit k : Int) (n : Nat) :
    (i.scale (scaleFor unit k)).contains (n * stepFor unit k) ↔ i.Holds unit (n * 10 ^ k) := by
  obtain ⟨low, value, high, closed⟩ := i
  have hlow := mul_scaleFor_le_iff unit k low n
  have hhigh := mul_stepFor_le_iff unit k high n
  have hlow' := not_congr (mul_stepFor_le_iff unit k low n)
  have hhigh' := not_congr (mul_scaleFor_le_iff unit k high n)
  rw [not_le, not_le] at hlow' hhigh'
  cases closed
  · simp only [Interval.contains, Interval.scale, Interval.Holds, Bool.false_eq_true, if_false,
      Bool.and_eq_true, decide_eq_true_eq, hlow', hhigh', true_implies]
    exact ⟨fun h => ⟨h.1.le, h.2.le, h⟩, fun h => h.2.2⟩
  · simp only [Interval.contains, Interval.scale, Interval.Holds, if_true, Bool.and_eq_true,
      decide_eq_true_eq, hlow, hhigh, Bool.true_eq_false, false_implies, and_true]

/-- A point that is found on a grid is in the interval. -/
theorem contains_of_gridPoint?_eq_some {tie : Tie} {i : Interval} {step n : Nat}
    (h : i.gridPoint? tie step = some n) : i.contains (n * step) := by
  simp only [Interval.gridPoint?] at h
  split at h
  · next hbelow _ => cases h; exact hbelow
  · next _ habove => cases h; exact habove
  · next hbelow habove =>
    rw [Option.some.injEq] at h
    subst h
    split <;> split <;> assumption
  · cases h

/-- A grid with a point between the low end and the value finds one. -/
theorem gridPoint?_ne_none (tie : Tie) {i : Interval} {step : Nat} (hstep : 0 < step)
    (hlow : i.low + step ≤ i.value) (hhigh : i.value < i.high) : i.gridPoint? tie step ≠ none := by
  have hdiv := Nat.div_add_mod i.value step
  have hmod := Nat.mod_lt i.value hstep
  rw [Nat.mul_comm] at hdiv
  have hbelow : i.contains (i.value / step * step) := by
    simp only [Interval.contains]
    split <;> simp only [Bool.and_eq_true, decide_eq_true_eq] <;> omega
  simp only [Interval.gridPoint?, hbelow]
  split <;> simp_all

theorem search_succ (tie : Tie) (i : Interval) (unit : Int) (steps : Nat) (k : Int) :
    search tie i unit (steps + 1) k =
      match (i.scale (scaleFor unit k)).gridPoint? tie (stepFor unit k) with
      | some n => ⟨n, k⟩
      | none => search tie i unit steps (k - 1) :=
  rfl

/-- The search ends with a point of the interval if it comes to a grid that is not
coarser than the unit. -/
theorem search_holds (tie : Tie) {i : Interval} (unit : Int) (hlow : i.low < i.value)
    (hhigh : i.value < i.high) (steps : Nat) (k : Int)
    (h : (10 : ℚ) ^ (k - steps) ≤ 2 ^ unit) :
    i.Holds unit (search tie i unit (steps + 1) k).toRat := by
  induction steps generalizing k with
  | zero =>
    -- On the last grid a step fits between the low end and the value.
    have hscale : stepFor unit k ≤ scaleFor unit k := by
      have hiff := mul_stepFor_le_iff unit k 1 1
      rw [Nat.one_mul, Nat.one_mul, Nat.cast_one, one_mul, one_mul] at hiff
      rw [Nat.cast_zero, sub_zero] at h
      exact hiff.mpr h
    have hne : (i.scale (scaleFor unit k)).gridPoint? tie (stepFor unit k) ≠ none := by
      refine gridPoint?_ne_none tie (stepFor_pos unit k) ?_ ?_
      · calc i.low * scaleFor unit k + stepFor unit k
            ≤ i.low * scaleFor unit k + scaleFor unit k := Nat.add_le_add_left hscale _
          _ = (i.low + 1) * scaleFor unit k := (Nat.succ_mul _ _).symm
          _ ≤ i.value * scaleFor unit k := Nat.mul_le_mul_right _ hlow
      · exact Nat.mul_lt_mul_of_pos_right hhigh (scaleFor_pos unit k)
    rw [search_succ]
    split
    · next n hn => exact (contains_scale_iff i unit k n).mp (contains_of_gridPoint?_eq_some hn)
    · next hn => exact absurd hn hne
  | succ steps ih =>
    rw [search_succ]
    split
    · next n hn => exact (contains_scale_iff i unit k n).mp (contains_of_gridPoint?_eq_some hn)
    · refine ih (k - 1) ?_
      rwa [Nat.cast_succ, ← sub_sub, sub_right_comm] at h

/-- Twenty-two grids are enough for single precision. -/
theorem last_grid_le {m : Nat} {e : Int} (hm : m < 2 ^ 24) (hleast : -149 ≤ e) (hmost : e ≤ 104) :
    (10 : ℚ) ^ (((m.log2 : Int) + e) * 30103 / 100000 + 2 - (21 : Nat)) ≤ 2 ^ (e - 2) := by
  have hlog : m.log2 < 24 := by
    rcases Nat.eq_zero_or_pos m with rfl | hpos
    · decide
    · exact (Nat.log2_lt (by omega)).mpr hm
  generalize m.log2 = l at *
  generalize hk : ((l : Int) + e) * 30103 / 100000 + 2 - (21 : Nat) = k
  -- Ten is between the third and the fourth power of two.
  rcases le_or_gt 0 k with hpos | hneg
  · calc (10 : ℚ) ^ k ≤ 16 ^ k := zpow_le_zpow_left₀ hpos (by norm_num) (by norm_num)
      _ = 2 ^ (4 * k) := by rw [zpow_mul]; norm_num
      _ ≤ 2 ^ (e - 2) := zpow_le_zpow_right₀ one_le_two (by omega)
  · have hanti : (10 : ℚ) ^ k ≤ 8 ^ k := by
      obtain ⟨n, rfl⟩ : ∃ n : Nat, k = -n := ⟨k.natAbs, by omega⟩
      rw [zpow_neg, zpow_neg, zpow_natCast, zpow_natCast]
      exact inv_anti₀ (by positivity) (pow_le_pow_left₀ (by norm_num) (by norm_num) n)
    calc (10 : ℚ) ^ k ≤ 8 ^ k := hanti
      _ = 2 ^ (3 * k) := by rw [zpow_mul]; norm_num
      _ ≤ 2 ^ (e - 2) := zpow_le_zpow_right₀ one_le_two (by omega)

/-- The shortest decimal lies in the interval. -/
theorem shortest_holds (tie : Tie) {m : Nat} {e : Int} (hm : 0 < m)
    (hc : Layout.single.Canonical m e) (he : e ≤ 104) :
    (Interval.around Layout.single m e).Holds (e - 2) (shortest Layout.single tie m e).toRat := by
  have hlow : (Interval.around Layout.single m e).low <
      (Interval.around Layout.single m e).value := by
    simp only [Interval.around]
    split <;> omega
  have hhigh : (Interval.around Layout.single m e).value <
      (Interval.around Layout.single m e).high := by
    simp only [Interval.around]
    omega
  rw [shortest, if_neg (by omega)]
  exact search_holds tie (e - 2) hlow hhigh 21 _ (last_grid_le hc.lt hc.le_exponent he)

end Decimal

/-! ## Rounding what was read -/

namespace Layout

/-- The number of digits of a natural says between which powers of ten it lies. -/
theorem length_toDigits_bounds {c : Nat} (hc : 0 < c) :
    (10 : ℚ) ^ ((Nat.toDigits 10 c).length - 1 : Int) ≤ c ∧
      (c : ℚ) < 10 ^ ((Nat.toDigits 10 c).length : Int) := by
  have hlength : 0 < (Nat.toDigits 10 c).length := Nat.length_toDigits_pos
  constructor
  · obtain ⟨n, hn⟩ : ∃ n, (Nat.toDigits 10 c).length = n + 1 :=
      ⟨(Nat.toDigits 10 c).length - 1, by omega⟩
    rw [hn, Nat.cast_succ, add_sub_cancel_right, zpow_natCast]
    rcases Nat.eq_zero_or_pos n with rfl | hpos
    · rw [pow_zero]
      exact_mod_cast hc
    · have h := not_congr (Nat.length_toDigits_le_iff (b := 10) (n := c) (by omega) hpos)
      rw [not_lt] at h
      exact_mod_cast h.mp (by omega)
  · have h := (Nat.length_toDigits_le_iff (b := 10) (n := c) (by omega) hlength).mp le_rfl
    exact_mod_cast h

/-- A decimal within reach is rounded as the ratio that it is. -/
theorem nearestDecimal_eq (L : Layout) {c : Nat} {k : Int} (hc : 0 < c)
    (hlow : (10 : ℚ) ^ (-400 : Int) ≤ c * 10 ^ k) (hhigh : (c : ℚ) * 10 ^ k < 10 ^ (400 : Int)) :
    L.nearestDecimal c k = L.nearest (c * 10 ^ k.toNat) (10 ^ (-k).toNat) := by
  obtain ⟨hbottom, htop⟩ := length_toDigits_bounds hc
  generalize hdigits : ((Nat.toDigits 10 c).length : Int) = length at *
  have hten : (0 : ℚ) < 10 ^ k := by positivity
  -- Neither of the two cuts for decimals out of reach is taken.
  have hreach : -400 ≤ k + length := by
    have h : (10 : ℚ) ^ (-400 : Int) < 10 ^ (k + length) :=
      calc (10 : ℚ) ^ (-400 : Int) ≤ c * 10 ^ k := hlow
        _ < 10 ^ length * 10 ^ k := by gcongr
        _ = 10 ^ (k + length) := by rw [← zpow_add₀ (by norm_num), add_comm]
    exact ((zpow_lt_zpow_iff_right₀ (by norm_num)).mp h).le
  have hreach' : k + length ≤ 400 := by
    have h : (10 : ℚ) ^ (k + length - 1) < 10 ^ (400 : Int) :=
      calc (10 : ℚ) ^ (k + length - 1) = 10 ^ (length - 1) * 10 ^ k := by
            rw [← zpow_add₀ (by norm_num)]
            congr 1
            ring
        _ ≤ c * 10 ^ k := by gcongr
        _ < 10 ^ (400 : Int) := hhigh
    have := (zpow_lt_zpow_iff_right₀ (by norm_num)).mp h
    omega
  have hdecimal : decimalReach = 400 := rfl
  rw [nearestDecimal, if_neg (by omega), if_neg (by omega)]
  rfl

/-- What lies in the interval around a finite single-precision number is within reach. -/
theorem reach_of_holds {m : Nat} {e : Int} (hm : 0 < m) (hcanonical : single.Canonical m e)
    (he : e ≤ 104) {v : ℚ} (h : (Decimal.Interval.around single m e).Holds (e - 2) v) :
    (10 : ℚ) ^ (-400 : Int) ≤ v ∧ v < 10 ^ (400 : Int) := by
  have hleast : -149 ≤ e := hcanonical.le_exponent
  have hmost : m < 2 ^ 24 := hcanonical.lt
  constructor
  · have hend : 1 ≤ (Decimal.Interval.around single m e).low := by
      simp only [Decimal.Interval.around]
      split <;> omega
    calc (10 : ℚ) ^ (-400 : Int) ≤ 10 ^ (-151 : Int) :=
          zpow_le_zpow_right₀ (by norm_num) (by norm_num)
      _ ≤ 2 ^ (-151 : Int) := by norm_num
      _ ≤ 2 ^ (e - 2) := zpow_le_zpow_right₀ one_le_two (by omega)
      _ ≤ (Decimal.Interval.around single m e).low * 2 ^ (e - 2) :=
        le_mul_of_one_le_left (by positivity) (by exact_mod_cast hend)
      _ ≤ v := h.1
  · have hend : (Decimal.Interval.around single m e).high ≤ 2 ^ 27 := by
      simp only [Decimal.Interval.around]
      omega
    calc v ≤ (Decimal.Interval.around single m e).high * 2 ^ (e - 2) := h.2.1
      _ ≤ 2 ^ 27 * 2 ^ (e - 2) := by
        gcongr
        exact_mod_cast hend
      _ ≤ 2 ^ 27 * 2 ^ (102 : Int) := by
        gcongr
        · exact one_le_two
        · omega
      _ < 10 ^ (39 : Int) := by norm_num
      _ ≤ 10 ^ (400 : Int) := zpow_le_zpow_right₀ (by norm_num) (by norm_num)

/-- A decimal in the interval around a finite single-precision number is rounded to it. -/
theorem nearestDecimal_of_holds {m : Nat} {e : Int} (hm : 0 < m)
    (hcanonical : single.Canonical m e) (he : e ≤ 104) {c : Nat} {k : Int}
    (h : (Decimal.Interval.around single m e).Holds (e - 2) (c * 10 ^ k)) :
    single.nearestDecimal c k =
      min single.infinityBits ((e - single.minExponent).toNat * 2 ^ single.fractionBits + m) := by
  obtain ⟨hlow, hhigh⟩ := reach_of_holds hm hcanonical he h
  have hc : 0 < c := by
    rcases Nat.eq_zero_or_pos c with rfl | hpos
    · rw [Nat.cast_zero, zero_mul] at hlow
      exact absurd hlow (not_le.mpr (by positivity))
    · exact hpos
  have hratio : ((c * 10 ^ k.toNat : Nat) : ℚ) / (10 ^ (-k).toNat : Nat) = c * 10 ^ k := by
    rw [← Decimal.ten_zpow_toNat]
    push_cast
    ring
  rw [nearestDecimal_eq single hc hlow hhigh]
  refine nearest_of_holds hcanonical hm (Nat.mul_pos hc (Nat.pow_pos (by omega)))
    (Nat.pow_pos (by omega)) ?_
  rwa [hratio]

section Finite

variable {bits : Nat} {negative : Bool} {m : Nat} {e : Int} {c : Nat} {k : Int}

theorem exponent_le_of_read (h : single.read bits = .finite negative m e) : e ≤ 104 := by
  obtain ⟨hcanonical, hbits, hlt, -⟩ := read_eq_finite h
  have hnormal : -149 < e → 2 ^ 23 ≤ m := hcanonical.le_of_lt
  have hsplit : bits % 2 ^ 31 = (e + 149).toNat * 2 ^ 23 + m := hbits
  have hfinite : bits % 2 ^ 31 < 255 * 2 ^ 23 := hlt
  omega

/-- Zero is below all intervals; its only decimal is zero. -/
theorem eq_zero_of_shortest_zero
    (hvalue : (c : ℚ) * 10 ^ k = (Decimal.shortest single .up 0 e).toRat) : c = 0 := by
  have hzero : (c : ℚ) * 10 ^ k = 0 := by
    rw [hvalue, Decimal.shortest, if_pos rfl, Decimal.toRat]
    exact zero_mul _
  rcases mul_eq_zero.mp hzero with hzero | hzero
  · exact_mod_cast hzero
  · exact absurd hzero (by positivity)

/-- What single precision reads as finite is read back from its shortest digits. -/
theorem nearestDecimal_shortest (h : single.read bits = .finite negative m e)
    (hvalue : (c : ℚ) * 10 ^ k = (Decimal.shortest single .up m e).toRat) :
    single.nearestDecimal c k = bits % 2 ^ 31 := by
  obtain ⟨hcanonical, hbits, hlt, -⟩ := read_eq_finite h
  rcases Nat.eq_zero_or_pos m with rfl | hm
  · have hleast : -149 ≤ e := hcanonical.le_exponent
    have hnormal : -149 < e → 2 ^ 23 ≤ 0 := hcanonical.le_of_lt
    have hsplit : bits % 2 ^ 31 = (e + 149).toNat * 2 ^ 23 + 0 := hbits
    rw [eq_zero_of_shortest_zero hvalue, nearestDecimal, if_pos (.inl rfl)]
    omega
  · have hholds := Decimal.shortest_holds .up hm hcanonical (exponent_le_of_read h)
    rw [← hvalue] at hholds
    rw [nearestDecimal_of_holds hm hcanonical (exponent_le_of_read h) hholds, ← hbits]
    exact min_eq_right hlt.le

/-- The shortest decimal of a finite number is zero or within the reach of reading. -/
theorem reach_of_shortest (h : single.read bits = .finite negative m e)
    (hvalue : (c : ℚ) * 10 ^ k = (Decimal.shortest single .up m e).toRat) :
    c = 0 ∨ (10 : ℚ) ^ (-400 : Int) ≤ c * 10 ^ k ∧ (c : ℚ) * 10 ^ k < 10 ^ (400 : Int) := by
  obtain ⟨hcanonical, -⟩ := read_eq_finite h
  rcases Nat.eq_zero_or_pos m with rfl | hm
  · exact .inl (eq_zero_of_shortest_zero hvalue)
  · have he := exponent_le_of_read h
    rw [hvalue]
    exact .inr (reach_of_holds hm hcanonical he (Decimal.shortest_holds .up hm hcanonical he))

end Finite

end Layout

end BoostedTrees
