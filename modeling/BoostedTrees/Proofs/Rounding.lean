import BoostedTrees.Number.Shortest
import Mathlib.Algebra.Order.Field.Power
import Mathlib.Algebra.Order.Field.Rat
import Mathlib.Tactic.FieldSimp
import Mathlib.Tactic.Linarith
import Mathlib.Tactic.NormNum
import Mathlib.Tactic.Positivity
import Mathlib.Tactic.Ring

/-!
# Rounding to the nearest binary number

Every rational number in the interval around a binary number is rounded to that number.
The interval reaches half way to the neighbours, with its ends where the significand is
even, and below a power of two half of that; the last place that the number is rounded
to is the one of the binary number, or one below it just there.

## Main definitions

* `Layout.Canonical`: a significand and an exponent as bit patterns are read
* `Decimal.Interval.Holds`: a rational number lies in an interval

## Main results

* `Layout.read_eq_finite`: a finite number is read from the sum of its parts
* `Layout.lastPlace_spec`: the last place is the one at which the leading bit is the
  first of the significand
* `Layout.nearest_of_holds`: what lies in the interval around a number is rounded to it
-/

namespace BoostedTrees

/-- A rational number lies in an interval whose unit is `2 ^ unit`. -/
def Decimal.Interval.Holds (i : Decimal.Interval) (unit : Int) (v : ℚ) : Prop :=
  i.low * (2 : ℚ) ^ unit ≤ v ∧ v ≤ i.high * (2 : ℚ) ^ unit ∧
    (i.closed = false → i.low * (2 : ℚ) ^ unit < v ∧ v < i.high * (2 : ℚ) ^ unit)

namespace Layout

/-- A significand and an exponent are as bit patterns are read: the significand has one
bit more than the fraction, or fewer bits where the exponent is the least one. -/
structure Canonical (L : Layout) (m : Nat) (e : Int) : Prop where
  lt : m < 2 ^ (L.fractionBits + 1)
  le_exponent : L.minExponent ≤ e
  le_of_lt : L.minExponent < e → 2 ^ L.fractionBits ≤ m

/-! ## Bit patterns -/

section BitPatterns

variable {L : Layout} {bits : Nat}

theorem mod_pow_add (L : Layout) (bits : Nat) :
    bits % 2 ^ (L.fractionBits + L.exponentBits) =
      bits / 2 ^ L.fractionBits % 2 ^ L.exponentBits * 2 ^ L.fractionBits +
        bits % 2 ^ L.fractionBits := by
  rw [Nat.pow_add, Nat.mod_mul, Nat.mul_comm, Nat.add_comm]

/-- A finite number is read from the bit pattern that its parts add up to. -/
theorem read_eq_finite {negative : Bool} {m : Nat} {e : Int}
    (h : L.read bits = .finite negative m e) :
    L.Canonical m e ∧
      bits % 2 ^ (L.fractionBits + L.exponentBits) =
        (e - L.minExponent).toNat * 2 ^ L.fractionBits + m ∧
      bits % 2 ^ (L.fractionBits + L.exponentBits) < L.infinityBits ∧
      negative = (bits / 2 ^ (L.fractionBits + L.exponentBits) % 2 == 1) := by
  have hfraction : bits % 2 ^ L.fractionBits < 2 ^ L.fractionBits :=
    Nat.mod_lt _ (Nat.pow_pos (by omega))
  have hbiased : bits / 2 ^ L.fractionBits % 2 ^ L.exponentBits < 2 ^ L.exponentBits :=
    Nat.mod_lt _ (Nat.pow_pos (by omega))
  have hpow : 2 ^ (L.fractionBits + 1) = 2 * 2 ^ L.fractionBits := Nat.pow_succ'
  rw [mod_pow_add]
  simp only [read, infinityBits, topExponent, Nat.pow_eq] at h ⊢
  generalize bits % 2 ^ L.fractionBits = fraction at *
  generalize bits / 2 ^ L.fractionBits % 2 ^ L.exponentBits = biased at *
  split at h
  · split at h <;> cases h
  · next htop =>
    -- The exponent is not the top one, so the pattern stays below infinity.
    have hinf : biased * 2 ^ L.fractionBits + fraction <
        (2 ^ L.exponentBits - 1) * 2 ^ L.fractionBits :=
      calc biased * 2 ^ L.fractionBits + fraction
          < (biased + 1) * 2 ^ L.fractionBits := by rw [Nat.succ_mul]; omega
        _ ≤ (2 ^ L.exponentBits - 1) * 2 ^ L.fractionBits :=
          Nat.mul_le_mul_right _ (by omega)
    split at h
    · next hzero =>
      -- Subnormal: the fraction is the significand.
      cases h
      refine ⟨⟨by omega, le_rfl, fun hlt => absurd hlt (lt_irrefl _)⟩, ?_, hinf, rfl⟩
      rw [hzero, sub_self]
      rfl
    · next hpos =>
      -- Normal: the leading bit of the significand carries into the exponent.
      cases h
      obtain ⟨k, rfl⟩ : ∃ k, biased = k + 1 := ⟨biased - 1, by omega⟩
      refine ⟨⟨by omega, by omega, fun _ => by omega⟩, ?_, hinf, rfl⟩
      rw [add_sub_cancel_left, Int.toNat_natCast, Nat.add_sub_cancel, Nat.succ_mul, Nat.add_assoc]

/-- Infinities have one bit pattern beside their sign. -/
theorem read_eq_infinite {negative : Bool} (h : L.read bits = .infinite negative) :
    bits % 2 ^ (L.fractionBits + L.exponentBits) = L.infinityBits ∧
      negative = (bits / 2 ^ (L.fractionBits + L.exponentBits) % 2 == 1) := by
  rw [mod_pow_add]
  simp only [read, infinityBits, Nat.pow_eq] at h ⊢
  split at h
  · next htop =>
    split at h
    · next hzero =>
      cases h
      exact ⟨by rw [htop, hzero, Nat.add_zero], rfl⟩
    · cases h
  · split at h <;> cases h

/-- The bit pattern of a NaN, sign clear, is above that of infinity. -/
theorem infinityBits_lt_of_read_eq_nan {negative : Bool} (h : L.read bits = .nan negative) :
    L.infinityBits < bits % 2 ^ (L.fractionBits + L.exponentBits) := by
  rw [mod_pow_add]
  simp only [read, infinityBits, Nat.pow_eq] at h ⊢
  split at h
  · next htop =>
    split at h
    · cases h
    · next hpos =>
      rw [htop]
      omega
  · split at h <;> cases h

/-- The finite numbers are those whose bit patterns, sign clear, are below that of infinity. -/
theorem exists_read_eq_finite_iff :
    (∃ negative m e, L.read bits = .finite negative m e) ↔
      bits % 2 ^ (L.fractionBits + L.exponentBits) < L.infinityBits := by
  cases hread : L.read bits with
  | finite negative m e =>
    obtain ⟨-, -, hlt, -⟩ := read_eq_finite hread
    exact iff_of_true ⟨negative, m, e, rfl⟩ hlt
  | infinite negative =>
    obtain ⟨heq, -⟩ := read_eq_infinite hread
    exact iff_of_false nofun fun hlt => hlt.ne heq
  | nan negative =>
    have hlt := infinityBits_lt_of_read_eq_nan hread
    exact iff_of_false nofun fun h => lt_asymm h hlt

end BitPatterns

/-! ## Scaling -/

theorem zpow_toNat (e : Int) : (2 : ℚ) ^ e.toNat / 2 ^ (-e).toNat = (2 : ℚ) ^ e := by
  obtain ⟨n, rfl | rfl⟩ := e.eq_nat_or_neg
  · simp
  · simp

theorem mul_zpow_neg_mul_zpow (v : ℚ) (e : Int) : v * 2 ^ (-e) * 2 ^ e = v := by
  rw [mul_assoc, ← zpow_add₀ two_ne_zero, neg_add_cancel, zpow_zero, mul_one]

theorem scaleBy_pos {den : Nat} (h : 0 < den) (num : Nat) (e : Int) : 0 < (scaleBy num den e).2 :=
  Nat.mul_pos h (Nat.pow_pos (by omega))

theorem scaleBy_eq (num den : Nat) (e : Int) :
    ((scaleBy num den e).1 : ℚ) / (scaleBy num den e).2 = num / den * (2 : ℚ) ^ (-e) := by
  have h := zpow_toNat (-e)
  rw [neg_neg] at h
  simp only [scaleBy, Nat.pow_eq, Nat.cast_mul, Nat.cast_pow, Nat.cast_ofNat, ← h]
  ring

/-! ## Rounding a ratio -/

/-- A ratio that is at most half a unit away from a natural is rounded to it, from half a
unit away if the natural is even. -/
theorem roundHalfEven_eq {num den m : Nat} (hden : 0 < den)
    (hlow : (m : ℚ) - 1 / 2 ≤ num / den) (hhigh : (num : ℚ) / den ≤ m + 1 / 2)
    (htie : m % 2 ≠ 0 → (m : ℚ) - 1 / 2 < num / den ∧ (num : ℚ) / den < m + 1 / 2) :
    roundHalfEven num den = m := by
  have hpos : (0 : ℚ) < den := by exact_mod_cast hden
  -- The bounds, multiplied out, are bounds of naturals.
  have hlow : 2 * (den * m) ≤ 2 * num + den := by
    rw [le_div_iff₀ hpos] at hlow
    have : (2 * (den * m) : ℚ) ≤ 2 * num + den := by linarith
    exact_mod_cast this
  have hhigh : 2 * num ≤ 2 * (den * m) + den := by
    rw [div_le_iff₀ hpos] at hhigh
    have : (2 * num : ℚ) ≤ 2 * (den * m) + den := by linarith
    exact_mod_cast this
  have htie : m % 2 ≠ 0 → 2 * (den * m) < 2 * num + den ∧ 2 * num < 2 * (den * m) + den := by
    intro hodd
    obtain ⟨h, h'⟩ := htie hodd
    rw [lt_div_iff₀ hpos] at h
    rw [div_lt_iff₀ hpos] at h'
    have h : (2 * (den * m) : ℚ) < 2 * num + den := by linarith
    have h' : (2 * num : ℚ) < 2 * (den * m) + den := by linarith
    exact ⟨by exact_mod_cast h, by exact_mod_cast h'⟩
  have hnum := Nat.div_add_mod num den
  have hrest := Nat.mod_lt num hden
  unfold roundHalfEven
  generalize num / den = q at *
  generalize num % den = r at *
  subst hnum
  -- The natural is the quotient or the one after it.
  have hq : m = q ∨ m = q + 1 := by
    have h1 : m < q + 2 := by
      refine Nat.lt_of_mul_lt_mul_left (a := den) ?_
      rw [Nat.mul_add]
      omega
    have h2 : q < m + 1 := by
      refine Nat.lt_of_mul_lt_mul_left (a := den) ?_
      rw [Nat.mul_add]
      omega
    omega
  dsimp only
  rcases hq with rfl | rfl
  · split
    · rfl
    · split
      · omega
      · by_contra hne
        obtain ⟨-, h⟩ := htie (by omega)
        omega
  · rw [Nat.mul_add] at hlow hhigh htie
    split
    · omega
    · split
      · rfl
      · by_contra hne
        obtain ⟨h, -⟩ := htie (by omega)
        omega

/-! ## The last place -/

/-- A scaled ratio is compared with a power of two. -/
theorem mul_pow_le_scaleBy_iff (num : Nat) {den : Nat} (hden : 0 < den) (e : Int) (bits : Nat) :
    (scaleBy num den e).2 * 2 ^ bits ≤ (scaleBy num den e).1 ↔
      (2 : ℚ) ^ (e + bits) ≤ num / den := by
  have hpos : (0 : ℚ) < (scaleBy num den e).2 := by exact_mod_cast scaleBy_pos hden num e
  have heq := scaleBy_eq num den e
  rw [← Nat.cast_le (α := ℚ), Nat.cast_mul, mul_comm, ← le_div_iff₀ hpos, heq, zpow_neg,
    ← div_eq_mul_inv, le_div_iff₀ (by positivity), zpow_add₀ two_ne_zero, zpow_natCast, mul_comm,
    Nat.cast_pow, Nat.cast_ofNat]

/-- The logarithms of the two parts settle the leading bit of a ratio up to one. -/
theorem log2_bounds {num den : Nat} (hnum : 0 < num) (hden : 0 < den) :
    (2 : ℚ) ^ ((num.log2 : Int) - den.log2 - 1) ≤ num / den ∧
      (num : ℚ) / den < 2 ^ ((num.log2 : Int) - den.log2 + 1) := by
  have hden' : (0 : ℚ) < den := by exact_mod_cast hden
  have hnumLow : (2 : ℚ) ^ (num.log2 : Int) ≤ num := by
    exact_mod_cast Nat.log2_self_le (by omega)
  have hnumHigh : (num : ℚ) < 2 ^ (num.log2 + 1 : Int) := by exact_mod_cast Nat.lt_log2_self
  have hdenLow : (2 : ℚ) ^ (den.log2 : Int) ≤ den := by
    exact_mod_cast Nat.log2_self_le (by omega)
  have hdenHigh : (den : ℚ) < 2 ^ (den.log2 + 1 : Int) := by exact_mod_cast Nat.lt_log2_self
  constructor
  · rw [le_div_iff₀ hden']
    calc (2 : ℚ) ^ ((num.log2 : Int) - den.log2 - 1) * den
        ≤ 2 ^ ((num.log2 : Int) - den.log2 - 1) * 2 ^ (den.log2 + 1 : Int) := by gcongr
      _ = 2 ^ (num.log2 : Int) := by rw [← zpow_add₀ two_ne_zero]; congr 1; ring
      _ ≤ num := hnumLow
  · rw [div_lt_iff₀ hden']
    calc (num : ℚ) < 2 ^ (num.log2 + 1 : Int) := hnumHigh
      _ = 2 ^ ((num.log2 : Int) - den.log2 + 1) * 2 ^ (den.log2 : Int) := by
          rw [← zpow_add₀ two_ne_zero]; congr 1; ring
      _ ≤ 2 ^ ((num.log2 : Int) - den.log2 + 1) * den := by gcongr

/-- The last place is the one at which the leading bit is the first of the significand,
unless that lies below the least exponent. -/
theorem lastPlace_spec (L : Layout) {num den : Nat} (hnum : 0 < num) (hden : 0 < den) :
    L.minExponent ≤ L.lastPlace num den ∧
      (num : ℚ) / den < 2 ^ (L.lastPlace num den + L.fractionBits + 1) ∧
        (L.minExponent < L.lastPlace num den →
          (2 : ℚ) ^ (L.lastPlace num den + L.fractionBits) ≤ num / den) := by
  obtain ⟨hlow, hhigh⟩ := log2_bounds hnum hden
  -- Without the least exponent, one of two places is right, and one comparison tells which.
  have hplace : ∃ p : Int, L.lastPlace num den = max L.minExponent p ∧
      (2 : ℚ) ^ (p + L.fractionBits) ≤ num / den ∧
        (num : ℚ) / den < 2 ^ (p + L.fractionBits + 1) := by
    have hcompare := mul_pow_le_scaleBy_iff num hden
      ((num.log2 : Int) - den.log2 - 1 - L.fractionBits) (L.fractionBits + 1)
    simp only [lastPlace, Nat.pow_eq]
    split
    · next h =>
      refine ⟨_, rfl, ?_, ?_⟩
      · rw [add_right_comm, add_assoc]
        exact_mod_cast hcompare.mp h
      · rw [show (num.log2 : Int) - den.log2 - 1 - L.fractionBits + 1 + L.fractionBits + 1 =
          (num.log2 : Int) - den.log2 + 1 by ring]
        exact hhigh
    · next h =>
      refine ⟨_, rfl, ?_, ?_⟩
      · rw [sub_add_cancel]
        exact hlow
      · rw [add_assoc]
        exact_mod_cast not_le.mp (mt hcompare.mpr h)
  obtain ⟨p, hp, hle, hlt⟩ := hplace
  rw [hp]
  refine ⟨le_max_left _ _, lt_of_lt_of_le hlt ?_, fun h => ?_⟩
  · exact zpow_le_zpow_right₀ one_le_two (by have := le_max_right L.minExponent p; omega)
  · rwa [max_eq_right (by omega)]

/-! ## Rounding to a binary number -/

variable {L : Layout} {m : Nat} {e : Int}

theorem nearest_eq {num den r : Nat} (hnum : 0 < num)
    (hr : roundHalfEven (scaleBy num den (L.lastPlace num den)).1
      (scaleBy num den (L.lastPlace num den)).2 = r) :
    L.nearest num den =
      min L.infinityBits
        ((L.lastPlace num den - L.minExponent).toNat * 2 ^ L.fractionBits + r) := by
  simp only [nearest, if_neg (Nat.ne_of_gt hnum), hr, Nat.pow_eq]

/-- The ends of the interval around a number, in last places. -/
theorem bounds_of_holds (hm : 0 < m) {v : ℚ}
    (h : (Decimal.Interval.around L m e).Holds (e - 2) v) :
    ((m : ℚ) - 1 / 2 ≤ v * 2 ^ (-e) ∧ v * 2 ^ (-e) ≤ m + 1 / 2) ∧
      (m % 2 ≠ 0 → (m : ℚ) - 1 / 2 < v * 2 ^ (-e) ∧ v * 2 ^ (-e) < m + 1 / 2) ∧
        (m = 2 ^ L.fractionBits → L.minExponent < e → (m : ℚ) - 1 / 4 ≤ v * 2 ^ (-e)) := by
  obtain ⟨hlow, hhigh, hopen⟩ := h
  have hquarter : (2 : ℚ) ^ (e - 2) = 2 ^ e / 4 := by
    rw [zpow_sub₀ two_ne_zero]
    norm_num
  have hpos : (0 : ℚ) < 2 ^ e := by positivity
  -- In units of `s = 2 ^ e` the value is `u`, and the interval is cut into quarters of one.
  have hv := mul_zpow_neg_mul_zpow v e
  generalize v * 2 ^ (-e) = u at hv
  subst hv
  rw [hquarter] at hlow hhigh hopen
  generalize (2 : ℚ) ^ e = s at *
  have hhalf : ((4 * m - 2 : Nat) : ℚ) = 4 * m - 2 := by
    rw [Nat.cast_sub (by omega)]
    push_cast
    ring
  have hquarter : ((4 * m - 1 : Nat) : ℚ) = 4 * m - 1 := by
    rw [Nat.cast_sub (by omega)]
    push_cast
    ring
  have hlowEnd : (4 * m - 2 : ℚ) ≤ ((Decimal.Interval.around L m e).low : ℚ) := by
    simp only [Decimal.Interval.around]
    split
    · rw [hquarter]
      linarith
    · rw [hhalf]
  have hhighEnd : ((Decimal.Interval.around L m e).high : ℚ) = 4 * m + 2 := by
    simp only [Decimal.Interval.around]
    push_cast
    ring
  have hclosed : (Decimal.Interval.around L m e).closed = (m % 2 == 0) := rfl
  rw [hhighEnd] at hhigh hopen
  refine ⟨⟨?_, ?_⟩, ?_, ?_⟩
  · have : ((4 * m - 2 : ℚ) * (s / 4)) ≤ u * s := le_trans (by gcongr) hlow
    nlinarith
  · nlinarith
  · intro hodd
    obtain ⟨h, h'⟩ := hopen (by rw [hclosed]; simpa using hodd)
    have : ((4 * m - 2 : ℚ) * (s / 4)) < u * s := lt_of_le_of_lt (by gcongr) h
    constructor <;> nlinarith
  · intro hpow hlt
    have hend : ((Decimal.Interval.around L m e).low : ℚ) = 4 * m - 1 := by
      simp only [Decimal.Interval.around, Nat.pow_eq, if_pos (And.intro hpow hlt), hquarter]
    rw [hend] at hlow
    nlinarith

/-- The last place of what lies in the interval around a number is that of the number, or
the one below it if the number is a power of two. -/
theorem lastPlace_cases (hc : L.Canonical m e) {num den : Nat} (hnum : 0 < num) (hden : 0 < den)
    (hlow : (m : ℚ) - 1 / 2 ≤ num / den * 2 ^ (-e))
    (hhigh : (num : ℚ) / den * 2 ^ (-e) ≤ m + 1 / 2)
    (hpow : m = 2 ^ L.fractionBits → L.minExponent < e →
      (m : ℚ) - 1 / 4 ≤ num / den * 2 ^ (-e)) :
    L.lastPlace num den = e ∨
      (L.lastPlace num den = e - 1 ∧ m = 2 ^ L.fractionBits ∧ L.minExponent < e) := by
  obtain ⟨hleast, hlt, hle⟩ := lastPlace_spec L hnum hden
  generalize L.lastPlace num den = k at *
  have hv := mul_zpow_neg_mul_zpow (num / den) e
  generalize (num : ℚ) / den * 2 ^ (-e) = u at *
  rw [← hv] at hlt hle
  have hpos : (0 : ℚ) < 2 ^ e := by positivity
  have hone : (1 : ℚ) ≤ 2 ^ L.fractionBits := one_le_pow₀ one_le_two
  have hbits : (2 : ℚ) ^ (e + L.fractionBits) = 2 ^ L.fractionBits * 2 ^ e := by
    rw [zpow_add₀ two_ne_zero, zpow_natCast, mul_comm]
  have hm : (m : ℚ) + 1 ≤ 2 * 2 ^ L.fractionBits := by
    have h := hc.lt
    rw [pow_succ'] at h
    exact_mod_cast h
  rcases lt_trichotomy k e with hk | hk | hk
  · refine .inr ?_
    have hexp : L.minExponent < e := lt_of_le_of_lt hleast hk
    have hnormal : (2 : ℚ) ^ L.fractionBits ≤ m := by exact_mod_cast hc.le_of_lt hexp
    -- The number is below the next power of two, so the significand is the least one.
    have hu : u < 2 ^ L.fractionBits := by
      have : u * 2 ^ e < 2 ^ L.fractionBits * 2 ^ e := by
        rw [← hbits]
        exact lt_of_lt_of_le hlt (zpow_le_zpow_right₀ one_le_two (by omega))
      exact lt_of_mul_lt_mul_right this hpos.le
    have hmeq : m = 2 ^ L.fractionBits := by
      have h1 : (m : ℚ) < 2 ^ L.fractionBits + 1 := by linarith
      have h1 : m < 2 ^ L.fractionBits + 1 := by exact_mod_cast h1
      have h2 : 2 ^ L.fractionBits ≤ m := by exact_mod_cast hnormal
      omega
    refine ⟨?_, hmeq, hexp⟩
    -- Two places below, the number would be less than three quarters of a unit under `m`.
    by_contra hne
    have hfar : u * 2 ^ e < 2 ^ L.fractionBits * 2 ^ (e - 1) := by
      have : (2 : ℚ) ^ (k + L.fractionBits + 1) ≤ 2 ^ (e - 1 + L.fractionBits) :=
        zpow_le_zpow_right₀ one_le_two (by omega)
      rw [zpow_add₀ two_ne_zero (e - 1), zpow_natCast, mul_comm] at this
      exact lt_of_lt_of_le hlt this
    rw [zpow_sub_one₀ two_ne_zero] at hfar
    have hclose := hpow hmeq hexp
    have : (m : ℚ) = 2 ^ L.fractionBits := by exact_mod_cast hmeq
    nlinarith
  · exact .inl hk
  · -- Above its own place the number would reach the next power of two.
    exfalso
    have hge : (2 : ℚ) ^ (e + L.fractionBits + 1) ≤ u * 2 ^ e :=
      le_trans (zpow_le_zpow_right₀ one_le_two (by omega)) (hle (lt_of_le_of_lt hc.le_exponent hk))
    rw [zpow_add_one₀ two_ne_zero, hbits] at hge
    nlinarith

/-- What lies in the interval around a number is rounded to it. -/
theorem nearest_of_holds (hc : L.Canonical m e) (hm : 0 < m) {num den : Nat} (hnum : 0 < num)
    (hden : 0 < den) (h : (Decimal.Interval.around L m e).Holds (e - 2) (num / den)) :
    L.nearest num den =
      min L.infinityBits ((e - L.minExponent).toNat * 2 ^ L.fractionBits + m) := by
  obtain ⟨⟨hlow, hhigh⟩, htie, hpow⟩ := bounds_of_holds hm h
  rcases lastPlace_cases hc hnum hden hlow hhigh hpow with hk | ⟨hk, hmeq, hexp⟩
  · have hr : roundHalfEven (scaleBy num den e).1 (scaleBy num den e).2 = m := by
      refine roundHalfEven_eq (scaleBy_pos hden num e) ?_ ?_ ?_ <;> rw [scaleBy_eq]
      · exact hlow
      · exact hhigh
      · exact htie
    rw [nearest_eq hnum (hk.symm ▸ hr), hk]
  · -- The significand is rounded up to the power of two and carries into the exponent.
    have hscale : (num : ℚ) / den * 2 ^ (-(e - 1)) = 2 * (num / den * 2 ^ (-e)) := by
      rw [neg_sub, sub_eq_neg_add, zpow_add_one₀ two_ne_zero]
      ring
    have hm' : (m : ℚ) = 2 ^ L.fractionBits := by exact_mod_cast hmeq
    have hclose := hpow hmeq hexp
    have hbelow : (num : ℚ) / den * 2 ^ (-e) < m := by
      have hlt := (lastPlace_spec L hnum hden).2.1
      rw [hk] at hlt
      rw [zpow_neg, ← div_eq_mul_inv, div_lt_iff₀ (by positivity), hm', ← zpow_natCast,
        ← zpow_add₀ two_ne_zero,
        show (L.fractionBits : Int) + e = e - 1 + L.fractionBits + 1 by ring]
      exact hlt
    have hr : roundHalfEven (scaleBy num den (e - 1)).1 (scaleBy num den (e - 1)).2 = 2 * m := by
      refine roundHalfEven_eq (scaleBy_pos hden num _) ?_ ?_ (by omega) <;>
        rw [scaleBy_eq, hscale] <;> push_cast <;> linarith
    rw [nearest_eq hnum (hk.symm ▸ hr), hk]
    obtain ⟨j, hj⟩ : ∃ j : Nat, e - L.minExponent = j + 1 :=
      ⟨(e - L.minExponent - 1).toNat, by omega⟩
    have h1 : (e - 1 - L.minExponent).toNat = j := by omega
    have h2 : (e - L.minExponent).toNat = j + 1 := by omega
    rw [h1, h2, hmeq]
    congr 1
    ring

end Layout

end BoostedTrees
