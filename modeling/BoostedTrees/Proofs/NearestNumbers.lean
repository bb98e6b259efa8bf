import BoostedTrees.Proofs.ShortestDecimal
import Mathlib.Order.Interval.Set.Defs

/-!
# Rounding is to the nearest number

Bit patterns without a sign stand for growing numbers, and two patterns that follow each other
stand for numbers one last place apart. What is rounded to a pattern therefore lies between the
middles to its neighbours. A pattern above that of infinity would go on growing in the same way,
so to cut off there is to take the nearest of what remains, with an infinity counted as the first
power of two that is too large to be finite.

Halves go to the even neighbour among naturals and among patterns alike, and both are instances of
one notion: the value in an even place wins where two are as near.

## Main definitions

* `IsNearest`: a value is the nearest to a number, and stands in an even place if another is as near
* `Layout.magnitude`: the number that a bit pattern without a sign stands for

## Main results

* `isNearest_roundHalfEven`: a ratio is rounded to the nearest natural
* `Layout.isNearest_nearest`: a ratio is rounded to the nearest number of a layout
* `Layout.isNearest_nearestDecimal`: so is a decimal within reach
-/

namespace BoostedTrees

/-! ## Nearest values -/

/-- Of the values in some places, the one in the place `best` is nearest to `v`, and this place is
even if the value in another one is as near. -/
structure IsNearest (places : Set ℕ) (value : ℕ → ℚ) (v : ℚ) (best : ℕ) : Prop where
  mem : best ∈ places
  le : ∀ k ∈ places, |value best - v| ≤ |value k - v|
  even_of_eq : ∀ k ∈ places, k ≠ best → |value k - v| = |value best - v| → best % 2 = 0

section Nearest

variable {value value' : ℕ → ℚ} {v : ℚ} {best : ℕ} {places : Set ℕ}

theorem IsNearest.congr (h : IsNearest places value v best)
    (hvalue : ∀ k ∈ places, value' k = value k) : IsNearest places value' v best where
  mem := h.mem
  le k hk := by
    rw [hvalue k hk, hvalue best h.mem]
    exact h.le k hk
  even_of_eq k hk hne heq := by
    rw [hvalue k hk, hvalue best h.mem] at heq
    exact h.even_of_eq k hk hne heq

/-- Among growing values the nearest one is found by the middles to its neighbours. -/
theorem isNearest_of_middles (hmono : StrictMono value)
    (hbelow : ∀ k, k + 1 = best → value k + value best ≤ 2 * v ∧
      (value k + value best = 2 * v → best % 2 = 0))
    (habove : 2 * v ≤ value best + value (best + 1) ∧
      (2 * v = value best + value (best + 1) → best % 2 = 0)) :
    IsNearest Set.univ value v best := by
  -- What is on either side is as far away as the neighbour there, or farther.
  have hleft : ∀ k < best, value k < v ∧ value k + value best ≤ 2 * v ∧
      (value k + value best = 2 * v → best % 2 = 0) := by
    intro k hk
    obtain ⟨j, rfl⟩ : ∃ j, j + 1 = best := ⟨best - 1, by omega⟩
    obtain ⟨hmiddle, htie⟩ := hbelow j rfl
    have hle : value k ≤ value j := hmono.monotone (Nat.le_of_lt_succ hk)
    have hlt : value k < value (j + 1) := hmono hk
    refine ⟨by linarith, by linarith, fun heq => htie (by linarith)⟩
  have hright : ∀ k, best < k → v < value k ∧ 2 * v ≤ value best + value k ∧
      (2 * v = value best + value k → best % 2 = 0) := by
    intro k hk
    obtain ⟨hmiddle, htie⟩ := habove
    have hle : value (best + 1) ≤ value k := hmono.monotone hk
    have hlt : value best < value k := hmono hk
    refine ⟨by linarith, by linarith, fun heq => htie (by linarith)⟩
  refine ⟨trivial, fun k _ => ?_, fun k _ hne heq => ?_⟩
  · rcases lt_trichotomy k best with hk | rfl | hk
    · obtain ⟨hlt, hmiddle, -⟩ := hleft k hk
      have hgrow := hmono hk
      rw [abs_of_neg (sub_neg.mpr hlt)]
      exact abs_le.mpr ⟨by linarith, by linarith⟩
    · exact le_rfl
    · obtain ⟨hlt, hmiddle, -⟩ := hright k hk
      have hgrow := hmono hk
      rw [abs_of_pos (sub_pos.mpr hlt)]
      exact abs_le.mpr ⟨by linarith, by linarith⟩
  · rcases lt_or_gt_of_ne hne with hk | hk
    · obtain ⟨hlt, -, htie⟩ := hleft k hk
      have hgrow := hmono hk
      rw [abs_of_neg (sub_neg.mpr hlt)] at heq
      rcases abs_choice (value best - v) with habs | habs <;> rw [habs] at heq
      · exact htie (by linarith)
      · linarith
    · obtain ⟨hlt, -, htie⟩ := hright k hk
      have hgrow := hmono hk
      rw [abs_of_pos (sub_pos.mpr hlt)] at heq
      rcases abs_choice (value best - v) with habs | habs <;> rw [habs] at heq
      · linarith
      · exact htie (by linarith)

/-- If the values end before the nearest one, then the last of them is the nearest. -/
theorem IsNearest.min (h : IsNearest Set.univ value v best) (hmono : StrictMono value)
    (last : ℕ) : IsNearest (Set.Iic last) value v (min last best) := by
  rcases le_or_gt best last with hle | hlt
  · rw [min_eq_right hle]
    exact ⟨hle, fun k _ => h.le k trivial, fun k _ => h.even_of_eq k trivial⟩
  rw [min_eq_left hlt.le]
  -- The number is farther up than the middle between the last value and the nearest one.
  have hgrow := hmono hlt
  have hv : value last < v := by
    by_contra hge
    have hnear := h.le last trivial
    rw [abs_of_nonneg (by linarith), abs_of_nonneg (by linarith)] at hnear
    linarith
  have hfarther : ∀ k, k < last → |value last - v| < |value k - v| := by
    intro k hk
    have hless := hmono hk
    rw [abs_of_neg (by linarith), abs_of_neg (by linarith)]
    linarith
  refine ⟨Set.mem_Iic.mpr le_rfl, fun k hk => ?_, fun k hk hne heq => ?_⟩
  · rcases Nat.lt_or_eq_of_le hk with hk | rfl
    · exact (hfarther k hk).le
    · exact le_rfl
  · exact absurd heq (hfarther k (lt_of_le_of_ne hk hne)).ne'

/-- The last value is the nearest to all that is beyond the middle below it, and to the middle too
if its own place is even. -/
theorem IsNearest.eq_last {top : ℕ} (h : IsNearest (Set.Iic top) value v best)
    (hmono : StrictMonoOn value (Set.Iic top)) {last : ℕ} (htop : last + 1 = top)
    (hodd : last % 2 = 1) (hv : value last + value top ≤ 2 * v) : best = top := by
  subst htop
  by_contra hne
  have hbest : best ≤ last + 1 := h.mem
  have hlast : last ∈ Set.Iic (last + 1) := Set.mem_Iic.mpr (Nat.le_succ last)
  have hend : last + 1 ∈ Set.Iic (last + 1) := Set.mem_Iic.mpr le_rfl
  have hle : value best ≤ value last := hmono.monotoneOn h.mem hlast (by omega)
  have hgrow : value last < value (last + 1) := hmono hlast hend (Nat.lt_succ_self last)
  have hnear := h.le (last + 1) hend
  rw [abs_of_neg (by linarith)] at hnear
  rcases lt_or_ge v (value (last + 1)) with hlt | hge
  · -- The number is in the middle, and the place below is odd.
    rw [abs_of_pos (by linarith)] at hnear
    have hsame : value best = value last := by linarith
    have heq : best = last := hmono.injOn h.mem hlast hsame
    have htie := h.even_of_eq (last + 1) hend (by omega) (by
      rw [abs_of_pos (by linarith), abs_of_neg (by linarith)]
      linarith)
    omega
  · rw [abs_of_nonpos (by linarith)] at hnear
    linarith

end Nearest

/-! ## Ratios and naturals -/

namespace Layout

/-- A rounded ratio is at most half a unit away, and even if it is half a unit away. -/
theorem roundHalfEven_bounds (num : ℕ) {den : ℕ} (hden : 0 < den) :
    ((roundHalfEven num den : ℚ) - 1 / 2 ≤ num / den ∧
      (num : ℚ) / den ≤ roundHalfEven num den + 1 / 2) ∧
      ((roundHalfEven num den : ℚ) - 1 / 2 = num / den ∨
        (num : ℚ) / den = roundHalfEven num den + 1 / 2 → roundHalfEven num den % 2 = 0) := by
  have hpos : (0 : ℚ) < den := by exact_mod_cast hden
  obtain ⟨hhigh, hlow⟩ := roundHalfEven_near num hden
  have htie : 2 * (den * roundHalfEven num den) = 2 * num + den ∨
      2 * num = 2 * (den * roundHalfEven num den) + den → roundHalfEven num den % 2 = 0 := by
    have hnum := Nat.div_add_mod num den
    have hrest := Nat.mod_lt num hden
    unfold roundHalfEven
    generalize num / den = q at *
    generalize num % den = r at *
    subst hnum
    dsimp only
    split
    · omega
    · split
      · simp only [Nat.mul_add]
        omega
      · -- A remainder of a half makes the quotient even.
        omega
  generalize roundHalfEven num den = n at *
  refine ⟨⟨?_, ?_⟩, ?_⟩
  · rw [le_div_iff₀ hpos]
    have : (2 * (den * n) : ℚ) ≤ 2 * num + den := by exact_mod_cast hhigh
    linarith
  · rw [div_le_iff₀ hpos]
    have : (2 * num : ℚ) ≤ 2 * (den * n) + den := by exact_mod_cast hlow
    linarith
  · rw [eq_div_iff hpos.ne', div_eq_iff hpos.ne']
    rintro (heq | heq)
    · have : (2 * (den * n) : ℚ) = 2 * num + den := by linarith
      exact htie (.inl (by exact_mod_cast this))
    · have : (2 * num : ℚ) = 2 * (den * n) + den := by linarith
      exact htie (.inr (by exact_mod_cast this))

end Layout

/-- A ratio is rounded to the nearest natural, whatever unit both are counted in. -/
theorem isNearest_roundHalfEven (num : ℕ) {den : ℕ} (hden : 0 < den) {unit : ℚ} (hunit : 0 < unit) :
    IsNearest Set.univ (fun k => k * unit) (num / den * unit) (Layout.roundHalfEven num den) := by
  obtain ⟨⟨hlow, hhigh⟩, htie⟩ := Layout.roundHalfEven_bounds num hden
  generalize (num : ℚ) / den = v at *
  generalize Layout.roundHalfEven num den = n at *
  have hmono : StrictMono fun k : ℕ => (k : ℚ) * unit := by
    intro j k hjk
    exact mul_lt_mul_of_pos_right (by exact_mod_cast hjk) hunit
  apply isNearest_of_middles hmono
  · rintro k rfl
    push_cast at *
    refine ⟨by nlinarith, fun heq => htie (.inl ?_)⟩
    have : unit * (v - (k + 1 / 2)) = 0 := by linarith
    rcases mul_eq_zero.mp this with h | h <;> linarith
  · push_cast
    refine ⟨by nlinarith, fun heq => htie (.inr ?_)⟩
    have : unit * (v - (n + 1 / 2)) = 0 := by linarith
    rcases mul_eq_zero.mp this with h | h <;> linarith

/-! ## Ratios and bit patterns -/

namespace Layout

/-- The number that a bit pattern without a sign stands for. An infinity counts as the first power
of two that no finite number reaches. -/
def magnitude (L : Layout) (bits : ℕ) : ℚ :=
  match L.read bits with
  | .finite _ m e => m * 2 ^ e
  | .infinite _ => 2 ^ (L.minExponent + L.fractionBits + L.topExponent - 1)
  | .nan _ => 0

/-- What bit patterns would stand for if they went on for ever and no exponent were special. -/
def ladder (L : Layout) (k : ℕ) : ℚ :=
  if k < 2 ^ L.fractionBits then k * 2 ^ L.minExponent
  else (2 ^ L.fractionBits + k % 2 ^ L.fractionBits : ℕ) *
    2 ^ (L.minExponent + (k / 2 ^ L.fractionBits - 1 : ℕ))

variable {L : Layout} {m : ℕ} {e : ℤ}

/-- A significand may also be the next power of two, which carries into the exponent. -/
theorem ladder_eq (he : L.minExponent ≤ e) (hm : m ≤ 2 ^ (L.fractionBits + 1))
    (hlarge : L.minExponent < e → 2 ^ L.fractionBits ≤ m) :
    L.ladder ((e - L.minExponent).toNat * 2 ^ L.fractionBits + m) = m * 2 ^ e := by
  obtain ⟨j, rfl⟩ : ∃ j : ℕ, e = L.minExponent + j := ⟨(e - L.minExponent).toNat, by omega⟩
  have hj : (L.minExponent + j - L.minExponent).toNat = j := by omega
  have hpos : 0 < 2 ^ L.fractionBits := Nat.two_pow_pos _
  -- Above the subnormals a pattern is cut into its exponent field and its fraction.
  have hnormal : ∀ biased fraction : ℕ, fraction < 2 ^ L.fractionBits →
      L.ladder (fraction + (biased + 1) * 2 ^ L.fractionBits) =
        (2 ^ L.fractionBits + fraction : ℕ) * 2 ^ (L.minExponent + biased) := by
    intro biased fraction hfraction
    have hle : ¬fraction + (biased + 1) * 2 ^ L.fractionBits < 2 ^ L.fractionBits := by
      rw [Nat.succ_mul]
      omega
    rw [ladder, if_neg hle, Nat.add_mul_mod_self_right, Nat.mod_eq_of_lt hfraction,
      Nat.add_mul_div_right _ _ hpos, Nat.div_eq_of_lt hfraction, Nat.zero_add, Nat.add_sub_cancel]
  rw [hj]
  rw [pow_succ] at hm
  rcases lt_or_ge m (2 ^ L.fractionBits) with hsmall | hlarge'
  · obtain rfl : j = 0 := by
      by_contra hne
      have := hlarge (by omega)
      omega
    rw [Nat.zero_mul, Nat.zero_add, ladder, if_pos hsmall, Nat.cast_zero, add_zero]
  · obtain ⟨fraction, rfl⟩ : ∃ fraction, m = 2 ^ L.fractionBits + fraction :=
      ⟨m - 2 ^ L.fractionBits, by omega⟩
    rcases Nat.lt_or_eq_of_le (Nat.le_of_add_le_add_left (by omega :
      2 ^ L.fractionBits + fraction ≤ 2 ^ L.fractionBits + 2 ^ L.fractionBits)) with hlt | rfl
    · rw [← hnormal j fraction hlt]
      congr 1
      ring
    · have hcarry := hnormal (j + 1) 0 hpos
      have hsum : j * 2 ^ L.fractionBits + (2 ^ L.fractionBits + 2 ^ L.fractionBits) =
          0 + (j + 1 + 1) * 2 ^ L.fractionBits := by ring
      rw [hsum, hcarry, Nat.cast_succ, ← add_assoc, zpow_add_one₀ two_ne_zero]
      push_cast
      ring

/-- Every pattern has a significand and an exponent. -/
theorem exists_canonical (L : Layout) (k : ℕ) : ∃ m e, L.Canonical m e ∧
    k = (e - L.minExponent).toNat * 2 ^ L.fractionBits + m := by
  have hpos : 0 < 2 ^ L.fractionBits := Nat.two_pow_pos _
  rcases lt_or_ge k (2 ^ L.fractionBits) with hsmall | hlarge
  · refine ⟨k, L.minExponent, ⟨?_, le_rfl, fun h => absurd h (lt_irrefl _)⟩, ?_⟩
    · rw [pow_succ]
      omega
    · rw [sub_self, Int.toNat_zero, Nat.zero_mul, Nat.zero_add]
  · have hmod := Nat.mod_lt k hpos
    obtain ⟨j, hj⟩ : ∃ j, k / 2 ^ L.fractionBits = j + 1 :=
      ⟨k / 2 ^ L.fractionBits - 1, by have := Nat.div_pos hlarge hpos; omega⟩
    refine ⟨2 ^ L.fractionBits + k % 2 ^ L.fractionBits, L.minExponent + j, ⟨?_, by omega,
      fun _ => Nat.le_add_right _ _⟩, ?_⟩
    · rw [pow_succ]
      omega
    · have hdiv := Nat.div_add_mod k (2 ^ L.fractionBits)
      rw [hj] at hdiv
      rw [add_sub_cancel_left, Int.toNat_natCast, ← Nat.add_assoc, ← Nat.succ_mul, Nat.mul_comm]
      exact hdiv.symm

theorem ladder_strictMono (L : Layout) : StrictMono L.ladder := by
  apply strictMono_nat_of_lt_succ
  intro k
  obtain ⟨m, e, hcanonical, rfl⟩ := L.exists_canonical k
  have hnext : L.minExponent < e → 2 ^ L.fractionBits ≤ m + 1 := fun h =>
    (hcanonical.le_of_lt h).trans (Nat.le_succ m)
  rw [Nat.add_assoc, ladder_eq hcanonical.le_exponent hcanonical.lt.le hcanonical.le_of_lt,
    ladder_eq hcanonical.le_exponent hcanonical.lt hnext]
  exact mul_lt_mul_of_pos_right (by exact_mod_cast Nat.lt_succ_self m) (by positivity)

theorem topExponent_bounds (hexponent : 0 < L.exponentBits) :
    0 < L.topExponent ∧ L.topExponent < 2 ^ L.exponentBits := by
  have := Nat.one_lt_two_pow hexponent.ne'
  rw [topExponent, Nat.pow_eq]
  omega

theorem infinityBits_lt (hexponent : 0 < L.exponentBits) :
    L.infinityBits < 2 ^ (L.fractionBits + L.exponentBits) := by
  rw [infinityBits, Nat.pow_eq, Nat.pow_add, Nat.mul_comm]
  exact Nat.mul_lt_mul_of_pos_left (topExponent_bounds hexponent).2 (Nat.two_pow_pos _)

theorem exists_read_infinityBits (hexponent : 0 < L.exponentBits) :
    ∃ negative, L.read L.infinityBits = .infinite negative := by
  have hbits : L.infinityBits = L.topExponent * 2 ^ L.fractionBits := rfl
  refine ⟨L.infinityBits / 2 ^ (L.fractionBits + L.exponentBits) % 2 == 1, ?_⟩
  simp only [read, Nat.pow_eq]
  rw [if_pos, if_pos]
  · rw [hbits, Nat.mul_mod_left]
  · rw [hbits, Nat.mul_div_cancel _ (Nat.two_pow_pos _),
      Nat.mod_eq_of_lt (topExponent_bounds hexponent).2]

/-- Up to infinity, bit patterns stand for what they would stand for if there were none. -/
theorem magnitude_eq_ladder (hexponent : 0 < L.exponentBits) {k : ℕ} (hk : k ≤ L.infinityBits) :
    L.magnitude k = L.ladder k := by
  rcases Nat.lt_or_eq_of_le hk with hlt | rfl
  · have hmod : k % 2 ^ (L.fractionBits + L.exponentBits) = k :=
      Nat.mod_eq_of_lt (hlt.trans (infinityBits_lt hexponent))
    obtain ⟨negative, m, e, hread⟩ := exists_read_eq_finite_iff.mpr (hmod.symm ▸ hlt)
    obtain ⟨hcanonical, hbits, -⟩ := read_eq_finite hread
    rw [hmod] at hbits
    rw [magnitude, hread, hbits]
    exact (ladder_eq hcanonical.le_exponent hcanonical.lt.le hcanonical.le_of_lt).symm
  · -- The pattern of infinity is the carry out of the largest significand.
    obtain ⟨top, hsucc⟩ : ∃ top, L.topExponent = top + 1 :=
      ⟨L.topExponent - 1, by have := topExponent_bounds hexponent; omega⟩
    have hbits : L.infinityBits = (top + 1) * 2 ^ L.fractionBits := by
      rw [infinityBits, Nat.pow_eq, hsucc]
    have hladder := ladder_eq (L := L) (m := 2 ^ L.fractionBits) (e := L.minExponent + top)
      (by omega) (by rw [pow_succ]; omega) fun _ => le_rfl
    rw [add_sub_cancel_left, Int.toNat_natCast, ← Nat.succ_mul] at hladder
    obtain ⟨negative, hread⟩ := exists_read_infinityBits hexponent
    rw [magnitude, hread, hbits, hladder, hsucc]
    dsimp only
    rw [Nat.cast_pow, Nat.cast_ofNat, ← zpow_natCast, ← zpow_add₀ two_ne_zero]
    congr 1
    push_cast
    ring

section Neighbours

variable {r k : ℕ} {u : ℚ}

/-- A pattern is even if its significand is. -/
theorem pattern_mod_two (hfraction : 0 < L.fractionBits) (j r : ℕ) :
    (j * 2 ^ L.fractionBits + r) % 2 = r % 2 := by
  obtain ⟨f, hf⟩ : ∃ f, L.fractionBits = f + 1 := ⟨L.fractionBits - 1, by omega⟩
  rw [hf, pow_succ, ← Nat.mul_assoc, Nat.mul_comm _ 2, Nat.mul_add_mod]

/-- A number that is rounded to `r` at its last place is not below the middle to the pattern
before it. -/
theorem ladder_add_le (hleast : L.minExponent ≤ e) (hr : r ≤ 2 ^ (L.fractionBits + 1))
    (hr' : L.minExponent < e → 2 ^ L.fractionBits ≤ r)
    (hle : L.minExponent < e → 2 ^ L.fractionBits ≤ u) (hlow : (r : ℚ) - 1 / 2 ≤ u)
    (htie : (r : ℚ) - 1 / 2 = u → r % 2 = 0)
    (hk : k + 1 = (e - L.minExponent).toNat * 2 ^ L.fractionBits + r) :
    L.ladder k + r * 2 ^ e ≤ 2 * (u * 2 ^ e) ∧
      (L.ladder k + r * 2 ^ e = 2 * (u * 2 ^ e) → r % 2 = 0) := by
  have hpos : (0 : ℚ) < 2 ^ e := by positivity
  by_cases hend : L.minExponent < e ∧ r = 2 ^ L.fractionBits
  · -- At the lower end of an exponent the number is not below `r` at all, and the pattern before
    -- it, which belongs to another exponent, need not be looked at.
    have hgrow := L.ladder_strictMono (Nat.lt_succ_self k)
    rw [Nat.succ_eq_add_one, hk, ladder_eq hleast hr hr'] at hgrow
    have hle : (r : ℚ) * 2 ^ e ≤ u * 2 ^ e := by
      apply mul_le_mul_of_nonneg_right ?_ hpos.le
      rw [hend.2]
      exact_mod_cast hle hend.1
    exact ⟨by linarith, fun heq => absurd heq (by linarith)⟩
  obtain ⟨m, rfl⟩ : ∃ m, r = m + 1 := by
    refine ⟨r - 1, ?_⟩
    by_contra hzero
    obtain rfl : r = 0 := by omega
    have heq : ¬L.minExponent < e := fun h =>
      absurd (hr' h) (Nat.not_le.mpr (Nat.two_pow_pos _))
    have hsame : (e - L.minExponent).toNat = 0 := by omega
    rw [hsame, Nat.zero_mul] at hk
    exact Nat.succ_ne_zero k hk
  have hm : L.minExponent < e → 2 ^ L.fractionBits ≤ m := by
    intro h
    have := hr' h
    omega
  rw [← Nat.add_assoc] at hk
  rw [Nat.succ.inj hk, ladder_eq hleast (Nat.le_of_succ_le hr) hm]
  push_cast at hlow htie ⊢
  refine ⟨?_, fun heq => htie ?_⟩
  · have := mul_le_mul_of_nonneg_right hlow hpos.le
    linarith
  · apply mul_right_cancel₀ hpos.ne'
    linarith

/-- Nor is it above the middle to the pattern after it. -/
theorem le_add_ladder (hleast : L.minExponent ≤ e) (hr : r ≤ 2 ^ (L.fractionBits + 1))
    (hr' : L.minExponent < e → 2 ^ L.fractionBits ≤ r) (hlt : u < 2 ^ (L.fractionBits + 1))
    (hhigh : u ≤ r + 1 / 2) (htie : u = r + 1 / 2 → r % 2 = 0) :
    2 * (u * 2 ^ e) ≤ r * 2 ^ e +
        L.ladder ((e - L.minExponent).toNat * 2 ^ L.fractionBits + r + 1) ∧
      (2 * (u * 2 ^ e) = r * 2 ^ e +
        L.ladder ((e - L.minExponent).toNat * 2 ^ L.fractionBits + r + 1) → r % 2 = 0) := by
  have hpos : (0 : ℚ) < 2 ^ e := by positivity
  rcases Nat.lt_or_eq_of_le hr with hsmall | rfl
  · rw [Nat.add_assoc, ladder_eq hleast hsmall fun h => (hr' h).trans (Nat.le_succ r)]
    push_cast
    refine ⟨?_, fun heq => htie ?_⟩
    · have := mul_le_mul_of_nonneg_right hhigh hpos.le
      linarith
    · apply mul_right_cancel₀ hpos.ne'
      linarith
  · -- At the upper end of an exponent the number is below `r`.
    have hgrow := L.ladder_strictMono
      (Nat.lt_succ_self ((e - L.minExponent).toNat * 2 ^ L.fractionBits + 2 ^ (L.fractionBits + 1)))
    rw [ladder_eq hleast hr hr'] at hgrow
    have hlt := mul_lt_mul_of_pos_right hlt hpos
    push_cast at hgrow ⊢
    exact ⟨by linarith, fun heq => absurd heq (by linarith)⟩

/-- A number that is rounded at its last place lies between the middles to the neighbours of the
pattern that it is rounded to. -/
theorem isNearest_ladder_of_bounds (hfraction : 0 < L.fractionBits) (hleast : L.minExponent ≤ e)
    (hlt : u < 2 ^ (L.fractionBits + 1)) (hle : L.minExponent < e → 2 ^ L.fractionBits ≤ u)
    (hlow : (r : ℚ) - 1 / 2 ≤ u) (hhigh : u ≤ r + 1 / 2)
    (htie : (r : ℚ) - 1 / 2 = u ∨ u = r + 1 / 2 → r % 2 = 0) :
    IsNearest Set.univ L.ladder (u * 2 ^ e)
      ((e - L.minExponent).toNat * 2 ^ L.fractionBits + r) := by
  have hr : r ≤ 2 ^ (L.fractionBits + 1) := by
    have : (r : ℚ) < 2 ^ (L.fractionBits + 1) + 1 := by linarith
    exact Nat.le_of_lt_succ (by exact_mod_cast this)
  have hr' : L.minExponent < e → 2 ^ L.fractionBits ≤ r := by
    intro h
    have := hle h
    have : (2 : ℚ) ^ L.fractionBits < r + 1 := by linarith
    exact Nat.le_of_lt_succ (by exact_mod_cast this)
  apply isNearest_of_middles L.ladder_strictMono
  · rintro k hk
    rw [pattern_mod_two hfraction, ladder_eq hleast hr hr']
    exact ladder_add_le hleast hr hr' hle hlow (fun heq => htie (.inl heq)) hk
  · rw [pattern_mod_two hfraction, ladder_eq hleast hr hr']
    exact le_add_ladder hleast hr hr' hlt hhigh fun heq => htie (.inr heq)

end Neighbours

theorem isNearest_ladder (hfraction : 0 < L.fractionBits) {num den : ℕ} (hnum : 0 < num)
    (hden : 0 < den) :
    IsNearest Set.univ L.ladder (num / den)
      ((L.lastPlace num den - L.minExponent).toNat * 2 ^ L.fractionBits +
        roundHalfEven (scaleBy num den (L.lastPlace num den)).1
          (scaleBy num den (L.lastPlace num den)).2) := by
  obtain ⟨hleast, hlt, hle⟩ := L.lastPlace_spec hnum hden
  generalize L.lastPlace num den = e at *
  obtain ⟨⟨hlow, hhigh⟩, htie⟩ := roundHalfEven_bounds (scaleBy num den e).1 (scaleBy_pos hden num e)
  rw [scaleBy_eq] at hlow hhigh htie
  -- In units `2 ^ e` of the last place the ratio is `u`.
  have hv := mul_zpow_neg_mul_zpow (num / den) e
  have hpos : (0 : ℚ) < 2 ^ e := by positivity
  have htop : (2 : ℚ) ^ (e + L.fractionBits + 1) = 2 ^ (L.fractionBits + 1) * 2 ^ e := by
    rw [add_assoc, zpow_add₀ two_ne_zero, mul_comm]
    norm_cast
  have hbottom : (2 : ℚ) ^ (e + L.fractionBits) = 2 ^ L.fractionBits * 2 ^ e := by
    rw [zpow_add₀ two_ne_zero, mul_comm, zpow_natCast]
  rw [htop] at hlt
  rw [hbottom] at hle
  generalize (num : ℚ) / den * 2 ^ (-e) = u at *
  rw [← hv] at hlt hle ⊢
  exact isNearest_ladder_of_bounds hfraction hleast (lt_of_mul_lt_mul_right hlt hpos.le)
    (fun h => le_of_mul_le_mul_right (hle h) hpos) hlow hhigh htie

/-- A ratio is rounded to the nearest number of a layout, or to infinity if that is nearer than
all finite numbers. -/
theorem isNearest_nearest (hfraction : 0 < L.fractionBits) (hexponent : 0 < L.exponentBits)
    (num : ℕ) {den : ℕ} (hden : 0 < den) :
    IsNearest (Set.Iic L.infinityBits) L.magnitude (num / den) (L.nearest num den) := by
  have hladder : ∀ k ∈ Set.Iic L.infinityBits, L.magnitude k = L.ladder k := fun k hk =>
    magnitude_eq_ladder hexponent hk
  rcases Nat.eq_zero_or_pos num with rfl | hnum
  · -- Zero has no last place, but no neighbour is nearer to it than itself.
    have hzero : L.ladder 0 = 0 := by
      rw [ladder, if_pos (Nat.two_pow_pos _), Nat.cast_zero, zero_mul]
    have hone := L.ladder_strictMono Nat.one_pos
    rw [hzero] at hone
    have hnearest : IsNearest Set.univ L.ladder 0 0 := by
      apply isNearest_of_middles L.ladder_strictMono (by rintro k hk; omega)
      rw [hzero, zero_add, mul_zero]
      exact ⟨hone.le, fun _ => rfl⟩
    have hnone : L.nearest 0 den = min L.infinityBits 0 := (min_eq_right (Nat.zero_le _)).symm
    rw [Nat.cast_zero, zero_div, hnone]
    exact (hnearest.min L.ladder_strictMono _).congr hladder
  · rw [nearest_eq hnum rfl]
    exact ((isNearest_ladder hfraction hnum hden).min L.ladder_strictMono _).congr hladder

theorem magnitude_strictMonoOn (hexponent : 0 < L.exponentBits) :
    StrictMonoOn L.magnitude (Set.Iic L.infinityBits) := by
  intro j hj k hk hlt
  rw [magnitude_eq_ladder hexponent hj, magnitude_eq_ladder hexponent hk]
  exact L.ladder_strictMono hlt

/-- A decimal is rounded to the nearest number, unless it is so small that it is out of reach. -/
theorem isNearest_nearestDecimal (hfraction : 0 < L.fractionBits) (hexponent : 0 < L.exponentBits)
    {c : ℕ} {k : ℤ} (h : c = 0 ∨ (10 : ℚ) ^ (-400 : ℤ) ≤ c * 10 ^ k ∧ (c : ℚ) * 10 ^ k < 10 ^ (400 : ℤ)) :
    IsNearest (Set.Iic L.infinityBits) L.magnitude (c * 10 ^ k) (L.nearestDecimal c k) := by
  rcases Nat.eq_zero_or_pos c with rfl | hc
  · have hzero : L.nearestDecimal 0 k = L.nearest 0 1 := by
      rw [nearestDecimal, if_pos (.inl rfl), nearest, if_pos rfl]
    have hnearest := isNearest_nearest hfraction hexponent 0 Nat.one_pos
    rwa [Nat.cast_zero, zero_div, ← hzero, ← zero_mul ((10 : ℚ) ^ k), ← Nat.cast_zero] at hnearest
  · obtain ⟨hlow, hhigh⟩ := h.resolve_left hc.ne'
    have hratio : ((c * 10 ^ k.toNat : ℕ) : ℚ) / (10 ^ (-k).toNat : ℕ) = c * 10 ^ k := by
      rw [← Decimal.ten_zpow_toNat]
      push_cast
      ring
    rw [nearestDecimal_eq L hc hlow hhigh, ← hratio]
    exact isNearest_nearest hfraction hexponent _ (Nat.pow_pos (by omega))

end Layout

end BoostedTrees
