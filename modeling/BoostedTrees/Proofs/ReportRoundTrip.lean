import BoostedTrees.Proofs.NearestNumbers
import BoostedTrees.Proofs.NumberSteps
import BoostedTrees.Proofs.ReportedValues

/-!
# Values that went through a report

A value is rounded twice on its way through a report: to a whole number of millionths where it is
shown, and to single precision where it is read. Both roundings are exact, so each of them can be
said without the other: the millionths are the nearest to the value, and the number that is read
is the nearest to the millionths. Names do not matter as long as they hold no tabs.

A value may be too large for single precision. Then it is read as the infinity of its sign, and so
is an infinity itself. The sign is kept in all numbers, in zeros and in what is rounded to zero.

## Main definitions

* `Report.Item`: a value under the names of its matrix and its metric, which may be any text
* `Report.ReadsBack`: how what is read depends on what was shown

## Main results

* `Double.decimal?_sixPlaces`: six decimal places are read as millionths
* `Double.readsBack_of_value?`: what is read off the text of a value
* `Report.parse_items`: a report is read back value by value
-/

namespace BoostedTrees

/-! ## Bits of numbers -/

namespace Double

variable {x : Double} {negative : Bool} {m : ℕ} {e : ℤ}

theorem isNaN_iff : x.isNaN ↔ Layout.double.infinityBits < x.bits.toNat % 2 ^ 63 := by
  have hmask : x.bits.toNat &&& 2 ^ 63 - 1 = x.bits.toNat % 2 ^ 63 :=
    Nat.and_two_pow_sub_one_eq_mod _ _
  rw [isNaN, decide_eq_true_iff, UInt64.lt_iff_toNat_lt, UInt64.toNat_and, ← hmask]
  rfl

theorem isNegative_eq (x : Double) : x.isNegative = (x.bits.toNat / 2 ^ 63 % 2 == 1) := by
  have hlt := x.bits.toNat_lt
  have hsign : x.isNegative = decide (2 ^ 63 ≤ x.bits.toNat) := rfl
  rw [hsign, Bool.eq_iff_iff, decide_eq_true_iff, beq_iff_eq]
  omega

theorem isNaN_of_datum_eq_nan (h : x.datum = .nan negative) : x.isNaN = true :=
  isNaN_iff.mpr (Layout.infinityBits_lt_of_read_eq_nan h)

theorem isNaN_of_datum_eq_infinite (h : x.datum = .infinite negative) : x.isNaN = false := by
  obtain ⟨heq, -⟩ := Layout.read_eq_infinite h
  exact Bool.eq_false_iff.mpr fun hnan => (isNaN_iff.mp hnan).ne' heq

theorem isNaN_of_datum_eq_finite (h : x.datum = .finite negative m e) : x.isNaN = false := by
  obtain ⟨-, -, hlt, -⟩ := Layout.read_eq_finite h
  exact Bool.eq_false_iff.mpr fun hnan => lt_asymm hlt (isNaN_iff.mp hnan)

/-- Double precision has numbers below the power of two with the exponent `1024`. -/
theorem lt_of_datum_eq_finite (h : x.datum = .finite negative m e) :
    (m : ℚ) * 2 ^ e < 2 ^ (1024 : ℤ) := by
  obtain ⟨hcanonical, hbits, hlt, -⟩ := Layout.read_eq_finite h
  have hm : m < 2 ^ 53 := hcanonical.lt
  have hleast : -1074 ≤ e := hcanonical.le_exponent
  have hnormal : -1074 < e → 2 ^ 52 ≤ m := hcanonical.le_of_lt
  have hsum : x.bits.toNat % 2 ^ 63 = (e + 1074).toNat * 2 ^ 52 + m := hbits
  have htop : x.bits.toNat % 2 ^ 63 < 2047 * 2 ^ 52 := hlt
  have he : e ≤ 971 := by omega
  calc (m : ℚ) * 2 ^ e < 2 ^ (53 : ℤ) * 2 ^ e := by
        gcongr
        exact_mod_cast hm
    _ ≤ 2 ^ (53 : ℤ) * 2 ^ (971 : ℤ) := by
        gcongr
        exact one_le_two
    _ = 2 ^ (1024 : ℤ) := by rw [← zpow_add₀ two_ne_zero]; norm_num

/-! ## Millionths -/

/-- The millionths of a value are the nearest ones. -/
theorem isNearest_millionths (m : ℕ) (e : ℤ) :
    IsNearest Set.univ (fun k => k * 10 ^ (-6 : ℤ)) (m * 2 ^ e) (millionths m e) := by
  have hvalue : ((m * Nat.pow 2 e.toNat * 1000000 : ℕ) : ℚ) / (Nat.pow 2 (-e).toNat : ℕ) *
      10 ^ (-6 : ℤ) = m * 2 ^ e := by
    rw [← Layout.zpow_toNat]
    simp only [Nat.pow_eq]
    push_cast
    field_simp
    norm_num
  rw [← hvalue]
  exact isNearest_roundHalfEven _ (Nat.pow_pos (by omega)) (by positivity)

/-- Six decimal places are read as millionths. -/
theorem decimal?_sixPlaces (n : ℕ) :
    Numeral.decimal? (sixPlaces n) = some (.decimal n (-6)) := by
  have hshort : (Nat.toDigits 10 (n % 1000000)).length ≤ 6 :=
    (Nat.length_toDigits_le_iff (by omega) (by omega)).mpr (Nat.mod_lt n (by omega))
  have hlength : (List.replicate (6 - (Nat.toDigits 10 (n % 1000000)).length) '0' ++
      Nat.toDigits 10 (n % 1000000)).length = 6 := by
    rw [List.length_append, List.length_replicate]
    omega
  rw [sixPlaces, Numeral.decimal?_point Numeral.isDigit_of_mem_toDigits
    (List.forall_mem_append.mpr ⟨Decimal.isDigit_of_mem_replicate, Numeral.isDigit_of_mem_toDigits⟩)
    Nat.toDigits_ne_nil, Numeral.ofDigits_append, hlength, Numeral.ofDigits_append,
    Numeral.ofDigits_replicate_zero, Numeral.ofDigits_toDigits, Numeral.ofDigits_toDigits,
    Nat.mul_zero, Nat.zero_add]
  have hwhole : 10 ^ 6 * (n / 1000000) + n % 1000000 = n := Nat.div_add_mod n 1000000
  rw [hwhole]
  rfl

/-- A finite number is read as the decimal that it is shown as. -/
theorem read?_fixedChars_of_finite (h : x.datum = .finite negative m e) :
    Numeral.read? x.fixedChars = some ⟨negative, .decimal (millionths m e) (-6)⟩ := by
  obtain ⟨c, whole, fraction, heq, hdigits, -⟩ := exists_sixPlaces (millionths m e)
  -- The first character is a digit, and so it is not read as another sign.
  have hdigit := hdigits c List.mem_cons_self
  have hread := decimal?_sixPlaces (millionths m e)
  rw [heq, List.cons_append] at hread
  rw [fixedChars, h]
  dsimp only
  rw [heq, List.cons_append, Numeral.read?_withSign hdigit, hread]
  rfl

/-- The decimals of finite numbers are within the reach of reading. -/
theorem reach_of_millionths (h : x.datum = .finite negative m e) :
    millionths m e = 0 ∨ (10 : ℚ) ^ (-400 : ℤ) ≤ millionths m e * 10 ^ (-6 : ℤ) ∧
      (millionths m e : ℚ) * 10 ^ (-6 : ℤ) < 10 ^ (400 : ℤ) := by
  have hvalue : (0 : ℚ) ≤ m * 2 ^ e := by positivity
  have hnear := (isNearest_millionths m e).le 0 trivial
  have hlt := lt_of_datum_eq_finite h
  generalize millionths m e = n at *
  rcases Nat.eq_zero_or_pos n with hzero | hpos
  · exact .inl hzero
  refine .inr ⟨?_, ?_⟩
  · calc (10 : ℚ) ^ (-400 : ℤ) ≤ 1 * 10 ^ (-6 : ℤ) := by
          rw [one_mul]
          exact zpow_le_zpow_right₀ (by norm_num) (by norm_num)
      _ ≤ n * 10 ^ (-6 : ℤ) := by
          gcongr
          exact_mod_cast hpos
  · -- The millionths are not farther from the value than zero is.
    rw [Nat.cast_zero, zero_mul, zero_sub, abs_neg, abs_of_nonneg hvalue] at hnear
    have hdouble := sub_le_iff_le_add.mp (abs_le.mp hnear).2
    calc (n : ℚ) * 10 ^ (-6 : ℤ) ≤ m * 2 ^ e + m * 2 ^ e := hdouble
      _ < 2 ^ (1024 : ℤ) + 2 ^ (1024 : ℤ) := add_lt_add hlt hlt
      _ = 2 ^ (1025 : ℤ) := by rw [← two_mul, ← zpow_one_add₀ two_ne_zero]; rfl
      _ ≤ 2 ^ (3 * 342 : ℤ) := zpow_le_zpow_right₀ one_le_two (by decide)
      _ = 8 ^ (342 : ℤ) := by rw [zpow_mul]; congr 1
      _ ≤ 10 ^ (342 : ℤ) := zpow_le_zpow_left₀ (by decide) (by norm_num) (by norm_num)
      _ < 10 ^ (400 : ℤ) := zpow_lt_zpow_right₀ (by norm_num) (by decide)

end Double

namespace Numeral

/-- What a numeral that is no NaN is read as has its magnitude and its sign. -/
theorem toSingle_spec {n : Numeral}
    (h : n.magnitude.bits Layout.single ≤ Layout.single.infinityBits) :
    n.toSingle.bits.toNat % 2 ^ 31 = n.magnitude.bits Layout.single ∧
      n.toSingle.isNegative = n.negative ∧ n.toSingle.isNaN = false := by
  have hinfinity : Layout.single.infinityBits < 2 ^ 31 := by decide
  obtain ⟨x, hx⟩ : ∃ x : Single, x = ⟨UInt32.ofNat (n.magnitude.bits Layout.single +
      2 ^ 31 * n.negative.toNat)⟩ := ⟨_, rfl⟩
  have hbits : x.bits.toNat = n.magnitude.bits Layout.single + 2 ^ 31 * n.negative.toNat := by
    have hsign := n.negative.toNat_le
    rw [hx]
    exact UInt32.toNat_ofNat_of_lt (by rw [UInt32.size]; omega)
  have hmagnitude : x.bits.toNat % 2 ^ 31 = n.magnitude.bits Layout.single := by omega
  have hsign : n.negative = (x.bits.toNat / 2 ^ 31 % 2 == 1) := by
    cases hnegative : n.negative <;> simp [hnegative] at hbits ⊢ <;> omega
  -- The number with these bits is what the numeral is read as.
  have hread : n.toSingle = x := by
    have heq := x.eq_of_bits hsign
    rw [hmagnitude] at heq
    exact heq
  rw [hread]
  refine ⟨hmagnitude, ?_, ?_⟩
  · have hlt := x.bits.toNat_lt
    have hnegative : x.isNegative = decide (2 ^ 31 ≤ x.bits.toNat) := rfl
    rw [hnegative, hsign, Bool.eq_iff_iff, decide_eq_true_iff, beq_iff_eq]
    omega
  · rw [Single.isNaN, decide_eq_false_iff_not, UInt32.lt_iff_toNat_lt, Single.toNat_magnitude,
      hmagnitude]
    exact Nat.not_lt.mpr h

end Numeral

/-- The infinity of a sign. -/
def Single.signedInfinity (negative : Bool) : Single := if negative then negInfinity else infinity

theorem Numeral.toSingle_of_bits {n : Numeral}
    (h : n.magnitude.bits Layout.single = Layout.single.infinityBits) :
    n.toSingle = Single.signedInfinity n.negative := by
  rw [toSingle, h]
  cases n.negative <;> rfl

/-! ## Values -/

namespace Report

/-- What is read where a value was shown. A NaN is read as a NaN, an infinity as itself, and the
sign is kept. A finite value is rounded to millionths and these to single precision, both to the
nearest, halves to even; an infinity stands for the first power of two that is too large, so all
from half way between the largest number and this power is read as an infinity. -/
structure ReadsBack (x : Double) (y : Single) : Prop where
  isNaN_eq : y.isNaN = x.isNaN
  isNegative_eq : x.isNaN = false → y.isNegative = x.isNegative
  of_infinite : ∀ negative, x.datum = .infinite negative → y = Single.signedInfinity negative
  of_finite : ∀ negative m e, x.datum = .finite negative m e →
    ∃ n, IsNearest Set.univ (fun k => k * 10 ^ (-6 : ℤ)) (m * 2 ^ e) n ∧
      IsNearest (Set.Iic Layout.single.infinityBits) Layout.single.magnitude (n * 10 ^ (-6 : ℤ))
        (y.bits.toNat % 2 ^ 31) ∧
      ((2 : ℚ) ^ (128 : ℤ) - 2 ^ (103 : ℤ) ≤ n * 10 ^ (-6 : ℤ) → y = Single.signedInfinity negative)

end Report

namespace Double

open Report (ReadsBack)

variable {x : Double} {y : Single} {negative : Bool} {m : ℕ} {e : ℤ}

theorem isNegative_of_datum_eq_infinite (h : x.datum = .infinite negative) :
    x.isNegative = negative :=
  x.isNegative_eq.trans (Layout.read_eq_infinite h).2.symm

theorem isNegative_of_datum_eq_finite (h : x.datum = .finite negative m e) :
    x.isNegative = negative := by
  obtain ⟨-, -, -, hsign⟩ := Layout.read_eq_finite h
  exact x.isNegative_eq.trans hsign.symm

theorem readsBack_of_nan (h : x.datum = .nan negative)
    (hread : Report.value? x.fixedChars = some y) : ReadsBack x y := by
  have hnan := isNaN_of_datum_eq_nan h
  have htext : x.fixedChars = ['n', 'a', 'n'] := by rw [fixedChars, h]
  rw [htext] at hread
  obtain rfl : Single.nan = y := Option.some.inj hread
  refine ⟨hnan.symm ▸ rfl, ?_, ?_, ?_⟩
  · simp [hnan]
  · simp [h]
  · simp [h]

theorem readsBack_of_infinite (h : x.datum = .infinite negative)
    (hread : Report.value? x.fixedChars = some y) : ReadsBack x y := by
  have hnan := isNaN_of_datum_eq_infinite h
  have htext : x.fixedChars = withSign negative ['i', 'n', 'f'] := by rw [fixedChars, h]
  have hvalue : Report.value? (withSign negative ['i', 'n', 'f']) =
      some (Single.signedInfinity negative) := by cases negative <;> rfl
  rw [htext, hvalue] at hread
  obtain rfl := Option.some.inj hread
  refine ⟨?_, fun _ => ?_, ?_, ?_⟩
  · rw [hnan]
    cases negative <;> rfl
  · rw [isNegative_of_datum_eq_infinite h]
    cases negative <;> rfl
  · rw [h]
    rintro _ ⟨⟩
    rfl
  · simp [h]

/-- The middle between the largest number and the power of two that an infinity stands for. -/
theorem magnitude_largest : Layout.single.magnitude (255 * 2 ^ 23 - 1) +
    Layout.single.magnitude Layout.single.infinityBits = 2 * (2 ^ (128 : ℤ) - 2 ^ (103 : ℤ)) := by
  have hlargest : Layout.single.read (255 * 2 ^ 23 - 1) = .finite false 0xffffff 104 := rfl
  have hinfinity : Layout.single.read Layout.single.infinityBits = .infinite false := rfl
  rw [Layout.magnitude, Layout.magnitude, hlargest, hinfinity]
  norm_num [Layout.minExponent, Layout.topExponent, Layout.single]

theorem readsBack_of_finite (h : x.datum = .finite negative m e)
    (hread : Report.value? x.fixedChars = some y) : ReadsBack x y := by
  have hnearest := Layout.isNearest_nearestDecimal (L := Layout.single) (by decide) (by decide)
    (reach_of_millionths h)
  have hnan := isNaN_of_datum_eq_finite h
  rw [Report.value?, Single.ofText?, read?_fixedChars_of_finite h] at hread
  obtain rfl := Option.some.inj hread
  obtain ⟨hbits, hsign, hnumber⟩ := Numeral.toSingle_spec
    (n := ⟨negative, .decimal (millionths m e) (-6)⟩) hnearest.mem
  refine ⟨hnumber.trans hnan.symm, fun _ => ?_, ?_, ?_⟩
  · rw [hsign, isNegative_of_datum_eq_finite h]
  · simp [h]
  · rw [h]
    rintro _ _ _ ⟨⟩
    refine ⟨millionths m e, isNearest_millionths m e, ?_, fun hlarge => ?_⟩
    · rw [hbits]
      exact hnearest
    · -- The largest number stands in an odd place, and so the middle itself goes to the infinity.
      have hlast : 255 * 2 ^ 23 - 1 + 1 = Layout.single.infinityBits := rfl
      apply Numeral.toSingle_of_bits
      apply hnearest.eq_last (Layout.magnitude_strictMonoOn (by decide)) hlast (by decide)
      rw [magnitude_largest]
      exact mul_le_mul_of_nonneg_left hlarge zero_le_two

/-- What is read off the text of a value. -/
theorem readsBack_of_value? (hread : Report.value? x.fixedChars = some y) : ReadsBack x y := by
  cases h : x.datum with
  | nan negative => exact readsBack_of_nan h hread
  | infinite negative => exact readsBack_of_infinite h hread
  | finite negative m e => exact readsBack_of_finite h hread

end Double

/-! ## Reports -/

namespace Report

/-- A value under the names of its matrix and its metric. -/
structure Item where
  name : List Char
  metric : List Char
  value : Double

/-- The entry of an item, without the tab before it. -/
def Item.text (c : Item) : List Char := c.name ++ '-' :: (c.metric ++ ':' :: c.value.fixedChars)

theorem tab_notMem_item {c : Item} (hname : '\t' ∉ c.name) (hmetric : '\t' ∉ c.metric) :
    '\t' ∉ c.text := by
  simp [Item.text, hname, hmetric, c.value.tab_notMem_fixedChars]

theorem exists_parseEntry_item (c : Item) :
    ∃ y, parseEntry c.text = .ok y ∧ ReadsBack c.value y := by
  obtain ⟨y, hy⟩ := c.value.exists_value?_fixedChars
  refine ⟨y, ?_, Double.readsBack_of_value? hy⟩
  rw [← parseEntry_append (c.name ++ '-' :: c.metric) hy, Item.text, List.append_assoc,
    List.cons_append]

/-- A report on any values under any names without tabs is read back: there is one number for
every value, in the same order, and it is the value as it was shown, to the nearest. -/
theorem parse_items (iteration : Int32) (items : List Item)
    (hitems : ∀ c ∈ items, '\t' ∉ c.name ∧ '\t' ∉ c.metric) :
    ∃ values, parse (opening iteration ++
        items.flatMap fun c => entry c.name c.metric c.value) = .ok values ∧
      List.Forall₂ (fun c y => ReadsBack c.value y) items values := by
  choose y hy hback using exists_parseEntry_item
  refine ⟨items.map y, ?_, ?_⟩
  · have htexts : (items.flatMap fun c => entry c.name c.metric c.value) =
        (items.map Item.text).flatMap ('\t' :: ·) := by
      rw [List.flatMap_map]
      rfl
    rw [htexts]
    apply parse_opening
    · rintro p hp
      obtain ⟨c, hc, rfl⟩ := List.mem_map.mp hp
      exact tab_notMem_item (hitems c hc).1 (hitems c hc).2
    · rw [List.forall₂_map_left_iff, List.forall₂_map_right_iff, List.forall₂_same]
      exact fun c _ => hy c
  · rw [List.forall₂_map_right_iff, List.forall₂_same]
    exact fun c _ => hback c

/-- A name with a colon, a value half way between two millionths, one below half a millionth, one
above all finite numbers, and a NaN. -/
def mixed : List Item :=
  let name := ['a', ':', '1']
  let metric := ['x']
  [⟨name, metric, ⟨0x3f80000000000000⟩⟩, ⟨name, metric, ⟨0xbe112e0be826d695⟩⟩,
    ⟨name, metric, ⟨0x7e37e43c8800759c⟩⟩, ⟨name, metric, Double.nan⟩]

theorem parse_items_mixed : ∃ values, parse (opening (-3) ++
      mixed.flatMap fun c => entry c.name c.metric c.value) = .ok values ∧
    List.Forall₂ (fun c y => ReadsBack c.value y) mixed values ∧
    values = [⟨0x3bfffbce⟩, ⟨0x80000000⟩, .infinity, .nan] := by
  obtain ⟨values, hparse, hback⟩ := parse_items (-3) mixed (by decide)
  have hvalues : parse (opening (-3) ++ mixed.flatMap fun c => entry c.name c.metric c.value) =
      .ok [⟨0x3bfffbce⟩, ⟨0x80000000⟩, .infinity, .nan] := by decide +kernel
  exact ⟨values, hparse, hback, Except.ok.inj (hparse.symm.trans hvalues)⟩

end Report

end BoostedTrees
