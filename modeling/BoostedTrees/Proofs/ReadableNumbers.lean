import BoostedTrees.Proofs.FiniteProducts
import BoostedTrees.Proofs.JsonDecoding

/-!
# Written numbers can be read

Reading a number with a point or an exponent collects its digits and multiplies them by one
power of ten. A product that is too large is refused, so not every number of the grammar can be
read. The shortest decimal of a number of moderate size has few digits and a small exponent, and
then nothing is refused: every finite number in single precision can be read, and so can the
same number in double precision. What is read is close to the number, but it need not be the
number itself.

## Main definitions

* `Layout.Moderate`: a significand and an exponent as in single precision
* `Double.reread?`: what a number in double precision is read as

## Main results

* `Json.exists_numberOf?_eq`: numbers with few digits and a small exponent can be read
* `Decimal.shortest_bound`: the shortest decimals of moderate numbers are such numbers
* `Single.exists_reread?_toDouble`: finite numbers in single precision can be read as doubles
-/

namespace BoostedTrees

namespace Json

/-! ## The parts of a number -/

section Parts

variable {whole fraction exponent : List UInt8}

theorem parts_exponent (hexponent : IsExponent exponent) :
    exponent.tail.dropWhile (!Text.isDigitByte ·) = exponent.drop 2 ∧
      exponent.head? ≠ some (ascii '.') := by
  cases hexponent with
  | absent => exact ⟨rfl, nofun⟩
  | @digits s ds hsign hds =>
    obtain ⟨b, more, rfl⟩ := List.exists_cons_of_ne_nil hds.ne_nil
    have hdigit := hds.digits b List.mem_cons_self
    refine ⟨?_, by simp; decide⟩
    have hs : Text.isDigitByte s = false := by
      rcases hsign with rfl | rfl <;> decide
    simp [hs, hdigit]

/-- The parts that a number is taken apart into are those that it is made of. -/
theorem parts_number (negative : Bool) (hwhole : IsWhole whole) (hfraction : IsFraction fraction)
    (hexponent : IsExponent exponent) :
    (parts (signBytes negative ++ (whole ++ fraction ++ exponent))).whole = whole ∧
      (parts (signBytes negative ++ (whole ++ fraction ++ exponent))).fraction = fraction.drop 1 ∧
      (parts (signBytes negative ++ (whole ++ fraction ++ exponent))).exponent =
        exponent.drop 2 := by
  obtain ⟨hdrop, hpoint⟩ := parts_exponent hexponent
  have hends : NoDigit exponent := by
    have h := (noDigit_exponent_append hexponent ends_nil).1
    rwa [List.append_nil] at h
  have hrest := noDigit_fraction_append hfraction hends
  have htake := takeWhile_digits hwhole.digits hrest
  have hdropWhole := dropWhile_digits hwhole.digits hrest
  have hunsigned : ∀ sign : Bool,
      (if (signBytes sign ++ (whole ++ fraction ++ exponent)).head? = some (ascii '-') then
        (signBytes sign ++ (whole ++ fraction ++ exponent)).drop 1
      else signBytes sign ++ (whole ++ fraction ++ exponent)) = whole ++ (fraction ++ exponent) := by
    intro sign
    cases sign with
    | true => simp [signBytes]
    | false =>
      obtain ⟨b, ds, rfl⟩ := List.exists_cons_of_ne_nil hwhole.ne_nil
      obtain ⟨-, hminus, -⟩ := isDigitByte_cases (hwhole.digits b List.mem_cons_self)
      simp [signBytes, hminus]
  simp only [parts, hunsigned, htake, hdropWhole, true_and]
  cases hfraction with
  | absent => simp [hpoint, hdrop]
  | digits hds =>
    have hin := takeWhile_digits hds.digits hends
    have hout := dropWhile_digits hds.digits hends
    simp [hin, hout, hdrop]

end Parts

/-! ## Reading a number -/

/-- What is collected of digits fits a word, and no more digits are dropped than there are. -/
theorem collect_spec (ds : Lexeme) {significand : Nat} (h : significand < wordBound) :
    (collect significand ds).1 < wordBound ∧ (collect significand ds).2 ≤ ds.length := by
  induction ds generalizing significand with
  | nil => exact ⟨h, le_rfl⟩
  | cons d ds ih =>
    rw [collect]
    split
    · next hnext =>
      obtain ⟨hfits, hdropped⟩ := ih hnext
      exact ⟨hfits, hdropped.trans (Nat.le_succ _)⟩
    · exact ⟨h, le_rfl⟩

/-- A power of ten is a natural. -/
theorem ofDecimal_one {k : Nat} (h : k ≤ 308) : Double.ofDecimal 1 k = Double.ofNat (10 ^ k) := by
  have hlow : (10 : ℚ) ^ (-400 : Int) ≤ (1 : Nat) * 10 ^ (k : Int) := by
    rw [Nat.cast_one, one_mul]
    exact zpow_le_zpow_right₀ (by norm_num) (by omega)
  have hhigh : ((1 : Nat) : ℚ) * 10 ^ (k : Int) < 10 ^ (400 : Int) := by
    rw [Nat.cast_one, one_mul]
    exact zpow_lt_zpow_right₀ (by norm_num) (by omega)
  have heq := Layout.nearestDecimal_eq Layout.double Nat.one_pos hlow hhigh
  rw [Int.toNat_natCast, Nat.one_mul, Int.toNat_neg_natCast, Nat.pow_zero] at heq
  rw [Double.ofDecimal, Double.ofNat, heq]

/-- A natural that fits a word is scaled by a moderate power of ten without a failure. -/
theorem exists_scaleByTen_eq {n : Nat} (hn : n < wordBound) {exponent : Int}
    (hlow : -308 ≤ exponent) (hhigh : exponent ≤ 200) :
    ∃ x, scaleByTen (Double.ofNat n) (exponent.natAbs + 1) exponent = some x := by
  rw [scaleByTen, if_pos (by omega)]
  dsimp only
  split
  · next hpos =>
    obtain ⟨k, rfl⟩ := Int.eq_ofNat_of_zero_le hpos
    have hpower : 10 ^ k < 2 ^ (4 * k + 1) :=
      calc 10 ^ k ≤ 16 ^ k := Nat.pow_le_pow_left (by decide) k
        _ = 2 ^ (4 * k) := by rw [Nat.pow_mul]
        _ < 2 ^ (4 * k + 1) := Nat.pow_lt_pow_right (by decide) (by omega)
    have hfinite : (Double.ofNat n * Double.ofNat (10 ^ k)).isFinite :=
      Double.isFinite_ofNat_mul_ofNat (p := 64) hn hpower (by omega)
    rw [Int.natAbs_natCast, ofDecimal_one (by omega), if_pos hfinite]
    exact ⟨_, rfl⟩
  · exact ⟨_, rfl⟩

/-- Numbers with few digits and a small exponent can be read. -/
theorem exists_numberOf?_eq {bound : Nat} (hbound : bound ≤ 200) {bs : List UInt8}
    (h : IsMagnitude bound bs) (negative : Bool) :
    ∃ n, numberOf? (signBytes negative ++ bs) = some n := by
  obtain ⟨hwhole, hfraction, hexponent, hsum⟩ := h
  rename_i whole fraction exponent
  obtain ⟨hwhole, hfraction, hexponent⟩ := parts_number negative hwhole hfraction hexponent
  have hdouble : ∃ x, doubleOf? (signBytes negative ++ (whole ++ fraction ++ exponent)) = some x := by
    have hdrop : (fraction.drop 1).length ≤ fraction.length := by
      rw [List.length_drop]
      exact Nat.sub_le _ _
    have hzero : 0 < wordBound := by decide
    obtain ⟨hfits, hdropped⟩ := collect_spec whole hzero
    obtain ⟨hfits, hdropped'⟩ := collect_spec (fraction.drop 1) hfits
    rw [doubleOf?]
    simp only [hwhole, hfraction, hexponent]
    generalize collect 0 whole = first at *
    generalize collect first.1 (fraction.drop 1) = second at *
    rw [if_neg (by rw [exponentBound]; omega)]
    -- The power of ten that is left comes from the digits and the exponent that are written.
    generalize hleft : (if (parts (signBytes negative ++
      (whole ++ fraction ++ exponent))).exponentNegative then _ else _ : Int) = left
    have hmoderate : -308 ≤ left ∧ left ≤ 200 := by
      rw [← hleft]
      split <;> omega
    obtain ⟨x, hx⟩ := exists_scaleByTen_eq hfits hmoderate.1 hmoderate.2
    rw [hx]
    exact ⟨_, rfl⟩
  obtain ⟨x, hx⟩ := hdouble
  simp only [numberOf?, hx, Option.map_some]
  split_ifs <;> exact ⟨_, rfl⟩

end Json

/-! ## Shortest decimals -/

/-- A significand and an exponent of the size of a number in single precision. -/
def Layout.Moderate (m : Nat) (e : Int) : Prop := m = 0 ∨ -149 ≤ m.log2 + e ∧ m.log2 + e ≤ 128

namespace Decimal

variable {tie : Tie} {i : Interval} {unit k : Int}

theorem le_of_gridPoint?_eq_some {step n : Nat} (h : i.gridPoint? tie step = some n) :
    n ≤ i.value / step + 1 := by
  unfold Interval.gridPoint? at h
  dsimp only at h
  split at h
  · cases h
    exact Nat.le_succ _
  · cases h
    exact le_rfl
  · rw [Option.some.injEq] at h
    subst h
    split <;> split <;> omega
  · cases h

/-- The search gives zero, or the value itself on one of the grids that it tries, up to a step of
that grid. -/
theorem search_cases (steps : Nat) : search tie i unit steps k = zero ∨
    ∃ j n : Nat, j < steps ∧ search tie i unit steps k = ⟨n, k - j⟩ ∧
      n ≤ i.value * scaleFor unit (k - j) / stepFor unit (k - j) + 1 := by
  induction steps generalizing k with
  | zero => exact .inl rfl
  | succ steps ih =>
    rw [search_succ]
    split
    · next n hn =>
      refine .inr ⟨0, n, steps.succ_pos, ?_⟩
      rw [Nat.cast_zero, sub_zero]
      exact ⟨rfl, le_of_gridPoint?_eq_some hn⟩
    · obtain hzero | ⟨j, n, hj, heq, hn⟩ := @ih (k - 1)
      · exact .inl hzero
      · have hgrid : k - 1 - j = k - (j + 1 : Nat) := by omega
        rw [hgrid] at heq hn
        exact .inr ⟨j + 1, n, Nat.succ_lt_succ hj, heq, hn⟩

/-- What a moderate number is on one of the grids that are tried has no more than so many bits. -/
theorem lt_of_mul_ten_zpow_le {m q : Nat} {e : Int} {j : Nat} (hm : 0 < m)
    (hlow : -149 ≤ m.log2 + e) (hhigh : m.log2 + e ≤ 128) (hj : j < 22)
    (hk : k = ((m.log2 : Int) + e) * 30103 / 100000 + 2 - j)
    (h : (q : ℚ) * 10 ^ k ≤ m * 2 ^ e) : q < 2 ^ 130 := by
  have hvalue : (m : ℚ) * 2 ^ e < 2 ^ (m.log2 + e + 1) :=
    calc (m : ℚ) * 2 ^ e < 2 ^ (m.log2 + 1 : Int) * 2 ^ e := by
          gcongr
          exact_mod_cast Nat.lt_log2_self
      _ = 2 ^ (m.log2 + e + 1) := by
          rw [← zpow_add₀ two_ne_zero]
          congr 1
          ring
  have hq : (q : ℚ) < 2 ^ (130 : Int) := by
    rcases le_or_gt 0 k with hpos | hneg
    · calc (q : ℚ) ≤ q * 10 ^ k :=
            le_mul_of_one_le_right (Nat.cast_nonneg q) (one_le_zpow₀ (by norm_num) hpos)
        _ ≤ m * 2 ^ e := h
        _ < 2 ^ (m.log2 + e + 1) := hvalue
        _ ≤ 2 ^ (130 : Int) := zpow_le_zpow_right₀ one_le_two (by omega)
    · -- A finer grid makes up for a smaller number.
      have hten : (10 : ℚ) ^ (-k) ≤ 2 ^ (-4 * k) :=
        calc (10 : ℚ) ^ (-k) ≤ 16 ^ (-k) :=
              zpow_le_zpow_left₀ (by omega) (by norm_num) (by norm_num)
          _ = 2 ^ (-4 * k) := by
              rw [show -4 * k = 4 * -k by ring, zpow_mul]
              norm_num
      calc (q : ℚ) = q * 10 ^ k * 10 ^ (-k) := by
            rw [mul_assoc, ← zpow_add₀ (by norm_num), add_neg_cancel, zpow_zero, mul_one]
        _ ≤ m * 2 ^ e * 10 ^ (-k) := by gcongr
        _ ≤ m * 2 ^ e * 2 ^ (-4 * k) := by gcongr
        _ < 2 ^ (m.log2 + e + 1) * 2 ^ (-4 * k) := by gcongr
        _ = 2 ^ (m.log2 + e + 1 + -4 * k) := by rw [← zpow_add₀ two_ne_zero]
        _ ≤ 2 ^ (130 : Int) := zpow_le_zpow_right₀ one_le_two (by omega)
  exact_mod_cast hq

/-- The shortest decimal of a moderate number has few digits and a small exponent. -/
theorem shortest_bound (L : Layout) (tie : Tie) {m : Nat} {e : Int} (h : Layout.Moderate m e) :
    Json.decimalBound (shortest L tie m e) ≤ 200 := by
  have hzero : Json.decimalBound zero ≤ 200 := by decide
  rcases Nat.eq_zero_or_pos m with rfl | hm
  · rw [shortest, if_pos rfl]
    exact hzero
  obtain ⟨hlow, hhigh⟩ := h.resolve_left hm.ne'
  rw [shortest, if_neg hm.ne']
  obtain heq | ⟨j, n, hj, heq, hn⟩ := @search_cases tie (.around L m e) (e - 2)
    (((m.log2 : Int) + e) * 30103 / 100000 + 2) 22
  · rw [heq]
    exact hzero
  · rw [heq]
    generalize hk : ((m.log2 : Int) + e) * 30103 / 100000 + 2 - j = k at *
    have hgrid := (mul_stepFor_le_iff (e - 2) k _ _).mp (Nat.div_mul_le_self
      ((Interval.around L m e).value * scaleFor (e - 2) k) (stepFor (e - 2) k))
    have hunit : ((Interval.around L m e).value : ℚ) * 2 ^ (e - 2) = m * 2 ^ e := by
      rw [zpow_sub₀ two_ne_zero]
      simp only [Interval.around]
      push_cast
      ring
    rw [hunit] at hgrid
    have hbits := lt_of_mul_ten_zpow_le hm hlow hhigh hj hk.symm hgrid
    have hdigits : (Nat.toDigits 10 n).length ≤ 40 := by
      refine (Nat.length_toDigits_le_iff (by decide) (by decide)).mpr ?_
      have : 2 ^ 130 < 10 ^ 40 := by norm_num
      omega
    show 2 * (Nat.toDigits 10 n).length + k.natAbs + 4 ≤ 200
    omega

end Decimal

/-! ## Numbers of moderate size -/

/-- A finite number in single precision is below the hundred and twenty-eighth power of two, and
if it is not zero, it is not below the least exponent. -/
theorem Single.log2_bounds_of_datum {x : Single} {negative : Bool} {m : Nat} {e : Int}
    (h : x.datum = .finite negative m e) : m = 0 ∨ -149 ≤ m.log2 + e ∧ m.log2 + e ≤ 127 := by
  obtain ⟨hcanonical, hbits, hlt, -⟩ := Layout.read_eq_finite h
  have hleast : -149 ≤ e := hcanonical.le_exponent
  have hmost : m < 2 ^ 24 := hcanonical.lt
  have hnormal : -149 < e → 2 ^ 23 ≤ m := hcanonical.le_of_lt
  have hbelow : (e + 149).toNat * 2 ^ 23 + m < 255 * 2 ^ 23 := hbits.symm.trans_lt hlt
  rcases Nat.eq_zero_or_pos m with hzero | hm
  · exact .inl hzero
  · have hlog : m.log2 < 24 := (Nat.log2_lt hm.ne').mpr hmost
    exact .inr ⟨by omega, by omega⟩

/-- In double precision the bit pattern of a finite number in single precision stands between
those of two powers of two. -/
theorem Single.nearestBinary_bounds {m : Nat} {e : Int} (hm : 0 < m) (hlow : -149 ≤ m.log2 + e)
    (hhigh : m.log2 + e ≤ 128) :
    (m.log2 + e + 1023).toNat * 2 ^ 52 ≤ Layout.double.nearestBinary m e ∧
      Layout.double.nearestBinary m e ≤ (m.log2 + e + 1024).toNat * 2 ^ 52 := by
  have hden : 0 < 2 ^ (-e).toNat := Nat.two_pow_pos _
  have hratio : ((m * 2 ^ e.toNat : Nat) : ℚ) / (2 ^ (-e).toNat : Nat) = m * 2 ^ e := by
    rw [← Layout.zpow_toNat]
    push_cast
    ring
  have hleast : (2 : ℚ) ^ (m.log2 + e) ≤ m * 2 ^ e := by
    rw [zpow_add₀ two_ne_zero]
    gcongr
    exact_mod_cast Nat.log2_self_le hm.ne'
  have hmost : (m : ℚ) * 2 ^ e < 2 ^ (m.log2 + e + 1) := by
    rw [add_right_comm, zpow_add₀ two_ne_zero]
    gcongr
    exact_mod_cast Nat.lt_log2_self
  have hbottom := @Layout.le_nearest Layout.double _ _ (m.log2 + e) hden
    (by show (-1074 : Int) ≤ m.log2 + e - (52 : Nat); omega) (by rwa [hratio])
  have htop := @Layout.nearest_le Layout.double _ _ (m.log2 + e + 1) hden (by rwa [hratio])
  have hbits : Layout.double.nearestBinary m e =
      Layout.double.nearest (m * 2 ^ e.toNat) (2 ^ (-e).toNat) := rfl
  have hinfinity : Layout.double.infinityBits = 2047 * 2 ^ 52 := rfl
  have hfraction : Layout.double.fractionBits = 52 := rfl
  have hexponent : Layout.double.minExponent = -1074 := rfl
  rw [hbits]
  rw [hinfinity, hfraction, hexponent] at hbottom
  rw [hfraction, hexponent] at htop
  omega

theorem Single.bits_toDouble {x : Single} {negative : Bool} {m : Nat} {e : Int}
    (h : x.datum = .finite negative m e) (hlt : Layout.double.nearestBinary m e < 2 ^ 63) :
    x.toDouble.bits.toNat % 2 ^ 63 = Layout.double.nearestBinary m e := by
  have hword : (UInt64.ofNat (Layout.double.nearestBinary m e)).toNat =
      Layout.double.nearestBinary m e :=
    UInt64.toNat_ofNat_of_lt (by rw [UInt64.size]; omega)
  have hsign : ((if x.isNegative then 0x8000000000000000 else 0 : UInt64).toNat) % 2 ^ 63 = 0 := by
    split <;> rfl
  simp only [toDouble, h]
  rw [UInt64.toNat_or, Nat.or_mod_two_pow, hsign, Nat.zero_or, hword, Nat.mod_eq_of_lt hlt]

/-- In double precision a finite number in single precision is finite and moderate again. -/
theorem Single.exists_datum_toDouble {x : Single} (h : x.isFinite) :
    ∃ negative m e, x.toDouble.datum = .finite negative m e ∧ Layout.Moderate m e := by
  obtain ⟨negative, m, e, hdatum⟩ := x.isFinite_iff.mp h
  have hinfinity : Layout.double.infinityBits = 2047 * 2 ^ 52 := rfl
  have hbits := bits_toDouble hdatum
  have hbounds : m = 0 ∧ Layout.double.nearestBinary m e = 0 ∨ 0 < m ∧
      -149 ≤ m.log2 + e ∧ m.log2 + e ≤ 127 ∧
        (m.log2 + e + 1023).toNat * 2 ^ 52 ≤ Layout.double.nearestBinary m e ∧
          Layout.double.nearestBinary m e ≤ (m.log2 + e + 1024).toNat * 2 ^ 52 := by
    rcases Nat.eq_zero_or_pos m with rfl | hm
    · refine .inl ⟨rfl, ?_⟩
      rw [Layout.nearestBinary, Nat.zero_mul, Layout.nearest, if_pos rfl]
    · obtain ⟨hlow, hhigh⟩ := (log2_bounds_of_datum hdatum).resolve_left hm.ne'
      exact .inr ⟨hm, hlow, hhigh, nearestBinary_bounds hm hlow (by omega)⟩
  generalize Layout.double.nearestBinary m e = bits at *
  have hlt : bits < Layout.double.infinityBits := by omega
  obtain ⟨negative, m', e', hread⟩ :=
    (@Layout.exists_read_eq_finite_iff Layout.double x.toDouble.bits.toNat).mpr
      ((hbits (by omega)).trans_lt hlt)
  obtain ⟨hcanonical, hsplit, -⟩ := Layout.read_eq_finite hread
  have hsplit : bits = (e' + 1074).toNat * 2 ^ 52 + m' := (hbits (by omega)).symm.trans hsplit
  refine ⟨negative, m', e', hread, ?_⟩
  have hmost : m' < 2 ^ 53 := hcanonical.lt
  have hnormal : -1074 < e' → 2 ^ 52 ≤ m' := hcanonical.le_of_lt
  obtain ⟨-, hzero⟩ | ⟨-, hlow, hhigh, hbottom, htop⟩ := hbounds
  · exact .inl (by omega)
  · -- The bit pattern is that of a number with a leading one.
    have hlog : m'.log2 = 52 := (Nat.log2_eq_iff (by omega)).mpr ⟨by omega, by omega⟩
    exact .inr (by rw [hlog]; omega)

/-! ## Reading again -/

/-- What a number in double precision is read as from its own text, if it is read. -/
def Double.reread? (x : Double) : Option Double :=
  Json.decode Json.Decoder.double (Text.utf8 (String.ofList (Json.Writer.double x)))

/-- What a number in single precision is read as from its own text, if it is read. -/
def Single.reread? (x : Single) : Option Single :=
  Json.decode Json.Decoder.single (Text.utf8 (String.ofList (Json.Writer.single x)))

namespace Json

/-- The bytes of a number in double precision. -/
def doubleBytes (x : Double) : List UInt8 := bytesOf (Writer.double x)

/-- The value that a number shows: itself, or null where it is not finite. -/
def doubleShown (x : Double) : Json := if x.isFinite then .number (doubleBytes x) else .null

/-- What is written for a moderate number, in either precision, can be read. -/
theorem exists_numberOf?_datum (L : Layout) (p : Writer.Positional) (negative : Bool) {m : Nat}
    {e : Int} (h : Layout.Moderate m e) :
    ∃ n, numberOf? (bytesOf (Writer.datum L p (.finite negative m e))) = some n := by
  rw [Writer.datum, bytesOf_withSign]
  exact exists_numberOf?_eq (Decimal.shortest_bound L .toEven h) (isMagnitude_decimal p _) negative

theorem shows_double (x : Double) : Shows (bytesOf (Writer.double x)) (doubleShown x) := by
  rw [doubleShown]
  split
  · next h =>
    obtain ⟨negative, m, e, hdatum⟩ := x.isFinite_iff.mp h
    have hnumber : IsNumber (doubleBytes x) := by
      rw [doubleBytes, Writer.double, hdatum]
      exact isNumber_decimal negative Writer.doublePositional _
    exact shows_number hnumber
  · next h =>
    have hbytes : Writer.double x = ['n', 'u', 'l', 'l'] := by
      rw [Writer.double]
      cases hdatum : x.datum with
      | finite negative m e => exact absurd (x.isFinite_iff.mpr ⟨negative, m, e, hdatum⟩) h
      | infinite => rfl
      | nan => rfl
    rw [hbytes]
    exact shows_null

namespace Decoder

/-- A number in double precision is read alike alone and as a part of a larger text. -/
theorem double_doubleShown (depth : Nat) (x : Double) :
    double depth (doubleShown x) = x.reread? := by
  have hparse := parse_of_shows (shows_double x)
  rw [Double.reread?, decode, Text.utf8_ofList]
  have hbytes : parse (bytesOf (Writer.double x)) = some (doubleShown x) := hparse
  show _ = (parse (bytesOf (Writer.double x))).bind (double maxDepth)
  rw [hbytes, Option.bind_some, doubleShown]
  split <;> rfl

theorem single_singleShown (depth : Nat) (x : Single) :
    single depth (singleShown x) = x.reread? := by
  have hbytes : parse (bytesOf (Writer.single x)) = some (singleShown x) :=
    parse_of_shows (shows_single x)
  rw [Single.reread?, decode, Text.utf8_ofList]
  show _ = (parse (bytesOf (Writer.single x))).bind (single maxDepth)
  rw [hbytes, Option.bind_some, singleShown]
  split <;> rfl

end Decoder

end Json

/-- A finite number in single precision can be read. -/
theorem Single.exists_reread?_eq {x : Single} (h : x.isFinite) : ∃ y, x.reread? = some y := by
  obtain ⟨negative, m, e, hdatum⟩ := x.isFinite_iff.mp h
  have hmoderate : Layout.Moderate m e :=
    (log2_bounds_of_datum hdatum).imp_right fun h => ⟨h.1, h.2.trans (by decide)⟩
  obtain ⟨n, hn⟩ :=
    Json.exists_numberOf?_datum Layout.single Json.Writer.singlePositional negative hmoderate
  rw [← Json.Decoder.single_singleShown 0, Json.singleShown, if_pos h, Json.Decoder.single,
    Json.singleBytes, Json.Writer.single, hdatum, hn]
  exact ⟨_, rfl⟩

/-- A finite number in single precision can be read as a number in double precision. -/
theorem Single.exists_reread?_toDouble {x : Single} (h : x.isFinite) :
    ∃ y, x.toDouble.reread? = some y := by
  obtain ⟨negative, m, e, hdatum, hmoderate⟩ := exists_datum_toDouble h
  have hfinite : x.toDouble.isFinite := x.toDouble.isFinite_iff.mpr ⟨negative, m, e, hdatum⟩
  obtain ⟨n, hn⟩ :=
    Json.exists_numberOf?_datum Layout.double Json.Writer.doublePositional negative hmoderate
  rw [← Json.Decoder.double_doubleShown 0, Json.doubleShown, if_pos hfinite, Json.Decoder.double,
    Json.doubleBytes, Json.Writer.double, hdatum, hn]
  exact ⟨_, rfl⟩

/-- If a number is finite, it can be read. -/
def Double.Readable (x : Double) : Prop := x.isFinite → ∃ y, x.reread? = some y

theorem Single.isFinite_of_toDouble {x : Single} (h : x.toDouble.isFinite) : x.isFinite := by
  have hlt := Double.isFinite_iff_lt.mp h
  refine x.isFinite_iff.mpr ?_
  cases hdatum : x.datum with
  | finite negative m e => exact ⟨negative, m, e, rfl⟩
  | infinite negative =>
    have hbits : x.toDouble.bits.toNat % 2 ^ 63 = Layout.double.infinityBits := by
      simp only [toDouble, hdatum]
      rw [UInt64.toNat_or, Nat.or_mod_two_pow]
      split <;> rfl
    exact absurd hbits hlt.ne
  | nan negative =>
    have hbits : Layout.double.infinityBits ≤ x.toDouble.bits.toNat % 2 ^ 63 := by
      simp only [toDouble, hdatum]
      rw [UInt64.toNat_or, Nat.or_mod_two_pow]
      exact le_trans (by decide) Nat.right_le_or
    exact absurd hlt (not_lt.mpr hbits)

/-- Single precision has no number that is finite in double precision and cannot be read. -/
theorem Single.readable_toDouble (x : Single) : x.toDouble.Readable :=
  fun h => exists_reread?_toDouble (isFinite_of_toDouble h)

end BoostedTrees
