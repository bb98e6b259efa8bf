import BoostedTrees.Proofs.ShortestDecimal
import BoostedTrees.Settings.Basic
import Mathlib.Data.List.TakeWhile

/-!
# Numbers in text read back

Positional notation is read as the decimal that it shows, and the shortest decimal of a
number is rounded to that number. So a number that is written out and read again is the
same number, bit for bit, unless it is a NaN, of which the text shows neither sign nor
payload.

## Main definitions

* `Decimal.Positional`: digits around a point show a decimal

## Main results

* `Decimal.decimal?_positional`: positional notation is read as what it shows
* `Single.ofText?_chars`: single-precision numbers are read back
* `natOfText?_toDigits`: so are whole numbers
-/

namespace BoostedTrees

/-! ## Reading positional notation -/

namespace Numeral

theorem ofDigits_append (a b : List Char) :
    ofDigits (a ++ b) = 10 ^ b.length * ofDigits a + ofDigits b := by
  have h : ∀ ds, ofDigits ds = Nat.ofDigitChars 10 ds 0 := fun _ => rfl
  rw [h, h, h, Nat.ofDigitChars_append, Nat.ofDigitChars_eq_ofDigitChars_zero]

@[simp] theorem ofDigits_toDigits (n : Nat) : ofDigits (Nat.toDigits 10 n) = n :=
  Nat.ofDigitChars_ten_toDigits

theorem isDigit_of_mem_toDigits {n : Nat} : ∀ c ∈ Nat.toDigits 10 n, c.isDigit :=
  fun _ h => Nat.isDigit_of_mem_toDigits (by omega) (by omega) h

theorem notMem_toDigits {c : Char} (hc : c.isDigit = false) (n : Nat) : c ∉ Nat.toDigits 10 n := by
  intro hmem
  rw [isDigit_of_mem_toDigits c hmem] at hc
  cases hc

theorem mem_withSign {c : Char} {negative : Bool} {text : List Char}
    (h : c ∈ withSign negative text) : c = '-' ∨ c ∈ text := by
  cases negative
  · exact .inr h
  · exact List.mem_cons.mp h

/-- A sign in front of a text that starts with a digit is told from the text. -/
theorem sign_withSign {c : Char} {cs : List Char} (hdigit : c.isDigit) (negative : Bool) :
    sign (withSign negative (c :: cs)) = (negative, c :: cs) := by
  cases negative
  · rw [withSign, if_neg Bool.false_ne_true, sign]
    · rintro _ ⟨⟩
      cases hdigit
    · rintro _ ⟨⟩
      cases hdigit
  · rfl

theorem read?_withSign {c : Char} {cs : List Char} (hdigit : c.isDigit) (negative : Bool) :
    read? (withSign negative (c :: cs)) =
      ((decimal? (c :: cs)).orElse fun _ => word? (c :: cs)).map fun m => ⟨negative, m⟩ := by
  rw [read?, sign_withSign hdigit]

/-- Only the digits of zero start with a zero. -/
theorem eq_zero_of_toDigits_eq_cons {n : Nat} {ds : List Char} (h : Nat.toDigits 10 n = '0' :: ds) :
    n = 0 ∧ ds = [] := by
  -- The first digit of a number is that of its tenth part.
  induction n using Nat.strong_induction_on generalizing ds with
  | _ n ih =>
    by_cases hlt : n < 10
    · rw [Nat.toDigits_of_lt_base hlt] at h
      obtain ⟨hzero, rfl⟩ := List.cons.inj h
      exact ⟨Nat.digitChar_eq_zero.mp hzero, rfl⟩
    · rw [Nat.toDigits_of_base_le (by omega) (by omega)] at h
      obtain ⟨d, more, hmore⟩ :=
        List.exists_cons_of_ne_nil (Nat.toDigits_ne_nil (n := n / 10) (b := 10))
      rw [hmore, List.cons_append] at h
      obtain ⟨rfl, -⟩ := List.cons.inj h
      have := (ih (n / 10) (by omega) hmore).1
      omega

@[simp] theorem ofDigits_replicate_zero (n : Nat) : ofDigits (List.replicate n '0') = 0 :=
  (Nat.ofDigitChars_replicate_zero (b := 10)).trans (Nat.mul_zero _)

variable {whole fraction : List Char}

/-- Digits alone are a whole number. -/
theorem decimal?_digits (hwhole : ∀ c ∈ whole, c.isDigit) (hne : whole ≠ []) :
    decimal? whole = some (.decimal (ofDigits whole) 0) := by
  have htake : whole.takeWhile Char.isDigit = whole := List.takeWhile_eq_self_iff.mpr hwhole
  have hdrop : whole.dropWhile Char.isDigit = [] := List.dropWhile_eq_nil_iff.mpr hwhole
  simp [decimal?, htake, hdrop, hne, exponent?]

/-- The digits after a point count down the exponent. -/
theorem decimal?_point (hwhole : ∀ c ∈ whole, c.isDigit) (hfraction : ∀ c ∈ fraction, c.isDigit)
    (hne : whole ≠ []) :
    decimal? (whole ++ '.' :: fraction) =
      some (.decimal (ofDigits (whole ++ fraction)) (-fraction.length)) := by
  have htake : fraction.takeWhile Char.isDigit = fraction :=
    List.takeWhile_eq_self_iff.mpr hfraction
  have hdrop : fraction.dropWhile Char.isDigit = [] := List.dropWhile_eq_nil_iff.mpr hfraction
  have hpoint : Char.isDigit '.' = false := rfl
  simp [decimal?, List.takeWhile_append_of_pos hwhole, List.dropWhile_append_of_pos hwhole,
    hpoint, htake, hdrop, hne, exponent?]

end Numeral

namespace Decimal

theorem isDigit_of_mem_digits (d : Decimal) : ∀ c ∈ d.digits, c.isDigit :=
  Numeral.isDigit_of_mem_toDigits

theorem isDigit_of_mem_replicate {n : Nat} : ∀ c ∈ List.replicate n '0', c.isDigit := by
  intro c hc
  rw [List.eq_of_mem_replicate hc]
  rfl

/-- Positional notation is digits with a point and digits after them, or digits alone, and
together they show the decimal. The only whole part that starts with a zero is zero. -/
structure Positional (d : Decimal) (whole fraction : List Char) : Prop where
  whole_digits : ∀ c ∈ whole, c.isDigit
  fraction_digits : ∀ c ∈ fraction, c.isDigit
  whole_ne_nil : whole ≠ []
  leading : whole.head? = some '0' → whole = ['0']
  eq : d.positional = whole ∧ fraction = [] ∨
    d.positional = whole ++ '.' :: fraction ∧ fraction ≠ []
  value_eq : (Numeral.ofDigits (whole ++ fraction) : ℚ) * 10 ^ (-fraction.length : Int) = d.toRat

theorem digits_ne_nil (d : Decimal) : d.digits ≠ [] := Nat.toDigits_ne_nil

theorem ofDigits_digits (d : Decimal) : Numeral.ofDigits d.digits = d.coefficient :=
  Numeral.ofDigits_toDigits _

/-- Only zero has digits that start with a zero. -/
theorem coefficient_eq_zero_of_head?_digits {d : Decimal} (h : d.digits.head? = some '0') :
    d.coefficient = 0 := by
  obtain ⟨ds, hds⟩ := List.head?_eq_some_iff.mp h
  exact (Numeral.eq_zero_of_toDigits_eq_cons hds).1

theorem digits_of_coefficient_eq_zero {d : Decimal} (h : d.coefficient = 0) :
    d.digits = ['0'] := by
  rw [digits, h]
  rfl

/-- Without a fraction there are zeros for the exponent, unless all is zero. -/
theorem positional_of_nonneg {d : Decimal} (hexp : 0 ≤ d.exponent) :
    ∃ whole, d.Positional whole [] := by
  by_cases hzero : d.coefficient = 0
  · refine ⟨d.digits, d.isDigit_of_mem_digits, by simp, d.digits_ne_nil,
      fun _ => digits_of_coefficient_eq_zero hzero, .inl ⟨?_, rfl⟩, ?_⟩
    · simp only [positional, if_pos hexp, if_pos hzero]
    · rw [List.append_nil, ofDigits_digits, toRat, hzero, Nat.cast_zero, zero_mul, zero_mul]
  · refine ⟨d.digits ++ List.replicate d.exponent.toNat '0', ?_, by simp, ?_, fun hhead => ?_,
      .inl ⟨?_, rfl⟩, ?_⟩
    · exact List.forall_mem_append.mpr ⟨d.isDigit_of_mem_digits, isDigit_of_mem_replicate⟩
    · exact List.append_ne_nil_of_left_ne_nil d.digits_ne_nil _
    · rw [List.head?_append_of_ne_nil _ d.digits_ne_nil] at hhead
      exact absurd (coefficient_eq_zero_of_head?_digits hhead) hzero
    · simp only [positional, if_pos hexp, if_neg hzero]
    · obtain ⟨n, hn⟩ := Int.eq_ofNat_of_zero_le hexp
      rw [List.append_nil, Numeral.ofDigits_append, ofDigits_digits,
        Numeral.ofDigits_replicate_zero, List.length_replicate, toRat, hn]
      simp [mul_comm]

/-- If there are fewer digits than places, zeros come before them. -/
theorem positional_of_length_le {d : Decimal} {places : Nat} (hplaces : d.exponent = -places)
    (hpos : 0 < places) (hshort : d.digits.length ≤ places) :
    d.Positional ['0'] (List.replicate (places - d.digits.length) '0' ++ d.digits) := by
  have hexp : ¬0 ≤ d.exponent := by omega
  have htoNat : (-d.exponent).toNat = places := by omega
  refine ⟨by simp, ?_, by simp, fun _ => rfl, .inr ⟨?_, ?_⟩, ?_⟩
  · exact List.forall_mem_append.mpr ⟨isDigit_of_mem_replicate, d.isDigit_of_mem_digits⟩
  · simp only [positional, if_neg hexp, htoNat, if_pos hshort]
    rfl
  · exact List.append_ne_nil_of_right_ne_nil _ d.digits_ne_nil
  · have hzeros : ['0'] ++ (List.replicate (places - d.digits.length) '0' ++ d.digits) =
        List.replicate (places - d.digits.length + 1) '0' ++ d.digits := rfl
    rw [hzeros, Numeral.ofDigits_append, ofDigits_digits, Numeral.ofDigits_replicate_zero,
      List.length_append, List.length_replicate, Nat.sub_add_cancel hshort, toRat, hplaces]
    simp

/-- If there are more digits than places, the point stands between two of them. -/
theorem positional_of_lt_length {d : Decimal} {places : Nat} (hplaces : d.exponent = -places)
    (hpos : 0 < places) (hlong : places < d.digits.length) :
    d.Positional (d.digits.take (d.digits.length - places))
      (d.digits.drop (d.digits.length - places)) := by
  have hexp : ¬0 ≤ d.exponent := by omega
  have htoNat : (-d.exponent).toNat = places := by omega
  have hshort : ¬d.digits.length ≤ places := Nat.not_le.mpr hlong
  refine ⟨fun c hc => d.isDigit_of_mem_digits c (List.mem_of_mem_take hc),
    fun c hc => d.isDigit_of_mem_digits c (List.mem_of_mem_drop hc), ?_, fun hhead => ?_,
    .inr ⟨?_, ?_⟩, ?_⟩
  · intro hnil
    have hlength := congrArg List.length hnil
    rw [List.length_take, List.length_nil] at hlength
    omega
  · -- Zero has one digit, which would be one of the places.
    rw [List.head?_take, if_neg (by omega)] at hhead
    have hzero := digits_of_coefficient_eq_zero (coefficient_eq_zero_of_head?_digits hhead)
    rw [hzero, List.length_singleton] at hlong
    omega
  · simp only [positional, if_neg hexp, htoNat, if_neg hshort]
  · intro hnil
    have hlength := congrArg List.length hnil
    rw [List.length_drop, List.length_nil] at hlength
    omega
  · rw [List.take_append_drop, ofDigits_digits, List.length_drop, toRat, hplaces,
      Nat.sub_sub_self (by omega)]

theorem exists_positional (d : Decimal) : ∃ whole fraction, d.Positional whole fraction := by
  by_cases hexp : 0 ≤ d.exponent
  · obtain ⟨whole, h⟩ := positional_of_nonneg hexp
    exact ⟨whole, [], h⟩
  · obtain ⟨places, hplaces⟩ : ∃ n : Nat, d.exponent = -n := ⟨d.exponent.natAbs, by omega⟩
    rcases Nat.lt_or_ge places d.digits.length with hlong | hshort
    · exact ⟨_, _, positional_of_lt_length hplaces (by omega) hlong⟩
    · exact ⟨_, _, positional_of_length_le hplaces (by omega) hshort⟩

/-- Positional notation is read as the number that it shows. -/
theorem decimal?_positional (d : Decimal) : ∃ c k,
    Numeral.decimal? d.positional = some (.decimal c k) ∧ (c : ℚ) * 10 ^ k = d.toRat := by
  obtain ⟨whole, fraction, hwhole, hfraction, hne, -, ⟨heq, rfl⟩ | ⟨heq, -⟩, hvalue⟩ :=
    d.exists_positional
  · rw [heq, Numeral.decimal?_digits hwhole hne]
    rw [List.append_nil] at hvalue
    exact ⟨_, _, rfl, hvalue⟩
  · rw [heq, Numeral.decimal?_point hwhole hfraction hne]
    exact ⟨_, _, rfl, hvalue⟩

/-- Positional notation starts with a digit. -/
theorem exists_positional_eq_cons (d : Decimal) : ∃ c cs, d.positional = c :: cs ∧ c.isDigit := by
  obtain ⟨whole, fraction, hwhole, -, hne, -, heq, -⟩ := d.exists_positional
  obtain ⟨c, cs, rfl⟩ := List.exists_cons_of_ne_nil hne
  rcases heq with ⟨heq, -⟩ | ⟨heq, -⟩
  · exact ⟨c, cs, heq, hwhole c List.mem_cons_self⟩
  · exact ⟨c, cs ++ '.' :: fraction, heq, hwhole c List.mem_cons_self⟩

/-- In positional notation a decimal is read with its sign. -/
theorem exists_read?_positional (d : Decimal) (negative : Bool) : ∃ c k,
    Numeral.read? (withSign negative d.positional) = some ⟨negative, .decimal c k⟩ ∧
      (c : ℚ) * 10 ^ k = d.toRat := by
  obtain ⟨c, k, hread, hvalue⟩ := d.decimal?_positional
  obtain ⟨first, rest, heq, hdigit⟩ := d.exists_positional_eq_cons
  refine ⟨c, k, ?_, hvalue⟩
  rw [heq] at hread ⊢
  rw [Numeral.read?_withSign hdigit, hread]
  rfl

theorem isDigit_or_eq_of_mem_positional (d : Decimal) :
    ∀ c ∈ d.positional, c.isDigit ∨ c = '.' := by
  obtain ⟨whole, fraction, hwhole, hfraction, -, -, heq, -⟩ := d.exists_positional
  intro c hc
  rcases heq with ⟨heq, -⟩ | ⟨heq, -⟩ <;> rw [heq] at hc
  · exact .inl (hwhole c hc)
  · rcases List.mem_append.mp hc with hc | hc
    · exact .inl (hwhole c hc)
    · rcases List.mem_cons.mp hc with rfl | hc
      · exact .inr rfl
      · exact .inl (hfraction c hc)

end Decimal

/-! ## Digits and blanks -/

namespace Text

theorem trimEnd_eq_self {cs : List Char} (h : ∀ c ∈ cs, isBlank c = false) : trimEnd cs = cs := by
  induction cs with
  | nil => rfl
  | cons c cs ih =>
    rw [trimEnd, ih fun d hd => h d (List.mem_cons_of_mem _ hd)]
    split
    · rw [h c List.mem_cons_self]
      rfl
    · rfl

/-- A text without blanks is not trimmed. -/
theorem trim_eq_self {cs : List Char} (h : ∀ c ∈ cs, isBlank c = false) : trim cs = cs := by
  have hdrop : cs.dropWhile isBlank = cs := by
    cases cs with
    | nil => rfl
    | cons c cs => rw [List.dropWhile_cons_of_neg (by simp [h c List.mem_cons_self])]
  rw [trim, hdrop, trimEnd_eq_self h]

theorem toNat_of_isDigit {c : Char} (h : c.isDigit) : 48 ≤ c.toNat ∧ c.toNat ≤ 57 := by
  simp only [Char.isDigit, ge_iff_le, Bool.and_eq_true, decide_eq_true_eq,
    UInt32.le_iff_toNat_le] at h
  exact h

theorem isBlank_eq_false_of_isDigit {c : Char} (h : c.isDigit) : isBlank c = false := by
  have hbounds := toNat_of_isDigit h
  simp only [isBlank, blankRanges, List.any_cons, List.any_nil, Bool.or_eq_false_iff,
    Bool.and_eq_false_iff, decide_eq_false_iff_not, and_true]
  omega

end Text

/-! ## Single-precision numbers -/

namespace Single

theorem datum_ne_nan {x : Single} (h : x.isNaN = false) (negative : Bool) :
    x.datum ≠ .nan negative := by
  intro hnan
  have hlt := Layout.infinityBits_lt_of_read_eq_nan hnan
  have hlt : 0x7f800000 < x.bits.toNat % 2 ^ 31 := hlt
  simp only [isNaN, decide_eq_false_iff_not, UInt32.lt_iff_toNat_lt, UInt32.toNat_and] at h
  refine h ?_
  have hmask : x.bits.toNat &&& 2 ^ 31 - 1 = x.bits.toNat % 2 ^ 31 :=
    Nat.and_two_pow_sub_one_eq_mod _ _
  exact lt_of_lt_of_eq hlt hmask.symm

/-- A number is its magnitude, with the sign flipped if it is negative. -/
theorem eq_of_bits (x : Single) {negative : Bool}
    (h : negative = (x.bits.toNat / 2 ^ 31 % 2 == 1)) :
    (if negative then -(⟨UInt32.ofNat (x.bits.toNat % 2 ^ 31)⟩ : Single)
      else ⟨UInt32.ofNat (x.bits.toNat % 2 ^ 31)⟩) = x := by
  obtain ⟨bits⟩ := x
  have hlt : bits.toNat < 2 ^ 32 := bits.toNat_lt
  have hmagnitude : (UInt32.ofNat (bits.toNat % 2 ^ 31)).toNat = bits.toNat % 2 ^ 31 :=
    UInt32.toNat_ofNat_of_lt (by rw [UInt32.size]; omega)
  cases negative
  · have heq : bits.toNat / 2 ^ 31 % 2 ≠ 1 := by simpa using h.symm
    rw [if_neg Bool.false_ne_true, mk.injEq, ← UInt32.toNat_inj, hmagnitude]
    omega
  · -- Flipping the top bit puts back the one that the magnitude leaves out.
    have heq : bits.toNat / 2 ^ 31 % 2 = 1 := by simpa using h.symm
    rw [if_pos rfl]
    refine congrArg Single.mk (UInt32.toNat_inj.mp ?_)
    rw [UInt32.toNat_xor, hmagnitude]
    refine Nat.eq_of_testBit_eq fun i => ?_
    have hflip : (0x80000000 : UInt32).toNat = 2 ^ 31 := rfl
    rw [hflip, Nat.testBit_xor, Nat.testBit_mod_two_pow, Nat.testBit_two_pow]
    rcases lt_trichotomy i 31 with hi | rfl | hi
    · simp [hi, hi.ne']
    · simpa [Nat.testBit_eq_decide_div_mod_eq] using heq
    · have hhigh : bits.toNat.testBit i = false :=
        Nat.testBit_lt_two_pow (lt_of_lt_of_le hlt (Nat.pow_le_pow_right (by omega) hi))
      simp [hhigh, hi.ne]

/-- A number is written with digits, a point and a sign, or as a word. -/
theorem mem_chars (x : Single) :
    ∀ c ∈ x.chars, c.isDigit ∨ c ∈ ['-', '.', 'i', 'n', 'f', 'N', 'a'] := by
  intro c hc
  rw [chars] at hc
  split at hc
  · rcases Numeral.mem_withSign hc with rfl | hc
    · exact .inr List.mem_cons_self
    · rcases Decimal.isDigit_or_eq_of_mem_positional _ c hc with hdigit | rfl
      · exact .inl hdigit
      · exact .inr (by simp)
  · have hword : ['i', 'n', 'f'] ⊆ ['-', '.', 'i', 'n', 'f', 'N', 'a'] := by simp
    rcases Numeral.mem_withSign hc with rfl | hc
    · exact .inr List.mem_cons_self
    · exact .inr (hword hc)
  · have hword : ['N', 'a', 'N'] ⊆ ['-', '.', 'i', 'n', 'f', 'N', 'a'] := by simp
    exact .inr (hword hc)

theorem notMem_chars {c : Char} (hc : c.isDigit = false)
    (hother : c ∉ ['-', '.', 'i', 'n', 'f', 'N', 'a']) (x : Single) : c ∉ x.chars := by
  intro hmem
  rcases x.mem_chars c hmem with hdigit | hmem
  · rw [hdigit] at hc
    cases hc
  · exact hother hmem

/-- What is written for a number has no blanks. -/
theorem isBlank_of_mem_chars (x : Single) : ∀ c ∈ x.chars, Text.isBlank c = false := by
  intro c hc
  rcases x.mem_chars c hc with hdigit | hmem
  · exact Text.isBlank_eq_false_of_isDigit hdigit
  · have hall : ['-', '.', 'i', 'n', 'f', 'N', 'a'].all (!Text.isBlank ·) := rfl
    simpa using List.all_eq_true.mp hall c hmem

/-- A number that is not a NaN is read back from what is written for it. -/
theorem ofText?_chars {x : Single} (h : x.isNaN = false) : ofText? x.chars = some x := by
  rw [ofText?, chars]
  split
  · next negative m e hdatum =>
    -- The digits are those of a decimal that is rounded to the magnitude again.
    obtain ⟨c, k, hread, hvalue⟩ :=
      (Decimal.shortest Layout.single .up m e).exists_read?_positional negative
    have hbits := Layout.nearestDecimal_shortest hdatum hvalue
    obtain ⟨-, -, -, hnegative⟩ := Layout.read_eq_finite hdatum
    simp only [hread, Option.map_some, Numeral.toSingle, Magnitude.bits, hbits]
    exact congrArg some (eq_of_bits x hnegative)
  · next negative hdatum =>
    obtain ⟨hbits, hnegative⟩ := Layout.read_eq_infinite hdatum
    have hread : Numeral.read? (withSign negative ['i', 'n', 'f']) =
        some ⟨negative, .infinite⟩ := by
      cases negative <;> rfl
    rw [hread, Option.map_some]
    simp only [Numeral.toSingle, Magnitude.bits]
    rw [← hbits]
    exact congrArg some (eq_of_bits x hnegative)
  · next negative hdatum => exact absurd hdatum (datum_ne_nan h negative)

end Single

/-! ## Whole numbers -/

theorem natOfText?_eq (bound : Nat) {ds : List Char} (h : ds.head? ≠ some '+') :
    natOfText? bound ds =
      if ds.isEmpty || !ds.all Char.isDigit then none
      else if Numeral.ofDigits ds < bound then some (Numeral.ofDigits ds) else none := by
  unfold natOfText?
  split
  · exact absurd rfl h
  · rfl

/-- A number below a bound is read back from its digits. -/
theorem natOfText?_toDigits {bound n : Nat} (h : n < bound) :
    natOfText? bound (Nat.toDigits 10 n) = some n := by
  have hdigits : ∀ c ∈ Nat.toDigits 10 n, c.isDigit := Numeral.isDigit_of_mem_toDigits
  have hplus : (Nat.toDigits 10 n).head? ≠ some '+' := by
    intro hhead
    cases hdigits '+' (List.mem_of_mem_head? hhead)
  have hempty : (Nat.toDigits 10 n).isEmpty = false := by simp [Nat.toDigits_ne_nil]
  have hall : (Nat.toDigits 10 n).all Char.isDigit := List.all_eq_true.mpr hdigits
  rw [natOfText?_eq bound hplus, hempty, hall, Numeral.ofDigits_toDigits, if_pos h]
  rfl

namespace Settings

/-- A number that is not a NaN is read back as a setting. -/
theorem readValue_single (key : String) {x : Single} (h : x.isNaN = false) :
    readValue Single.ofText? key x.text = .ok x := by
  rw [readValue, Single.text, String.toList_ofList, Text.trim_eq_self x.isBlank_of_mem_chars,
    Single.ofText?_chars h]

/-- A machine word is read back as a setting. -/
theorem readWord_toString (key : String) (n : UInt32) :
    readWord key (toString n.toNat) = .ok n := by
  have hblank : ∀ c ∈ Nat.toDigits 10 n.toNat, Text.isBlank c = false := fun c hc =>
    Text.isBlank_eq_false_of_isDigit (Numeral.isDigit_of_mem_toDigits c hc)
  have hchars : (toString n.toNat).toList = Nat.toDigits 10 n.toNat := Nat.toList_repr
  rw [readWord, readValue, hchars, Text.trim_eq_self hblank, natOfText?_toDigits n.toNat_lt,
    Option.map_some, UInt32.ofNat_toNat]

end Settings

end BoostedTrees
