import BoostedTrees.Proofs.JsonText
import BoostedTrees.Proofs.NumberText

/-!
# Written numbers parsed again

JSON has one grammar for numbers: a sign, a whole part without idle zeros, a point with
digits, an exponent with digits. Whole numbers, integers and finite numbers in single
precision are all written in it, so one lemma about the grammar says that they are taken
off a larger text as the values that they show. What the digits of a whole number stand
for is that number again.

## Main definitions

* `Json.IsNumber`: bytes are a number in the grammar

## Main results

* `Json.shows_number`: numbers of the grammar are parsed as they are
* `Json.isNumber_nat`, `Json.isNumber_int`, `Json.isNumber_single`: written numbers are in it
* `Json.numberOf?_digitBytes`, `Json.numberOf?_negative`: whole numbers are read back
-/

namespace BoostedTrees

/-- A number is finite if its bit pattern is read as a significand and an exponent. -/
theorem Single.isFinite_iff (x : Single) :
    x.isFinite ↔ ∃ negative m e, x.datum = .finite negative m e := by
  have hmask : x.bits.toNat &&& 2 ^ 31 - 1 = x.bits.toNat % 2 ^ 31 :=
    Nat.and_two_pow_sub_one_eq_mod _ _
  have hbelow : x.isFinite ↔ x.bits.toNat % 2 ^ 31 < Layout.single.infinityBits := by
    rw [isFinite, decide_eq_true_iff, UInt32.lt_iff_toNat_lt, UInt32.toNat_and, ← hmask]
    rfl
  rw [hbelow]
  exact (@Layout.exists_read_eq_finite_iff Layout.single x.bits.toNat).symm

namespace Json

/-! ## The grammar -/

/-- At least one digit. -/
structure IsDigits (bs : List UInt8) : Prop where
  ne_nil : bs ≠ []
  digits : ∀ b ∈ bs, Text.isDigitByte b

/-- A whole part is digits, of which only zero starts with a zero. -/
structure IsWhole (bs : List UInt8) : Prop extends IsDigits bs where
  leading : bs.head? = some (ascii '0') → bs = [ascii '0']

inductive IsFraction : List UInt8 → Prop where
  | absent : IsFraction []
  | digits {ds : List UInt8} (h : IsDigits ds) : IsFraction (ascii '.' :: ds)

/-- An exponent that is written has a sign. -/
inductive IsExponent : List UInt8 → Prop where
  | absent : IsExponent []
  | digits {s : UInt8} {ds : List UInt8} (hsign : s = ascii '+' ∨ s = ascii '-')
      (h : IsDigits ds) : IsExponent (ascii 'e' :: s :: ds)

/-- The sign of a number, where it has one. -/
def signBytes (negative : Bool) : List UInt8 := if negative then [ascii '-'] else []

inductive IsNumber : List UInt8 → Prop where
  | parts (negative : Bool) {whole fraction exponent : List UInt8} (hwhole : IsWhole whole)
      (hfraction : IsFraction fraction) (hexponent : IsExponent exponent) :
      IsNumber (signBytes negative ++ whole ++ fraction ++ exponent)

/-! ## Scanning -/

/-- The bytes do not start with a digit. -/
def NoDigit (rest : List UInt8) : Prop := ∀ b ∈ rest.head?, Text.isDigitByte b = false

theorem noDigit_of_ends {rest : List UInt8} (h : Ends rest) : NoDigit rest := by
  intro b hb
  rcases h b hb with rfl | rfl | rfl <;> decide

theorem noDigit_cons {b : UInt8} (h : Text.isDigitByte b = false) (rest : List UInt8) :
    NoDigit (b :: rest) := by
  intro c hc
  cases hc
  exact h

section Scanning

variable {ds rest : List UInt8}

theorem takeWhile_digits (hds : ∀ b ∈ ds, Text.isDigitByte b) (h : NoDigit rest) :
    (ds ++ rest).takeWhile Text.isDigitByte = ds := by
  rw [List.takeWhile_append_of_pos hds]
  cases rest with
  | nil => rw [List.takeWhile_nil, List.append_nil]
  | cons b rest => rw [List.takeWhile_cons_of_neg (by simp [h b rfl]), List.append_nil]

theorem dropWhile_digits (hds : ∀ b ∈ ds, Text.isDigitByte b) (h : NoDigit rest) :
    (ds ++ rest).dropWhile Text.isDigitByte = rest := by
  rw [List.dropWhile_append_of_pos hds]
  cases rest with
  | nil => rfl
  | cons b rest => rw [List.dropWhile_cons_of_neg (by simp [h b rfl])]

theorem takeDigits_append (hds : IsDigits ds) (h : NoDigit rest) :
    takeDigits (ds ++ rest) = some (ds, rest) := by
  have hempty : ds.isEmpty = false := by simpa using hds.ne_nil
  rw [takeDigits, takeWhile_digits hds.digits h, dropWhile_digits hds.digits h, hempty]
  rfl

theorem takeWhole_append (hds : IsWhole ds) (h : NoDigit rest) :
    takeWhole (ds ++ rest) = some (ds, rest) := by
  have hdigits := takeDigits_append hds.toIsDigits h
  obtain ⟨b, more, rfl⟩ := List.exists_cons_of_ne_nil hds.ne_nil
  rw [List.cons_append] at hdigits ⊢
  rw [takeWhole]
  split
  · next hb =>
    -- A leading zero is the whole part.
    obtain ⟨-, rfl⟩ := List.cons.inj (hds.leading (congrArg some hb))
    rfl
  · exact hdigits

theorem takeFraction_append {bs : List UInt8} (hbs : IsFraction bs) (hdigit : NoDigit rest)
    (hpoint : rest.head? ≠ some (ascii '.')) : takeFraction (bs ++ rest) = some (bs, rest) := by
  cases hbs with
  | absent =>
    cases rest with
    | nil => rfl
    | cons b rest =>
      have hb : b ≠ ascii '.' := fun heq => hpoint (congrArg some heq)
      exact if_neg hb
  | digits hds =>
    rw [List.cons_append, takeFraction, if_pos rfl, takeDigits_append hds hdigit]
    rfl

theorem takeExponent_append {bs : List UInt8} (hbs : IsExponent bs) (h : Ends rest) :
    takeExponent (bs ++ rest) = some (bs, rest) := by
  cases hbs with
  | absent =>
    cases rest with
    | nil => rfl
    | cons b rest => rcases h b rfl with rfl | rfl | rfl <;> rfl
  | digits hsign hds =>
    have htake := takeDigits_append hds (noDigit_of_ends h)
    rw [List.cons_append, List.cons_append, takeExponent]
    rcases hsign with rfl | rfl
    all_goals
      dsimp only
      rw [if_pos (by decide), if_pos (by decide), htake]
      rfl

/-- An exponent and what may follow a value do not continue a whole part or a fraction. -/
theorem noDigit_exponent_append {bs : List UInt8} (hbs : IsExponent bs) (h : Ends rest) :
    NoDigit (bs ++ rest) ∧ (bs ++ rest).head? ≠ some (ascii '.') := by
  cases hbs with
  | absent =>
    refine ⟨noDigit_of_ends h, fun hhead => ?_⟩
    rcases h _ hhead with heq | heq | heq <;> exact absurd heq (by decide)
  | digits hsign hds => exact ⟨noDigit_cons (by decide) _, by simp; decide⟩

theorem noDigit_fraction_append {bs : List UInt8} (hbs : IsFraction bs) (h : NoDigit rest) :
    NoDigit (bs ++ rest) := by
  cases hbs with
  | absent => exact h
  | digits hds => exact noDigit_cons (by decide) _

end Scanning

/-- A digit starts no other value than a number. -/
theorem isDigitByte_cases {b : UInt8} (h : Text.isDigitByte b) :
    isBlank b = false ∧ b ≠ ascii '-' ∧ b ≠ ascii '"' ∧ b ≠ ascii '[' ∧ b ≠ ascii ']' ∧
      b ≠ ascii '\x7b' ∧ b ≠ ascii 'n' ∧ b ≠ ascii 't' ∧ b ≠ ascii 'f' := by
  refine ⟨?_, ?_, ?_, ?_, ?_, ?_, ?_, ?_, ?_⟩
  · cases hblank : isBlank b with
    | false => rfl
    | true =>
      simp only [isBlank, Bool.or_eq_true, decide_eq_true_eq] at hblank
      rcases hblank with ((rfl | rfl) | rfl) | rfl <;> exact absurd h (by decide)
  all_goals
    rintro rfl
    exact absurd h (by decide)

/-- Takes off a number after its sign: its parts, one after another. -/
def takeUnsigned (sign : Lexeme) : Parser Lexeme := fun bytes =>
  (takeWhole bytes).bind fun whole =>
    (takeFraction whole.2).bind fun fraction =>
      (takeExponent fraction.2).bind fun exponent =>
        some (sign ++ whole.1 ++ fraction.1 ++ exponent.1, exponent.2)

theorem takeNumber_cons (b : UInt8) (bytes : List UInt8) :
    takeNumber (b :: bytes) =
      if b = ascii '-' then takeUnsigned [b] bytes else takeUnsigned [] (b :: bytes) := by
  rw [takeNumber]
  by_cases hsign : b = ascii '-'
  · simp only [if_pos hsign]
    rfl
  · simp only [if_neg hsign]
    rfl

namespace IsNumber

variable {bs rest : List UInt8}

/-- A number is taken off as it is. -/
theorem takeNumber_append (hbs : IsNumber bs) (h : Ends rest) :
    takeNumber (bs ++ rest) = some (bs, rest) := by
  obtain ⟨negative, hwhole, hfraction, hexponent⟩ := hbs
  rename_i whole fraction exponent
  obtain ⟨hdigit, hpoint⟩ := noDigit_exponent_append hexponent h
  have htakeWhole := takeWhole_append hwhole (noDigit_fraction_append hfraction hdigit)
  have htakeFraction := takeFraction_append hfraction hdigit hpoint
  have htakeExponent := takeExponent_append hexponent h
  have hparts : ∀ sign, takeUnsigned sign (whole ++ (fraction ++ (exponent ++ rest))) =
      some (sign ++ whole ++ fraction ++ exponent, rest) := by
    intro sign
    simp only [takeUnsigned, htakeWhole, htakeFraction, htakeExponent, Option.bind_some]
  have hbytes : signBytes negative ++ whole ++ fraction ++ exponent ++ rest =
      signBytes negative ++ (whole ++ (fraction ++ (exponent ++ rest))) := by
    simp only [List.append_assoc]
  rw [hbytes]
  cases negative with
  | true =>
    have hsign : signBytes true = [ascii '-'] := rfl
    rw [hsign, List.singleton_append, takeNumber_cons, if_pos rfl]
    exact hparts [ascii '-']
  | false =>
    -- Without a sign the number starts with a digit.
    obtain ⟨b, more, rfl⟩ := List.exists_cons_of_ne_nil hwhole.ne_nil
    obtain ⟨-, hminus, -⟩ := isDigitByte_cases (hwhole.digits b List.mem_cons_self)
    have hsign : signBytes false = [] := rfl
    rw [hsign, List.nil_append, List.cons_append, takeNumber_cons, if_neg hminus]
    exact hparts []

/-- A number starts like no other value. -/
theorem exists_eq_cons (hbs : IsNumber bs) : ∃ b more, bs = b :: more ∧
    isBlank b = false ∧ b ≠ ascii '"' ∧ b ≠ ascii '[' ∧ b ≠ ascii ']' ∧
      b ≠ ascii '\x7b' ∧ b ≠ ascii 'n' ∧ b ≠ ascii 't' ∧ b ≠ ascii 'f' := by
  obtain ⟨negative, hwhole, hfraction, hexponent⟩ := hbs
  cases negative with
  | true => exact ⟨ascii '-', _, rfl, by decide⟩
  | false =>
    obtain ⟨b, more, rfl⟩ := List.exists_cons_of_ne_nil hwhole.ne_nil
    obtain ⟨hblank, -, hothers⟩ := isDigitByte_cases (hwhole.digits b List.mem_cons_self)
    exact ⟨b, _, rfl, hblank, hothers⟩

end IsNumber

/-- Numbers of the grammar are parsed as they are. -/
theorem shows_number {bs : List UInt8} (hbs : IsNumber bs) : Shows bs (.number bs) := by
  obtain ⟨b, more, rfl, hblank, hquote, hbracket, hend, hbrace, hnull, htrue, hfalse⟩ :=
    hbs.exists_eq_cons
  refine ⟨⟨b, more, rfl, hblank, hend⟩, fun fuel rest hfuel hrest => ?_⟩
  have htake := hbs.takeNumber_append hrest
  obtain ⟨fuel, rfl⟩ : ∃ k, fuel = k + 1 := ⟨fuel - 1, by simp at hfuel; omega⟩
  rw [List.cons_append] at htake ⊢
  rw [parseValue, skipBlanks_cons hblank]
  dsimp only
  rw [if_neg hquote, if_neg hbracket, if_neg hbrace, if_neg hnull, if_neg htrue, if_neg hfalse,
    htake]
  rfl

/-! ## Words -/

/-- A word is taken off whatever follows it. -/
theorem takeWord_append (w : List Char) (rest : List UInt8) :
    takeWord w (w.map ascii ++ rest) = some rest := by
  have hprefix : (w.map ascii).isPrefixOf (w.map ascii ++ rest) :=
    List.isPrefixOf_iff_prefix.mpr (List.prefix_append _ _)
  rw [takeWord, hprefix, List.drop_left]
  rfl

/-- Where the first letter settles which word is taken, the word is parsed as its value. -/
theorem shows_word {c : Char} {w : List Char} {j : Json}
    (hbytes : bytesOf (c :: w) = ascii c :: w.map ascii)
    (hstarts : isBlank (ascii c) = false ∧ ascii c ≠ ascii ']')
    (hparse : ∀ fuel rest, parseValue (fuel + 1) (ascii c :: rest) =
      (takeWord w rest).map fun rest => (j, rest)) : Shows (bytesOf (c :: w)) j := by
  rw [hbytes]
  refine ⟨⟨_, _, rfl, hstarts⟩, fun fuel rest hfuel _ => ?_⟩
  obtain ⟨fuel, rfl⟩ : ∃ k, fuel = k + 1 := ⟨fuel - 1, by rw [List.length_cons] at hfuel; omega⟩
  rw [List.cons_append, hparse, takeWord_append]
  rfl

theorem shows_null : Shows (bytesOf ['n', 'u', 'l', 'l']) .null :=
  shows_word (by decide) (by decide) fun _ _ => rfl

theorem shows_bool (b : Bool) : Shows (bytesOf (Writer.bool b)) (.bool b) := by
  cases b with
  | true => exact shows_word (by decide) (by decide) fun _ _ => rfl
  | false => exact shows_word (by decide) (by decide) fun _ _ => rfl

/-! ## Whole numbers -/

theorem bytesOf_digits {ds : List Char} (h : ∀ c ∈ ds, c.isDigit) : bytesOf ds = ds.map ascii := by
  induction ds with
  | nil => rfl
  | cons c ds ih =>
    have hc := Text.toNat_of_isDigit (h c List.mem_cons_self)
    rw [bytesOf_cons (by omega), ih fun d hd => h d (List.mem_cons_of_mem _ hd), List.map_cons]

theorem isDigitByte_ascii {c : Char} (h : c.isDigit) : Text.isDigitByte (ascii c) := by
  obtain ⟨hlow, hhigh⟩ := Text.toNat_of_isDigit h
  have hascii : (ascii c).toNat = c.toNat := toNat_ascii (by omega)
  simp only [Text.isDigitByte, Bool.and_eq_true, decide_eq_true_eq, UInt8.le_iff_toNat_le, hascii]
  exact ⟨hlow, hhigh⟩

theorem isDigits_bytesOf {ds : List Char} (h : ∀ c ∈ ds, c.isDigit) (hne : ds ≠ []) :
    IsDigits (bytesOf ds) := by
  rw [bytesOf_digits h]
  refine ⟨fun hnil => hne (List.map_eq_nil_iff.mp hnil), fun b hb => ?_⟩
  obtain ⟨c, hc, rfl⟩ := List.mem_map.mp hb
  exact isDigitByte_ascii (h c hc)

theorem isWhole_bytesOf {ds : List Char} (h : ∀ c ∈ ds, c.isDigit) (hne : ds ≠ [])
    (hleading : ds.head? = some '0' → ds = ['0']) : IsWhole (bytesOf ds) := by
  refine ⟨isDigits_bytesOf h hne, fun hhead => ?_⟩
  rw [bytesOf_digits h, List.head?_map, Option.map_eq_some_iff] at hhead
  obtain ⟨c, hc, heq⟩ := hhead
  -- No other digit has the byte of a zero.
  have hzero : c = '0' := by
    have hbounds := Text.toNat_of_isDigit (h c (List.mem_of_mem_head? hc))
    rw [← UInt8.toNat_inj, toNat_ascii (by omega), toNat_ascii (by decide)] at heq
    exact Char.toNat_inj.mp heq
  rw [hleading (hzero ▸ hc)]
  rfl

/-- The bytes of the digits of a number. -/
def digitBytes (n : Nat) : List UInt8 := bytesOf (Writer.nat n)

theorem digitBytes_eq_map (n : Nat) : digitBytes n = (Nat.toDigits 10 n).map ascii :=
  bytesOf_digits Numeral.isDigit_of_mem_toDigits

theorem isWhole_digitBytes (n : Nat) : IsWhole (digitBytes n) := by
  refine isWhole_bytesOf Numeral.isDigit_of_mem_toDigits Nat.toDigits_ne_nil fun hhead => ?_
  obtain ⟨ds, hds⟩ := List.head?_eq_some_iff.mp hhead
  rw [← (Numeral.eq_zero_of_toDigits_eq_cons hds).2]
  exact hds

theorem isNumber_nat (n : Nat) : IsNumber (digitBytes n) := by
  simpa [signBytes, digitBytes] using
    IsNumber.parts false (isWhole_digitBytes n) .absent .absent

theorem shows_nat (n : Nat) : Shows (bytesOf (Writer.nat n)) (.number (digitBytes n)) :=
  shows_number (isNumber_nat n)

theorem bytesOf_withSign (negative : Bool) (text : List Char) :
    bytesOf (withSign negative text) = signBytes negative ++ bytesOf text := by
  cases negative with
  | true => exact bytesOf_cons (by decide) text
  | false => rfl

/-- The bytes of an integer. -/
def intBytes (n : Int) : List UInt8 := bytesOf (Writer.int n)

theorem intBytes_eq (n : Int) : intBytes n = signBytes (n < 0) ++ digitBytes n.natAbs :=
  bytesOf_withSign _ _

theorem isNumber_int (n : Int) : IsNumber (intBytes n) := by
  rw [intBytes_eq]
  simpa using IsNumber.parts (n < 0) (isWhole_digitBytes n.natAbs) .absent .absent

theorem shows_int (n : Int) : Shows (bytesOf (Writer.int n)) (.number (intBytes n)) :=
  shows_number (isNumber_int n)

theorem digitsValue_digitBytes (n : Nat) : digitsValue (digitBytes n) = n := by
  have h : ∀ (ds : List Char) (k : Nat), (∀ c ∈ ds, c.isDigit) →
      (ds.map ascii).foldl (fun n d => 10 * n + Text.digitValue d) k =
        ds.foldl (fun n c => 10 * n + (c.toNat - '0'.toNat)) k := by
    intro ds
    induction ds with
    | nil => exact fun _ _ => rfl
    | cons c ds ih =>
      intro k hds
      have hc := Text.toNat_of_isDigit (hds c List.mem_cons_self)
      rw [List.map_cons, List.foldl_cons, List.foldl_cons, Text.digitValue,
        toNat_ascii (by omega)]
      exact ih _ fun d hd => hds d (List.mem_cons_of_mem _ hd)
  rw [digitsValue, digitBytes_eq_map, h _ _ Numeral.isDigit_of_mem_toDigits]
  exact Numeral.ofDigits_toDigits n

/-- The parts of a whole number are its sign and its digits. -/
theorem parts_whole (negative : Bool) (n : Nat) :
    (parts (signBytes negative ++ digitBytes n)).negative = negative ∧
      (parts (signBytes negative ++ digitBytes n)).whole = digitBytes n := by
  have htake := takeWhile_digits (isWhole_digitBytes n).digits (noDigit_of_ends ends_nil)
  rw [List.append_nil] at htake
  cases negative with
  | true =>
    refine ⟨rfl, ?_⟩
    simp [parts, signBytes, htake]
  | false =>
    obtain ⟨b, ds, hds⟩ := List.exists_cons_of_ne_nil (isWhole_digitBytes n).ne_nil
    obtain ⟨-, hminus, -⟩ :=
      isDigitByte_cases ((isWhole_digitBytes n).digits b (hds ▸ List.mem_cons_self))
    have hhead : (digitBytes n).head? ≠ some (ascii '-') := by
      rw [hds, List.head?_cons, ne_eq, Option.some.injEq]
      exact hminus
    exact ⟨by simp [parts, signBytes, hhead], by simp [parts, signBytes, hhead, htake]⟩

/-- The digits that are written for a number stand for it. -/
theorem numberOf?_digitBytes {n : Nat} (h : n < wordBound) :
    numberOf? (digitBytes n) = some (.nat n) := by
  obtain ⟨hnegative, hwhole⟩ := parts_whole false n
  have hbytes : signBytes false ++ digitBytes n = digitBytes n := rfl
  rw [hbytes] at hnegative hwhole
  simp [numberOf?, hwhole, hnegative, digitsValue_digitBytes, h]

/-- So do the digits after a sign. -/
theorem numberOf?_negative {n : Nat} (hpos : 0 < n) (h : n ≤ 0x8000000000000000) :
    numberOf? (signBytes true ++ digitBytes n) = some (.negative n) := by
  obtain ⟨hnegative, hwhole⟩ := parts_whole true n
  have hlength : (digitBytes n).length + 1 = (signBytes true ++ digitBytes n).length := by
    rw [List.length_append, Nat.add_comm]
    rfl
  have hword : n < wordBound := by
    rw [wordBound]
    omega
  simp [numberOf?, hwhole, hnegative, digitsValue_digitBytes, hlength, hword, hpos.ne', h]

/-! ## Numbers in single precision -/

theorem length_positional_le (d : Decimal) :
    d.positional.length ≤ d.digits.length + d.exponent.natAbs + 2 := by
  rw [Decimal.positional]
  dsimp only
  split
  · split
    · omega
    · rw [List.length_append, List.length_replicate]
      omega
  · split
    · simp only [List.length_cons, List.length_append, List.length_replicate]
      omega
    · simp only [List.length_cons, List.length_append, List.length_take, List.length_drop]
      omega

theorem length_bytesOf_digits {ds : List Char} (h : ∀ c ∈ ds, c.isDigit) :
    (bytesOf ds).length = ds.length := by
  rw [bytesOf_digits h, List.length_map]

/-- Bytes are a number without a sign, whose digits and exponent stay below a bound together. -/
inductive IsMagnitude (bound : Nat) : List UInt8 → Prop where
  | parts {whole fraction exponent : List UInt8} (hwhole : IsWhole whole)
      (hfraction : IsFraction fraction) (hexponent : IsExponent exponent)
      (hbound : whole.length + fraction.length + digitsValue (exponent.drop 2) ≤ bound) :
      IsMagnitude bound (whole ++ fraction ++ exponent)

theorem IsMagnitude.isNumber {bound : Nat} {bs : List UInt8} (h : IsMagnitude bound bs)
    (negative : Bool) : IsNumber (signBytes negative ++ bs) := by
  obtain ⟨hwhole, hfraction, hexponent, -⟩ := h
  simpa only [List.append_assoc] using IsNumber.parts negative hwhole hfraction hexponent

/-- A bound for the digits and the exponent of a decimal, however it is written. -/
def decimalBound (d : Decimal) : Nat := 2 * d.digits.length + d.exponent.natAbs + 4

/-- A whole number with a zero behind a point. -/
theorem isMagnitude_pointZero {d : Decimal} (hexp : 0 ≤ d.exponent) :
    IsMagnitude (decimalBound d) (bytesOf (d.positional ++ ['.', '0'])) := by
  obtain ⟨whole, hdigits, -, hne, hleading, heq, -⟩ := Decimal.positional_of_nonneg hexp
  have heq : d.positional = whole := heq.elim (·.1) fun h => absurd rfl h.2
  have hlength := length_positional_le d
  have hpoint : bytesOf ['.', '0'] = ascii '.' :: bytesOf ['0'] := rfl
  have hzero : IsDigits (bytesOf ['0']) := isDigits_bytesOf (by simp) (by simp)
  rw [heq] at hlength
  rw [heq, bytesOf_append, hpoint, ← List.append_nil (bytesOf whole ++ _)]
  refine .parts (isWhole_bytesOf hdigits hne hleading) (.digits hzero) .absent ?_
  rw [length_bytesOf_digits hdigits, decimalBound]
  show whole.length + 2 + 0 ≤ _
  omega

/-- Digits, or digits around a point. -/
theorem isMagnitude_positional (d : Decimal) :
    IsMagnitude (decimalBound d) (bytesOf d.positional) := by
  have hlength := length_positional_le d
  obtain ⟨whole, fraction, hdigits, hfraction, hne, hleading, ⟨heq, -⟩ | ⟨heq, hmore⟩, -⟩ :=
    d.exists_positional
  · rw [heq] at hlength
    rw [heq, ← List.append_nil (bytesOf whole), ← List.append_nil (bytesOf whole ++ [])]
    refine .parts (isWhole_bytesOf hdigits hne hleading) .absent .absent ?_
    rw [length_bytesOf_digits hdigits, decimalBound]
    show whole.length + 0 + 0 ≤ _
    omega
  · rw [heq, List.length_append, List.length_cons] at hlength
    rw [heq, bytesOf_append, bytesOf_cons (by decide), ← List.append_nil (bytesOf whole ++ _)]
    refine .parts (isWhole_bytesOf hdigits hne hleading)
      (.digits (isDigits_bytesOf hfraction hmore)) .absent ?_
    rw [length_bytesOf_digits hdigits, List.length_cons, length_bytesOf_digits hfraction,
      decimalBound]
    show whole.length + (fraction.length + 1) + 0 ≤ _
    omega

/-- One digit, further ones after a point, and the exponent. -/
theorem isMagnitude_scientific (d : Decimal) :
    IsMagnitude (decimalBound d) (bytesOf (d.scientific ['+'])) := by
  obtain ⟨c, ds, hds⟩ := List.exists_cons_of_ne_nil d.digits_ne_nil
  have hdigits := List.forall_mem_cons.mp (hds ▸ d.isDigit_of_mem_digits)
  have hlength : d.digits.length = ds.length + 1 := congrArg List.length hds
  have hwhole : IsWhole (bytesOf [c]) :=
    isWhole_bytesOf (by simpa using hdigits.1) (by simp) (by simp)
  have hone : (bytesOf [c]).length = 1 := length_bytesOf_digits (by simpa using hdigits.1)
  have hleading : d.leadingExponent.natAbs ≤ d.exponent.natAbs + ds.length := by
    rw [Decimal.leadingExponent, hlength]
    omega
  have hexponent : ∀ sign, sign = '+' ∨ sign = '-' →
      IsExponent (bytesOf ('e' :: sign :: Nat.toDigits 10 d.leadingExponent.natAbs)) ∧
        digitsValue ((bytesOf ('e' :: sign :: Nat.toDigits 10 d.leadingExponent.natAbs)).drop 2) =
          d.leadingExponent.natAbs := by
    have hdigits : IsDigits (bytesOf (Nat.toDigits 10 d.leadingExponent.natAbs)) :=
      isDigits_bytesOf Numeral.isDigit_of_mem_toDigits Nat.toDigits_ne_nil
    rintro sign (rfl | rfl)
    · exact ⟨.digits (.inl rfl) hdigits, digitsValue_digitBytes _⟩
    · exact ⟨.digits (.inr rfl) hdigits, digitsValue_digitBytes _⟩
  have hfraction : IsFraction (bytesOf (if d.digits.length ≤ 1 then [] else '.' :: ds)) ∧
      (bytesOf (if d.digits.length ≤ 1 then [] else '.' :: ds)).length ≤ d.digits.length := by
    split
    · exact ⟨.absent, Nat.zero_le _⟩
    · next hmore =>
      rw [bytesOf_cons (by decide), List.length_cons, length_bytesOf_digits hdigits.2, hlength]
      refine ⟨.digits (isDigits_bytesOf hdigits.2 fun hnil => hmore ?_), le_rfl⟩
      rw [hds, hnil]
      rfl
  obtain ⟨sign, hsign, hbytes⟩ : ∃ sign, (sign = '+' ∨ sign = '-') ∧ d.scientific ['+'] =
      [c] ++ (if d.digits.length ≤ 1 then [] else '.' :: ds) ++
        ('e' :: sign :: Nat.toDigits 10 d.leadingExponent.natAbs) := by
    refine ⟨if d.leadingExponent < 0 then '-' else '+', by split <;> simp, ?_⟩
    have hsplit : (if d.leadingExponent < 0 then ['-'] else ['+']) =
        [if d.leadingExponent < 0 then '-' else '+'] := by
      split <;> rfl
    simp only [Decimal.scientific, hds, List.take_succ_cons, List.take_zero, List.drop_succ_cons,
      List.drop_zero, hsplit, List.singleton_append]
  obtain ⟨hexponent, hvalue⟩ := hexponent sign hsign
  have hshort := hfraction.2
  rw [hbytes, bytesOf_append, bytesOf_append]
  refine .parts hwhole hfraction.1 hexponent ?_
  rw [hvalue, hone, decimalBound]
  omega

/-- A shortest decimal is written in the grammar, in either notation. -/
theorem isMagnitude_decimal (p : Writer.Positional) (d : Decimal) :
    IsMagnitude (decimalBound d) (bytesOf (Writer.decimal p d)) := by
  rw [Writer.decimal]
  split
  · split
    · next hexp => exact isMagnitude_pointZero hexp
    · exact isMagnitude_positional d
  · exact isMagnitude_scientific d

theorem isNumber_decimal (negative : Bool) (p : Writer.Positional) (d : Decimal) :
    IsNumber (bytesOf (withSign negative (Writer.decimal p d))) := by
  rw [bytesOf_withSign]
  exact (isMagnitude_decimal p d).isNumber negative

/-- The bytes of a number in single precision. -/
def singleBytes (x : Single) : List UInt8 := bytesOf (Writer.single x)

/-- The value that a number shows: itself, or null where it is not finite. -/
def singleShown (x : Single) : Json := if x.isFinite then .number (singleBytes x) else .null

theorem isNumber_single {x : Single} (h : x.isFinite) : IsNumber (singleBytes x) := by
  obtain ⟨negative, m, e, hdatum⟩ := x.isFinite_iff.mp h
  rw [singleBytes, Writer.single, hdatum]
  exact isNumber_decimal negative Writer.singlePositional _

theorem singleBytes_of_not_isFinite {x : Single} (h : ¬x.isFinite) :
    singleBytes x = bytesOf ['n', 'u', 'l', 'l'] := by
  rw [singleBytes, Writer.single]
  cases hdatum : x.datum with
  | finite negative m e => exact absurd (x.isFinite_iff.mpr ⟨negative, m, e, hdatum⟩) h
  | infinite => rfl
  | nan => rfl

theorem shows_single (x : Single) : Shows (bytesOf (Writer.single x)) (singleShown x) := by
  rw [singleShown]
  split
  · next h => exact shows_number (isNumber_single h)
  · next h =>
    have hbytes : bytesOf (Writer.single x) = bytesOf ['n', 'u', 'l', 'l'] :=
      singleBytes_of_not_isFinite h
    rw [hbytes]
    exact shows_null

end Json

end BoostedTrees
