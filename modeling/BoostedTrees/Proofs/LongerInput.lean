import BoostedTrees.Proofs.JsonNumbers
import BoostedTrees.Proofs.WireForm

/-!
# Readers on longer input

A reader that took a value off some bytes takes the same value off these bytes with more
behind them, and leaves the rest with more behind it: no reader looks at the end of its
input. Numbers in JSON are the exception, since digits that follow at once belong to them;
for them something must have been left. So bytes on which a reader succeeds cannot be a
proper part of bytes that it reads to the end.

## Main definitions

* `Extends`: one reader does on longer input what another one does
* `Json.ParsersExtend`: the parsers of JSON do so with different amounts of fuel

## Main results

* `Wire.extends_storedModel`: the reader of the compact binary form
* `Json.parsersExtend`: the parsers of JSON, on more fuel too
* `Json.parsePrefix_append`: values at the front of a text
-/

namespace BoostedTrees

/-- What the first reader takes off some bytes, the second one takes off longer bytes. -/
structure Extends {α : Type} (r r' : List UInt8 → Option (α × List UInt8)) : Prop where
  append : ∀ {bytes a rest}, r bytes = some (a, rest) →
    ∀ more, r' (bytes ++ more) = some (a, rest ++ more)

/-! ## The binary form -/

namespace Wire

variable {α β : Type}

theorem extends_pure (a : α) : Extends (pure a : Reader α) (pure a : Reader α) where
  append h more := by
    cases h
    rfl

theorem extends_bind {r : Reader α} {next : α → Reader β} (h : Extends r r)
    (hnext : ∀ a, Extends (next a) (next a)) : Extends (r >>= next) (r >>= next) where
  append hb more := by
    obtain ⟨c, ha, hb⟩ := (bind_eq_some_iff r next _ _).mp hb
    exact (bind_eq_some_iff r next _ _).mpr ⟨_, h.append ha more, (hnext c.1).append hb more⟩

theorem extends_varintWithin (count width : Nat) :
    Extends (Reader.varintWithin count width) (Reader.varintWithin count width) := by
  constructor
  intro bytes n rest h more
  -- Every byte but the last is followed by a shorter number.
  induction count generalizing width bytes n with
  | zero => cases h
  | succ count ih =>
    cases bytes with
    | nil => cases h
    | cons b bytes =>
      rw [Reader.varintWithin] at h
      rw [List.cons_append, Reader.varintWithin]
      split
      · next hlast =>
        rw [if_pos hlast] at h
        split
        · next hfits =>
          rw [if_pos hfits] at h
          cases h
          rfl
        · next hlarge =>
          rw [if_neg hlarge] at h
          cases h
      · next hmore =>
        rw [if_neg hmore] at h
        split at h
        · next high rest' hhigh =>
          cases h
          rw [ih _ hhigh]
        · cases h

theorem extends_varint (width : Nat) : Extends (Reader.varint width) (Reader.varint width) :=
  extends_varintWithin _ _

theorem extends_uint32 : Extends Reader.uint32 Reader.uint32 :=
  extends_bind (extends_varint 32) fun _ => extends_pure _

theorem extends_uint64 : Extends Reader.uint64 Reader.uint64 :=
  extends_bind (extends_varint 64) fun _ => extends_pure _

theorem extends_int32 : Extends Reader.int32 Reader.int32 :=
  extends_bind (extends_varint 32) fun _ => extends_pure _

theorem extends_word : Extends Reader.word Reader.word := by
  constructor
  intro bytes w rest h more
  match bytes, h with
  | a :: b :: c :: d :: bytes, h =>
    cases h
    rfl

theorem extends_single : Extends Reader.single Reader.single :=
  extends_bind extends_word fun _ => extends_pure _

theorem extends_bool : Extends Reader.bool Reader.bool := by
  constructor
  intro bytes x rest h more
  cases bytes with
  | nil => cases h
  | cons b bytes =>
    rw [Reader.bool] at h
    rw [List.cons_append, Reader.bool]
    split
    · next hb =>
      rw [if_pos hb] at h
      cases h
      rfl
    · next hb =>
      rw [if_neg hb] at h
      split
      · next hb =>
        rw [if_pos hb] at h
        cases h
        rfl
      · next hb =>
        rw [if_neg hb] at h
        cases h

theorem extends_times {r : Reader α} (h : Extends r r) (count : Nat) :
    Extends (Reader.times r count) (Reader.times r count) := by
  induction count with
  | zero => exact extends_pure []
  | succ count ih => exact extends_bind h fun _ => extends_bind ih fun _ => extends_pure _

theorem extends_list {r : Reader α} (h : Extends r r) :
    Extends (Reader.list r) (Reader.list r) :=
  extends_bind (extends_varint 64) fun count => extends_times h count

theorem extends_take (count : Nat) : Extends (Reader.take count) (Reader.take count) := by
  constructor
  intro bytes a rest h more
  rw [Reader.take] at h
  split at h
  · next hcount =>
    cases h
    rw [Reader.take, if_pos (by rw [List.length_append]; omega),
      List.take_append_of_le_length hcount, List.drop_append_of_le_length hcount]
  · cases h

theorem extends_text : Extends Reader.text Reader.text := by
  refine extends_bind (extends_varint 64) fun count =>
    extends_bind (extends_take count) fun bytes => ?_
  constructor
  intro rest t rest' h more
  obtain ⟨t', ht, heq⟩ := Option.map_eq_some_iff.mp h
  cases heq
  rw [ht]
  rfl

theorem extends_dictionary {r : Reader α} (h : Extends r r) :
    Extends (Reader.dictionary r) (Reader.dictionary r) := by
  have hentry : Extends (Reader.entry r) (Reader.entry r) :=
    extends_bind extends_text fun _ => extends_bind h fun _ => extends_pure _
  exact extends_bind (extends_list hentry) fun _ => extends_pure _

theorem extends_storedTree : Extends Reader.storedTree Reader.storedTree :=
  extends_bind (extends_list extends_uint32) fun _ =>
  extends_bind (extends_list extends_single) fun _ =>
  extends_bind (extends_list extends_int32) fun _ =>
  extends_bind (extends_list extends_int32) fun _ =>
  extends_bind (extends_list extends_bool) fun _ =>
  extends_bind (extends_list extends_single) fun _ =>
  extends_bind (extends_list extends_single) fun _ =>
  extends_bind (extends_list extends_single) fun _ => extends_pure _

theorem extends_storedForest : Extends Reader.storedForest Reader.storedForest :=
  extends_bind (extends_list extends_storedTree) fun _ =>
  extends_bind (extends_list extends_uint32) fun _ => extends_pure _

theorem extends_storedParameters : Extends Reader.storedParameters Reader.storedParameters :=
  extends_bind extends_single fun _ => extends_bind extends_uint32 fun _ =>
  extends_bind extends_uint64 fun _ => extends_pure _

theorem extends_version : Extends Reader.version Reader.version :=
  extends_bind extends_uint32 fun _ => extends_bind extends_uint32 fun _ =>
  extends_bind extends_uint32 fun _ => extends_pure _

/-- The reader of the compact binary form does not look at the end of its input. -/
theorem extends_storedModel : Extends Reader.storedModel Reader.storedModel :=
  extends_bind extends_version fun _ =>
  extends_bind (extends_dictionary extends_text) fun _ =>
  extends_bind (extends_list extends_text) fun _ =>
  extends_bind (extends_list extends_text) fun _ =>
  extends_bind extends_storedParameters fun _ =>
  extends_bind extends_text fun _ =>
  extends_bind extends_storedForest fun _ => extends_pure _

end Wire

/-! ## JSON -/

namespace Json

variable {α β : Type} {r r' : Parser α} {bytes rest : List UInt8}

/-! ### Steps of parsers -/

theorem extends_none : Extends (fun _ => none : Parser α) (fun _ => none) where
  append h _ := by cases h

theorem extends_some (a : α) :
    Extends (fun rest => some (a, rest)) (fun rest => some (a, rest)) where
  append h more := by
    cases h
    rfl

theorem extends_ite {c : Prop} [Decidable c] {s s' : Parser α} (h : Extends r r')
    (hs : Extends s s') :
    Extends (fun bytes => if c then r bytes else s bytes)
      (fun bytes => if c then r' bytes else s' bytes) := by
  by_cases hc : c
  · simpa only [if_pos hc] using h
  · simpa only [if_neg hc] using hs

theorem extends_map (h : Extends r r') (f : α → β) :
    Extends (fun bytes => (r bytes).map fun p => (f p.1, p.2))
      (fun bytes => (r' bytes).map fun p => (f p.1, p.2)) where
  append hb more := by
    obtain ⟨p, ha, heq⟩ := Option.map_eq_some_iff.mp hb
    cases heq
    rw [h.append ha more]
    rfl

theorem skipBlanks_append {b : UInt8} (h : skipBlanks bytes = b :: rest) (more : List UInt8) :
    skipBlanks (bytes ++ more) = b :: (rest ++ more) := by
  rw [skipBlanks] at h ⊢
  rw [List.dropWhile_append, h]
  rfl

/-- A step that depends on the first byte after blanks. -/
theorem extends_byte {next next' : UInt8 → Parser α} (h : ∀ b, Extends (next b) (next' b)) :
    Extends
      (fun bytes => match skipBlanks bytes with
        | [] => none
        | b :: rest => next b rest)
      (fun bytes => match skipBlanks bytes with
        | [] => none
        | b :: rest => next' b rest) := by
  constructor
  intro bytes a rest ha more
  cases hb : skipBlanks bytes with
  | nil =>
    rw [hb] at ha
    cases ha
  | cons b after =>
    rw [hb] at ha
    rw [skipBlanks_append hb]
    exact (h b).append ha more

/-- A word that was taken off stood at the front. -/
theorem eq_append_of_takeWord {w : List Char} (h : takeWord w bytes = some rest) :
    bytes = w.map ascii ++ rest := by
  rw [takeWord] at h
  split at h
  · next hprefix =>
    obtain ⟨after, rfl⟩ := List.isPrefixOf_iff_prefix.mp hprefix
    rw [List.drop_left] at h
    cases h
    rfl
  · cases h

theorem extends_word (w : List Char) (a : α) :
    Extends (fun bytes => (takeWord w bytes).map fun rest => (a, rest))
      (fun bytes => (takeWord w bytes).map fun rest => (a, rest)) where
  append h more := by
    obtain ⟨rest, hword, heq⟩ := Option.map_eq_some_iff.mp h
    cases heq
    rw [eq_append_of_takeWord hword, List.append_assoc, takeWord_append]
    rfl

theorem extends_takeString : Extends takeString takeString := by
  constructor
  intro bytes s rest h more
  -- Induction on the characters and escapes of the string.
  fun_induction takeString bytes generalizing s with
  | case1 | case3 | case4 | case7 | case8 | case9 => cases h
  | case2 bytes =>
    cases h
    rw [List.cons_append, takeString.eq_def]
    exact if_pos rfl
  | case5 c bytes hletter hquote hcontrol ih =>
    obtain ⟨p, hp, heq⟩ := Option.map_eq_some_iff.mp h
    cases heq
    rw [List.cons_append, List.cons_append, takeString.eq_def]
    dsimp only
    rw [if_neg hquote, if_neg hcontrol, if_pos rfl, if_pos hletter, ih hp]
    rfl
  | case6 h1 h2 h3 h4 bytes hhex hquote hcontrol hletter ih =>
    obtain ⟨p, hp, heq⟩ := Option.map_eq_some_iff.mp h
    cases heq
    simp only [List.cons_append]
    rw [takeString.eq_def]
    dsimp only
    rw [if_neg hquote, if_neg hcontrol, if_pos rfl, if_neg hletter, if_pos rfl, if_pos hhex, ih hp]
    rfl
  | case10 c bytes hquote hcontrol hslash ih =>
    obtain ⟨p, hp, heq⟩ := Option.map_eq_some_iff.mp h
    cases heq
    rw [List.cons_append, takeString.eq_def]
    dsimp only
    rw [if_neg hquote, if_neg hcontrol, if_neg hslash, ih hp]
    rfl

/-- A string that decides what comes after it. -/
theorem extends_takeString_then {next next' : Lexeme → Parser α}
    (hnext : ∀ s, Extends (next s) (next' s)) :
    Extends
      (fun bytes => match takeString bytes with
        | none => none
        | some (s, rest) => next s rest)
      (fun bytes => match takeString bytes with
        | none => none
        | some (s, rest) => next' s rest) := by
  constructor
  intro bytes a rest ha more
  cases hs : takeString bytes with
  | none =>
    rw [hs] at ha
    cases ha
  | some p =>
    rw [hs] at ha
    rw [extends_takeString.append hs more]
    exact (hnext p.1).append ha more

/-! ### Numbers -/

/-- What a parser takes off some bytes and does not end with, it takes off longer bytes. -/
structure ExtendsInside (r : Parser α) : Prop where
  append : ∀ {bytes a rest}, r bytes = some (a, rest) → rest ≠ [] →
    ∀ more, r (bytes ++ more) = some (a, rest ++ more)

theorem extendsInside_map (h : ExtendsInside r) (f : α → β) :
    ExtendsInside fun bytes => (r bytes).map fun p => (f p.1, p.2) where
  append hb hrest more := by
    obtain ⟨p, ha, heq⟩ := Option.map_eq_some_iff.mp hb
    cases heq
    rw [h.append ha hrest more]
    rfl

theorem extendsInside_takeDigits : ExtendsInside takeDigits := by
  constructor
  intro bytes ds rest h hrest more
  rw [takeDigits] at h
  split at h
  · cases h
  · next hds =>
    cases h
    -- The byte that ended the digits is still there.
    have hdrop : (bytes ++ more).dropWhile Text.isDigitByte =
        bytes.dropWhile Text.isDigitByte ++ more := by
      rw [List.dropWhile_append, if_neg (by simpa using hrest)]
    have htake : (bytes ++ more).takeWhile Text.isDigitByte = bytes.takeWhile Text.isDigitByte := by
      have hlength := congrArg List.length
        (List.takeWhile_append_dropWhile (p := Text.isDigitByte) (l := bytes))
      have hpos := List.length_pos_of_ne_nil hrest
      rw [List.length_append] at hlength
      rw [List.takeWhile_append, if_neg (by omega)]
    rw [takeDigits, hdrop, htake, if_neg hds]

theorem extendsInside_takeWhole : ExtendsInside takeWhole := by
  constructor
  intro bytes ds rest h hrest more
  cases bytes with
  | nil => cases h
  | cons b bytes =>
    rw [takeWhole] at h
    rw [List.cons_append, takeWhole]
    split
    · next hzero =>
      rw [if_pos hzero] at h
      cases h
      rfl
    · next hzero =>
      rw [if_neg hzero] at h
      exact extendsInside_takeDigits.append h hrest more

theorem extendsInside_takeFraction : ExtendsInside takeFraction := by
  constructor
  intro bytes ds rest h hrest more
  cases bytes with
  | nil =>
    cases h
    exact absurd rfl hrest
  | cons b bytes =>
    rw [takeFraction] at h
    rw [List.cons_append, takeFraction]
    split
    · next hpoint =>
      rw [if_pos hpoint] at h
      exact (extendsInside_map extendsInside_takeDigits (b :: ·)).append h hrest more
    · next hpoint =>
      rw [if_neg hpoint] at h
      cases h
      rfl

theorem extendsInside_takeExponent : ExtendsInside takeExponent := by
  constructor
  intro bytes ds rest h hrest more
  cases bytes with
  | nil =>
    cases h
    exact absurd rfl hrest
  | cons b bytes =>
    rw [takeExponent.eq_def] at h
    rw [List.cons_append, takeExponent.eq_def]
    dsimp only at h ⊢
    split
    · next hletter =>
      rw [if_pos hletter] at h
      cases bytes with
      | nil => cases h
      | cons s bytes =>
        dsimp only [List.cons_append] at h ⊢
        split
        · next hsign =>
          rw [if_pos hsign] at h
          exact (extendsInside_map extendsInside_takeDigits (b :: s :: ·)).append h hrest more
        · next hsign =>
          rw [if_neg hsign] at h
          exact (extendsInside_map extendsInside_takeDigits (b :: ·)).append h hrest more
    · next hletter =>
      rw [if_neg hletter] at h
      cases h
      rfl

theorem extendsInside_takeUnsigned (sign : Lexeme) : ExtendsInside (takeUnsigned sign) := by
  constructor
  intro bytes n rest h hrest more
  obtain ⟨whole, hwhole, h⟩ := Option.bind_eq_some_iff.mp h
  obtain ⟨fraction, hfraction, h⟩ := Option.bind_eq_some_iff.mp h
  obtain ⟨exponent, hexponent, h⟩ := Option.bind_eq_some_iff.mp h
  cases h
  -- What is left after the exponent was left after the other parts too.
  have hafterFraction : fraction.2 ≠ [] := by
    intro hnil
    rw [hnil] at hexponent
    cases hexponent
    exact hrest rfl
  have hafterWhole : whole.2 ≠ [] := by
    intro hnil
    rw [hnil] at hfraction
    cases hfraction
    exact hafterFraction rfl
  rw [takeUnsigned, extendsInside_takeWhole.append hwhole hafterWhole more, Option.bind_some,
    extendsInside_takeFraction.append hfraction hafterFraction more, Option.bind_some,
    extendsInside_takeExponent.append hexponent hrest more, Option.bind_some]

theorem extendsInside_takeNumber : ExtendsInside takeNumber := by
  constructor
  intro bytes n rest h hrest more
  cases bytes with
  | nil => cases h
  | cons b bytes =>
    rw [takeNumber_cons] at h
    rw [List.cons_append, takeNumber_cons]
    split
    · next hsign =>
      rw [if_pos hsign] at h
      exact (extendsInside_takeUnsigned [b]).append h hrest more
    · next hsign =>
      rw [if_neg hsign] at h
      exact (extendsInside_takeUnsigned []).append h hrest more

/-! ### Values -/

/-- A container after its opening byte: its end, or what stands in it. -/
def afterOpening (close : UInt8) (empty : β) (f : α → β) (r : Parser α) : Parser β := fun bytes =>
  match skipBlanks bytes with
  | [] => none
  | c :: after =>
    if c = close then some (empty, after)
    else (r (c :: after)).map fun p => (f p.1, p.2)

theorem extends_afterOpening (close : UInt8) (empty : β) (f : α → β) (h : Extends r r') :
    Extends (afterOpening close empty f r) (afterOpening close empty f r') := by
  refine extends_byte fun c => extends_ite (extends_some empty) (extends_map ?_ f)
  exact ⟨fun hr more => h.append hr more⟩

/-- A container after one of its parts: its end, or a comma and more parts. -/
def afterPart (close : UInt8) (a : α) (r : Parser (List α)) : Parser (List α) := fun bytes =>
  match skipBlanks bytes with
  | [] => none
  | c :: after =>
    if c = close then some ([a], after)
    else if c = ascii ',' then (r after).map fun p => (a :: p.1, p.2)
    else none

theorem extends_afterPart (close : UInt8) (a : α) {r r' : Parser (List α)} (h : Extends r r') :
    Extends (afterPart close a r) (afterPart close a r') :=
  extends_byte fun _ => extends_ite (extends_some [a])
    (extends_ite (extends_map h (a :: ·)) extends_none)

/-- The parsers with the first fuel, on longer input and with the second fuel. -/
structure ParsersExtend (fuel fuel' : Nat) : Prop where
  /-- After a number something must have been left. -/
  value : ∀ {bytes v rest}, parseValue fuel bytes = some (v, rest) →
    (rest ≠ [] ∨ ∀ n, v ≠ .number n) →
      ∀ more, parseValue fuel' (bytes ++ more) = some (v, rest ++ more)
  items : Extends (parseItems fuel) (parseItems fuel')
  members : Extends (parseMembers fuel) (parseMembers fuel')

namespace ParsersExtend

variable {fuel fuel' : Nat} {v : Json}

theorem value_succ (ih : ParsersExtend fuel fuel')
    (h : parseValue (fuel + 1) bytes = some (v, rest)) (hv : rest ≠ [] ∨ ∀ n, v ≠ .number n)
    (more : List UInt8) : parseValue (fuel' + 1) (bytes ++ more) = some (v, rest ++ more) := by
  rw [parseValue] at h ⊢
  cases hb : skipBlanks bytes with
  | nil =>
    rw [hb] at h
    cases h
  | cons b after =>
    rw [hb] at h
    rw [skipBlanks_append hb]
    dsimp only at h ⊢
    -- The first byte says what kind of value it is.
    by_cases hquote : b = ascii '"'
    · rw [if_pos hquote] at h ⊢
      exact (extends_map extends_takeString Json.string).append h more
    rw [if_neg hquote] at h ⊢
    by_cases hbracket : b = ascii '['
    · rw [if_pos hbracket] at h ⊢
      exact (extends_afterOpening (ascii ']') (Json.array []) Json.array ih.items).append h more
    rw [if_neg hbracket] at h ⊢
    by_cases hbrace : b = ascii '\x7b'
    · rw [if_pos hbrace] at h ⊢
      exact (extends_afterOpening (ascii '\x7d') (Json.object []) Json.object
        ih.members).append h more
    rw [if_neg hbrace] at h ⊢
    by_cases hnull : b = ascii 'n'
    · rw [if_pos hnull] at h ⊢
      exact (extends_word ['u', 'l', 'l'] Json.null).append h more
    rw [if_neg hnull] at h ⊢
    by_cases htrue : b = ascii 't'
    · rw [if_pos htrue] at h ⊢
      exact (extends_word ['r', 'u', 'e'] (Json.bool true)).append h more
    rw [if_neg htrue] at h ⊢
    by_cases hfalse : b = ascii 'f'
    · rw [if_pos hfalse] at h ⊢
      exact (extends_word ['a', 'l', 's', 'e'] (Json.bool false)).append h more
    rw [if_neg hfalse] at h ⊢
    rcases hv with hrest | hnumber
    · exact (extendsInside_map extendsInside_takeNumber Json.number).append h hrest more
    · obtain ⟨⟨n, _⟩, -, heq⟩ := Option.map_eq_some_iff.mp h
      exact absurd (Prod.mk.inj heq).1.symm (hnumber n)

/-- A value that something must follow. -/
theorem extends_value_then (ih : ParsersExtend fuel fuel') {next next' : Json → Parser α}
    (hnext : ∀ a, Extends (next a) (next' a)) (hnil : ∀ a, next a [] = none) :
    Extends
      (fun bytes => match parseValue fuel bytes with
        | none => none
        | some (a, rest) => next a rest)
      (fun bytes => match parseValue fuel' bytes with
        | none => none
        | some (a, rest) => next' a rest) := by
  constructor
  intro bytes b rest hb more
  cases ha : parseValue fuel bytes with
  | none =>
    rw [ha] at hb
    cases hb
  | some p =>
    rw [ha] at hb
    have hrest : p.2 ≠ [] := by
      intro heq
      have hnone := hnil p.1
      rw [← heq] at hnone
      exact Option.some_ne_none _ (hb.symm.trans hnone)
    rw [ih.value ha (.inl hrest) more]
    exact (hnext p.1).append hb more

theorem items_succ (ih : ParsersExtend fuel fuel') :
    Extends (parseItems (fuel + 1)) (parseItems (fuel' + 1)) := by
  constructor
  intro bytes items rest h more
  rw [parseItems] at h ⊢
  exact (ih.extends_value_then (fun item => extends_afterPart (ascii ']') item ih.items)
    fun _ => rfl).append h more

theorem members_succ (ih : ParsersExtend fuel fuel') :
    Extends (parseMembers (fuel + 1)) (parseMembers (fuel' + 1)) := by
  -- A member is a key, a colon and a value, and what may follow the value comes with it.
  have hvalue : ∀ key, Extends _ _ := fun key => ih.extends_value_then
    (fun value => extends_afterPart (ascii '\x7d') (key, value) ih.members) fun _ => rfl
  have hmember : Extends _ _ := extends_takeString_then fun key =>
    extends_byte fun colon => extends_ite (c := colon = ascii ':') (hvalue key) extends_none
  have hmembers : Extends _ _ := extends_byte fun quote =>
    extends_ite (c := quote = ascii '"') hmember extends_none
  constructor
  intro bytes members rest h more
  rw [parseMembers] at h ⊢
  exact hmembers.append h more

end ParsersExtend

/-- More fuel and more input do not change what the parsers take off. -/
theorem parsersExtend {fuel fuel' : Nat} (h : fuel ≤ fuel') : ParsersExtend fuel fuel' := by
  induction fuel generalizing fuel' with
  | zero =>
    refine ⟨fun hv => ?_, ⟨fun hi => ?_⟩, ⟨fun hm => ?_⟩⟩
    · cases hv
    · cases hi
    · cases hm
  | succ fuel ih =>
    obtain ⟨fuel', rfl⟩ : ∃ k, fuel' = k + 1 := ⟨fuel' - 1, by omega⟩
    have ih := ih (by omega : fuel ≤ fuel')
    exact ⟨ih.value_succ, ih.items_succ, ih.members_succ⟩

/-- A value at the front of some bytes, except for a number that they end with, is at the
front of longer bytes. -/
theorem parsePrefix_append {v : Json} (h : parsePrefix bytes = some (v, rest))
    (hv : ∀ n, v ≠ .number n) (more : List UInt8) :
    parsePrefix (bytes ++ more) = some (v, rest ++ more) := by
  refine (parsersExtend ?_).value h (.inr hv) more
  rw [List.length_append]
  omega

end Json

end BoostedTrees
