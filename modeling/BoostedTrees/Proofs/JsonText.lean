import BoostedTrees.Json.Scalar
import BoostedTrees.Json.Writer
import BoostedTrees.Proofs.Utf8

/-!
# Written JSON parsed again

A text that was written is parsed as the value that it shows, by as much fuel as it has
bytes, whatever follows it in a larger text. What parsing keeps of a string is its
lexeme, and the lexeme that was written for a text stands for that text.

## Main definitions

* `Json.bytesOf`: the bytes of written characters
* `Json.Shows`: bytes are parsed as a value

## Main results

* `Json.shows_string`, `Json.shows_array`, `Json.shows_object`: what strings, arrays and
  objects show
* `Json.parse_of_shows`: a whole text is parsed as the value that it shows
* `Json.textOf?_lexeme`: what is written for a text stands for it
-/

namespace BoostedTrees.Json

/-- The bytes of written characters. -/
def bytesOf (text : List Char) : List UInt8 := text.flatMap String.utf8EncodeChar

@[simp] theorem bytesOf_nil : bytesOf [] = [] := rfl

@[simp] theorem bytesOf_append (a b : List Char) : bytesOf (a ++ b) = bytesOf a ++ bytesOf b :=
  List.flatMap_append

theorem bytesOf_cons {c : Char} (h : c.toNat < 0x80) (text : List Char) :
    bytesOf (c :: text) = ascii c :: bytesOf text := by
  rw [bytesOf, List.flatMap_cons, Text.utf8EncodeChar_of_lt h, List.singleton_append]
  rfl

/-! ## Strings -/

/-- A byte that stands for itself in a string. -/
def IsPlain (b : UInt8) : Prop := b ≠ ascii '"' ∧ b ≠ ascii '\\' ∧ ¬b < 0x20

/-- The lexeme that is written for a text. -/
def lexeme (t : String) : Lexeme := bytesOf (t.toList.flatMap Writer.char)

theorem takeString_plain {bs : List UInt8} (h : ∀ b ∈ bs, IsPlain b) (more : List UInt8) :
    takeString (bs ++ more) = (takeString more).map fun p => (bs ++ p.1, p.2) := by
  induction bs with
  | nil => simp
  | cons b bs ih =>
    obtain ⟨hquote, hslash, hcontrol⟩ := h b List.mem_cons_self
    rw [List.cons_append, takeString.eq_def]
    dsimp only
    rw [if_neg hquote, if_neg hcontrol, if_neg hslash,
      ih fun c hc => h c (List.mem_cons_of_mem _ hc), Option.map_map]
    rfl

theorem unescape_plain {bs : List UInt8} (h : ∀ b ∈ bs, IsPlain b) (more : List UInt8) :
    unescape (bs ++ more) = (unescape more).map (bs ++ ·) := by
  induction bs with
  | nil => simp
  | cons b bs ih =>
    obtain ⟨-, hslash, -⟩ := h b List.mem_cons_self
    rw [List.cons_append, unescape.eq_def]
    dsimp only
    rw [if_neg hslash, ih fun c hc => h c (List.mem_cons_of_mem _ hc), Option.map_map]
    rfl

/-- What a character is written as: an escape letter after a backslash, four hexadecimal
digits, or bytes that stand for themselves. -/
inductive Escaped (c : Char) : List UInt8 → Prop where
  | letter (b : UInt8) (hletter : isEscapeLetter b) (hu : b ≠ ascii 'u')
      (hbyte : [escapedByte b] = String.utf8EncodeChar c) : Escaped c [ascii '\\', b]
  | digits (h1 h2 h3 h4 : UInt8) (hhex : ∀ h ∈ [h1, h2, h3, h4], isHexByte h)
      (hcode : codeUnit h1 h2 h3 h4 = c.toNat) (hlow : c.toNat < 0x20) :
      Escaped c [ascii '\\', ascii 'u', h1, h2, h3, h4]
  | plain (bs : List UInt8) (hplain : ∀ b ∈ bs, IsPlain b) (hbytes : bs = String.utf8EncodeChar c) :
      Escaped c bs

theorem escaped_control (n : Fin 0x20) :
    Escaped (Char.ofNat n) (bytesOf ('\\' :: 'u' :: Text.hexDigits 4 n)) := by
  -- Two digits are zeros for a control character; the others are checked one by one.
  have hdigits : ∀ n : Fin 0x20, ∃ h1 h2 h3 h4,
      bytesOf ('\\' :: 'u' :: Text.hexDigits 4 n) = [ascii '\\', ascii 'u', h1, h2, h3, h4] ∧
        (∀ h ∈ [h1, h2, h3, h4], isHexByte h) ∧
          codeUnit h1 h2 h3 h4 = (Char.ofNat n).toNat ∧ (Char.ofNat n).toNat < 0x20 := by
    intro n
    refine ⟨ascii '0', ascii '0', ascii (Nat.digitChar (n / 16)),
      ascii (Nat.digitChar (n % 16)), ?_⟩
    revert n
    decide +kernel
  obtain ⟨h1, h2, h3, h4, hbytes, hhex, hcode, hlow⟩ := hdigits n
  rw [hbytes]
  exact .digits h1 h2 h3 h4 hhex hcode hlow

theorem toNat_ascii {c : Char} (h : c.toNat < 0x80) : (ascii c).toNat = c.toNat :=
  UInt8.toNat_ofNat_of_lt' (by rw [UInt8.size]; omega)

/-- The bytes of a character that is not escaped stand for themselves. -/
theorem isPlain_of_mem_utf8EncodeChar {c : Char} (hquote : c ≠ '"') (hslash : c ≠ '\\')
    (hcontrol : ¬c.toNat < 0x20) : ∀ b ∈ String.utf8EncodeChar c, IsPlain b := by
  intro b hb
  by_cases hascii : c.toNat < 0x80
  · -- Different characters of ASCII are different bytes.
    rw [Text.utf8EncodeChar_of_lt hascii, List.mem_singleton] at hb
    subst hb
    have hne : ∀ d : Char, d.toNat < 0x80 → c ≠ d → ascii c ≠ ascii d := by
      intro d hd hcd heq
      rw [← UInt8.toNat_inj, toNat_ascii hascii, toNat_ascii hd] at heq
      exact hcd (Char.toNat_inj.mp heq)
    refine ⟨hne '"' (by decide) hquote, hne '\\' (by decide) hslash, ?_⟩
    rwa [UInt8.lt_iff_toNat_lt, toNat_ascii hascii]
  · -- All bytes of other characters are above those of ASCII.
    have hge := Text.le_of_mem_utf8EncodeChar (by omega) hb
    rw [UInt8.le_iff_toNat_le] at hge
    have hge : 0x80 ≤ b.toNat := hge
    refine ⟨?_, ?_, ?_⟩
    · rintro rfl
      exact absurd hge (by decide)
    · rintro rfl
      exact absurd hge (by decide)
    · rw [UInt8.lt_iff_toNat_lt]
      have : (0x20 : UInt8).toNat = 0x20 := rfl
      omega

theorem escaped_letter {c : Char} {b : UInt8}
    (h : isEscapeLetter b ∧ b ≠ ascii 'u' ∧ [escapedByte b] = String.utf8EncodeChar c) :
    Escaped c [ascii '\\', b] :=
  .letter b h.1 h.2.1 h.2.2

/-- Every character is written in one of the three ways. -/
theorem escaped_char (c : Char) : Escaped c (bytesOf (Writer.char c)) := by
  rw [Writer.char]
  split
  · next h => subst h; exact escaped_letter (b := ascii '"') (by decide)
  split
  · next h => subst h; exact escaped_letter (b := ascii '\\') (by decide)
  split
  · next h => subst h; exact escaped_letter (b := ascii 'b') (by decide)
  split
  · next h => subst h; exact escaped_letter (b := ascii 'f') (by decide)
  split
  · next h => subst h; exact escaped_letter (b := ascii 'n') (by decide)
  split
  · next h => subst h; exact escaped_letter (b := ascii 'r') (by decide)
  split
  · next h => subst h; exact escaped_letter (b := ascii 't') (by decide)
  split
  · next h =>
    have := escaped_control ⟨c.toNat, h⟩
    rwa [Char.ofNat_toNat] at this
  · next hquote hslash _ _ _ _ _ hcontrol =>
    have hbytes : bytesOf [c] = String.utf8EncodeChar c := List.flatMap_singleton _ _
    rw [hbytes]
    exact .plain _ (isPlain_of_mem_utf8EncodeChar hquote hslash hcontrol) rfl

theorem Escaped.takeString {c : Char} {bs : List UInt8} (h : Escaped c bs) (more : List UInt8) :
    Json.takeString (bs ++ more) = (Json.takeString more).map fun p => (bs ++ p.1, p.2) := by
  cases h with
  | letter b hletter _ _ =>
    simp only [List.cons_append, List.nil_append]
    rw [Json.takeString.eq_def]
    dsimp only
    rw [if_neg (by decide), if_neg (by decide), if_pos rfl, if_pos hletter]
  | digits h1 h2 h3 h4 hhex _ _ =>
    -- The letter after the backslash is no escape letter of its own.
    simp only [List.mem_cons, List.not_mem_nil, or_false, forall_eq_or_imp, forall_eq] at hhex
    obtain ⟨hhex1, hhex2, hhex3, hhex4⟩ := hhex
    simp only [List.cons_append, List.nil_append]
    rw [Json.takeString.eq_def]
    dsimp only
    rw [if_neg (by decide), if_neg (by decide), if_pos rfl, if_neg (by decide), if_pos rfl,
      hhex1, hhex2, hhex3, hhex4]
    rfl
  | plain bs hplain _ => exact takeString_plain hplain more

theorem Escaped.unescape {c : Char} {bs : List UInt8} (h : Escaped c bs) (more : List UInt8) :
    Json.unescape (bs ++ more) = (Json.unescape more).map (String.utf8EncodeChar c ++ ·) := by
  cases h with
  | letter b _ hu hbyte =>
    simp only [List.cons_append, List.nil_append]
    rw [Json.unescape.eq_def]
    dsimp only
    rw [if_pos rfl, if_neg hu, ← hbyte]
    rfl
  | digits h1 h2 h3 h4 _ hcode hlow =>
    simp only [List.cons_append, List.nil_append]
    rw [Json.unescape.eq_def]
    dsimp only
    rw [if_pos rfl, if_pos rfl, hcode, if_neg (by simp; omega), if_neg (by simp; omega),
      codePointBytes, Char.ofNat_toNat]
  | plain bs hplain hbytes => rw [unescape_plain hplain, hbytes]

/-- A string is taken off up to the quote that closes it. -/
theorem takeString_lexeme (t : String) (rest : List UInt8) :
    takeString (lexeme t ++ ascii '"' :: rest) = some (lexeme t, rest) := by
  have h : ∀ cs : List Char, takeString (bytesOf (cs.flatMap Writer.char) ++ ascii '"' :: rest) =
      some (bytesOf (cs.flatMap Writer.char), rest) := by
    intro cs
    induction cs with
    | nil =>
      simp only [List.flatMap_nil, bytesOf_nil, List.nil_append]
      rw [takeString.eq_def]
      exact if_pos rfl
    | cons c cs ih =>
      rw [List.flatMap_cons, bytesOf_append, List.append_assoc, (escaped_char c).takeString, ih]
      rfl
  exact h t.toList

/-- What is written for a text stands for it. -/
theorem textOf?_lexeme (t : String) : textOf? (lexeme t) = some t := by
  have h : ∀ cs : List Char, unescape (bytesOf (cs.flatMap Writer.char)) = some (bytesOf cs) := by
    intro cs
    induction cs with
    | nil => rfl
    | cons c cs ih =>
      rw [List.flatMap_cons, bytesOf_append, (escaped_char c).unescape, ih]
      rfl
  rw [textOf?, lexeme, h, Option.bind_some, bytesOf, ← Text.utf8_eq_flatMap, Text.ofUtf8?_utf8]

/-! ## Values -/

/-- What may follow a value: a comma, the end of a container, or nothing. -/
def Ends (rest : List UInt8) : Prop :=
  ∀ b ∈ rest.head?, b = ascii ',' ∨ b = ascii ']' ∨ b = ascii '\x7d'

/-- Bytes are parsed as a value, by any fuel that they do not exceed, whatever follows
them. -/
structure Shows (bytes : List UInt8) (j : Json) : Prop where
  /-- They do not start with a blank, nor like the end of an array. -/
  starts : ∃ b more, bytes = b :: more ∧ isBlank b = false ∧ b ≠ ascii ']'
  parses : ∀ fuel rest, bytes.length ≤ fuel → Ends rest →
    parseValue fuel (bytes ++ rest) = some (j, rest)

theorem ends_nil : Ends [] := by
  intro b hb
  cases hb

theorem ends_cons {b : UInt8} (h : b = ascii ',' ∨ b = ascii ']' ∨ b = ascii '\x7d')
    (rest : List UInt8) : Ends (b :: rest) := by
  intro c hc
  cases hc
  exact h

theorem skipBlanks_cons {b : UInt8} (h : isBlank b = false) (bytes : List UInt8) :
    skipBlanks (b :: bytes) = b :: bytes :=
  List.dropWhile_cons_of_neg (by simp [h])

theorem bytesOf_string (t : String) :
    bytesOf (Writer.string t) = ascii '"' :: (lexeme t ++ [ascii '"']) := by
  rw [Writer.string, bytesOf_cons (by decide), bytesOf_append]
  rfl

/-! ## Steps of the parser -/

section Steps

variable {fuel : Nat} {bytes rest : List UInt8} {item : Json}

theorem parseValue_string (fuel : Nat) (rest : List UInt8) :
    parseValue (fuel + 1) (ascii '"' :: rest) =
      (takeString rest).map fun p => (.string p.1, p.2) := by
  rw [parseValue]
  rfl

theorem parseValue_bracket (fuel : Nat) (rest : List UInt8) :
    parseValue (fuel + 1) (ascii '[' :: rest) = match skipBlanks rest with
      | [] => none
      | c :: after =>
        if c = ascii ']' then some (.array [], after)
        else (parseItems fuel (c :: after)).map fun p => (.array p.1, p.2) := by
  rw [parseValue]
  rfl

theorem parseValue_array {b : UInt8} (hblank : isBlank b = false) (hend : b ≠ ascii ']') :
    parseValue (fuel + 1) (ascii '[' :: b :: rest) =
      (parseItems fuel (b :: rest)).map fun p => (.array p.1, p.2) := by
  rw [parseValue_bracket, skipBlanks_cons hblank]
  exact if_neg hend

theorem parseValue_object (fuel : Nat) (rest : List UInt8) :
    parseValue (fuel + 1) (ascii '\x7b' :: ascii '"' :: rest) =
      (parseMembers fuel (ascii '"' :: rest)).map fun p => (.object p.1, p.2) := by
  rw [parseValue]
  rfl

theorem parseItems_last (h : parseValue fuel bytes = some (item, ascii ']' :: rest)) :
    parseItems (fuel + 1) bytes = some ([item], rest) := by
  rw [parseItems, h]
  rfl

theorem parseItems_more (h : parseValue fuel bytes = some (item, ascii ',' :: rest)) :
    parseItems (fuel + 1) bytes = (parseItems fuel rest).map fun p => (item :: p.1, p.2) := by
  rw [parseItems, h]
  rfl

/-- What is written for a member, as bytes. -/
theorem bytesOf_member (key : String) (text : List Char) :
    bytesOf (Writer.string key ++ ':' :: text) =
      ascii '"' :: (lexeme key ++ ascii '"' :: ascii ':' :: bytesOf text) := by
  rw [bytesOf_append, bytesOf_string, bytesOf_cons (by decide)]
  simp only [List.cons_append, List.append_assoc, List.nil_append]

/-- After its key and a colon, a member is parsed like an item. -/
theorem parseMembers_key (fuel : Nat) (key : String) (bytes : List UInt8) :
    parseMembers (fuel + 1) (ascii '"' :: (lexeme key ++ ascii '"' :: ascii ':' :: bytes)) =
      match parseValue fuel bytes with
      | none => none
      | some (value, rest) =>
        match skipBlanks rest with
        | [] => none
        | d :: rest =>
          if d = ascii '\x7d' then some ([(lexeme key, value)], rest)
          else if d = ascii ',' then
            (parseMembers fuel rest).map fun (ms, rest) => ((lexeme key, value) :: ms, rest)
          else none := by
  rw [parseMembers, skipBlanks_cons (by decide)]
  dsimp only
  rw [if_pos rfl, takeString_lexeme]
  rfl

theorem parseMembers_last (key : String)
    (h : parseValue fuel bytes = some (item, ascii '\x7d' :: rest)) :
    parseMembers (fuel + 1) (ascii '"' :: (lexeme key ++ ascii '"' :: ascii ':' :: bytes)) =
      some ([(lexeme key, item)], rest) := by
  rw [parseMembers_key, h]
  rfl

theorem parseMembers_more (key : String)
    (h : parseValue fuel bytes = some (item, ascii ',' :: rest)) :
    parseMembers (fuel + 1) (ascii '"' :: (lexeme key ++ ascii '"' :: ascii ':' :: bytes)) =
      (parseMembers fuel rest).map fun p => ((lexeme key, item) :: p.1, p.2) := by
  rw [parseMembers_key, h]
  rfl

end Steps

theorem shows_string (t : String) : Shows (bytesOf (Writer.string t)) (.string (lexeme t)) := by
  rw [bytesOf_string]
  refine ⟨⟨_, _, rfl, by decide, by decide⟩, fun fuel rest hfuel _ => ?_⟩
  obtain ⟨fuel, rfl⟩ : ∃ n, fuel = n + 1 := ⟨fuel - 1, by simp at hfuel; omega⟩
  rw [List.cons_append, List.append_assoc, List.singleton_append, parseValue_string,
    takeString_lexeme]
  rfl

/-! ## Containers -/

theorem commas_singleton (a : List Char) : Writer.commas [a] = a := by
  simp [Writer.commas, List.intercalate]

theorem commas_cons_cons (a b : List Char) (l : List (List Char)) :
    Writer.commas (a :: b :: l) = a ++ ',' :: Writer.commas (b :: l) := by
  simp [Writer.commas, List.intercalate]

/-- Parts between commas start with the first one. -/
theorem exists_commas_cons (a : List Char) (l : List (List Char)) :
    ∃ more, Writer.commas (a :: l) = a ++ more := by
  cases l with
  | nil => exact ⟨[], by rw [commas_singleton, List.append_nil]⟩
  | cons b l => exact ⟨_, commas_cons_cons a b l⟩

theorem bytesOf_commas_cons_cons (a b : List Char) (l : List (List Char)) :
    bytesOf (Writer.commas (a :: b :: l)) =
      bytesOf a ++ ascii ',' :: bytesOf (Writer.commas (b :: l)) := by
  rw [commas_cons_cons, bytesOf_append, bytesOf_cons (by decide)]

section Containers

variable {α : Type} (text : α → List Char) (json : α → Json)

/-- Items between commas are parsed up to the bracket that closes the array. Every item
takes one unit of fuel, and there is at least one byte of it. -/
theorem parseItems_commas (a : α) (l : List α)
    (h : ∀ b ∈ a :: l, Shows (bytesOf (text b)) (json b)) (fuel : Nat) (rest : List UInt8)
    (hfuel : (bytesOf (Writer.commas ((a :: l).map text))).length < fuel) :
    parseItems fuel (bytesOf (Writer.commas ((a :: l).map text)) ++ ascii ']' :: rest) =
      some ((a :: l).map json, rest) := by
  induction l generalizing a fuel with
  | nil =>
    obtain ⟨fuel, rfl⟩ : ∃ n, fuel = n + 1 := ⟨fuel - 1, by omega⟩
    rw [List.map_singleton, commas_singleton] at hfuel ⊢
    have hends : Ends (ascii ']' :: rest) := ends_cons (.inr (.inl rfl)) rest
    exact parseItems_last ((h a List.mem_cons_self).parses fuel _ (by omega) hends)
  | cons b l ih =>
    obtain ⟨fuel, rfl⟩ : ∃ n, fuel = n + 1 := ⟨fuel - 1, by omega⟩
    rw [List.map_cons, List.map_cons, bytesOf_commas_cons_cons, ← List.map_cons,
      List.length_append, List.length_cons] at hfuel
    have hrest := ih b (fun c hc => h c (List.mem_cons_of_mem _ hc)) fuel (by omega)
    have hends := ends_cons (.inl rfl)
      (bytesOf (Writer.commas ((b :: l).map text)) ++ ascii ']' :: rest)
    have hfirst := (h a List.mem_cons_self).parses fuel _ (by omega) hends
    rw [List.map_cons, List.map_cons, bytesOf_commas_cons_cons, ← List.map_cons,
      List.append_assoc, List.cons_append, parseItems_more hfirst, hrest]
    rfl

/-- An array shows the values of its items. -/
theorem shows_array (l : List α) (h : ∀ a ∈ l, Shows (bytesOf (text a)) (json a)) :
    Shows (bytesOf (Writer.array (l.map text))) (.array (l.map json)) := by
  have hbytes : bytesOf (Writer.array (l.map text)) =
      ascii '[' :: (bytesOf (Writer.commas (l.map text)) ++ [ascii ']']) := by
    rw [Writer.array, bytesOf_cons (by decide), bytesOf_append]
    rfl
  rw [hbytes]
  refine ⟨⟨_, _, rfl, by decide, by decide⟩, fun fuel rest hfuel _ => ?_⟩
  rw [List.length_cons, List.length_append, List.length_singleton] at hfuel
  obtain ⟨fuel, rfl⟩ : ∃ n, fuel = n + 1 := ⟨fuel - 1, by omega⟩
  rw [List.cons_append, List.append_assoc, List.singleton_append]
  cases l with
  | nil =>
    rw [parseValue]
    rfl
  | cons a l =>
    have hitems := parseItems_commas text json a l h fuel rest (by omega)
    -- The first item does not look like the end of an empty array.
    obtain ⟨b, more, hb, hblank, hend⟩ := (h a List.mem_cons_self).starts
    obtain ⟨texts, htexts⟩ := exists_commas_cons (text a) (l.map text)
    rw [List.map_cons, htexts, bytesOf_append, hb, List.cons_append, List.cons_append] at hitems ⊢
    rw [parseValue_array hblank hend, hitems]
    rfl

variable (key : α → String)

/-- Members between commas are parsed up to the brace that closes the object. -/
theorem parseMembers_members (a : α) (l : List α)
    (h : ∀ b ∈ a :: l, Shows (bytesOf (text b)) (json b)) (fuel : Nat) (rest : List UInt8)
    (hfuel : (bytesOf (Writer.members ((a :: l).map fun b => (key b, text b)))).length < fuel) :
    parseMembers fuel
        (bytesOf (Writer.members ((a :: l).map fun b => (key b, text b))) ++ ascii '\x7d' :: rest) =
      some ((a :: l).map fun b => (lexeme (key b), json b), rest) := by
  simp only [Writer.members, List.map_map] at hfuel ⊢
  induction l generalizing a fuel with
  | nil =>
    obtain ⟨fuel, rfl⟩ : ∃ n, fuel = n + 1 := ⟨fuel - 1, by omega⟩
    simp only [List.map_singleton, commas_singleton, Function.comp_apply, bytesOf_member,
      List.length_cons, List.length_append] at hfuel ⊢
    have hends : Ends (ascii '\x7d' :: rest) := ends_cons (.inr (.inr rfl)) rest
    have hvalue := (h a List.mem_cons_self).parses fuel _ (by omega) hends
    rw [List.cons_append, List.append_assoc, List.cons_append, List.cons_append]
    exact parseMembers_last (key a) hvalue
  | cons b l ih =>
    obtain ⟨fuel, rfl⟩ : ∃ n, fuel = n + 1 := ⟨fuel - 1, by omega⟩
    simp only [List.map_cons, Function.comp_apply, bytesOf_commas_cons_cons, bytesOf_member,
      List.length_cons, List.length_append] at hfuel ih ⊢
    have hrest := ih b (fun c hc => h c (List.mem_cons_of_mem _ hc)) fuel (by omega)
    have hvalue : ∀ more, parseValue fuel (bytesOf (text a) ++ ascii ',' :: more) =
        some (json a, ascii ',' :: more) := fun more =>
      (h a List.mem_cons_self).parses fuel _ (by omega) (ends_cons (.inl rfl) more)
    simp only [List.cons_append, List.append_assoc]
    rw [parseMembers_more (key a) (hvalue _), hrest]
    rfl

/-- An object shows the values of its members under the lexemes of their keys. -/
theorem shows_object (l : List α) (h : ∀ a ∈ l, Shows (bytesOf (text a)) (json a)) :
    Shows (bytesOf (Writer.object (l.map fun a => (key a, text a))))
      (.object (l.map fun a => (lexeme (key a), json a))) := by
  have hbytes : bytesOf (Writer.object (l.map fun a => (key a, text a))) =
      ascii '\x7b' ::
        (bytesOf (Writer.members (l.map fun a => (key a, text a))) ++ [ascii '\x7d']) := by
    rw [Writer.object, bytesOf_cons (by decide), bytesOf_append]
    rfl
  rw [hbytes]
  refine ⟨⟨_, _, rfl, by decide, by decide⟩, fun fuel rest hfuel _ => ?_⟩
  rw [List.length_cons, List.length_append, List.length_singleton] at hfuel
  obtain ⟨fuel, rfl⟩ : ∃ n, fuel = n + 1 := ⟨fuel - 1, by omega⟩
  rw [List.cons_append, List.append_assoc, List.singleton_append]
  cases l with
  | nil =>
    rw [parseValue]
    rfl
  | cons a l =>
    have hmembers := parseMembers_members text json key a l h fuel rest (by omega)
    -- The first member starts with the quote of its key.
    obtain ⟨texts, htexts⟩ := exists_commas_cons (Writer.string (key a) ++ ':' :: text a)
      (l.map fun a => Writer.string (key a) ++ ':' :: text a)
    have hstart : Writer.members ((a :: l).map fun a => (key a, text a)) =
        Writer.string (key a) ++ ':' :: text a ++ texts := by
      rw [Writer.members, List.map_map, ← htexts]
      rfl
    rw [hstart, bytesOf_append, bytesOf_member, List.cons_append, List.cons_append] at hmembers ⊢
    rw [parseValue_object, hmembers]
    rfl

end Containers

/-- A text is parsed to its end. -/
theorem parsePrefix_of_shows {bytes : List UInt8} {j : Json} (h : Shows bytes j) :
    parsePrefix bytes = some (j, []) := by
  have hvalue := h.parses (bytes.length + 1) [] (by omega) ends_nil
  rwa [List.append_nil] at hvalue

/-- A whole text is parsed as the value that it shows. -/
theorem parse_of_shows {bytes : List UInt8} {j : Json} (h : Shows bytes j) :
    parse bytes = some j := by
  rw [parse, parsePrefix_of_shows h]
  rfl

end BoostedTrees.Json
